import AvroDerive.Proofs.AlikeKeyword
import AvroDerive.Proofs.ConcurringRun

/-! # Records of alike schemas

The records of alike schemas at one place of two documents are converted in the same way, if the nodes
inside are that match. -/
namespace AvroDerive.Convert

open AvroType Json Schema

/-- Alike nodes at one place of two documents. -/
structure Spot.Matches (d' : Json) (q q' : Spot) : Prop where
  schema : Alike q.schema q'.schema
  scope : q'.scope = q.scope.onto d'

/-- The conversions of two nodes concur. -/
def NodesConcur (cfg : Setting) (node : NodeConverter) (q q' : Spot) : Prop :=
  BuildsConcur cfg (node q.schema q.scope) (node q'.schema q'.scope)

/-- The conversions of those nodes concur that match. -/
def SpotsConcur (cfg : Setting) (node : NodeConverter) (d' : Json) (qs qs' : List Spot) : Prop :=
  ∀ q ∈ qs, ∀ q' ∈ qs', q.Matches d' q' → NodesConcur cfg node q q'

/-- Members of one name with schemas that are the same without conditional keywords. -/
def Named (m m' : String × Json) : Prop := m.1 = m'.1 ∧ m.2.pare .schema = m'.2.pare .schema

/-- The members of a member that is an object. -/
def membersAt (o : Object) (key : String) : Object := ((Object.get? o key).bind asObject?).getD []

section Members

variable {cfg : Setting} {node : NodeConverter} {d' : Json} {o o' : Object} {key : String}
  {qs qs' ps ps' : List Spot}

theorem SpotsConcur.mono (h : SpotsConcur cfg node d' qs qs') (hs : ps ⊆ qs) (hs' : ps' ⊆ qs') :
    SpotsConcur cfg node d' ps ps' :=
  fun q hq q' hq' => h q (hs hq) q' (hs' hq')

theorem SpotsConcur.append (h : SpotsConcur cfg node d' (qs ++ ps) (qs' ++ ps')) :
    SpotsConcur cfg node d' qs qs' ∧ SpotsConcur cfg node d' ps ps' :=
  ⟨h.mono (List.subset_append_left _ _) (List.subset_append_left _ _),
    h.mono (List.subset_append_right _ _) (List.subset_append_right _ _)⟩

theorem named_pare {p p' : Object} (h : pareMembers .names p = pareMembers .names p') :
    List.Forall₂ Named p p' := by
  have pared : List.Forall₂ (· = ·) (pareMembers .names p) (pareMembers .names p') := by
    rw [h]
    exact List.forall₂_refl _
  rw [names_pare, names_pare, List.forall₂_map_left_iff, List.forall₂_map_right_iff] at pared
  exact pared.imp fun m m' hm => Prod.mk.inj hm

theorem named_members (h : AlikeObject o o') (hkey : key ∉ conditionalKeywords)
    (hunder : Role.schema.under key = .names) :
    List.Forall₂ Named (membersAt o key) (membersAt o' key) := by
  unfold membersAt
  rcases h.values hkey with ⟨hv, hv'⟩ | ⟨v, v', hv, hv', hsame⟩
  · rw [hv, hv']
    exact .nil
  · rw [hunder] at hsame
    rw [hv, hv']
    rcases pare_eq_cases hsame with ⟨p, p', rfl, rfl, hp⟩ | ⟨items, items', rfl, rfl, -⟩ | ⟨rfl, hobject, -⟩
    · exact named_pare hp
    · exact .nil
    · cases v <;> first | exact .nil | simp [isObject] at hobject

end Members

section Record

variable {cfg : Setting} {node : NodeConverter} {scope : Scope} {d' : Json} {o o' : Object}
  {ps ps' : List (String × Json)}

theorem property_fields_concur (required : List String) (h : List.Forall₂ Named ps ps')
    (hc : SpotsConcur cfg node d' (ps.map fun m => ⟨m.2, scope.forField m.1⟩)
      (ps'.map fun m => ⟨m.2, (scope.onto d').forField m.1⟩)) :
    BuildsConcur cfg (propertyFields node required scope ps)
      (propertyFields node required (scope.onto d') ps') := by
  induction h with
  | nil => exact .pure []
  | @cons m m' ps ps' h _ ih =>
    obtain ⟨name, schema⟩ := m
    obtain ⟨name', schema'⟩ := m'
    obtain ⟨rfl, hsame⟩ : name = name' ∧ schema.pare .schema = schema'.pare .schema := h
    rw [List.map_cons, List.map_cons] at hc
    have first : BuildsConcur cfg (node schema (scope.forField name))
        (node schema' ((scope.onto d').forField name)) :=
      hc _ List.mem_cons_self _ List.mem_cons_self ⟨alike_of_pare hsame, rfl⟩
    have rest := ih (hc.mono (List.subset_cons_self _ _) (List.subset_cons_self _ _))
    have documented := documented_alike hsame
    rcases pare_eq_cases hsame with ⟨p, p', rfl, rfl, hp⟩ | ⟨items, items', rfl, rfl, -⟩ | ⟨rfl, hobject, -⟩
    · rw [propertyFields, propertyFields, documented]
      refine first.bind fun t => ?_
      exact rest.bind fun fields => .pure _
    · exact rest
    · cases schema with
      | bool b =>
        rw [propertyFields, propertyFields]
        refine first.bind fun t => ?_
        exact rest.bind fun fields => .pure _
      | obj o => simp [isObject] at hobject
      | _ => exact rest

theorem additional_field_concurs (name : String) (h : AlikeObject o o')
    (hc : SpotsConcur cfg node d'
      ((Object.get? o "additionalProperties").toList.map
        fun schema => ⟨schema, scope.forField (scope.record ++ "_extensions")⟩)
      ((Object.get? o' "additionalProperties").toList.map
        fun schema => ⟨schema, (scope.onto d').forField ((scope.onto d').record ++ "_extensions")⟩)) :
    BuildsConcur cfg (additionalField node name scope o)
      (additionalField node name (scope.onto d') o') := by
  have absent : ∀ {o : Object} {scope : Scope},
      (∀ p, Object.get? o "additionalProperties" ≠ some (.obj p)) →
      additionalField node name scope o = return [] := by
    intro o scope ho
    unfold additionalField
    split
    · next p hp => exact absurd hp (ho p)
    · rfl
  rcases h.values (show "additionalProperties" ∉ conditionalKeywords by decide) with
    ⟨hv, hv'⟩ | ⟨v, v', hv, hv', hsame⟩
  · rw [absent (by simp [hv]), absent (by simp [hv'])]
    exact .pure _
  · have alike : Alike v v' := alike_of_pare hsame
    rcases alike.cases with ⟨p, p', rfl, rfl, -⟩ | ⟨hobject, hobject', -⟩
    · rw [hv, hv'] at hc
      have within := hc _ (List.mem_singleton_self _) _ (List.mem_singleton_self _) ⟨alike, rfl⟩
      unfold additionalField
      rw [hv, hv']
      exact BuildsConcur.bind within fun t => .pure _
    · have other : ∀ {v : Json}, isObject v = false → ∀ p, some v ≠ some (.obj p) := by
        rintro v hv p ⟨⟩
        simp [isObject] at hv
      rw [absent (hv ▸ other hobject), absent (hv' ▸ other hobject')]
      exact .pure _

theorem pattern_fields_concur (h : List.Forall₂ Named ps ps')
    (hc : SpotsConcur cfg node d' (ps.map fun m => ⟨m.2, scope.forField (patternName m.1)⟩)
      (ps'.map fun m => ⟨m.2, (scope.onto d').forField (patternName m.1)⟩)) :
    BuildsConcur cfg (patternFields node scope ps) (patternFields node (scope.onto d') ps') := by
  induction h with
  | nil => exact .pure []
  | @cons m m' ps ps' h _ ih =>
    obtain ⟨name, schema⟩ := m
    obtain ⟨name', schema'⟩ := m'
    obtain ⟨rfl, hsame⟩ : name = name' ∧ schema.pare .schema = schema'.pare .schema := h
    rw [List.map_cons, List.map_cons] at hc
    have first : BuildsConcur cfg (node schema (scope.forField (patternName name)))
        (node schema' ((scope.onto d').forField (patternName name))) :=
      hc _ List.mem_cons_self _ List.mem_cons_self ⟨alike_of_pare hsame, rfl⟩
    have rest := ih (hc.mono (List.subset_cons_self _ _) (List.subset_cons_self _ _))
    rw [patternFields, patternFields]
    refine first.bind fun t => ?_
    exact rest.bind fun fields => .pure _

theorem values_field_concurs (h : AlikeObject o o')
    (hc : SpotsConcur cfg node d'
      ((Object.get? o "items").toList.map fun items => ⟨items, scope.forField "values"⟩)
      ((Object.get? o' "items").toList.map fun items => ⟨items, (scope.onto d').forField "values"⟩)) :
    BuildsConcur cfg (valuesField node scope o) (valuesField node (scope.onto d') o') := by
  unfold valuesField
  rw [h.type_includes, h.type_includes, h.contains (show "properties" ∉ conditionalKeywords by decide)]
  split
  · exact .pure _
  · split
    · rcases h.values (show "items" ∉ conditionalKeywords by decide) with
        ⟨hv, hv'⟩ | ⟨v, v', hv, hv', hsame⟩
      · rw [hv, hv']
        exact .pure _
      · rw [hv, hv'] at hc ⊢
        have within := hc _ (List.mem_singleton_self _) _ (List.mem_singleton_self _)
          ⟨alike_of_pare hsame, rfl⟩
        exact BuildsConcur.bind within fun t => .pure _
    · exact .pure _

theorem record_fields_eq (node : NodeConverter) (scope : Scope) (o : Object) :
    recordFields node scope o =
      if (membersAt o "properties").isEmpty then do
        let additional ← additionalField node "values" scope o
        let patterns ← patternFields node scope (patternsOf o)
        let fields := additional ++ patterns
        if fields.isEmpty then valuesField node scope o else return fields
      else do
        let fields ← propertyFields node (Schema.required o) scope (membersAt o "properties")
        let additional ← additionalField node "additionalProperties" scope o
        let patterns ← patternFields node scope (patternsOf o)
        return fields ++ additional ++ patterns := by
  unfold recordFields membersAt
  rcases (Object.get? o "properties").bind asObject? with _ | (_ | ⟨m, ms⟩)
  · rfl
  · rfl
  · rfl

theorem is_empty_named (h : List.Forall₂ Named ps ps') : ps.isEmpty = ps'.isEmpty := by
  cases h <;> rfl

theorem record_fields_concur (h : AlikeObject o o')
    (hc : SpotsConcur cfg node d' (fieldSpots scope o) (fieldSpots (scope.onto d') o')) :
    BuildsConcur cfg (recordFields node scope o) (recordFields node (scope.onto d') o') := by
  have properties : List.Forall₂ Named (membersAt o "properties") (membersAt o' "properties") :=
    named_members h (by decide) (by decide)
  have patterns : List.Forall₂ Named (patternsOf o) (patternsOf o') :=
    named_members h (show "patternProperties" ∉ conditionalKeywords by decide) (by decide)
  obtain ⟨hc, hitems⟩ := hc.append
  obtain ⟨hc, hpatterns⟩ := hc.append
  obtain ⟨hproperties, hadditional⟩ := hc.append
  rw [record_fields_eq, record_fields_eq, is_empty_named properties, required_alike h]
  split
  · refine (additional_field_concurs "values" h hadditional).bind fun additional => ?_
    refine (pattern_fields_concur patterns hpatterns).bind fun fields => ?_
    dsimp only
    split
    · exact values_field_concurs h hitems
    · exact .pure _
  · refine (property_fields_concur _ properties hproperties).bind fun fields => ?_
    refine (additional_field_concurs _ h hadditional).bind fun additional => ?_
    exact (pattern_fields_concur patterns hpatterns).bind fun patterns => .pure _

theorem build_record_concurs (name ns : String) (h : AlikeObject o o')
    (hc : SpotsConcur cfg node d' (fieldSpots (scope.forRecord name ns) o)
      (fieldSpots ((scope.onto d').forRecord name ns) o')) :
    Concur cfg (buildRecord node name ns o scope) (buildRecord node name ns o' (scope.onto d')) := by
  have listed : ∀ o : Object, (((Object.get? o "properties").bind asObject?).any (!·.isEmpty)) =
      !(membersAt o "properties").isEmpty := by
    intro o
    unfold membersAt
    cases (Object.get? o "properties").bind asObject? <;> rfl
  have properties : List.Forall₂ Named (membersAt o "properties") (membersAt o' "properties") :=
    named_members h (by decide) (by decide)
  unfold buildRecord
  rw [listed, listed, is_empty_named properties, h.description]
  refine (BuildsConcur.apart (record_fields_concur h hc)).bind fun r => ?_
  dsimp only
  split
  · exact .pure _
  · exact .pure _

theorem composition_record_concurs (name ns : String) (h : AlikeObject o o')
    (hc : NodesConcur cfg node ⟨.obj o, (scope.forRecord name ns).forField "value"⟩
      ⟨.obj o', ((scope.onto d').forRecord name ns).forField "value"⟩) :
    Concur cfg (compositionRecord node name ns o scope)
      (compositionRecord node name ns o' (scope.onto d')) := by
  unfold compositionRecord
  rw [h.description]
  exact (BuildsConcur.apart hc).bind fun r => .pure _

theorem object_record_concurs (name ns : String) (h : AlikeObject o o') (ho : KeyedObject o)
    (ho' : KeyedObject o') (hc : SpotsConcur cfg node d' (recordSpots scope name ns o)
      (recordSpots (scope.onto d') name ns o')) :
    Concur cfg (objectRecord node name ns o scope) (objectRecord node name ns o' (scope.onto d')) := by
  have plain := h.unconditional ho ho'
  unfold recordSpots at hc
  unfold objectRecord
  refine .without_conditionals ?_
  rw [← plain.composition] at hc ⊢
  split
  · next hcomposed =>
    rw [if_pos hcomposed, if_pos hcomposed] at hc
    refine (composition_record_concurs name ns plain ?_).bind fun t => .pure _
    exact hc _ (List.mem_singleton_self _) _ (List.mem_singleton_self _) ⟨plain, rfl⟩
  · next hcomposed =>
    rw [if_neg hcomposed, if_neg hcomposed] at hc
    refine .get fun s before => ?_
    dsimp only
    split
    · exact .pure _
    · exact .within _ (build_record_concurs _ ns plain hc)

end Record

end AvroDerive.Convert
