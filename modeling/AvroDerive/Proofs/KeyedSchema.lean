import AvroDerive.Proofs.InnerSpot
import AvroDerive.Proofs.ParedSchema

/-! # Distinct keys

The keys of an object that is read from a text are distinct. So are those of every object that merging
and composition make, and of every node that is converted. -/
namespace AvroDerive

open Json Schema

namespace Json

section Object

variable {o : Object}

theorem keyed_object_nil : KeyedObject [] := ⟨List.nodup_nil, by simp⟩

theorem KeyedObject.json (h : KeyedObject o) : (Json.obj o).keyed = true := keyed_obj.mpr h

theorem KeyedObject.insert (h : KeyedObject o) {key : String} {v : Json} (hv : v.keyed = true) :
    KeyedObject (Object.insert o key v) := by
  refine ⟨Object.nodup_keys_insert h.1 key v, fun m hm => ?_⟩
  rcases Object.mem_insert hm with rfl | hm
  · exact hv
  · exact h.2 m hm

theorem KeyedObject.erase (h : KeyedObject o) (key : String) : KeyedObject (Object.erase o key) :=
  ⟨(Object.erase_spec h.1 key).1, fun m hm => h.2 m (Object.mem_erase hm)⟩

theorem KeyedObject.eraseAll (h : KeyedObject o) (keys : List String) :
    KeyedObject (eraseAll o keys) := by
  induction keys generalizing o with
  | nil => exact h
  | cons key keys ih => exact ih (h.erase key)

/-- Members that are inserted one after another need no distinct keys. -/
theorem KeyedObject.insert_all (h : KeyedObject o) {members : List (String × Json)}
    (hm : ∀ m ∈ members, m.2.keyed = true) :
    KeyedObject (members.foldl (fun o m => Object.insert o m.1 m.2) o) := by
  induction members generalizing o with
  | nil => exact h
  | cons m members ih =>
    rw [List.forall_mem_cons] at hm
    exact ih (h.insert hm.1) hm.2

theorem keyed_child {j child : Json} {key : String} (hj : j.keyed = true)
    (h : j.child? key = some child) : child.keyed = true := by
  cases j with
  | obj members => exact (keyed_obj.mp hj).get h
  | arr items =>
    obtain ⟨i, -, hi⟩ := Option.bind_eq_some_iff.mp h
    exact keyed_arr.mp hj _ (List.mem_of_getElem? hi)
  | _ => simp [child?] at h

theorem keyed_pointer {j value : Json} {pointer : String} (hj : j.keyed = true)
    (h : j.pointer? pointer = some value) : value.keyed = true :=
  pointer_inherits (fun _ _ _ => keyed_child) hj h

theorem keyed_local {document fragment : Json} {reference : String} (hd : document.keyed = true)
    (h : localFragment? document reference = some fragment) : fragment.keyed = true := by
  obtain ⟨part, -, hp⟩ := Option.bind_eq_some_iff.mp h
  exact keyed_pointer hd hp

end Object

namespace Parser

/-- What is read with the fuel has distinct keys. -/
structure ReadsKeyed (fuel : Nat) : Prop where
  value : ∀ {depth cs j rest}, value? fuel depth cs = some (j, rest) → j.keyed = true
  items : ∀ {depth cs items rest}, items? fuel depth cs = some (items, rest) →
    ∀ item ∈ items, item.keyed = true
  members : ∀ {depth cs members rest}, members? fuel depth cs = some (members, rest) →
    ∀ m ∈ members, m.2.keyed = true

section Step

variable {fuel depth : Nat} {cs rest : List Char}

theorem value_step (h : ReadsKeyed fuel) {j : Json}
    (hj : value? (fuel + 1) depth cs = some (j, rest)) : j.keyed = true := by
  rw [value?] at hj
  split at hj
  · obtain ⟨rfl, -⟩ := Prod.mk.inj (Option.some.inj hj)
    rfl
  · obtain ⟨rfl, -⟩ := Prod.mk.inj (Option.some.inj hj)
    rfl
  · obtain ⟨rfl, -⟩ := Prod.mk.inj (Option.some.inj hj)
    rfl
  · obtain ⟨r, -, hr⟩ := Option.map_eq_some_iff.mp hj
    obtain ⟨rfl, -⟩ := Prod.mk.inj hr
    rfl
  · split at hj
    · simp at hj
    · split at hj
      · obtain ⟨rfl, -⟩ := Prod.mk.inj (Option.some.inj hj)
        rfl
      · obtain ⟨r, hread, hr⟩ := Option.map_eq_some_iff.mp hj
        obtain ⟨rfl, -⟩ := Prod.mk.inj hr
        exact keyed_arr.mpr (h.items hread)
  · split at hj
    · simp at hj
    · split at hj
      · obtain ⟨rfl, -⟩ := Prod.mk.inj (Option.some.inj hj)
        exact keyed_object_nil.json
      · obtain ⟨r, hread, hr⟩ := Option.map_eq_some_iff.mp hj
        obtain ⟨rfl, -⟩ := Prod.mk.inj hr
        exact (keyed_object_nil.insert_all (h.members hread)).json
  · obtain ⟨r, -, hr⟩ := Option.map_eq_some_iff.mp hj
    obtain ⟨rfl, -⟩ := Prod.mk.inj hr
    rfl

theorem items_step (h : ReadsKeyed fuel) {items : List Json}
    (hi : items? (fuel + 1) depth cs = some (items, rest)) : ∀ item ∈ items, item.keyed = true := by
  rw [items?] at hi
  obtain ⟨first, hfirst, hi⟩ := Option.bind_eq_some_iff.mp hi
  have keyed := h.value hfirst
  dsimp only at hi
  split at hi
  · obtain ⟨rfl, -⟩ := Prod.mk.inj (Option.some.inj hi)
    rwa [List.forall_mem_singleton]
  · obtain ⟨more, hmore, hi⟩ := Option.bind_eq_some_iff.mp hi
    obtain ⟨rfl, -⟩ := Prod.mk.inj (Option.some.inj hi)
    rw [List.forall_mem_cons]
    exact ⟨keyed, h.items hmore⟩
  · simp at hi

theorem members_step (h : ReadsKeyed fuel) {members : List (String × Json)}
    (hm : members? (fuel + 1) depth cs = some (members, rest)) :
    ∀ m ∈ members, m.2.keyed = true := by
  rw [members?] at hm
  split at hm
  · obtain ⟨key, -, hm⟩ := Option.bind_eq_some_iff.mp hm
    dsimp only at hm
    split at hm
    · obtain ⟨first, hfirst, hm⟩ := Option.bind_eq_some_iff.mp hm
      have keyed := h.value hfirst
      split at hm
      · obtain ⟨rfl, -⟩ := Prod.mk.inj (Option.some.inj hm)
        rwa [List.forall_mem_singleton]
      · obtain ⟨more, hmore, hm⟩ := Option.bind_eq_some_iff.mp hm
        obtain ⟨rfl, -⟩ := Prod.mk.inj (Option.some.inj hm)
        rw [List.forall_mem_cons]
        exact ⟨keyed, h.members hmore⟩
      · simp at hm
    · simp at hm
  · simp at hm

theorem reads_keyed (fuel : Nat) : ReadsKeyed fuel := by
  induction fuel with
  | zero => constructor <;> simp [value?, items?, members?]
  | succ fuel ih => exact ⟨value_step ih, items_step ih, members_step ih⟩

end Step

end Parser

theorem parse_keyed {text : String} {j : Json} (h : parse? text = some j) : j.keyed = true := by
  unfold parse? at h
  dsimp only at h
  split at h
  · next value rest hread =>
    split at h
    · obtain rfl := Option.some.inj h
      exact (Parser.reads_keyed _).value hread
    · simp at h
  · simp at h

end Json

namespace Schema

section Merge

variable {target source : Object}

theorem listed_keyed {v : Json} (h : v.keyed = true) : ∀ item ∈ listed v, item.keyed = true := by
  cases v with
  | arr items => exact keyed_arr.mp h
  | _ => simpa only [listed, List.forall_mem_singleton] using h

theorem nodup_merge_members (ht : (Object.keys target).Nodup) (source : List (String × Json)) :
    (Object.keys (mergeMembers target source).1).Nodup := by
  induction source generalizing target with
  | nil =>
    rw [mergeMembers]
    exact ht
  | cons m source ih =>
    obtain ⟨key, value⟩ := m
    rw [mergeMembers]
    split
    · exact ih (Object.nodup_keys_insert ht _ _)
    · split
      · exact ih ht
      · exact ih (Object.nodup_keys_insert ht _ _)

theorem merge_value_keyed (key : String) {existing : Json} (he : existing.keyed = true)
    (value : Json) (hv : value.keyed = true) : (mergeValue key existing value).1.keyed = true := by
  rcases merge_value_cases key existing value with h | ⟨target, source, rfl, hsource, h⟩ | h
  · rwa [h]
  · rw [h]
    rw [hsource] at hv
    obtain ⟨htarget, htvalues⟩ := keyed_obj.mp he
    have hsvalues := (keyed_obj.mp hv).2
    refine keyed_obj.mpr ⟨nodup_merge_members htarget source, ?_⟩
    refine merge_members_all (m := fun _ v => v.keyed = true) source ?_ htvalues hsvalues
    intro e hm existing hx
    have smaller : sizeOf e.2 < sizeOf value := by
      have := List.sizeOf_lt_of_mem hm
      cases e
      simp only [hsource, Json.obj.sizeOf_spec, Prod.mk.sizeOf_spec] at this ⊢
      omega
    exact merge_value_keyed e.1 hx e.2 (hsvalues e hm)
  · rw [h, keyed_arr]
    intro item hi
    rcases mem_add_values hi with hi | hi
    · exact listed_keyed he item hi
    · exact listed_keyed hv item hi
termination_by sizeOf value

theorem merge_members_keyed (ht : KeyedObject target) (hs : ∀ m ∈ source, m.2.keyed = true) :
    KeyedObject (mergeMembers target source).1 :=
  ⟨nodup_merge_members ht.1 source, merge_members_all (m := fun _ v => v.keyed = true) source
    (fun e hm _ hx => merge_value_keyed e.1 hx e.2 (hs e hm)) ht.2 hs⟩

theorem keyed_objects {schemas : List Json} (h : ∀ j ∈ schemas, j.keyed = true) :
    ∀ o ∈ schemas.filterMap Json.asObject?, KeyedObject o := by
  intro o ho
  obtain ⟨j, hj, hobject⟩ := List.mem_filterMap.mp ho
  cases j with
  | obj members =>
    obtain rfl := Option.some.inj hobject
    exact keyed_obj.mp (h _ hj)
  | _ => simp [asObject?] at hobject

theorem merge_all_keyed {schemas : List Json} (h : ∀ j ∈ schemas, j.keyed = true) :
    KeyedObject (mergeAll schemas).1 :=
  fold_warned _ (fun _ ho source hs => merge_members_keyed ho (keyed_objects h source hs).2)
    keyed_object_nil []

theorem overlay_keyed {base : Object} {properties : Json} (hb : KeyedObject base)
    (hp : properties.keyed = true) : KeyedObject (overlayProperties base properties) := by
  have existing : ((Object.get? base "properties").getD (.obj [])).keyed = true := by
    cases hg : Object.get? base "properties" with
    | none => exact keyed_object_nil.json
    | some v => exact hb.get hg
  unfold overlayProperties
  refine hb.insert ?_
  split
  · next target source he =>
    rw [he] at existing
    exact ((keyed_obj.mp existing).insert_all (keyed_obj.mp hp).2).json
  · exact existing

theorem merge_alternative_keyed {base : Object} {members : List (String × Json)}
    (hb : KeyedObject base) (hm : ∀ m ∈ members, m.2.keyed = true) :
    KeyedObject (mergeAlternative base members).1 := by
  induction members generalizing base with
  | nil => exact hb
  | cons e members ih =>
    obtain ⟨key, value⟩ := e
    obtain ⟨hv, hrest⟩ := List.forall_mem_cons.mp hm
    simp only [mergeAlternative]
    split
    · exact ih hb hrest
    · split
      · exact ih (overlay_keyed hb hv) hrest
      · exact ih (merge_members_keyed hb (by simpa using hv)) hrest

theorem keyed_texts (texts : List String) : (Json.ofStrings texts).keyed = true := by
  rw [ofStrings, keyed_arr]
  intro item hi
  obtain ⟨text, -, rfl⟩ := List.mem_map.mp hi
  rfl

theorem merge_any_keyed {base : Object} {branches : List Json} (hb : KeyedObject base)
    (h : ∀ b ∈ branches, b.keyed = true) : KeyedObject (mergeAny base branches).1 := by
  have merged := fold_warned (f := mergeAlternative) (branches.filterMap Json.asObject?)
    (fun o ho source hs => merge_alternative_keyed ho (keyed_objects h source hs).2) hb []
  simp only [mergeAny]
  split
  · exact merged.erase _
  · exact merged.insert (keyed_texts _)

theorem merge_one_keyed {base : Object} {option : Json} (hb : KeyedObject base)
    (ho : option.keyed = true) : (mergeOne base option).keyed = true := by
  have typed : (if base.isEmpty then option
      else .obj (Object.insert base "type" option)).keyed = true := by
    split
    · exact ho
    · exact (hb.insert ho).json
  cases option with
  | obj members => exact (hb.insert_all (keyed_obj.mp ho).2).json
  | _ => exact typed

end Merge

section Expand

variable {document : Json} {o : Object}

theorem dereference_keyed (hd : document.keyed = true) {schema : Json} (hs : schema.keyed = true) :
    (dereference document schema).1.keyed = true := by
  cases schema with
  | obj o =>
    simp only [dereference]
    split
    · split
      · next fragment hf =>
        refine (merge_all_keyed ?_).json
        rw [List.forall_mem_cons, List.forall_mem_singleton]
        exact ⟨keyed_local hd hf, ((keyed_obj.mp hs).erase _).json⟩
      · exact hs
    · exact hs
  | _ => exact hs

theorem dereference_all_keyed (hd : document.keyed = true) {schemas : List Json}
    (hs : ∀ j ∈ schemas, j.keyed = true) :
    ∀ j ∈ (dereferenceAll document schemas).1, j.keyed = true := by
  intro j hj
  simp only [dereferenceAll, List.map_map, List.mem_map] at hj
  obtain ⟨schema, hm, rfl⟩ := hj
  exact dereference_keyed hd (hs schema hm)

theorem bases_keyed {base : Object} (hb : KeyedObject base) {candidates : List Json}
    (hc : ∀ c ∈ candidates, c.keyed = true) : ∀ b ∈ bases base candidates, KeyedObject b := by
  cases candidates with
  | nil => simpa [bases] using hb
  | cons c cs =>
    intro b hm
    obtain ⟨d, hd, rfl⟩ := List.mem_map.mp hm
    have hkeyed := hc d hd
    cases d with
    | obj o => exact keyed_obj.mp hkeyed
    | _ => exact ⟨List.nodup_singleton _, by simpa only [List.forall_mem_singleton] using hkeyed⟩

theorem keyed_list (ho : KeyedObject o) {key : String} {members : List Json}
    (h : Object.get? o key = some (.arr members)) : ∀ j ∈ members, j.keyed = true :=
  keyed_arr.mp (ho.get h)

theorem after_all_keyed (hd : document.keyed = true) {base : Object} (hb : KeyedObject base)
    (ho : KeyedObject o) : ∀ c ∈ (afterAll document base o).1, c.keyed = true := by
  unfold afterAll
  split
  · next members hg =>
    simp only [expandAll, List.forall_mem_singleton]
    refine (merge_all_keyed ?_).json
    rw [List.forall_mem_cons]
    exact ⟨hb.json, dereference_all_keyed hd (keyed_list ho hg)⟩
  · simp

theorem after_one_keyed {base : Object} (hb : KeyedObject base) (ho : KeyedObject o)
    {candidates : List Json} (hc : ∀ c ∈ candidates, c.keyed = true) :
    ∀ c ∈ afterOne base o candidates, c.keyed = true := by
  unfold afterOne
  split
  · next options hg =>
    intro c hm
    obtain ⟨option, hoption, hmap⟩ := List.mem_flatMap.mp hm
    obtain ⟨b, hbase, rfl⟩ := List.mem_map.mp hmap
    exact merge_one_keyed (bases_keyed hb hc b hbase) (keyed_list ho hg option hoption)
  · exact hc

theorem expand_keyed (hd : document.keyed = true) (ho : KeyedObject o) :
    ∀ c ∈ (expand document o).1, c.keyed = true := by
  have base : KeyedObject (eraseAll o compositionKeywords) := ho.eraseAll _
  have one := after_one_keyed base ho (after_all_keyed hd base ho)
  simp only [expand]
  split
  · next branches hg =>
    simp only [expandAny]
    intro c hm
    obtain ⟨merged, hmerged, rfl⟩ := List.mem_map.mp hm
    obtain ⟨b, hb, rfl⟩ := List.mem_map.mp hmerged
    exact (merge_any_keyed (bases_keyed base one b hb)
      (dereference_all_keyed hd (keyed_list ho hg))).json
  · exact one

end Expand

end Schema

namespace Convert

section Spots

variable {scope : Scope} {o : Object}

/-- The node of a spot has distinct keys. -/
def Spot.Keyed (q : Spot) : Prop := q.schema.keyed = true

theorem candidate_spots_keyed {candidates : List Json} (hc : ∀ c ∈ candidates, c.keyed = true) :
    ∀ q ∈ candidateSpots scope candidates, q.Keyed := by
  have alternatives : ∀ (candidates : List Json) (n : Nat), (∀ c ∈ candidates, c.keyed = true) →
      ∀ q ∈ alternativeSpots scope n candidates, q.Keyed := by
    intro candidates
    induction candidates with
    | nil => simp [alternativeSpots]
    | cons candidate candidates ih =>
      intro n hc
      rw [List.forall_mem_cons] at hc
      rw [alternativeSpots, List.forall_mem_cons]
      exact ⟨hc.1, ih (n + 1) hc.2⟩
  unfold candidateSpots
  split
  · rw [List.forall_mem_singleton]
    exact hc _ (List.mem_singleton_self _)
  · exact alternatives candidates 0 hc

theorem item_spots_keyed (ho : KeyedObject o) : ∀ q ∈ itemSpots scope o, q.Keyed := by
  unfold itemSpots
  split
  · next tuple hitems => exact List.forall_mem_map.mpr (keyed_list ho hitems)
  · next items _ hitems =>
    rw [List.forall_mem_singleton]
    exact ho.get hitems
  · simp

/-- The values of the members of a member that is an object. -/
theorem member_values_keyed (ho : KeyedObject o) (key : String) :
    ∀ m ∈ ((Object.get? o key).bind asObject?).getD [], m.2.keyed = true := by
  cases hg : Object.get? o key with
  | none => simp
  | some v =>
    cases v with
    | obj members => exact (keyed_obj.mp (ho.get hg)).2
    | _ => simp [asObject?]

theorem field_spots_keyed (ho : KeyedObject o) : ∀ q ∈ fieldSpots scope o, q.Keyed := by
  have single : ∀ key, ∀ v ∈ (Object.get? o key).toList, v.keyed = true :=
    fun key v hv => ho.get (Option.mem_toList.mp hv)
  simp only [fieldSpots, List.forall_mem_append, List.forall_mem_map]
  exact ⟨⟨⟨member_values_keyed ho "properties", single _⟩,
    member_values_keyed ho "patternProperties"⟩, single _⟩

theorem unconditional_keyed (ho : KeyedObject o) : KeyedObject (unconditional o) :=
  ⟨nodup_unconditional ho.1, fun m hm => ho.2 m (unconditional_members o m hm)⟩

theorem record_spots_keyed (name ns : String) (ho : KeyedObject o) :
    ∀ q ∈ recordSpots scope name ns o, q.Keyed := by
  unfold recordSpots
  split
  · rw [List.forall_mem_singleton]
    exact (unconditional_keyed ho).json
  · exact field_spots_keyed (unconditional_keyed ho)

theorem keyword_spots_keyed (ho : KeyedObject o) : ∀ q ∈ keywordSpots scope o, q.Keyed := by
  intro q hq
  rcases keyword_spots_cases hq with ⟨types, htype, hq⟩ | hq | hq
  · refine candidate_spots_keyed (fun c hc => ?_) q hq
    obtain ⟨type, hm, rfl⟩ := List.mem_map.mp hc
    exact (ho.insert (keyed_list ho htype type (List.mem_of_mem_filter hm))).json
  · exact item_spots_keyed ho q hq
  · exact record_spots_keyed _ _ ho q hq

theorem plain_object_keyed (ho : KeyedObject o) : KeyedObject (Spot.plainObject o) := by
  unfold Spot.plainObject withObjectType
  split
  · exact (unconditional_keyed ho).insert rfl
  · exact unconditional_keyed ho

theorem inner_keyed {p : Spot} (hd : p.scope.document.keyed = true) (hp : p.Keyed) :
    ∀ q ∈ p.inner, q.Keyed := by
  obtain ⟨schema, scope⟩ := p
  cases schema with
  | obj o =>
    have ho : KeyedObject o := keyed_obj.mp hp
    simp only [Spot.inner]
    split
    · exact candidate_spots_keyed (expand_keyed hd (unconditional_keyed ho))
    · split
      · simp
      · exact keyword_spots_keyed (plain_object_keyed ho)
  | _ => simp [Spot.inner]

theorem target_keyed {cfg : Setting} {p : Spot} {reference : String} {located : Located}
    (hp : p.Keyed) (hf : located.fragment.keyed = true) : (p.target cfg reference located).Keyed := by
  obtain ⟨schema, scope⟩ := p
  cases schema with
  | obj o =>
    have ho : KeyedObject o := keyed_obj.mp hp
    simp only [Spot.target, referenceSpot]
    split
    · exact hf
    · refine (merge_all_keyed ?_).json
      rw [List.forall_mem_cons, List.forall_mem_singleton]
      exact ⟨((plain_object_keyed ho).erase _).json, hf⟩
  | _ => exact hp

/-- Where a reference leads to, keys are distinct. -/
theorem leads_keyed {cfg : Setting} {reference : String} {scope : Scope} {located : Located}
    (hd : scope.document.keyed = true) (h : LeadsTo cfg reference scope located) :
    located.fragment.keyed = true ∧ located.document.keyed = true := by
  cases h with
  | inside hf => exact ⟨keyed_local hd hf, hd⟩
  | across _ _ hfetched hp =>
    obtain ⟨_, _, -, -, hparse⟩ := hfetched
    have keyed := parse_keyed hparse
    exact ⟨keyed_pointer keyed hp, keyed⟩

end Spots

end Convert

end AvroDerive
