import AvroDerive.Proofs.NodeVisit

/-! # Records in parallel runs

Two conversions of a definition make the same records if they treat the nodes inside alike. Where the
states differ, in the registry and in the records around the definition, neither looks. -/
namespace AvroDerive

/-- The scope in another document and at another depth. -/
def Scope.moved (s : Scope) (document : Json) (depth : Nat) : Scope := { s with document, depth }

namespace Convert

open AvroType Json Schema

/-- A named type has the name of the definition, at its place, or a namespace beneath it. -/
def Apart (v : View) (home : Bool) (t : AvroType) : Prop :=
  ∀ name, t.name? = some name → (∃ ns, t.ns? = some ns ∧ v.ns.length < ns.length) ∨
    home = true ∧ name = v.name ∧ t.ns? = some v.ns

/-- What the comparison must make sure of for the conversion of a definition. -/
structure Faithful (c : Comparison) (v : View) : Prop where
  legal : Name.ofText v.name = v.name
  warned : ∀ {frames s s'} (ws : List Warning), c.related frames s s' →
    c.related frames { s with warnings := s.warnings ++ ws }
      { s' with warnings := s'.warnings ++ ws }
  begun : ∀ {frames s s'} {f : Frame}, f.name ∈ v.records → c.related frames s s' →
    c.related (f :: frames) { s with frames := f :: s.frames }
      { s' with frames := f :: s'.frames }
  ended : ∀ {frames s s'} {f : Frame}, c.related (f :: frames) s s' →
    c.related frames { s with frames := s.frames.tail } { s' with frames := s'.frames.tail }
  found : ∀ {frames s s' name}, c.related frames s s' → name ∈ v.records →
    Frames.find? s.frames name = Frames.find? frames name ∧
      Frames.find? s'.frames name = Frames.find? frames name
  unused : ∀ {frames s s' t name}, c.related frames s s' → Apart v v.named t →
    t.name? = some name → Registry.find? s.registry name t.ns? = none ∧
      Registry.find? s'.registry name t.ns? = none

/-- A scope is at a site. The second run is at the depth, in a document where the references of the
definition lead to the same. -/
structure AtSite (c : Comparison) (v : View) (document : Json) (site : Site) (scope : Scope)
    (depth : Nat) : Prop where
  record : scope.record = site.record
  field : scope.field = site.field
  baseUri : scope.baseUri = v.baseUri
  reads : c.reads scope.document
  same : ∀ reference, v.refers reference = true →
    localFragment? scope.document reference = localFragment? document reference
  bound : depth ≤ scope.depth
  exact : c.exact = true → depth = scope.depth
  beneath : v.ns.length ≤ scope.ns.length
  home : site.home = true →
    v.named = true ∧ site.record = v.name ∧ site.field = "" ∧ scope.ns = v.ns

/-- Two runs give a node the same type, named apart. -/
def NodePost (v : View) (home : Bool) (t u : Option AvroType) : Prop :=
  t = u ∧ ∀ t', t = some t' → Apart v home t'

/-- Two converters treat the nodes that fit alike. -/
def NodesAlike (c : Comparison) (v : View) (document : Json) (levels : Nat)
    (node node' : NodeConverter) : Prop :=
  ∀ frames site j scope depth, AtSite c v document site scope depth →
    (site.home = true → frames = []) → fitsWithin v document levels site j = true →
    BuildsAlike c frames (node j scope) (node' j (scope.moved document depth))
      fun t u s => NodePost v site.home t u ∧
        (isAlias j = true → ∀ name, t = some (.reference name) → c.known s name)

section Site

variable {c : Comparison} {v : View} {document : Json} {site : Site} {scope : Scope} {depth : Nat}

theorem AtSite.deeper (h : AtSite c v document site scope depth) :
    AtSite c v document site scope.deeper (depth + 1) where
  record := h.record
  field := h.field
  baseUri := h.baseUri
  reads := h.reads
  same := h.same
  bound := Nat.succ_le_succ h.bound
  exact he := congrArg Nat.succ (h.exact he)
  beneath := h.beneath
  home := h.home

/-- The items of an array are deeper, and no definitions. -/
theorem AtSite.away (h : AtSite c v document site scope depth) :
    AtSite c v document { site with home := false } scope depth where
  record := h.record
  field := h.field
  baseUri := h.baseUri
  reads := h.reads
  same := h.same
  bound := h.bound
  exact := h.exact
  beneath := h.beneath
  home := by simp

theorem AtSite.for_field (h : AtSite c v document site scope depth) (field : String) :
    AtSite c v document ⟨false, site.record, field⟩ (scope.forField field) (depth + 1) where
  record := h.record
  field := rfl
  baseUri := h.baseUri
  reads := h.reads
  same := h.same
  bound := Nat.succ_le_succ h.bound
  exact he := congrArg Nat.succ (h.exact he)
  beneath := h.beneath
  home := by simp

theorem AtSite.for_record (h : AtSite c v document site scope depth) (record : String)
    {ns : String} (hns : v.ns.length ≤ ns.length) :
    AtSite c v document ⟨false, record, ""⟩ (scope.forRecord record ns) (depth + 1) where
  record := rfl
  field := rfl
  baseUri := h.baseUri
  reads := h.reads
  same := h.same
  bound := Nat.succ_le_succ h.bound
  exact he := congrArg Nat.succ (h.exact he)
  beneath := hns
  home := by simp

theorem AtSite.local_name (h : AtSite c v document site scope depth) :
    scope.localName = site.localName := by
  rw [Scope.localName, Site.localName, h.field, h.record]

theorem namespace_of_text_length (text : String) :
    text.length ≤ (Namespace.ofText text).length := by
  have hlength : text.length = (text.toList.map Namespace.sanitizeChar).length := by
    rw [List.length_map, String.length_toList]
  rw [hlength, Namespace.ofText]
  split
  · next c rest h =>
    rw [h, String.length_ofList]
    split
    · exact Nat.le_succ _
    · exact Nat.le_refl _
  · next h => simp [h]

/-- A namespace beneath another one is longer. -/
theorem compose_length (ns : String) {part : String} (h : part ≠ "") :
    ns.length < (Namespace.compose [ns, part]).length := by
  have hpart := namespace_of_text_length part
  have hpos : 0 < part.length := by
    rw [Nat.pos_iff_ne_zero, Ne, String.length_eq_zero_iff]
    exact h
  by_cases hns : ns = ""
  · subst hns
    have : Namespace.compose ["", part] = Namespace.ofText part := by
      simp only [Namespace.compose, List.filter_cons, h, ne_eq, not_true_eq_false, decide_false,
        not_false_eq_true, decide_true, List.filter_nil, if_true]
      rfl
    rw [this]
    exact Nat.lt_of_lt_of_le hpos hpart
  · have : Namespace.compose [ns, part] =
        Namespace.ofText ns ++ "." ++ Namespace.ofText part := by
      simp only [Namespace.compose, List.filter_cons, h, hns, ne_eq, not_false_eq_true,
        decide_true, List.filter_nil, if_true, List.map_cons, List.map_nil]
      rfl
    have hown := namespace_of_text_length ns
    rw [this, String.length_append, String.length_append]
    omega

theorem types_part_ne (record : String) : record ++ "_types" ≠ "" := by
  intro h
  have hlength := congrArg String.length h
  rw [String.length_append] at hlength
  have : "_types".length = 6 := rfl
  have : "".length = 0 := rfl
  omega

theorem AtSite.type_ns (h : AtSite c v document site scope depth) :
    v.ns.length ≤ scope.typeNs.length := by
  rw [Scope.typeNs]
  split
  · exact h.beneath
  · exact Nat.le_of_lt (Nat.lt_of_le_of_lt h.beneath (compose_length _ (types_part_ne _)))

theorem AtSite.field_ns (h : AtSite c v document site scope depth) (hf : site.field ≠ "") :
    v.ns.length < scope.typeNs.length := by
  rw [Scope.typeNs, if_neg (h.field ▸ hf)]
  exact Nat.lt_of_le_of_lt h.beneath (compose_length _ (types_part_ne _))

end Site

section Records

variable {c : Comparison} {v : View} {document : Json} {levels : Nat} {site : Site} {scope : Scope}
  {depth : Nat} {frames : Frames} {node node' : NodeConverter}

/-- The nodes that are visited fit within the levels. -/
def AllFit (v : View) (document : Json) (levels : Nat) (visits : List (Site × Json)) : Prop :=
  ∀ p ∈ visits, fitsWithin v document levels p.1 p.2 = true

theorem NodesAlike.post (h : NodesAlike c v document levels node node')
    (hs : AtSite c v document site scope depth) (hhome : site.home = true → frames = []) {j : Json}
    (hj : fitsWithin v document levels site j = true) :
    BuildsAlike c frames (node j scope) (node' j (scope.moved document depth))
      fun t u _ => NodePost v site.home t u :=
  (h frames site j scope depth hs hhome hj).imp fun _ _ _ hp => hp.1

/-- A node that is the type of a field. -/
theorem NodesAlike.field (h : NodesAlike c v document levels node node')
    (hs : AtSite c v document site scope depth) {field : String} {j : Json}
    (hj : fitsWithin v document levels ⟨false, site.record, field⟩ j = true) :
    BuildsAlike c frames (node j (scope.forField field))
      (node' j ((scope.moved document depth).forField field)) fun t u _ => t = u :=
  (h.post (hs.for_field field) (by simp) hj).imp fun _ _ _ hp => hp.1

theorem property_fields_alike (h : NodesAlike c v document levels node node')
    (hs : AtSite c v document site scope depth) (required : List String)
    (properties : List (String × Json)) (hfit : AllFit v document levels
      (properties.map fun m => (⟨false, site.record, m.1⟩, m.2))) :
    BuildsAlike c frames (propertyFields node required scope properties)
      (propertyFields node' required (scope.moved document depth) properties)
      fun fields fields' _ => fields = fields' := by
  induction properties with
  | nil =>
    simp only [propertyFields]
    exact .pure fun _ => rfl
  | cons m properties ih =>
    obtain ⟨name, schema⟩ := m
    rw [AllFit, List.map_cons, List.forall_mem_cons] at hfit
    obtain ⟨hschema, hrest⟩ := hfit
    have field : BuildsAlike c frames (do
        let t := orGeneric (← node schema (scope.forField name))
        let field : Field AvroType :=
          { name := Name.ofText name
            type := if name ∈ required then t else makeNullable t
            doc := schema.asObject?.bind description? }
        return field :: (← propertyFields node required scope properties)) (do
        let t := orGeneric (← node' schema ((scope.moved document depth).forField name))
        let field : Field AvroType :=
          { name := Name.ofText name
            type := if name ∈ required then t else makeNullable t
            doc := schema.asObject?.bind description? }
        return field :: (← propertyFields node' required (scope.moved document depth) properties))
        fun fields fields' _ => fields = fields' := by
      refine .bind_same (h.field hs hschema) fun t => ?_
      refine .bind_same (ih hrest) fun fields => ?_
      exact .pure fun _ => rfl
    cases schema with
    | obj o => exact field
    | bool b => exact field
    | _ => exact ih hrest

theorem additional_field_alike (h : NodesAlike c v document levels node node')
    (hs : AtSite c v document site scope depth) (name : String) {o : Object}
    (hfit : AllFit v document levels ((Object.get? o "additionalProperties").toList.map
      fun schema => (⟨false, site.record, site.record ++ "_extensions"⟩, schema))) :
    BuildsAlike c frames (additionalField node name scope o)
      (additionalField node' name (scope.moved document depth) o)
      fun fields fields' _ => fields = fields' := by
  unfold additionalField
  split
  · next schema hg =>
    rw [hg, AllFit, Option.toList_some, List.map_singleton, List.forall_mem_singleton] at hfit
    have record : (scope.moved document depth).record = site.record := hs.record
    rw [hs.record, record]
    refine .bind_same (h.field hs hfit) fun t => ?_
    exact .pure fun _ => rfl
  · exact .pure fun _ => rfl

theorem pattern_fields_alike (h : NodesAlike c v document levels node node')
    (hs : AtSite c v document site scope depth) (patterns : List (String × Json))
    (hfit : AllFit v document levels
      (patterns.map fun m => (⟨false, site.record, patternName m.1⟩, m.2))) :
    BuildsAlike c frames (patternFields node scope patterns)
      (patternFields node' (scope.moved document depth) patterns)
      fun fields fields' _ => fields = fields' := by
  induction patterns with
  | nil =>
    simp only [patternFields]
    exact .pure fun _ => rfl
  | cons m patterns ih =>
    obtain ⟨pattern, schema⟩ := m
    rw [AllFit, List.map_cons, List.forall_mem_cons] at hfit
    simp only [patternFields]
    refine .bind_same (h.field hs hfit.1) fun t => ?_
    refine .bind_same (ih hfit.2) fun fields => ?_
    exact .pure fun _ => rfl

theorem values_field_alike (h : NodesAlike c v document levels node node')
    (hs : AtSite c v document site scope depth) {o : Object}
    (hfit : AllFit v document levels ((Object.get? o "items").toList.map
      fun items => (⟨false, site.record, "values"⟩, items))) :
    BuildsAlike c frames (valuesField node scope o)
      (valuesField node' (scope.moved document depth) o)
      fun fields fields' _ => fields = fields' := by
  unfold valuesField
  split
  · exact .pure fun _ => rfl
  · split
    · split
      · next items hg =>
        rw [hg, AllFit, Option.toList_some, List.map_singleton, List.forall_mem_singleton] at hfit
        refine .bind_same (h.field hs hfit) fun t => ?_
        exact .pure fun _ => rfl
      · exact .pure fun _ => rfl
    · exact .pure fun _ => rfl

theorem record_fields_alike (h : NodesAlike c v document levels node node')
    (hs : AtSite c v document site scope depth) {o : Object}
    (hfit : AllFit v document levels (recordVisits site.record o)) :
    BuildsAlike c frames (recordFields node scope o)
      (recordFields node' (scope.moved document depth) o)
      fun fields fields' _ => fields = fields' := by
  simp only [AllFit, recordVisits, List.forall_mem_append] at hfit
  obtain ⟨⟨⟨hproperties, hadditional⟩, hpatterns⟩, hitems⟩ := hfit
  unfold recordFields
  split
  · next property properties hp =>
    rw [hp, Option.getD_some] at hproperties
    refine .bind_same (property_fields_alike h hs _ _ hproperties) fun fields => ?_
    refine .bind_same (additional_field_alike h hs _ hadditional) fun additional => ?_
    refine .bind_same (pattern_fields_alike h hs _ hpatterns) fun patterns => ?_
    exact .pure fun _ => rfl
  · refine .bind_same (additional_field_alike h hs _ hadditional) fun additional => ?_
    refine .bind_same (pattern_fields_alike h hs _ hpatterns) fun patterns => ?_
    dsimp only
    split
    · exact values_field_alike h hs hitems
    · exact .pure fun _ => rfl

theorem warn_all_alike (hc : Faithful c v) (ws : List Warning) :
    RunsAlike c frames (Run.warnAll ws) (Run.warnAll ws) fun a b _ => a = b where
  logs _ := Run.logs_warn_all ws
  along _ _ hr _ := ⟨⟨⟩, ⟨⟩, _, _, Run.yields_warnAll.mpr rfl, Run.yields_warnAll.mpr rfl,
    hc.warned ws hr, rfl⟩

theorem without_conditionals_alike (hc : Faithful c v) (o : Object) :
    RunsAlike c frames (withoutConditionals o) (withoutConditionals o)
      fun o₁ o₂ _ => o₁ = unconditional o ∧ o₂ = unconditional o := by
  unfold withoutConditionals unconditional
  cases withoutConditionals? o with
  | none => exact .pure fun _ => ⟨rfl, rfl⟩
  | some rest =>
    refine .bind_same (warn_all_alike hc [.conditional]) fun _ => ?_
    exact .pure fun _ => ⟨rfl, rfl⟩

/-- What follows the dropping of conditional keywords works on the schema without them. -/
theorem unconditional_alike {β γ : Type} (hc : Faithful c v) {o : Object} {f : Object → Run β}
    {g : Object → Run γ} {post : β → γ → State → Prop}
    (h : RunsAlike c frames (f (unconditional o)) (g (unconditional o)) post) :
    RunsAlike c frames (withoutConditionals o >>= f) (withoutConditionals o >>= g) post := by
  refine .bind (without_conditionals_alike hc o) ?_ ?_
  · intro he s o' t hy
    rw [(without_conditionals_yields hy).1]
    exact h.logs he
  · rintro _ _ ⟨rfl, rfl⟩
    exact h

theorem within_alike {β γ : Type} (hc : Faithful c v) {f : Frame} (hf : f.name ∈ v.records)
    {x : Run β} {y : Run γ} {post : β → γ → Prop}
    (h : RunsAlike c (f :: frames) x y fun a b _ => post a b) :
    RunsAlike c frames (Run.within f x) (Run.within f y) fun a b _ => post a b where
  logs he s := h.logs he { s with frames := f :: s.frames }
  along s s' hr hcounts := by
    obtain ⟨a, b, t, t', hx, hy, hr', hab⟩ := h.along _ _ (hc.begun hf hr)
      (c.counts_of_prefix (fun _ => List.prefix_refl _) hcounts)
    exact ⟨a, b, _, _, Run.yields_within.mpr ⟨t, hx, rfl⟩, Run.yields_within.mpr ⟨t', hy, rfl⟩,
      hc.ended hr', hab⟩

/-- The types are the same up to the names that are gathered in records. -/
def SameType (t u : Option AvroType) : Prop :=
  t.map clearDependencies = u.map clearDependencies

/-- The records that two runs make under a name. -/
def RecordPost (name ns : String) (t u : Option AvroType) : Prop :=
  SameType t u ∧ ∀ t', t = some t' → t'.isRecord = true ∧ t'.name? = some name ∧
    t'.ns? = if ns = "" then none else some ns

theorem build_record_alike (h : NodesAlike c v document levels node node') {name ns : String}
    (hs : AtSite c v document site scope depth) (hns : v.ns.length ≤ ns.length) {o : Object}
    (hfit : AllFit v document levels (recordVisits name o)) :
    RunsAlike c frames (buildRecord node name ns o scope)
      (buildRecord node' name ns o (scope.moved document depth))
      fun t u _ => RecordPost name ns t u := by
  have fields : BuildsAlike c frames (recordFields node (scope.forRecord name ns) o)
      (recordFields node' ((scope.moved document depth).forRecord name ns) o)
      fun fs gs _ => fs = gs := record_fields_alike h (hs.for_record name hns) hfit
  unfold buildRecord
  refine .bind_apart fields fun fs names names' => ?_
  dsimp only
  split
  · exact .pure fun _ => ⟨rfl, by simp⟩
  · refine .pure fun _ => ⟨rfl, ?_⟩
    rintro _ ⟨⟩
    exact ⟨rfl, rfl, rfl⟩

/-- The records under construction that a definition looks for are its own. -/
theorem frames_alike (hc : Faithful c v) {name : String} (hname : name ∈ v.records) :
    RunsAlike c frames (get : Run State) (get : Run State) fun s s' _ =>
      Frames.find? s.frames name = Frames.find? frames name ∧
        Frames.find? s'.frames name = Frames.find? frames name where
  logs _ := Run.logs_get
  along s s' hr _ := ⟨s, s', s, s', Run.yields_get.mpr ⟨rfl, rfl⟩,
    Run.yields_get.mpr ⟨rfl, rfl⟩, hr, hc.found hr hname⟩

/-- A record that is made in a definition is found in the same place, or not at all. -/
theorem object_record_alike (frames : Frames) (h : NodesAlike c v document levels node node')
    (hc : Faithful c v) {name ns : String} (hs : AtSite c v document site scope depth)
    (hns : v.ns.length ≤ ns.length) {o : Object}
    (hplain : hasComposition (unconditional o) = false) (hname : Name.ofText name ∈ v.records)
    (hfit : AllFit v document levels (recordVisits (Name.ofText name) (unconditional o))) :
    RunsAlike c frames (objectRecord node name ns o scope)
      (objectRecord node' name ns o (scope.moved document depth)) fun t u _ => SameType t u ∧
        ∀ t', t = some t' → t'.isRecord = true ∧
          (t'.ns? = if ns = "" then none else some ns) ∧
          (frames = [] → t'.name? = some (Name.ofText name)) := by
  unfold objectRecord
  refine unconditional_alike hc ?_
  rw [if_neg (by simp [hplain]), if_neg (by simp [hplain])]
  dsimp only
  have made : RunsAlike c frames (Run.within ⟨Name.ofText name, ns⟩
        (buildRecord node (Name.ofText name) ns (unconditional o) scope))
      (Run.within ⟨Name.ofText name, ns⟩
        (buildRecord node' (Name.ofText name) ns (unconditional o) (scope.moved document depth)))
      fun t u _ => RecordPost (Name.ofText name) ns t u :=
    within_alike hc hname (build_record_alike h hs hns hfit)
  refine .bind (frames_alike hc hname) ?_ ?_
  · intro he _ s _ _
    split
    · exact .pure _
    · exact made.logs he
  · rintro s s' ⟨hf, hf'⟩
    rw [hf, hf']
    cases hfound : Frames.find? frames (Name.ofText name) with
    | some f =>
      refine .pure fun _ => ⟨rfl, ?_⟩
      rintro _ ⟨⟩
      refine ⟨rfl, rfl, fun hnil => ?_⟩
      rw [hnil] at hfound
      simp [Frames.find?] at hfound
    | none =>
      refine made.imp fun t u _ hp => ⟨hp.1, fun t' ht => ?_⟩
      obtain ⟨hr, hn, hns⟩ := hp.2 t' ht
      exact ⟨hr, hns, fun _ => hn⟩

theorem composition_record_alike (h : NodesAlike c v document levels node node')
    {name ns : String} (hs : AtSite c v document site scope depth)
    (hns : v.ns.length ≤ ns.length) {o : Object}
    (hfit : fitsWithin v document levels ⟨false, name, "value"⟩ (.obj o) = true) :
    RunsAlike c frames (compositionRecord node name ns o scope)
      (compositionRecord node' name ns o (scope.moved document depth)) fun t u _ =>
        RecordPost (Name.ofText name) ns (some t) (some u) := by
  have value : BuildsAlike c frames (node (.obj o) ((scope.forRecord name ns).forField "value"))
      (node' (.obj o) (((scope.moved document depth).forRecord name ns).forField "value"))
      fun t u _ => t = u := h.field (hs.for_record name hns) hfit
  unfold compositionRecord
  refine .bind_apart value fun t names names' => .pure fun _ => ?_
  split
  · refine ⟨rfl, ?_⟩
    rintro _ ⟨⟩
    exact ⟨rfl, rfl, rfl⟩
  · refine ⟨rfl, ?_⟩
    rintro _ ⟨⟩
    exact ⟨rfl, rfl, rfl⟩

end Records

end Convert

end AvroDerive
