import AvroDerive.Proofs.RecordLayout

/-! # Records of any object schema

An object schema need not list properties. Its record has the fields that are planned, a map where none
are, and for an array schema an array. What the schema says beside its type decides about the fields. -/
namespace AvroDerive

open AvroType Json Schema

namespace Convert

/-- The second schema says the same as the first one, but for its type and conditional keywords. -/
structure SaysBeside (o a : Object) : Prop where
  keys : (Object.keys a).Nodup
  same : ∀ key, key ≠ "type" → key ∉ conditionalKeywords → Object.get? a key = Object.get? o key

section Beside

variable {o a : Object}

theorem SaysBeside.unconditional (h : SaysBeside o a) : SaysBeside o (unconditional a) where
  keys := nodup_unconditional h.keys
  same key hkey hcond := (get_unconditional h.keys hcond).trans (h.same key hkey hcond)

theorem SaysBeside.typed (h : SaysBeside o a) (type : Json) :
    SaysBeside o (Object.insert a "type" type) where
  keys := Object.nodup_keys_insert h.keys _ _
  same key hkey hcond := by rw [Object.get?_insert, if_neg hkey, h.same key hkey hcond]

theorem SaysBeside.contains (h : SaysBeside o a) {key : String} (hkey : key ≠ "type")
    (hcond : key ∉ conditionalKeywords) : Object.contains a key = Object.contains o key := by
  rw [Object.contains, Object.contains, h.same key hkey hcond]

theorem SaysBeside.composition (h : SaysBeside o a) : hasComposition a = hasComposition o := by
  rw [hasComposition, hasComposition, h.contains (by decide) (by decide),
    h.contains (by decide) (by decide), h.contains (by decide) (by decide)]

theorem SaysBeside.properties (h : SaysBeside o a) : propertiesOf a = propertiesOf o := by
  rw [propertiesOf, propertiesOf, h.same _ (by decide) (by decide)]

theorem SaysBeside.patterns (h : SaysBeside o a) : patternsOf a = patternsOf o := by
  rw [patternsOf, patternsOf, h.same _ (by decide) (by decide)]

theorem SaysBeside.plans (h : SaysBeside o a) (scope : Scope) : recordPlans scope a = recordPlans scope o := by
  unfold recordPlans propertyPlans additionalPlans patternPlans schemaProperties required
  rw [h.properties, h.patterns, h.same "required" (by decide) (by decide),
    h.same "additionalProperties" (by decide) (by decide)]

end Beside

/-- Whether a schema says anything about properties. -/
def describesProperties (o : Object) : Bool :=
  Object.contains o "properties" || !(additionalNames "values" o ++ patternNames o).isEmpty

/-- The fields of the record for an object schema: those planned if it lists properties or admits further
ones, and otherwise a map to the generic type. -/
inductive ObjectFields (node : NodeConverter) (scope : Scope) (o : Object) :
    List (Field AvroType) → Prop
  | listed {names s fields names' s'} :
    ((Object.get? o "properties").bind asObject?).any (!·.isEmpty) = true →
    LaidOut node (recordPlans scope o) names s fields names' s' → ObjectFields node scope o fields
  | further {names s fields names' s'} :
    ((Object.get? o "properties").bind asObject?).any (!·.isEmpty) = false → fields ≠ [] →
    LaidOut node (furtherPlans "values" scope o ++ patternPlans scope o) names s fields names' s' →
    ObjectFields node scope o fields
  | any : ((Object.get? o "properties").bind asObject?).any (!·.isEmpty) = false →
    additionalNames "values" o ++ patternNames o = [] →
    ObjectFields node scope o [{ name := "values", type := .map .generic }]

/-- The single field of the record for an array schema: an array of the type of its items. -/
inductive ArrayFields (node : NodeConverter) (scope : Scope) (o : Object) :
    List (Field AvroType) → Prop
  | items {items names s t names' s'} : Object.get? o "items" = some items →
    (node items (scope.forField "values")).Yields names s t names' s' →
    ArrayFields node scope o [{ name := "values", type := .array (orGeneric t) }]
  | any : Object.get? o "items" = none →
    ArrayFields node scope o [{ name := "values", type := .array .generic }]

/-- The record that is made of an object schema, or else of an array schema, under the name of the frame. -/
structure MadeRecord (cfg : Setting) (o : Object) (frame : Frame) (scope : Scope) (ofObject : Bool)
    (r : Record AvroType) : Prop where
  name : r.name = frame.name
  ns : r.ns = if frame.ns = "" then none else some frame.ns
  object : ofObject = true → ObjectFields (node cfg) (scope.forRecord frame.name frame.ns) o r.fields
  array : ofObject = false → ArrayFields (node cfg) (scope.forRecord frame.name frame.ns) o r.fields

section Record

variable {cfg : Setting} {node : NodeConverter} {scope : Scope} {o a : Object} {s s' : State}
  {names names' : List String} {fields : List (Field AvroType)}

theorem SaysBeside.listed (h : SaysBeside o a) :
    ((Object.get? a "properties").bind asObject?).any (!·.isEmpty) =
      ((Object.get? o "properties").bind asObject?).any (!·.isEmpty) := by
  rw [h.same _ (by decide) (by decide)]

theorem SaysBeside.open_plans (h : SaysBeside o a) (scope : Scope) :
    furtherPlans "values" scope a ++ patternPlans scope a =
      furtherPlans "values" scope o ++ patternPlans scope o := by
  unfold furtherPlans patternPlans
  rw [h.patterns, h.same _ (by decide) (by decide)]

theorem SaysBeside.open_names (h : SaysBeside o a) :
    additionalNames "values" a ++ patternNames a = additionalNames "values" o ++ patternNames o := by
  unfold additionalNames patternNames
  rw [h.patterns, h.same _ (by decide) (by decide)]

theorem SaysBeside.describes (h : SaysBeside o a) : describesProperties a = describesProperties o := by
  rw [describesProperties, describesProperties, h.open_names, h.contains (by decide) (by decide)]

/-- The field of a schema that plans none is a map if it is about objects, or else an array. -/
theorem values_field_made (hlisted : ((Object.get? o "properties").bind asObject?).any (!·.isEmpty) = false)
    (hnone : additionalNames "values" o ++ patternNames o = [])
    (h : (valuesField node scope o).Yields names s fields names' s') :
    (typeIncludes o "object" || Object.contains o "properties" → ObjectFields node scope o fields) ∧
    (typeIncludes o "object" = false → Object.contains o "properties" = false →
      typeIncludes o "array" = true → ArrayFields node scope o fields) := by
  unfold valuesField at h
  split at h
  · next hobject =>
    obtain ⟨rfl, -, -⟩ := Build.yields_pure.mp h
    refine ⟨fun _ => .any hlisted hnone, fun hno hno' => ?_⟩
    simp [hno, hno'] at hobject
  · next hobject =>
    refine ⟨fun hyes => absurd hyes hobject, fun _ _ harray => ?_⟩
    rw [if_pos harray] at h
    split at h
    · next items hitems =>
      obtain ⟨t, names₁, s₁, hnode, hp⟩ := Build.yields_bind.mp h
      obtain ⟨rfl, -, -⟩ := Build.yields_pure.mp hp
      exact .items hitems hnode
    · next hitems =>
      obtain ⟨rfl, -, -⟩ := Build.yields_pure.mp h
      exact .any hitems

/-- A schema that is about objects, or describes properties, gets the fields of an object, and otherwise
one for arrays that of an array. -/
theorem record_fields_made (h : (recordFields node scope o).Yields names s fields names' s') :
    (typeIncludes o "object" || describesProperties o → ObjectFields node scope o fields) ∧
    (typeIncludes o "object" = false → describesProperties o = false → typeIncludes o "array" = true →
      ArrayFields node scope o fields) := by
  by_cases hlisted : ((Object.get? o "properties").bind asObject?).any (!·.isEmpty) = true
  · refine ⟨fun _ => .listed hlisted (record_fields_laid_out hlisted h), fun _ hno => ?_⟩
    cases hp : Object.get? o "properties" with
    | none => simp [hp] at hlisted
    | some p => simp [describesProperties, Object.contains, hp] at hno
  · rw [Bool.not_eq_true] at hlisted
    unfold recordFields at h
    split at h
    · next hp => simp [hp] at hlisted
    · obtain ⟨additional, names₁, s₁, hadditional, hrest⟩ := Build.yields_bind.mp h
      obtain ⟨patterns, names₂, s₂, hpatterns, hp⟩ := Build.yields_bind.mp hrest
      have planned := (additional_field_laid_out hadditional).append (pattern_fields_laid_out hpatterns)
      have named : (additional ++ patterns).map Field.name =
          additionalNames "values" o ++ patternNames o := by
        rw [List.map_append, additional_field_read hadditional, pattern_fields_read hpatterns,
          patternNames]
      dsimp only at hp
      split at hp
      · next hempty =>
        have none : additionalNames "values" o ++ patternNames o = [] := by
          rw [← named, List.isEmpty_iff.mp hempty, List.map_nil]
        have describes : describesProperties o = Object.contains o "properties" := by
          rw [describesProperties, none, List.isEmpty_nil, Bool.not_true, Bool.or_false]
        rw [describes]
        exact values_field_made hlisted none hp
      · next hsome =>
        obtain ⟨rfl, -, -⟩ := Build.yields_pure.mp hp
        have some : additional ++ patterns ≠ [] := fun he => hsome (by rw [he, List.isEmpty_nil])
        refine ⟨fun _ => .further hlisted some planned, fun _ hno => ?_⟩
        rw [describesProperties, Bool.or_eq_false_iff, Bool.not_eq_false', List.isEmpty_iff, ← named,
          List.map_eq_nil_iff] at hno
        exact absurd hno.2 some

/-- What a schema says beside its type is all that the fields are made of. -/
theorem SaysBeside.object_fields (h : SaysBeside o a) (hf : ObjectFields node scope a fields) :
    ObjectFields node scope o fields := by
  cases hf with
  | listed hl laid => exact .listed (h.listed ▸ hl) (h.plans scope ▸ laid)
  | further hl hne laid => exact .further (h.listed ▸ hl) hne (h.open_plans scope ▸ laid)
  | any hl hnone => exact .any (h.listed ▸ hl) (h.open_names ▸ hnone)

theorem SaysBeside.array_fields (h : SaysBeside o a) (hf : ArrayFields node scope a fields) :
    ArrayFields node scope o fields := by
  have same := h.same "items" (by decide) (by decide)
  cases hf with
  | items hi hnode => exact .items (same ▸ hi) hnode
  | any hi => exact .any (same ▸ hi)

/-- Only properties that are no schemas leave a record without fields. -/
theorem ObjectFields.listed_of_none (h : ObjectFields node scope o []) :
    ((Object.get? o "properties").bind asObject?).any (!·.isEmpty) = true := by
  cases h with
  | listed hlisted => exact hlisted
  | further _ hne => exact absurd rfl hne

end Record

section Made

variable {cfg : Setting} {scope : Scope} {o a : Object} {s s' : State}

theorem type_includes_unconditional (h : (Object.keys a).Nodup) (name : String) :
    typeIncludes (unconditional a) name = typeIncludes a name := by
  rw [typeIncludes, typeIncludes, get_unconditional h (by decide)]

/-- Where no record of the name is under construction, an object or array schema becomes a record. -/
theorem object_record_made {name ns : String} {t : Option AvroType} (hbeside : SaysBeside o a)
    (hplain : hasComposition o = false) (hnew : Frames.find? s.frames (Name.ofText name) = none)
    (hkind : typeIncludes a "object" || describesProperties o || typeIncludes a "array")
    (h : (objectRecord (node cfg) name ns a scope).Yields s t s') :
    ∃ r, t = some (.record r) ∧ MadeRecord cfg o ⟨Name.ofText name, ns⟩ scope
        (typeIncludes a "object" || describesProperties o) r ∧
      r.fields.map Field.name = recordNames (unconditional a) := by
  have beside := hbeside.unconditional
  cases object_record_recorded h with
  | composed hc => simp [beside.composition, hplain] at hc
  | standIn _ _ found => simp [hnew] at found
  | built _ _ _ hb =>
    obtain ⟨fields, names, hfields, rfl⟩ := build_record_yields hb
    obtain ⟨object, array⟩ := record_fields_made hfields
    rw [beside.describes, type_includes_unconditional hbeside.keys] at object array
    rw [type_includes_unconditional hbeside.keys] at array
    have made : MadeRecord cfg o ⟨Name.ofText name, ns⟩ scope
        (typeIncludes a "object" || describesProperties o)
        { (Record.empty (Name.ofText name) ns : Record AvroType) with
          doc := description? (unconditional a), fields, dependencies := distinct names } := by
      refine ⟨rfl, rfl, fun hobject => beside.object_fields (object hobject), fun hno => ?_⟩
      obtain ⟨hobject, hdescribes⟩ := Bool.or_eq_false_iff.mp hno
      rw [hno, Bool.false_or] at hkind
      exact beside.array_fields (array hobject hdescribes hkind)
    have some : (fields.isEmpty && !((Object.get? (unconditional a) "properties").bind asObject?).any
        (!·.isEmpty)) = false := by
      rw [beside.listed]
      by_cases hempty : fields = []
      · subst hempty
        cases hobject : (typeIncludes a "object" || describesProperties o) with
        | true => rw [(made.object hobject).listed_of_none, Bool.not_true, Bool.and_false]
        | false => cases made.array hobject
      · rw [List.isEmpty_eq_false_iff.mpr hempty, Bool.false_and]
    rw [some, if_neg Bool.false_ne_true]
    exact ⟨_, rfl, made, record_fields_read hfields⟩

end Made

end Convert

end AvroDerive
