import AvroDerive.Proofs.ObjectSchema
import AvroDerive.Proofs.TypePart

/-! # The fields of a record

Which fields the record of an object schema has, and in which order, can be read off the schema. Joined
records have the fields of the first and behind them those that only the second one has. -/
namespace AvroDerive

namespace AvroType

open AvroDerive.Convert

/-- The names of a record's fields have the property. -/
def FieldNames (q : List String → Prop) : AvroType → Prop
  | .record r => q (r.fields.map Field.name)
  | _ => True

variable {q : List String → Prop} {t u : AvroType}

theorem field_names_of_unnamed (h : t.isNamed = false) : FieldNames q t := by
  cases t with
  | record r => simp [isNamed] at h
  | _ => trivial

theorem field_names_of_not_record (h : t.isRecord = false) : FieldNames q t := by
  cases t with
  | record r => simp [isRecord] at h
  | _ => trivial

/-- Types that differ in their dependencies have the same fields. -/
theorem FieldNames.alike (h : FieldNames q t) (hu : u.clearDependencies = t.clearDependencies) :
    FieldNames q u := by
  cases u with
  | record s =>
    cases t with
    | record r =>
      rw [clearDependencies, clearDependencies] at hu
      have fields := congrArg (fun r : Record AvroType => r.fields.map Field.name) (record.inj hu)
      dsimp only at fields
      rw [clear_field_names, clear_field_names] at fields
      rw [FieldNames, fields]
      exact h
    | _ => simp [clearDependencies] at hu
  | _ => trivial

theorem merge_field_names (join : AvroType → AvroType → AvroType) (field : Field AvroType)
    (fs : List (Field AvroType)) :
    (mergeField join field fs).map Field.name = addNew (fs.map Field.name) field.name := by
  induction fs with
  | nil => simp [mergeField, addNew]
  | cons f fs ih =>
    rw [mergeField]
    by_cases h : f.name = field.name
    · simp [h, addNew]
    · rw [if_neg h, List.map_cons, ih, List.map_cons, addNew, addNew]
      simp only [List.mem_cons, Ne.symm h, false_or]
      split <;> simp

/-- Only fields of other names come to a record when records are joined. -/
theorem joined_field_names (level : Nat) (r s : Record AvroType) :
    (joinedRecord level r s).fields.map Field.name =
      addAll (r.fields.map Field.name) (s.fields.map Field.name) := by
  have folded : ∀ gs fs : List (Field AvroType),
      (gs.foldl (fun fields f => mergeField (joinAt level) f fields) fs).map Field.name =
        addAll (fs.map Field.name) (gs.map Field.name) := by
    intro gs
    induction gs with
    | nil => exact fun fs => rfl
    | cons g gs ih =>
      intro fs
      rw [List.foldl_cons, ih, merge_field_names, List.map_cons, addAll_cons]
  exact folded s.fields r.fields

theorem field_names_with_name (name : String) (h : FieldNames q t) :
    FieldNames q (t.withName name) := by
  cases t <;> exact h

theorem field_names_with_ns (ns : String) (h : FieldNames q t) : FieldNames q (t.withNs ns) := by
  cases t <;> exact h

end AvroType

/-- The elements that join a list stand behind those that were there. -/
theorem prefix_addAll {α : Type} [DecidableEq α] (xs ys : List α) : xs <+: addAll xs ys := by
  induction ys generalizing xs with
  | nil => exact List.prefix_rfl
  | cons y ys ih =>
    refine List.IsPrefix.trans ?_ (ih (addNew xs y))
    unfold addNew
    split
    · exact List.prefix_rfl
    · exact List.prefix_append xs [y]

namespace Convert

open AvroType Json Schema

/-- The name of the field for further properties, if there is one. -/
def additionalNames (name : String) (o : Object) : List String :=
  match Object.get? o "additionalProperties" with
  | some (.obj _) => [name]
  | _ => []

def patternNames (o : Object) : List String :=
  (patternsOf o).map fun m => Name.ofText (patternName m.1)

def valuesNames (o : Object) : List String :=
  if typeIncludes o "object" || Object.contains o "properties" || typeIncludes o "array" then
    ["values"]
  else []

/-- The names of the fields of the record for an object schema. -/
def recordNames (o : Object) : List String :=
  match (Object.get? o "properties").bind Json.asObject? with
  | some (property :: properties) =>
    fieldNames (property :: properties) ++ additionalNames "additionalProperties" o ++
      patternNames o
  | _ =>
    if (additionalNames "values" o ++ patternNames o).isEmpty then valuesNames o
    else additionalNames "values" o ++ patternNames o

section Fields

variable {node : NodeConverter} {scope : Scope} {o : Object} {s s' : State}
  {names names' : List String} {fields : List (Field AvroType)} {t : AvroType}

theorem additional_field_read {name : String}
    (h : (additionalField node name scope o).Yields names s fields names' s') :
    fields.map Field.name = additionalNames name o := by
  unfold additionalField at h
  split at h
  · next schema hschema =>
    obtain ⟨t, names₁, s₁, -, hp⟩ := Build.yields_bind.mp h
    obtain ⟨rfl, -, -⟩ := Build.yields_pure.mp hp
    rw [additionalNames, hschema]
    rfl
  · next hschema =>
    obtain ⟨rfl, -, -⟩ := Build.yields_pure.mp h
    unfold additionalNames
    split
    · next schema hs => exact absurd hs (hschema schema)
    · rfl

theorem pattern_fields_read {patterns : List (String × Json)}
    (h : (patternFields node scope patterns).Yields names s fields names' s') :
    fields.map Field.name = patterns.map fun m => Name.ofText (patternName m.1) := by
  induction patterns generalizing names s fields names' s' with
  | nil =>
    rw [patternFields] at h
    obtain ⟨rfl, -, -⟩ := Build.yields_pure.mp h
    rfl
  | cons m patterns ih =>
    rw [patternFields] at h
    obtain ⟨t, names₁, s₁, -, hrest⟩ := Build.yields_bind.mp h
    obtain ⟨more, names₂, s₂, hmore, hp⟩ := Build.yields_bind.mp hrest
    obtain ⟨rfl, -, -⟩ := Build.yields_pure.mp hp
    rw [List.map_cons, List.map_cons, ih hmore]

theorem values_field_read (h : (valuesField node scope o).Yields names s fields names' s') :
    fields.map Field.name = valuesNames o := by
  unfold valuesField at h
  unfold valuesNames
  split at h
  · next hobject =>
    obtain ⟨rfl, -, -⟩ := Build.yields_pure.mp h
    rw [if_pos (by simp [hobject])]
    rfl
  · next hobject =>
    rw [Bool.not_eq_true] at hobject
    split at h
    · next harray =>
      rw [if_pos (by simp [harray])]
      split at h
      · obtain ⟨t, names₁, s₁, -, hp⟩ := Build.yields_bind.mp h
        obtain ⟨rfl, -, -⟩ := Build.yields_pure.mp hp
        rfl
      · obtain ⟨rfl, -, -⟩ := Build.yields_pure.mp h
        rfl
    · next harray =>
      obtain ⟨rfl, -, -⟩ := Build.yields_pure.mp h
      rw [if_neg (by simp [hobject, harray])]
      rfl

theorem record_fields_read (h : (recordFields node scope o).Yields names s fields names' s') :
    fields.map Field.name = recordNames o := by
  unfold recordFields at h
  split at h
  · next hlisted =>
    rw [recordNames, hlisted]
    obtain ⟨properties, names₁, s₁, hproperties, hrest⟩ := Build.yields_bind.mp h
    obtain ⟨additional, names₂, s₂, hadditional, hrest⟩ := Build.yields_bind.mp hrest
    obtain ⟨patterns, names₃, s₃, hpatterns, hp⟩ := Build.yields_bind.mp hrest
    obtain ⟨rfl, -, -⟩ := Build.yields_pure.mp hp
    rw [List.map_append, List.map_append, property_fields_named hproperties,
      additional_field_read hadditional, pattern_fields_read hpatterns, patternNames]
  · next hlisted =>
    obtain ⟨additional, names₁, s₁, hadditional, hrest⟩ := Build.yields_bind.mp h
    obtain ⟨patterns, names₂, s₂, hpatterns, hp⟩ := Build.yields_bind.mp hrest
    have listed : (additional ++ patterns).map Field.name =
        additionalNames "values" o ++ patternNames o := by
      rw [List.map_append, additional_field_read hadditional, pattern_fields_read hpatterns,
        patternNames]
    dsimp only at hp
    unfold recordNames
    split
    · next property properties hp' => exact (hlisted property properties hp').elim
    · rw [← listed, List.isEmpty_map]
      split at hp
      · next hempty =>
        rw [if_pos hempty]
        exact values_field_read hp
      · next hempty =>
        rw [if_neg hempty]
        obtain ⟨rfl, -, -⟩ := Build.yields_pure.mp hp
        rfl

/-- The type is a record with the fields that can be read off the schema. -/
theorem build_record_read {name ns : String}
    (h : (buildRecord node name ns o scope).Yields s (some t) s') :
    ∃ r : Record AvroType, t = .record r ∧ r.name = name ∧
      r.fields.map Field.name = recordNames o := by
  obtain ⟨fields, names', hfields, ht⟩ := build_record_yields h
  split at ht
  · simp at ht
  · obtain rfl := Option.some.inj ht
    exact ⟨_, rfl, rfl, record_fields_read hfields⟩

/-- Without compositions, the type is a record with the fields that can be read off the schema, or the
one-field record that stands in for a record of the name. -/
theorem object_record_read {name ns : String} (hc : hasComposition (unconditional o) = false)
    (h : (objectRecord node name ns o scope).Yields s (some t) s') :
    ∃ r : Record AvroType, t = .record r ∧
      (r.fields.map Field.name = recordNames (unconditional o) ∨
        r.fields.map Field.name = [Name.ofText name]) := by
  cases object_record_recorded h with
  | composed hcomposition => simp [hc] at hcomposition
  | standIn => exact ⟨_, rfl, Or.inr rfl⟩
  | built _ _ _ made =>
    obtain ⟨r, rfl, -, hnames⟩ := build_record_read made
    exact ⟨r, rfl, Or.inl hnames⟩

end Fields

end Convert

end AvroDerive
