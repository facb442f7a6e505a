import AvroDerive.Avro.Json
import AvroDerive.Proofs.Orderly

/-! # Registration gathers dependencies

A record that is registered takes over the names that the records inside it depend on. Nothing else of
it changes, and a record of a name that is taken changes nothing. -/
namespace AvroDerive.AvroType

section Dependencies

variable {name : String}

mutual

/-- The dependencies of a type are those that the definitions it is written with list. -/
theorem mem_dependencies : (t : AvroType) →
    (name ∈ t.dependencies ↔ ∃ d ∈ t.definitions, name ∈ d.ownDependencies)
  | .record r => by
    rw [dependencies, definitions, List.exists_mem_cons_iff, List.mem_append,
      mem_field_dependencies r.fields, ownDependencies]
  | .array items => mem_dependencies items
  | .map values => mem_dependencies values
  | .union branches => mem_inner_dependencies branches
  | .enum _ | .fixed _ => by simp [dependencies, definitions, ownDependencies]
  | .primitive _ | .reference _ | .logical _ _ => by simp [dependencies, definitions]

theorem mem_field_dependencies : (fs : List (Field AvroType)) →
    (name ∈ fieldDependencies fs ↔ ∃ d ∈ fieldDefinitions fs, name ∈ d.ownDependencies)
  | [] => by simp [fieldDependencies, fieldDefinitions]
  | f :: fs => by
    rw [fieldDependencies, fieldDefinitions, List.mem_append, mem_dependencies f.type,
      mem_field_dependencies fs]
    simp only [List.mem_append, or_and_right, exists_or]

theorem mem_inner_dependencies : (ts : List AvroType) →
    (name ∈ branchDependencies ts ↔ ∃ d ∈ branchDefinitions ts, name ∈ d.ownDependencies)
  | [] => by simp [branchDependencies, branchDefinitions]
  | t :: ts => by
    rw [branchDependencies, branchDefinitions, List.mem_append, mem_dependencies t,
      mem_inner_dependencies ts]
    simp only [List.mem_append, or_and_right, exists_or]

end

end Dependencies

mutual

/-- Dependency lists are no part of what is written. -/
theorem clear_json : (t : AvroType) → t.clearDependencies.toJson = t.toJson
  | .record r => by rw [clearDependencies, toJson, toJson, clear_fields_json r.fields]
  | .array items => by rw [clearDependencies, toJson, toJson, clear_json items]
  | .map values => by rw [clearDependencies, toJson, toJson, clear_json values]
  | .union branches => by rw [clearDependencies, toJson, toJson, clear_branches_json branches]
  | .primitive _ | .reference _ | .logical _ _ | .fixed _ | .enum _ => rfl

theorem clear_fields_json : (fs : List (Field AvroType)) → fieldsJson (clearFields fs) = fieldsJson fs
  | [] => rfl
  | f :: fs => by rw [clearFields, fieldsJson, fieldsJson, clear_json f.type, clear_fields_json fs]

theorem clear_branches_json : (ts : List AvroType) → branchesJson (clearBranches ts) = branchesJson ts
  | [] => rfl
  | t :: ts => by rw [clearBranches, branchesJson, branchesJson, clear_json t, clear_branches_json ts]

end

/-- The record as it is registered: it lists all that it and the records inside it depend on, but not
itself, and these list nothing any more. -/
structure RegisteredAs (names : List String) (r entry : Record AvroType) : Prop where
  written : (AvroType.record entry).toJson = (AvroType.record r).toJson
  listed : ∀ name, name ∈ entry.dependencies ↔ name ≠ qualify r.ns r.name ∧ (name ∈ r.dependencies ∨
    name ∈ names ∨ ∃ d ∈ fieldDefinitions r.fields, name ∈ d.ownDependencies)
  cleared : ∀ d ∈ fieldDefinitions entry.fields, d.ownDependencies = []

theorem gather_registered_as (names : List String) (r : Record AvroType) :
    ∃ entry, Registry.gather names (.record r) = .record entry ∧ RegisteredAs names r entry := by
  refine ⟨_, rfl, ?_, fun name => ?_, Convert.field_definitions_clear r.fields⟩
  · rw [toJson, toJson, clear_fields_json]
  · rw [List.mem_filter, mem_addAll, List.mem_filter, List.mem_append, mem_field_dependencies,
      decide_eq_true_eq]
    tauto

/-- Registering a record returns its full name, which is registered afterwards. If the name is taken the
registry stays as it is. Otherwise the record is added at the end, with its own dependencies, the given
ones and those of the records inside it, which keep none; what is written of it does not change. -/
theorem registration_gathers (registry : Registry) (r : Record AvroType) (names : List String) :
    let (name, after) := Registry.register registry (.record r) names
    name = qualify r.ns r.name ∧ name ∈ definedNames after ∧
      (name ∈ definedNames registry → after = registry) ∧
      (name ∉ definedNames registry →
        ∃ entry, after = registry ++ [.record entry] ∧ RegisteredAs names r entry) := by
  refine ⟨rfl, ?_, fun taken => ?_, fun new => ?_⟩
  · exact Convert.contains_iff_defined.mp (Registry.contains_register registry _ names rfl)
  · exact if_pos (Convert.contains_iff_defined.mpr taken)
  · obtain ⟨entry, hentry, gathers⟩ := gather_registered_as names r
    refine ⟨entry, ?_, gathers⟩
    rw [← hentry]
    exact if_neg (mt Convert.contains_iff_defined.mp new)

end AvroDerive.AvroType
