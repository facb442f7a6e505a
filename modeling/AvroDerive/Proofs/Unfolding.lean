import AvroDerive.Avro.Equality
import AvroDerive.Avro.Inline
import AvroDerive.Avro.Order
import AvroDerive.Proofs.EmissionOrder
import AvroDerive.Proofs.Mention

/-! # The trees that types stand for

A type is written with definitions and with references to their names. It stands for the tree in
which every reference is replaced by the definition of its name. Types refer to each other in circles,
so the tree may be infinite and is looked at down to a depth. -/
namespace AvroDerive.AvroType

mutual

/-- The definitions that a type is written with, in pre-order. -/
def definitions : AvroType → List AvroType
  | .record r => .record r :: fieldDefinitions r.fields
  | .enum e => [.enum e]
  | .fixed f => [.fixed f]
  | .array items => items.definitions
  | .map values => values.definitions
  | .union branches => branchDefinitions branches
  | _ => []

def fieldDefinitions : List (Field AvroType) → List AvroType
  | [] => []
  | f :: fs => f.type.definitions ++ fieldDefinitions fs

def branchDefinitions : List AvroType → List AvroType
  | [] => []
  | t :: ts => t.definitions ++ branchDefinitions ts

end

/-- Definitions of the same name are equal. -/
def Consistent (ds : List AvroType) : Prop :=
  ∀ d ∈ ds, ∀ e ∈ ds, d.qualifiedName? = e.qualifiedName? → d = e

instance (ds : List AvroType) : Decidable (Consistent ds) :=
  inferInstanceAs (Decidable (∀ d ∈ ds, ∀ e ∈ ds, d.qualifiedName? = e.qualifiedName? → d = e))

/-- Replaces the types that a type is directly made of. -/
def overParts (g : AvroType → AvroType) : AvroType → AvroType
  | .record r => .record { r with fields := r.fields.map fun f => { f with type := g f.type } }
  | .array items => .array (g items)
  | .map values => .map (g values)
  | .union branches => .union (branches.map g)
  | t => t

/-- The definition that a reference leads to, among the given ones. -/
def resolve (ds : List AvroType) : AvroType → AvroType
  | .reference name => (lookup? ds name).getD (.reference name)
  | t => t

/-- The tree of a type down to a depth, where references lead to the given definitions. An empty
union stands for what is cut off. -/
def tree (ds : List AvroType) : Nat → AvroType → AvroType
  | 0, _ => .union []
  | depth + 1, t => overParts (tree ds depth) (resolve ds t)

section Definitions

theorem branch_definitions_eq (ts : List AvroType) :
    branchDefinitions ts = ts.flatMap definitions := by
  induction ts with
  | nil => rfl
  | cons t ts ih => rw [branchDefinitions, ih, List.flatMap_cons]

theorem named_of_qualified {t : AvroType} {name : String} (h : t.qualifiedName? = some name) :
    t.isNamed = true := by
  cases t <;> simp_all [qualifiedName?, name?, isNamed]

/-- A named type is itself the first of its definitions. -/
theorem named_definition {t : AvroType} {name : String} (h : t.qualifiedName? = some name) :
    t ∈ t.definitions := by
  cases t <;> simp_all [qualifiedName?, name?, definitions]

mutual

theorem definition_named : (t : AvroType) → ∀ d ∈ t.definitions, d.isNamed = true
  | .record r, d, h => by
    rw [definitions, List.mem_cons] at h
    rcases h with rfl | h
    · rfl
    · exact field_definition_named r.fields d h
  | .enum _, d, h => by
    obtain rfl := List.mem_singleton.mp h
    rfl
  | .fixed _, d, h => by
    obtain rfl := List.mem_singleton.mp h
    rfl
  | .array items, d, h => definition_named items d h
  | .map values, d, h => definition_named values d h
  | .union branches, d, h => branch_definition_named branches d h

theorem field_definition_named : (fs : List (Field AvroType)) →
    ∀ d ∈ fieldDefinitions fs, d.isNamed = true
  | f :: fs, d, h => by
    rw [fieldDefinitions, List.mem_append] at h
    exact h.elim (definition_named f.type d) (field_definition_named fs d)

theorem branch_definition_named : (ts : List AvroType) →
    ∀ d ∈ branchDefinitions ts, d.isNamed = true
  | t :: ts, d, h => by
    rw [branchDefinitions, List.mem_append] at h
    exact h.elim (definition_named t d) (branch_definition_named ts d)

end

mutual

/-- The names that a type defines are those of its definitions, in the same order. -/
theorem introduced_mentions (place : Place) : (t : AvroType) →
    introduced (t.mentions place) = definedNames t.definitions
  | .record r => by
    rw [mentions, introduced_defines, introduced_fields r.name r.fields]
    rfl
  | .enum _ | .fixed _ => rfl
  | .array items => introduced_mentions none items
  | .map values => introduced_mentions none values
  | .union branches => introduced_branches place branches
  | .primitive _ | .reference _ | .logical _ _ => rfl

theorem introduced_fields (owner : String) : (fs : List (Field AvroType)) →
    introduced (fieldMentions owner fs) = definedNames (fieldDefinitions fs)
  | [] => rfl
  | f :: fs => by
    rw [fieldMentions, fieldDefinitions, introduced_append, defined_append,
      introduced_mentions _ f.type, introduced_fields owner fs]

theorem introduced_branches (place : Place) : (ts : List AvroType) →
    introduced (branchMentions place ts) = definedNames (branchDefinitions ts)
  | [] => rfl
  | t :: ts => by
    rw [branchMentions, branchDefinitions, introduced_append, defined_append,
      introduced_mentions place t, introduced_branches place ts]

end

theorem record_names (r : Record AvroType) : definedNames (definitions (.record r)) =
    qualify r.ns r.name :: definedNames (fieldDefinitions r.fields) := rfl

theorem defined_subset {ds es : List AvroType} (h : ds ⊆ es) :
    definedNames ds ⊆ definedNames es := by
  intro name hn
  obtain ⟨d, hd, hname⟩ := mem_defined.mp hn
  exact mem_defined.mpr ⟨d, h hd, hname⟩

mutual

/-- The definitions inside a definition of a type are among those of the type. -/
theorem definitions_inside : (t : AvroType) → ∀ d ∈ t.definitions,
    d.definitions ⊆ t.definitions
  | .record r, d, h => by
    rw [definitions, List.mem_cons] at h
    rcases h with rfl | h
    · rw [definitions]
      exact List.Subset.refl _
    · exact List.subset_cons_of_subset _ (field_definitions_inside r.fields d h)
  | .enum _, d, h => by
    obtain rfl := List.mem_singleton.mp h
    exact List.Subset.refl _
  | .fixed _, d, h => by
    obtain rfl := List.mem_singleton.mp h
    exact List.Subset.refl _
  | .array items, d, h => definitions_inside items d h
  | .map values, d, h => definitions_inside values d h
  | .union branches, d, h => branch_definitions_inside branches d h

theorem field_definitions_inside : (fs : List (Field AvroType)) → ∀ d ∈ fieldDefinitions fs,
    d.definitions ⊆ fieldDefinitions fs
  | f :: fs, d, h => by
    rw [fieldDefinitions, List.mem_append] at h
    rcases h with h | h
    · exact List.subset_append_of_subset_left _ (definitions_inside f.type d h)
    · exact List.subset_append_of_subset_right _ (field_definitions_inside fs d h)

theorem branch_definitions_inside : (ts : List AvroType) → ∀ d ∈ branchDefinitions ts,
    d.definitions ⊆ branchDefinitions ts
  | t :: ts, d, h => by
    rw [branchDefinitions, List.mem_append] at h
    rcases h with h | h
    · exact List.subset_append_of_subset_left _ (definitions_inside t d h)
    · exact List.subset_append_of_subset_right _ (branch_definitions_inside ts d h)

end

end Definitions

section Lookup

variable {ds : List AvroType} {d : AvroType} {name : String}

theorem lookup_isSome_iff : (lookup? ds name).isSome ↔ name ∈ definedNames ds := by
  simp [lookup?, mem_defined]

theorem lookup_eq_none (h : name ∉ definedNames ds) : lookup? ds name = none := by
  simpa [← lookup_isSome_iff] using h

theorem name_of_lookup (h : lookup? ds name = some d) : d ∈ ds ∧ d.qualifiedName? = some name :=
  ⟨List.mem_of_find?_eq_some h, by simpa using List.find?_some h⟩

/-- Among consistent definitions there is one for each name. -/
theorem lookup_of_consistent (h : Consistent ds) (hd : d ∈ ds)
    (hname : d.qualifiedName? = some name) : lookup? ds name = some d := by
  cases hl : lookup? ds name with
  | none =>
    rw [lookup?, List.find?_eq_none] at hl
    exact absurd (decide_eq_true hname) (hl d hd)
  | some e =>
    obtain ⟨he, hname'⟩ := name_of_lookup hl
    rw [h e he d hd (hname'.trans hname.symm)]

/-- A type that is no reference is where it leads to. -/
theorem resolve_named (ds : List AvroType) (h : d.isNamed = true) : resolve ds d = d := by
  cases d <;> simp_all [resolve, isNamed]

end Lookup

end AvroDerive.AvroType
