import AvroDerive.Avro.Registry

/-! # Names that types define and refer to

Read in pre-order, a type defines names and refers to names. A reference that is the type of a
field, or a branch of it, stands in a place: that field of that record. -/
namespace AvroDerive

/-- The names of a record and of its field; none for what stands in an array or a map. -/
abbrev Place := Option (String × String)

inductive Mention where
  | defines (name : String)
  | refers (place : Place) (name : String)
  deriving DecidableEq

/-- The names that are defined, in order. -/
def introduced (ms : List Mention) : List String :=
  ms.filterMap fun m => match m with
    | .defines name => some name
    | .refers _ _ => none

@[simp] theorem introduced_append (ms ns : List Mention) :
    introduced (ms ++ ns) = introduced ms ++ introduced ns := by
  simp [introduced]

@[simp] theorem introduced_nil : introduced [] = [] := rfl

@[simp] theorem introduced_defines (name : String) (ms : List Mention) :
    introduced (.defines name :: ms) = name :: introduced ms := rfl

@[simp] theorem introduced_refers (place : Place) (name : String) (ms : List Mention) :
    introduced (.refers place name :: ms) = introduced ms := rfl

namespace AvroType

mutual

def mentions (place : Place) : AvroType → List Mention
  | .reference name => [.refers place name]
  | .record r => .defines (qualify r.ns r.name) :: fieldMentions r.name r.fields
  | .enum e => [.defines (qualify e.ns e.name)]
  | .fixed f => [.defines (qualify f.ns f.name)]
  | .array items => items.mentions none
  | .map values => values.mentions none
  | .union branches => branchMentions place branches
  | _ => []

def fieldMentions (owner : String) : List (Field AvroType) → List Mention
  | [] => []
  | f :: fs => f.type.mentions (some (owner, f.name)) ++ fieldMentions owner fs

def branchMentions (place : Place) : List AvroType → List Mention
  | [] => []
  | t :: ts => t.mentions place ++ branchMentions place ts

end

theorem field_mentions_eq (owner : String) (fs : List (Field AvroType)) :
    fieldMentions owner fs = fs.flatMap fun f => f.type.mentions (some (owner, f.name)) := by
  induction fs with
  | nil => rfl
  | cons f fs ih => rw [fieldMentions, ih, List.flatMap_cons]

theorem branch_mentions_eq (place : Place) (ts : List AvroType) :
    branchMentions place ts = ts.flatMap (mentions place) := by
  induction ts with
  | nil => rfl
  | cons t ts ih => rw [branchMentions, ih, List.flatMap_cons]

/-- A named type begins with the definition of its name. -/
theorem mentions_begin {t : AvroType} {name : String} (h : t.qualifiedName? = some name)
    (place : Place) : ∃ rest, t.mentions place = .defines name :: rest := by
  cases t <;> simp_all [qualifiedName?, name?, ns?, mentions]

theorem mentions_named {t : AvroType} {name : String} (h : t.qualifiedName? = some name)
    (place : Place) : name ∈ introduced (t.mentions place) := by
  obtain ⟨rest, hrest⟩ := mentions_begin h place
  rw [hrest, introduced_defines]
  exact List.mem_cons_self ..

theorem clear_name (t : AvroType) : t.clearDependencies.name? = t.name? := by
  cases t <;> rfl

theorem clear_ns (t : AvroType) : t.clearDependencies.ns? = t.ns? := by
  cases t <;> rfl

theorem qualified_clear (t : AvroType) : t.clearDependencies.qualifiedName? = t.qualifiedName? := by
  cases t <;> rfl

mutual

theorem clear_clear : (t : AvroType) →
    t.clearDependencies.clearDependencies = t.clearDependencies
  | .record r => by simp only [clearDependencies, clear_fields_clear r.fields]
  | .array items => by simp only [clearDependencies, clear_clear items]
  | .map values => by simp only [clearDependencies, clear_clear values]
  | .union branches => by simp only [clearDependencies, clear_branches_clear branches]
  | .primitive _ | .reference _ | .logical _ _ | .fixed _ | .enum _ => rfl

theorem clear_fields_clear : (fs : List (Field AvroType)) →
    clearFields (clearFields fs) = clearFields fs
  | [] => rfl
  | f :: fs => by simp only [clearFields, clear_clear f.type, clear_fields_clear fs]

theorem clear_branches_clear : (ts : List AvroType) →
    clearBranches (clearBranches ts) = clearBranches ts
  | [] => rfl
  | t :: ts => by simp only [clearBranches, clear_clear t, clear_branches_clear ts]

end

/-- Registering changes nothing but dependency lists. -/
theorem clear_gather (dependencies : List String) (t : AvroType) :
    (Registry.gather dependencies t).clearDependencies = t.clearDependencies := by
  cases t with
  | record r => simp only [Registry.gather, clearDependencies, clear_fields_clear]
  | _ => rfl

mutual

/-- Dependency lists are no part of what a type mentions. -/
theorem mentions_clear (place : Place) : (t : AvroType) →
    t.clearDependencies.mentions place = t.mentions place
  | .record r => by
    simp only [clearDependencies, mentions]
    rw [field_mentions_clear r.name r.fields]
  | .array items => by
    simp only [clearDependencies, mentions]
    exact mentions_clear none items
  | .map values => by
    simp only [clearDependencies, mentions]
    exact mentions_clear none values
  | .union branches => by
    simp only [clearDependencies, mentions]
    exact branch_mentions_clear place branches
  | .primitive _ | .reference _ | .logical _ _ | .fixed _ | .enum _ => rfl

theorem field_mentions_clear (owner : String) : (fs : List (Field AvroType)) →
    fieldMentions owner (clearFields fs) = fieldMentions owner fs
  | [] => rfl
  | f :: fs => by
    simp only [clearFields, fieldMentions]
    rw [mentions_clear _ f.type, field_mentions_clear owner fs]

theorem branch_mentions_clear (place : Place) : (ts : List AvroType) →
    branchMentions place (clearBranches ts) = branchMentions place ts
  | [] => rfl
  | t :: ts => by
    simp only [clearBranches, branchMentions]
    rw [mentions_clear place t, branch_mentions_clear place ts]

end

theorem mentions_gather (dependencies : List String) (t : AvroType) (place : Place) :
    (Registry.gather dependencies t).mentions place = t.mentions place := by
  cases t with
  | record r => simp only [Registry.gather, mentions, field_mentions_clear]
  | _ => rfl

/-- Every reference of a type satisfies a condition on its place and its name. -/
def AllRefer (q : Place → String → Prop) (place : Place) (t : AvroType) : Prop :=
  ∀ p name, Mention.refers p name ∈ t.mentions place → q p name

section AllRefer

variable {q : Place → String → Prop} {place : Place}

@[simp] theorem all_refer_primitive {name : String} : AllRefer q place (.primitive name) := by
  simp [AllRefer, mentions]

@[simp] theorem all_refer_logical {base logicalType : String} :
    AllRefer q place (.logical base logicalType) := by
  simp [AllRefer, mentions]

@[simp] theorem all_refer_fixed {f : Fixed} : AllRefer q place (.fixed f) := by
  simp [AllRefer, mentions]

@[simp] theorem all_refer_enum {e : Enumeration} : AllRefer q place (.enum e) := by
  simp [AllRefer, mentions]

@[simp] theorem all_refer_reference {name : String} :
    AllRefer q place (.reference name) ↔ q place name := by
  simp [AllRefer, mentions]

@[simp] theorem all_refer_array {items : AvroType} :
    AllRefer q place (.array items) ↔ AllRefer q none items := Iff.rfl

@[simp] theorem all_refer_map {values : AvroType} :
    AllRefer q place (.map values) ↔ AllRefer q none values := Iff.rfl

@[simp] theorem all_refer_union {branches : List AvroType} :
    AllRefer q place (.union branches) ↔ ∀ t ∈ branches, AllRefer q place t := by
  simp only [AllRefer, mentions, branch_mentions_eq, List.mem_flatMap]
  grind

@[simp] theorem all_refer_record {r : Record AvroType} : AllRefer q place (.record r) ↔
    ∀ f ∈ r.fields, AllRefer q (some (r.name, f.name)) f.type := by
  simp only [AllRefer, mentions, field_mentions_eq, List.mem_cons, reduceCtorEq, false_or,
    List.mem_flatMap]
  grind

@[simp] theorem all_refer_clear {t : AvroType} :
    AllRefer q place t.clearDependencies ↔ AllRefer q place t := by
  rw [AllRefer, mentions_clear, AllRefer]

theorem AllRefer.imp {q' : Place → String → Prop} {t : AvroType} (h : AllRefer q place t)
    (hq : ∀ p name, q p name → q' p name) : AllRefer q' place t :=
  fun p name hm => hq p name (h p name hm)

/-- The references in a named type do not depend on where it stands. -/
theorem AllRefer.named {t : AvroType} (h : AllRefer q place t) (hn : t.isNamed = true)
    (place' : Place) : AllRefer q place' t := by
  cases t with
  | record r =>
    rw [all_refer_record] at h ⊢
    exact h
  | enum e => exact all_refer_enum
  | fixed f => exact all_refer_fixed
  | _ => simp [isNamed] at hn

end AllRefer

end AvroType

end AvroDerive
