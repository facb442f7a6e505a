import AvroDerive.Avro.Type

/-! # Equality of Avro types

Structural equality of Avro types, namespaces, documentation and dependency lists included, is
decidable.
-/

namespace AvroDerive.AvroType

mutual

def beq : AvroType → AvroType → Bool
  | .primitive a, .primitive b => a == b
  | .reference a, .reference b => a == b
  | .logical a l, .logical b k => a == b && l == k
  | .fixed a, .fixed b => a == b
  | .record a, .record b =>
    a.name == b.name && a.ns == b.ns && a.doc == b.doc && a.dependencies == b.dependencies &&
      beqFields a.fields b.fields
  | .enum a, .enum b => a == b
  | .array a, .array b => beq a b
  | .map a, .map b => beq a b
  | .union as, .union bs => beqBranches as bs
  | _, _ => false

def beqFields : List (Field AvroType) → List (Field AvroType) → Bool
  | [], [] => true
  | a :: as, b :: bs =>
    a.name == b.name && a.doc == b.doc && beq a.type b.type && beqFields as bs
  | _, _ => false

def beqBranches : List AvroType → List AvroType → Bool
  | [], [] => true
  | a :: as, b :: bs => beq a b && beqBranches as bs
  | _, _ => false

end

mutual

theorem beq_iff : ∀ a b : AvroType, beq a b = true ↔ a = b
  | .primitive _, b => by cases b <;> simp [beq]
  | .reference _, b => by cases b <;> simp [beq]
  | .logical _ _, b => by cases b <;> simp [beq]
  | .fixed _, b => by cases b <;> simp [beq]
  | .enum _, b => by cases b <;> simp [beq]
  | .array a, b => by cases b <;> simp [beq, beq_iff a]
  | .map a, b => by cases b <;> simp [beq, beq_iff a]
  | .union as, b => by cases b <;> simp [beq, beqBranches_iff_eq as]
  | .record a, b => by
    cases b with
    | record b =>
      simp only [beq, Bool.and_eq_true, beq_iff_eq, beqFields_iff_eq a.fields, record.injEq]
      cases a
      cases b
      grind
    | _ => simp [beq]

theorem beqFields_iff_eq : ∀ as bs : List (Field AvroType), beqFields as bs = true ↔ as = bs
  | [], bs => by cases bs <;> simp [beqFields]
  | a :: as, bs => by
    cases bs with
    | nil => simp [beqFields]
    | cons b bs =>
      simp only [beqFields, Bool.and_eq_true, beq_iff_eq, beq_iff a.type,
        beqFields_iff_eq as, List.cons.injEq]
      cases a
      cases b
      grind

theorem beqBranches_iff_eq : ∀ as bs : List AvroType, beqBranches as bs = true ↔ as = bs
  | [], bs => by cases bs <;> simp [beqBranches]
  | a :: as, bs => by
    cases bs <;> simp [beqBranches, beq_iff a, beqBranches_iff_eq as]

end

instance : DecidableEq AvroType := fun a b => decidable_of_iff _ (beq_iff a b)

end AvroDerive.AvroType
