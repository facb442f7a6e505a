/-! # Lists without repetition

An element joins a list at its end, and only if it is not there yet.
-/

namespace AvroDerive

variable {α : Type} [DecidableEq α]

def addNew (xs : List α) (x : α) : List α := if x ∈ xs then xs else xs ++ [x]

/-- Adds the elements of `ys` in order. -/
def addAll (xs ys : List α) : List α := ys.foldl addNew xs

/-- The elements of a list in the order of their first occurrences. -/
def distinct (xs : List α) : List α := addAll [] xs

@[simp] theorem addAll_nil (xs : List α) : addAll xs [] = xs := rfl

@[simp] theorem addAll_cons (xs ys : List α) (y : α) :
    addAll xs (y :: ys) = addAll (addNew xs y) ys := rfl

@[simp] theorem mem_addNew {xs : List α} {x y : α} : y ∈ addNew xs x ↔ y ∈ xs ∨ y = x := by
  unfold addNew
  split
  · constructor
    · exact Or.inl
    · rintro (h | rfl) <;> assumption
  · simp

@[simp] theorem mem_addAll {xs ys : List α} {y : α} : y ∈ addAll xs ys ↔ y ∈ xs ∨ y ∈ ys := by
  induction ys generalizing xs with
  | nil => simp
  | cons z ys ih => simp [ih, or_assoc]

theorem mem_distinct {xs : List α} {y : α} : y ∈ distinct xs ↔ y ∈ xs := by simp [distinct]

theorem addNew_nodup {xs : List α} (h : xs.Nodup) (x : α) : (addNew xs x).Nodup := by
  unfold addNew
  split
  · exact h
  · next hx => exact List.nodup_append.2 ⟨h, by simp, by grind⟩

theorem addAll_nodup {xs : List α} (h : xs.Nodup) (ys : List α) : (addAll xs ys).Nodup := by
  induction ys generalizing xs with
  | nil => exact h
  | cons y ys ih => exact ih (addNew_nodup h y)

theorem distinct_nodup (xs : List α) : (distinct xs).Nodup := addAll_nodup List.nodup_nil xs

end AvroDerive
