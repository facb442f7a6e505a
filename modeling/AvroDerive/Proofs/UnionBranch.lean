import AvroDerive.Proofs.KeywordType
import AvroDerive.Proofs.TypePart

/-! # Branches of unions

Flattening gives different branches and makes up none that has a name. Types of which the unions have
flat and different branches already are flattened to just these. -/
namespace AvroDerive

theorem addAll_of_nodup {α : Type} [DecidableEq α] {xs ys : List α} (h : (xs ++ ys).Nodup) :
    addAll xs ys = xs ++ ys := by
  induction ys generalizing xs with
  | nil => simp
  | cons y ys ih =>
    have new : y ∉ xs := fun hy => (List.nodup_append.mp h).2.2 y hy y List.mem_cons_self rfl
    have moved : xs ++ y :: ys = (xs ++ [y]) ++ ys := by simp
    rw [addAll_cons, addNew, if_neg new, moved]
    rw [moved] at h
    exact ih h

/-- A list without repetition stays as it is. -/
theorem distinct_of_nodup {α : Type} [DecidableEq α] {xs : List α} (h : xs.Nodup) :
    distinct xs = xs :=
  addAll_of_nodup (show ([] ++ xs).Nodup from h)

namespace AvroType

open Schema

/-- The qualified name that a branch of a union goes by: that of its definition, or the one it refers
to. -/
def fullName? : AvroType → Option String
  | .reference name => some name
  | t => t.qualifiedName?

/-- If the type is a union, its branches are flat and different. -/
def Tidy (t : AvroType) : Prop :=
  ∀ branches, t = .union branches → Flat branches ∧ branches.Nodup

section Leaves

variable {t b : AvroType} {ts : List AvroType}

theorem leaves_of_simple (h : t.isUnion = false) : t.leaves = [t] := by
  cases t <;> simp_all [leaves, isUnion]

theorem branch_leaves_of_simple (h : ∀ t ∈ ts, t.isUnion = false) : branchLeaves ts = ts := by
  induction ts with
  | nil => rfl
  | cons t ts ih =>
    rw [List.forall_mem_cons] at h
    rw [branchLeaves, leaves_of_simple h.1, ih h.2, List.singleton_append]

theorem tidy_of_simple (h : t.isUnion = false) : t.Tidy := by
  rintro branches rfl
  simp [isUnion] at h

theorem tidy_union (hflat : Flat ts) (h : ts.Nodup) : (union ts).Tidy := by
  intro branches he
  obtain rfl := union.inj he
  exact ⟨hflat, h⟩

theorem tidy_unwrap (hflat : Flat ts) (h : ts.Nodup) : (unwrap ts).Tidy := by
  unfold unwrap
  split
  · next t => exact tidy_of_simple (hflat.simple t (List.mem_singleton_self t))
  · exact tidy_union hflat h

theorem Tidy.leaves (h : t.Tidy) : Flat t.leaves ∧ t.leaves.Nodup := by
  cases t with
  | union branches =>
    obtain ⟨hflat, hn⟩ := h branches rfl
    rw [AvroType.leaves, branch_leaves_of_simple hflat.simple]
    exact ⟨hflat, hn⟩
  | _ => exact ⟨flat_single rfl, List.nodup_singleton _⟩

mutual

/-- A type that says something has a leaf. -/
theorem leaf_of_useful : (t : AvroType) → t.isEmpty = false → t.leaves ≠ []
  | .union branches, h => branch_leaf_of_useful branches h
  | .record _, _ | .array _, _ | .map _, _ | .primitive _, _
  | .reference _, _ | .logical _ _, _ | .fixed _, _ | .enum _, _ => List.cons_ne_nil _ _

theorem branch_leaf_of_useful : (ts : List AvroType) → allEmpty ts = false → branchLeaves ts ≠ []
  | [], h => by simp [allEmpty] at h
  | t :: ts, h => by
    rw [allEmpty, Bool.and_eq_false_iff] at h
    rw [branchLeaves, ne_eq, List.append_eq_nil_iff, not_and_or]
    exact h.imp (leaf_of_useful t) (branch_leaf_of_useful ts)

end

end Leaves

section Flatten

variable {join : AvroType → AvroType → AvroType} {b : AvroType} {ts us : List AvroType}

theorem Added.ne_nil {t : AvroType} (h : Added join us t ts) : ts ≠ [] := by
  cases h <;> simp

/-- Branches of which no two are containers of one kind are added as they are. -/
theorem fold_one_each_eq (h : OneEach (ts ++ us)) : us.foldl (addBranch join) ts = ts ++ us := by
  induction us generalizing ts with
  | nil => simp
  | cons u us ih =>
    have added : addBranch join ts u = ts ++ [u] := by
      obtain ⟨arrays, maps⟩ := h
      have step : Added join ts u (addBranch join ts u) := add_branch_added ts u
      generalize addBranch join ts u = after at step
      cases step with
      | last => rfl
      | array hsplit =>
        subst hsplit
        simp only [List.countP_append, List.countP_cons, isArray] at arrays
        simp at arrays
        omega
      | map hsplit =>
        subst hsplit
        simp only [List.countP_append, List.countP_cons, isMap] at maps
        simp at maps
        omega
    have moved : ts ++ u :: us = (ts ++ [u]) ++ us := by simp
    rw [List.foldl_cons, added, moved]
    rw [moved] at h
    exact ih h

/-- Flat and different branches are left alone. -/
theorem flatten_with_flat (hflat : Flat (branchLeaves ts)) (h : (branchLeaves ts).Nodup) :
    flattenWith join ts = branchLeaves ts := by
  rw [flattenWith, distinct_of_nodup h, fold_one_each_eq ⟨hflat.arrays, hflat.maps⟩, List.nil_append]

/-- How often a branch that is no container occurs in a flattened union. -/
theorem count_flatten_with (harray : b.isArray = false) (hmap : b.isMap = false) :
    (flattenWith join ts).count b = (distinct (branchLeaves ts)).count b := by
  have array : ∀ t, (AvroType.array t == b) = false := by
    intro t
    rw [beq_eq_false_iff_ne]
    rintro rfl
    simp [isArray] at harray
  have map : ∀ t, (AvroType.map t == b) = false := by
    intro t
    rw [beq_eq_false_iff_ne]
    rintro rfl
    simp [isMap] at hmap
  rw [flattenWith, List.count_eq_countP, fold_counts array map, List.countP_nil, Nat.zero_add,
    List.count_eq_countP]

/-- Flattening gives different branches. -/
theorem flatten_with_nodup (ts : List AvroType) : (flattenWith join ts).Nodup := by
  have flat : Flat (flattenWith join ts) := flat_flatten_with ts
  have only : ∀ {q : AvroType → Bool} {b : AvroType}, q b = true →
      (flattenWith join ts).countP q ≤ 1 → (flattenWith join ts).count b ≤ 1 := by
    intro q b hq hcount
    refine le_trans (List.countP_mono_left fun t _ ht => ?_) hcount
    rw [eq_of_beq ht]
    exact hq
  rw [List.nodup_iff_count_le_one]
  intro b
  by_cases harray : b.isArray = true
  · exact only harray flat.arrays
  · by_cases hmap : b.isMap = true
    · exact only hmap flat.maps
    · rw [count_flatten_with (by simpa using harray) (by simpa using hmap)]
      exact List.nodup_iff_count_le_one.mp (distinct_nodup _) b

/-- A named branch of a flattened union is one of the branches that were there. -/
theorem leaf_of_flatten (h : b ∈ flattenWith join ts) (hname : b.fullName? ≠ none) :
    b ∈ branchLeaves ts := by
  have harray : b.isArray = false := by
    cases b <;> simp_all [fullName?, qualifiedName?, name?, isArray]
  have hmap : b.isMap = false := by
    cases b <;> simp_all [fullName?, qualifiedName?, name?, isMap]
  rw [← List.count_pos_iff, count_flatten_with harray hmap, List.count_pos_iff] at h
  exact mem_distinct.mp h

theorem flatten_with_ne_nil (h : branchLeaves ts ≠ []) : flattenWith join ts ≠ [] := by
  obtain ⟨u, hu⟩ := List.exists_mem_of_ne_nil _ h
  have there : distinct (branchLeaves ts) ≠ [] := List.ne_nil_of_mem (mem_distinct.mpr hu)
  rw [flattenWith, ← List.dropLast_append_getLast there, List.foldl_append]
  exact (add_branch_added _ _).ne_nil

theorem tidy_flatten (ts : List AvroType) : (union (flatten ts)).Tidy :=
  tidy_union (flat_flatten_with ts) (flatten_with_nodup ts)

theorem tidy_union_of (ts : List AvroType) : (unionOf ts).Tidy :=
  tidy_unwrap (flat_flatten_with ts) (flatten_with_nodup ts)

/-- A tidy type alone is flattened to its branches. -/
theorem Tidy.flatten {t : AvroType} (h : t.Tidy) : flatten [t] = t.leaves := by
  have alone : branchLeaves [t] = t.leaves := by rw [branchLeaves, branchLeaves, List.append_nil]
  rw [AvroType.flatten, flatten_with_flat, alone]
  · exact alone ▸ h.leaves.1
  · exact alone ▸ h.leaves.2

end Flatten

end AvroType

end AvroDerive
