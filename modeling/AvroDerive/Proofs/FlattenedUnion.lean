import AvroDerive.Proofs.UnionBranch

/-! # Flattened unions

A flattened union has the leaves of the given types: those that are no containers where they occur first,
and one array and one map for all leaves of these kinds. -/
namespace AvroDerive

section Distinct

variable {α : Type} [DecidableEq α]

theorem addAll_eq_append (xs ys : List α) :
    addAll xs ys = xs ++ (ys.filter (· ∉ xs)).eraseDups := by
  induction ys generalizing xs with
  | nil => simp
  | cons y ys ih =>
    rw [addAll_cons, ih, addNew]
    by_cases hy : y ∈ xs
    · rw [if_pos hy, List.filter_cons_of_neg (by simpa using hy)]
    · have later : ys.filter (· ∉ xs ++ [y]) = (ys.filter (· ∉ xs)).filter fun z => !z == y := by
        rw [List.filter_filter]
        refine List.filter_congr fun z _ => ?_
        by_cases hz : z = y <;> simp [hz]
      rw [if_neg hy, List.filter_cons_of_pos (by simpa using hy), List.eraseDups_cons, later,
        List.append_assoc, List.singleton_append]

/-- Repetitions are dropped where they occur again. -/
theorem distinct_eq_eraseDups (xs : List α) : distinct xs = xs.eraseDups := by
  rw [distinct, addAll_eq_append]
  simp

theorem filter_addAll (q : α → Bool) (xs ys : List α) :
    (addAll xs ys).filter q = addAll (xs.filter q) (ys.filter q) := by
  induction ys generalizing xs with
  | nil => rfl
  | cons y ys ih =>
    rw [addAll_cons, ih]
    by_cases hq : q y = true
    · rw [List.filter_cons_of_pos hq, addAll_cons]
      congr 1
      unfold addNew
      by_cases hy : y ∈ xs
      · rw [if_pos hy, if_pos (List.mem_filter.mpr ⟨hy, hq⟩)]
      · rw [if_neg hy, if_neg fun h => hy (List.mem_filter.mp h).1, List.filter_append,
          List.filter_cons_of_pos hq, List.filter_nil]
    · rw [List.filter_cons_of_neg hq]
      congr 1
      unfold addNew
      split
      · rfl
      · rw [List.filter_append, List.filter_cons_of_neg hq, List.filter_nil, List.append_nil]

end Distinct

namespace AvroType

/-- An array or a map. -/
def isContainer (t : AvroType) : Bool := t.isArray || t.isMap

section Flattened

variable {join : AvroType → AvroType → AvroType} {t : AvroType} {ts branches after : List AvroType}

theorem Added.others (h : Added join branches t after) :
    after.filter (!·.isContainer) = branches.filter (!·.isContainer) ++ [t].filter (!·.isContainer) := by
  cases h with
  | last => rw [List.filter_append]
  | array hsplit =>
    subst hsplit
    simp [isContainer, isArray]
  | map hsplit =>
    subst hsplit
    simp [isContainer, isArray, isMap]

theorem Added.any_array (h : Added join branches t after) :
    after.any isArray = (branches.any isArray || t.isArray) := by
  cases h with
  | last => simp
  | array hsplit =>
    subst hsplit
    simp [isArray]
  | map hsplit =>
    subst hsplit
    simp [isArray]

theorem Added.any_map (h : Added join branches t after) :
    after.any isMap = (branches.any isMap || t.isMap) := by
  cases h with
  | last => simp
  | array hsplit =>
    subst hsplit
    simp [isMap]
  | map hsplit =>
    subst hsplit
    simp [isMap]

theorem any_distinct (q : AvroType → Bool) (ts : List AvroType) : (distinct ts).any q = ts.any q := by
  rw [Bool.eq_iff_iff, List.any_eq_true, List.any_eq_true]
  simp only [mem_distinct]

/-- The branches that are no containers stay in the order in which they occur first. -/
theorem flatten_with_others (ts : List AvroType) :
    (flattenWith join ts).filter (!·.isContainer) =
      ((branchLeaves ts).filter (!·.isContainer)).eraseDups := by
  have fold : ∀ us branches : List AvroType,
      (us.foldl (addBranch join) branches).filter (!·.isContainer) =
        branches.filter (!·.isContainer) ++ us.filter (!·.isContainer) := by
    intro us
    induction us with
    | nil => simp
    | cons u us ih =>
      intro branches
      rw [List.foldl_cons, ih, (add_branch_added branches u).others, List.append_assoc,
        ← List.filter_append, List.singleton_append]
  rw [flattenWith, fold, List.filter_nil, List.nil_append, distinct, filter_addAll, List.filter_nil,
    ← distinct, distinct_eq_eraseDups]

/-- A kind of branches that is there exactly if a branch of this kind was added. -/
theorem flatten_with_any {q : AvroType → Bool}
    (hq : ∀ {branches t after}, Added join branches t after →
      after.any q = (branches.any q || q t)) (ts : List AvroType) :
    (flattenWith join ts).any q = (branchLeaves ts).any q := by
  have fold : ∀ us branches : List AvroType,
      (us.foldl (addBranch join) branches).any q = (branches.any q || us.any q) := by
    intro us
    induction us with
    | nil => simp
    | cons u us ih =>
      intro branches
      rw [List.foldl_cons, ih, hq (add_branch_added branches u), List.any_cons, Bool.or_assoc]
  rw [flattenWith, fold, any_distinct, List.any_nil, Bool.false_or]

/-- What is flattened is left alone. -/
theorem flatten_flatten (ts : List AvroType) : flatten (flatten ts) = flatten ts := by
  have flat : Flat (flatten ts) := flat_flatten_with ts
  have leaves : branchLeaves (flatten ts) = flatten ts := branch_leaves_of_simple flat.simple
  have alone : flatten (flatten ts) = branchLeaves (flatten ts) :=
    flatten_with_flat (leaves.symm ▸ flat) (leaves.symm ▸ flatten_with_nodup ts)
  rw [alone, leaves]

end Flattened

/-- Flattening gives different branches that are no unions, with one array and one map at most. Those
that are no containers are the leaves that are none, in the order in which they occur first; there is an
array, or a map, if there is one among the leaves. Flattening again changes nothing. -/
theorem union_flattened (ts : List AvroType) :
    ((flatten ts).Nodup ∧ (∀ b ∈ flatten ts, b.isUnion = false) ∧
      (flatten ts).countP isArray ≤ 1 ∧ (flatten ts).countP isMap ≤ 1) ∧
    (flatten ts).filter (!·.isContainer) = ((branchLeaves ts).filter (!·.isContainer)).eraseDups ∧
    ((∃ b ∈ flatten ts, b.isArray = true) ↔ ∃ t ∈ branchLeaves ts, t.isArray = true) ∧
    ((∃ b ∈ flatten ts, b.isMap = true) ↔ ∃ t ∈ branchLeaves ts, t.isMap = true) ∧
    flatten (flatten ts) = flatten ts := by
  have flat : Flat (flatten ts) := flat_flatten_with ts
  have arrays : (flatten ts).any isArray = (branchLeaves ts).any isArray :=
    flatten_with_any Added.any_array ts
  have maps : (flatten ts).any isMap = (branchLeaves ts).any isMap :=
    flatten_with_any Added.any_map ts
  refine ⟨⟨flatten_with_nodup ts, flat.simple, flat.arrays, flat.maps⟩, flatten_with_others ts,
    ?_, ?_, flatten_flatten ts⟩
  · rw [← List.any_eq_true, arrays, List.any_eq_true]
  · rw [← List.any_eq_true, maps, List.any_eq_true]

end AvroType

end AvroDerive
