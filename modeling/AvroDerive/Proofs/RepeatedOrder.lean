import AvroDerive.Proofs.EmissionOrder

/-! # Ordering an ordered list

In an ordered list each type is ready when all before it are emitted, or nothing is ready from there on
and a cycle is broken. Types that stand like this are emitted as they stand: the passes over them fall
otherwise than those that put them in order, but they come to a stop at the same types. -/
namespace AvroDerive.AvroType

/-- The types stand in an order in which they can be emitted after the given names, one by one, and where
none of those that are left is ready a cycle is broken. -/
inductive Arranged (known : List String) : List String → Ordered → Prop
  | nil {names} : Arranged known names ⟨[], []⟩
  | ready {names t o} : isReady known names t = true →
    Arranged known (names ++ t.qualifiedName?.toList) o → Arranged known names ⟨t :: o.types, o.brokenAt⟩
  | broken {names t name o} : (∀ u ∈ t :: o.types, ¬ isReady known names u = true) →
    t.qualifiedName? = some name → Arranged known (names ++ [name]) o →
    Arranged known names ⟨t :: o.types, name :: o.brokenAt⟩

section Rounds

variable {known names : List String} {t : AvroType} {ts : List AvroType} {o : Ordered} {rounds : Nat}

/-- Only the set of the names in the list counts. -/
theorem Arranged.of_known {known' : List String} (hk : ∀ name, name ∈ known ↔ name ∈ known')
    (h : Arranged known names o) : Arranged known' names o := by
  have same : ∀ names t, isReady known names t = true ↔ isReady known' names t = true := by
    intro names t
    rw [ready_iff, ready_iff]
    simp only [hk]
  induction h with
  | nil => exact .nil
  | ready ht _ ih => exact .ready ((same _ _).mp ht) ih
  | broken hstuck hname _ ih => exact .broken (fun u hu h => hstuck u hu ((same _ _).mpr h)) hname ih

/-- A pass over types of which none is ready holds them all back. -/
theorem pass_of_stuck (h : ∀ t ∈ ts, ¬ isReady known names t = true) :
    pass known names ts = ⟨[], ts, names⟩ := by
  induction ts with
  | nil => rfl
  | cons t ts ih =>
    rw [List.forall_mem_cons] at h
    rw [pass, if_neg h.1, ih h.2]

/-- What a pass emits is arranged, in front of what is arranged after it. -/
theorem arranged_pass (names : List String) (ts : List AvroType)
    (h : Arranged known (pass known names ts).names o) :
    Arranged known names ⟨(pass known names ts).emitted ++ o.types, o.brokenAt⟩ := by
  induction ts generalizing names with
  | nil => exact h
  | cons t ts ih =>
    by_cases ht : isReady known names t = true
    · rw [pass, if_pos ht] at h ⊢
      exact .ready ht (ih _ h)
    · rw [pass, if_neg ht] at h ⊢
      exact ih _ h

theorem arranged_order_from (rounds : Nat) (names : List String) (ts : List AvroType)
    (hr : ts.length ≤ rounds) : Arranged known names (orderFrom known rounds names ts) := by
  induction rounds generalizing names ts with
  | zero =>
    obtain rfl : ts = [] := List.eq_nil_of_length_eq_zero (by omega)
    exact .nil
  | succ rounds ih =>
    cases ts with
    | nil => exact .nil
    | cons t ts =>
      rw [orderFrom]
      dsimp only
      split
      · next he =>
        have stuck := pass_stuck known names _ (List.isEmpty_iff.mp he)
        obtain ⟨own, hown, -⟩ := not_ready (stuck t List.mem_cons_self)
        rw [hown, Option.getD_some]
        refine .broken (fun u hu => stuck u ?_) hown (ih _ _ (Nat.le_of_succ_le_succ hr))
        exact ((orderFrom_perm rounds _ ts).cons t).subset hu
      · next he =>
        have fewer := pass_held_length fun hn => he (List.isEmpty_iff.mpr hn)
        exact arranged_pass names _ (ih _ _ (by omega))

/-- Rounds that are left over do not count. -/
theorem order_from_rounds {rounds' : Nat} (hr : ts.length ≤ rounds) (hr' : ts.length ≤ rounds') :
    orderFrom known rounds names ts = orderFrom known rounds' names ts := by
  induction rounds generalizing names ts rounds' with
  | zero =>
    obtain rfl : ts = [] := List.eq_nil_of_length_eq_zero (by omega)
    cases rounds' <;> rfl
  | succ rounds ih =>
    cases ts with
    | nil => cases rounds' <;> rfl
    | cons t ts =>
      obtain ⟨rounds', rfl⟩ : ∃ n, rounds' = n + 1 := ⟨rounds' - 1, by rw [List.length_cons] at hr'; omega⟩
      rw [orderFrom, orderFrom]
      dsimp only
      split
      · rw [ih (Nat.le_of_succ_le_succ hr) (Nat.le_of_succ_le_succ hr')]
      · next he =>
        have fewer := pass_held_length fun hn => he (List.isEmpty_iff.mpr hn)
        rw [@ih _ _ rounds' (by omega) (by omega)]

/-- A ready type in front is emitted first, and the others as they are without it. -/
theorem order_from_ready (ht : isReady known names t = true) (hr : ts.length ≤ rounds) :
    orderFrom known (rounds + 1) names (t :: ts) =
      ⟨t :: (orderFrom known rounds (names ++ t.qualifiedName?.toList) ts).types,
        (orderFrom known rounds (names ++ t.qualifiedName?.toList) ts).brokenAt⟩ := by
  rw [orderFrom, pass, if_pos ht]
  dsimp only
  rw [List.isEmpty_cons, if_neg Bool.false_ne_true]
  by_cases hn : (pass known (names ++ t.qualifiedName?.toList) ts).emitted = []
  · rw [pass_of_stuck (pass_stuck known _ ts hn)]
    rfl
  · obtain ⟨u, us, rfl⟩ : ∃ u us, ts = u :: us := List.exists_cons_of_ne_nil fun h => hn (by rw [h]; rfl)
    obtain ⟨rounds, rfl⟩ : ∃ n, rounds = n + 1 := ⟨rounds - 1, by rw [List.length_cons] at hr; omega⟩
    have fewer := pass_held_length hn
    have later := @order_from_rounds known (pass known (names ++ t.qualifiedName?.toList) (u :: us)).names
      (pass known (names ++ t.qualifiedName?.toList) (u :: us)).held (rounds + 1) rounds
      (by omega) (by omega)
    rw [later, orderFrom, if_neg (by simpa using hn)]
    rfl

/-- If nothing is ready, a cycle is broken at the first type. -/
theorem order_from_stuck {name : String} (h : ∀ u ∈ t :: ts, ¬ isReady known names u = true)
    (hname : t.qualifiedName? = some name) :
    orderFrom known (rounds + 1) names (t :: ts) =
      ⟨t :: (orderFrom known rounds (names ++ [name]) ts).types,
        name :: (orderFrom known rounds (names ++ [name]) ts).brokenAt⟩ := by
  rw [orderFrom, pass_of_stuck h, hname]
  rfl

/-- What is arranged is emitted as it stands. -/
theorem order_from_arranged (h : Arranged known names o) (hr : o.types.length ≤ rounds) :
    orderFrom known rounds names o.types = o := by
  induction h generalizing rounds with
  | nil => cases rounds <;> rfl
  | ready ht _ ih =>
    obtain ⟨rounds, rfl⟩ : ∃ n, rounds = n + 1 := ⟨rounds - 1, by rw [List.length_cons] at hr; omega⟩
    have left := Nat.le_of_succ_le_succ hr
    rw [order_from_ready ht left, ih left]
  | broken hstuck hname _ ih =>
    obtain ⟨rounds, rfl⟩ : ∃ n, rounds = n + 1 := ⟨rounds - 1, by rw [List.length_cons] at hr; omega⟩
    rw [order_from_stuck hstuck hname, ih (Nat.le_of_succ_le_succ hr)]

end Rounds

/-- Ordering an ordered list leaves it as it is, and breaks the same cycles at the same types, whatever
names, repetitions and cycles there are. -/
theorem order_ordered (types : List AvroType) : order (order types).types = order types := by
  have perm : (order types).types.Perm types := orderFrom_perm types.length [] types
  have known : ∀ name, name ∈ definedNames types ↔ name ∈ definedNames (order types).types :=
    fun name => (perm.filterMap qualifiedName?).symm.mem_iff
  have arranged : Arranged (definedNames types) [] (order types) :=
    arranged_order_from types.length [] types le_rfl
  exact order_from_arranged (arranged.of_known known) le_rfl

end AvroDerive.AvroType
