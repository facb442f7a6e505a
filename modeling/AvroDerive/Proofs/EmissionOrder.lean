import AvroDerive.Avro.Order
import Mathlib.Data.Fintype.Pigeonhole
import Mathlib.Logic.Relation

/-! # The emission order is a topological order

The types of a list form a graph on their names: a record leads to the other types of the list
that it depends on. Emission permutes the list, and apart from the types at which it breaks a cycle
it puts every type behind the types it leads to. -/
namespace AvroDerive.AvroType

open Relation

/-- The name of another type of the list that the type depends on. -/
def Successor (types : List AvroType) (t : AvroType) (name : String) : Prop :=
  name ∈ t.ownDependencies ∧ t.qualifiedName? ≠ some name ∧ name ∈ definedNames types

def Edge (types : List AvroType) (a b : String) : Prop :=
  ∃ t ∈ types, t.qualifiedName? = some a ∧ Successor types t b

/-- Whether a type depends on no other type of the list. -/
def isIndependent (types : List AvroType) (t : AvroType) : Bool :=
  t.ownDependencies.all fun name =>
    decide (t.qualifiedName? = some name) || !decide (name ∈ definedNames types)

theorem independent_iff {types : List AvroType} {t : AvroType} :
    isIndependent types t = true ↔ ∀ name, ¬ Successor types t name := by
  simp only [isIndependent, List.all_eq_true, Bool.or_eq_true, decide_eq_true_eq,
    Bool.not_eq_true', decide_eq_false_iff_not, Successor]
  constructor
  · rintro h name ⟨hd, hn, hk⟩
    exact (h name hd).elim hn fun hk' => hk' hk
  · intro h name hd
    by_contra hn
    push Not at hn
    exact h name ⟨hd, hn.1, hn.2⟩

section Ready

variable {known names : List String} {t : AvroType}

theorem ready_iff : isReady known names t = true ↔ ∀ name ∈ t.ownDependencies,
    t.qualifiedName? = some name ∨ name ∉ known ∨ name ∈ names := by
  simp only [isReady, List.all_eq_true, Bool.or_eq_true, decide_eq_true_eq, Bool.not_eq_true',
    decide_eq_false_iff_not, or_assoc]
  exact forall₂_congr fun _ _ => or_congr_left eq_comm

theorem independent_ready {types : List AvroType} (h : isIndependent types t = true) :
    isReady (definedNames types) names t = true := by
  rw [ready_iff]
  intro name hd
  by_contra hn
  push Not at hn
  exact independent_iff.mp h name ⟨hd, hn.1, hn.2.1⟩

/-- What is held back is a record, and a type it waits for is in the list and not emitted. -/
theorem not_ready (h : ¬ isReady known names t = true) :
    ∃ own, t.qualifiedName? = some own ∧
      ∃ name ∈ t.ownDependencies, name ≠ own ∧ name ∈ known ∧ name ∉ names := by
  rw [ready_iff] at h
  push Not at h
  obtain ⟨name, hd, hn, hk, he⟩ := h
  cases t with
  | record r =>
    exact ⟨qualify r.ns r.name, rfl, name, hd, fun h => hn (h ▸ rfl), hk, he⟩
  | _ => simp [ownDependencies] at hd

end Ready

@[simp] theorem defined_nil : definedNames [] = [] := rfl

theorem defined_cons (t : AvroType) (ts : List AvroType) :
    definedNames (t :: ts) = t.qualifiedName?.toList ++ definedNames ts := by
  cases h : t.qualifiedName? <;> simp [definedNames, h]

theorem defined_append (ts us : List AvroType) :
    definedNames (ts ++ us) = definedNames ts ++ definedNames us := by
  simp [definedNames]

theorem mem_defined {ts : List AvroType} {name : String} :
    name ∈ definedNames ts ↔ ∃ t ∈ ts, t.qualifiedName? = some name := by
  simp [definedNames]

section Pass

variable (known : List String)

theorem pass_perm (names : List String) (ts : List AvroType) :
    ((pass known names ts).emitted ++ (pass known names ts).held).Perm ts := by
  induction ts generalizing names with
  | nil => exact .refl _
  | cons t ts ih =>
    simp only [pass]
    split
    · exact (ih _).cons t
    · exact List.perm_middle.trans ((ih _).cons t)

theorem pass_names (names : List String) (ts : List AvroType) :
    (pass known names ts).names = names ++ definedNames (pass known names ts).emitted := by
  induction ts generalizing names with
  | nil => simp [pass]
  | cons t ts ih =>
    simp only [pass]
    split
    · rw [ih, defined_cons, List.append_assoc]
    · exact ih _

/-- When a pass reaches a type, the names before it in the result are emitted. -/
theorem pass_ready (names : List String) (ts : List AvroType) {before after : List AvroType}
    {t : AvroType} (h : (pass known names ts).emitted = before ++ t :: after) :
    isReady known (names ++ definedNames before) t = true := by
  induction ts generalizing names before with
  | nil => simp [pass] at h
  | cons u ts ih =>
    simp only [pass] at h
    split at h
    · next hu =>
      cases before with
      | nil =>
        obtain ⟨rfl, -⟩ := List.cons.inj h
        simpa using hu
      | cons v before =>
        obtain ⟨rfl, hb⟩ := List.cons.inj h
        rw [defined_cons, ← List.append_assoc]
        exact ih _ hb
    · exact ih _ h

/-- If a pass emits nothing, nothing is ready. -/
theorem pass_stuck (names : List String) (ts : List AvroType)
    (h : (pass known names ts).emitted = []) : ∀ t ∈ ts, ¬ isReady known names t = true := by
  induction ts with
  | nil => simp
  | cons u ts ih =>
    simp only [pass] at h
    split at h
    · simp at h
    · next hu =>
      intro t ht
      rcases List.mem_cons.mp ht with rfl | ht
      · exact hu
      · exact ih h t ht

/-- Types that are always ready leave a pass in their order, and none of them is held. -/
theorem pass_filter {p : AvroType → Bool} (names : List String) (ts : List AvroType)
    (hp : ∀ t names, p t = true → isReady known names t = true) :
    (pass known names ts).emitted.filter p = ts.filter p ∧
      (pass known names ts).held.filter p = [] := by
  induction ts generalizing names with
  | nil => simp [pass]
  | cons t ts ih =>
    simp only [pass]
    split
    · obtain ⟨he, hh⟩ := ih (names ++ t.qualifiedName?.toList)
      exact ⟨by simp only [List.filter_cons, he], hh⟩
    · next ht =>
      have hn : p t = false := by
        rw [← Bool.not_eq_true]
        exact fun h => ht (hp t names h)
      obtain ⟨he, hh⟩ := ih names
      exact ⟨by simp [hn, he], by simp [hn, hh]⟩

end Pass

theorem pass_held_length {known names : List String} {ts : List AvroType}
    (h : (pass known names ts).emitted ≠ []) : (pass known names ts).held.length < ts.length := by
  have hl := (pass_perm known names ts).length_eq
  have hp := List.length_pos_iff.mpr h
  rw [List.length_append] at hl
  omega

/-- A relation without an end on a finite set leads from each of its members into a cycle. -/
theorem reaches_cycle {r : String → String → Prop} (names : List String)
    (h : ∀ a ∈ names, ∃ b ∈ names, r a b) :
    ∀ a ∈ names, ∃ b, ReflTransGen r a b ∧ TransGen r b b := by
  choose next hn hr using h
  let step : {a // a ∈ names} → {a // a ∈ names} := fun a => ⟨next a.1 a.2, hn a.1 a.2⟩
  have path : ∀ k (a : {a // a ∈ names}), ReflTransGen r a.1 (step^[k] a).1 := by
    intro k
    induction k with
    | zero => exact fun a => .refl
    | succ k ih => exact fun a => .head (hr a.1 a.2) (ih (step a))
  intro a ha
  obtain ⟨i, j, hij, he⟩ := Finite.exists_ne_map_eq_of_infinite fun k : Nat => step^[k] ⟨a, ha⟩
  wlog hlt : i < j generalizing i j
  · exact this j i hij.symm he.symm (by omega)
  obtain ⟨k, rfl⟩ : ∃ k, j = k + 1 + i := ⟨j - i - 1, by omega⟩
  refine ⟨(step^[i] ⟨a, ha⟩).1, path i ⟨a, ha⟩, ?_⟩
  have round : step^[k] (step (step^[i] ⟨a, ha⟩)) = step^[i] ⟨a, ha⟩ := by
    rw [← Function.iterate_succ_apply, ← Function.iterate_add_apply]
    exact he.symm
  have back := path k (step (step^[i] ⟨a, ha⟩))
  rw [round] at back
  exact .head' (hr _ _) back

section Rounds

variable {known : List String}

theorem orderFrom_perm (rounds : Nat) (names : List String) (ts : List AvroType) :
    (orderFrom known rounds names ts).types.Perm ts := by
  induction rounds generalizing names ts with
  | zero => exact .refl _
  | succ rounds ih =>
    cases ts with
    | nil => exact .refl _
    | cons t ts =>
      simp only [orderFrom]
      split
      · exact (ih _ _).cons t
      · exact ((ih _ _).append_left _).trans (pass_perm known names (t :: ts))

/-- In the ordered list a type stands behind what it waits for, unless a cycle is broken there. -/
theorem orderFrom_ready (rounds : Nat) (names : List String) (ts : List AvroType)
    (hr : ts.length ≤ rounds) {before after : List AvroType} {t : AvroType}
    (h : (orderFrom known rounds names ts).types = before ++ t :: after)
    (hb : ∀ name, t.qualifiedName? = some name →
      name ∉ (orderFrom known rounds names ts).brokenAt) :
    isReady known (names ++ definedNames before) t = true := by
  induction rounds generalizing names ts before with
  | zero =>
    have : ts = [] := List.eq_nil_of_length_eq_zero (by omega)
    subst this
    simp [orderFrom] at h
  | succ rounds ih =>
    cases ts with
    | nil => simp [orderFrom] at h
    | cons u ts =>
      simp only [orderFrom] at h hb
      split at h
      · next he =>
        rw [if_pos he] at hb
        rw [List.isEmpty_iff] at he
        obtain ⟨own, hown, -⟩ := not_ready (pass_stuck known names _ he u (by simp))
        cases before with
        | nil =>
          obtain ⟨rfl, -⟩ := List.cons.inj h
          exact absurd (by simp [hown]) (hb own hown)
        | cons v before =>
          obtain ⟨rfl, hts⟩ := List.cons.inj h
          have := ih (names ++ [own]) ts (by simpa using hr) (by simpa [hown] using hts)
            fun name hn hm => hb name hn (by simpa [hown] using Or.inr hm)
          simpa [defined_cons, hown] using this
      · next he =>
        rw [if_neg he] at hb
        have hl : (pass known names (u :: ts)).held.length < (u :: ts).length :=
          pass_held_length fun hn => he (by simp [hn])
        rcases List.append_eq_append_iff.mp h with ⟨front, rfl, hts⟩ | ⟨back, hp, hts⟩
        · have := ih _ _ (by simp only [List.length_cons] at hl hr; omega) hts
            fun name hn => hb name hn
          rw [pass_names] at this
          simpa [defined_append] using this
        · cases back with
          | nil =>
            rw [List.nil_append] at hts
            have := ih _ _ (by simp only [List.length_cons] at hl hr; omega)
              (hts.symm.trans (List.nil_append _).symm) fun name hn => hb name hn
            rw [pass_names, hp] at this
            simpa using this
          | cons v back =>
            obtain ⟨rfl, -⟩ := List.cons.inj hts
            exact pass_ready known names _ hp

/-- Whatever remains is in the list, and what does not remain is emitted; so a type at which a
cycle is broken waits for types that remain, and these for others. -/
theorem orderFrom_broken {types : List AvroType} (rounds : Nat) (names : List String)
    (ts : List AvroType) (hs : ∀ t ∈ ts, t ∈ types)
    (hn : ∀ name ∈ definedNames types, name ∈ names ∨ name ∈ definedNames ts) :
    ∀ a ∈ (orderFrom (definedNames types) rounds names ts).brokenAt,
      ∃ b, ReflTransGen (Edge types) a b ∧ TransGen (Edge types) b b := by
  induction rounds generalizing names ts with
  | zero => simp [orderFrom]
  | succ rounds ih =>
    cases ts with
    | nil => simp [orderFrom]
    | cons u ts =>
      simp only [orderFrom]
      split
      · next he =>
        rw [List.isEmpty_iff] at he
        have stuck := pass_stuck (definedNames types) names _ he
        obtain ⟨own, hown, -⟩ := not_ready (stuck u (by simp))
        have waits : ∀ a ∈ definedNames (u :: ts), ∃ b ∈ definedNames (u :: ts),
            Edge types a b := by
          intro a ha
          obtain ⟨t, ht, hta⟩ := mem_defined.mp ha
          obtain ⟨a', hta', b, hd, hne, hk, hm⟩ := not_ready (stuck t ht)
          obtain rfl : a = a' := Option.some.inj (hta.symm.trans hta')
          exact ⟨b, (hn b hk).resolve_left hm, t, hs t ht, hta, hd,
            fun h => hne (Option.some.inj (hta.symm.trans h)).symm, hk⟩
        intro a ha
        simp only [hown, Option.getD_some, List.mem_cons] at ha
        rcases ha with rfl | ha
        · exact reaches_cycle _ waits a (by simp [defined_cons, hown])
        · refine ih (names ++ [own]) ts (fun t ht => hs t (by simp [ht])) ?_ a (by simpa using ha)
          intro name hk
          rcases hn name hk with h | h
          · exact Or.inl (by simp [h])
          · rw [defined_cons, hown] at h
            rcases List.mem_append.mp h with h | h
            · exact Or.inl (by simpa using Or.inr h)
            · exact Or.inr h
      · have hp := pass_perm (definedNames types) names (u :: ts)
        refine ih _ _ (fun t ht => hs t (hp.subset (by simp [ht]))) ?_
        intro name hk
        rw [pass_names]
        rcases hn name hk with h | h
        · exact Or.inl (by simp [h])
        · obtain ⟨t, ht, hname⟩ := mem_defined.mp h
          rcases List.mem_append.mp (hp.symm.subset ht) with ht | ht
          · exact Or.inl (List.mem_append_right _ (mem_defined.mpr ⟨t, ht, hname⟩))
          · exact Or.inr (mem_defined.mpr ⟨t, ht, hname⟩)

theorem orderFrom_filter {p : AvroType → Bool} (rounds : Nat) (names : List String)
    (ts : List AvroType) (hp : ∀ t names, p t = true → isReady known names t = true) :
    (orderFrom known rounds names ts).types.filter p = ts.filter p := by
  induction rounds generalizing names ts with
  | zero => rfl
  | succ rounds ih =>
    cases ts with
    | nil => rfl
    | cons u ts =>
      simp only [orderFrom]
      split
      · next he =>
        rw [List.filter_cons, ih, ← List.filter_cons]
      · obtain ⟨he, hh⟩ := pass_filter known names (u :: ts) hp
        rw [List.filter_append, ih, he, hh, List.append_nil]

end Rounds

/-- What the order of a list and the cycles broken in it have to do with the graph of the list. -/
structure IsTopological (types : List AvroType) (o : Ordered) : Prop where
  behind_successors : ∀ before t after, o.types = before ++ t :: after →
    (∀ name, t.qualifiedName? = some name → name ∉ o.brokenAt) →
    ∀ name, Successor types t name → name ∈ definedNames before
  broken_reaches_cycle : ∀ a ∈ o.brokenAt,
    ∃ b, ReflTransGen (Edge types) a b ∧ TransGen (Edge types) b b
  unbroken_iff_acyclic : o.brokenAt = [] ↔ ∀ a, ¬ TransGen (Edge types) a a
  independent_in_place : o.types.filter (isIndependent types) = types.filter (isIndependent types)

theorem order_behind (types : List AvroType) {before after : List AvroType} {t : AvroType}
    (h : (order types).types = before ++ t :: after)
    (hb : ∀ name, t.qualifiedName? = some name → name ∉ (order types).brokenAt)
    {name : String} (hs : Successor types t name) : name ∈ definedNames before := by
  have hr := orderFrom_ready types.length [] types le_rfl h hb
  rw [ready_iff] at hr
  obtain ⟨hd, hne, hk⟩ := hs
  rcases hr name hd with h | h | h
  · exact absurd h hne
  · exact absurd hk h
  · simpa using h

/-- Without a broken cycle every edge leads back in the order, so none closes a cycle. -/
theorem acyclic_of_unbroken {types : List AvroType} (hd : (definedNames types).Nodup)
    (hb : (order types).brokenAt = []) (a : String) : ¬ TransGen (Edge types) a a := by
  have hp : (order types).types.Perm types := orderFrom_perm types.length [] types
  have nodup : (definedNames (order types).types).Nodup :=
    (hp.filterMap qualifiedName?).nodup_iff.mpr hd
  let place := fun name => (definedNames (order types).types).idxOf name
  have back : ∀ a b, Edge types a b → place b < place a := by
    rintro a b ⟨t, ht, hta, hs⟩
    obtain ⟨before, after, hsplit⟩ := List.mem_iff_append.mp (hp.symm.subset ht)
    have hmem := order_behind types hsplit (by simp [hb]) hs
    have hsplit' : (order types).types = before ++ t :: after := hsplit
    simp only [place]
    rw [hsplit', defined_append, defined_cons, hta] at nodup ⊢
    have ha : a ∉ definedNames before := by
      intro h
      exact (List.nodup_append.mp nodup).2.2 a h a (by simp) rfl
    rw [List.idxOf_append_of_mem hmem, List.idxOf_append_of_notMem ha]
    have := List.idxOf_lt_length_of_mem hmem
    omega
  have down : ∀ a b, TransGen (Edge types) a b → place b < place a := by
    intro a b h
    induction h with
    | single h => exact back _ _ h
    | tail _ h ih => exact lt_trans (back _ _ h) ih
  exact fun h => lt_irrefl _ (down a a h)

theorem order_topological {types : List AvroType} (hd : (definedNames types).Nodup) :
    IsTopological types (order types) where
  behind_successors := fun _ _ _ h hb _ hs => order_behind types h hb hs
  broken_reaches_cycle := orderFrom_broken types.length [] types (fun _ h => h) fun _ => Or.inr
  unbroken_iff_acyclic := by
    refine ⟨acyclic_of_unbroken hd, fun h => ?_⟩
    apply List.eq_nil_iff_forall_not_mem.mpr
    intro a ha
    obtain ⟨b, -, hc⟩ := orderFrom_broken types.length [] types (fun _ h => h)
      (fun _ => Or.inr) a ha
    exact h b hc
  independent_in_place := orderFrom_filter types.length [] types fun _ _ => independent_ready

/-- Emission loses and adds no type, and with distinct names it is a topological order up to the
types at which it breaks a cycle. -/
theorem order_perm_topological (types : List AvroType) :
    (order types).types.Perm types ∧
      ((definedNames types).Nodup → IsTopological types (order types)) :=
  ⟨orderFrom_perm _ _ _, order_topological⟩

/-- Two records that depend on each other, and one that stands alone. -/
def mutualPair : List AvroType :=
  [.record { name := "A", ns := none, dependencies := ["B"] },
    .record { name := "B", ns := none, dependencies := ["A"] },
    .record { name := "C", ns := none }]

theorem mutual_pair_topological : (definedNames mutualPair).Nodup ∧
    IsTopological mutualPair (order mutualPair) := by
  have distinct : (definedNames mutualPair).Nodup := by decide
  exact ⟨distinct, (order_perm_topological mutualPair).2 distinct⟩

end AvroDerive.AvroType
