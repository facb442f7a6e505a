import AvroDerive.Convert.Document

/-! # Successful runs

A computation that succeeds from a state takes it to another one and yields a value. Such a run is
taken apart along the computation. -/
namespace AvroDerive

/-- The run from the first state succeeds, with the value and the second state. -/
def Run.Yields {α : Type} (x : Run α) (s : State) (a : α) (s' : State) : Prop :=
  x.run.run s = (.ok a, s')

/-- A computation that gathers names, run with the names so far. -/
def Build.Yields {α : Type} (x : Build α) (names : List String) (s : State) (a : α)
    (names' : List String) (s' : State) : Prop :=
  Run.Yields (x.run names) s (a, names') s'

namespace Run

variable {α β : Type} {s s' : State}

@[simp] theorem yields_pure {a b : α} : (pure a : Run α).Yields s b s' ↔ b = a ∧ s' = s := by
  show (Except.ok a, s) = (Except.ok b, s') ↔ _
  simp [eq_comm]

/-- A sequence runs its second part where the first one succeeds, and fails where that fails. -/
theorem run_bind (x : Run α) (f : α → Run β) (s : State) :
    (x >>= f).run.run s = match x.run.run s with
      | (.ok a, t) => (f a).run.run t
      | (.error e, t) => (.error e, t) := by
  simp only [ExceptT.run_bind, StateT.run_bind]
  rcases x.run.run s with ⟨r, t⟩
  cases r with
  | ok a => rfl
  | error e => rfl

@[simp] theorem yields_bind {x : Run α} {f : α → Run β} {b : β} :
    (x >>= f).Yields s b s' ↔ ∃ a s₁, x.Yields s a s₁ ∧ (f a).Yields s₁ b s' := by
  simp only [Yields, ExceptT.run_bind, StateT.run_bind]
  constructor
  · intro h
    rcases hx : x.run.run s with ⟨r, s₁⟩
    rw [hx] at h
    cases r with
    | ok a => exact ⟨a, s₁, rfl, h⟩
    | error e =>
      change (Except.error e, s₁) = _ at h
      simp at h
  · rintro ⟨a, s₁, hx, hf⟩
    rw [hx]
    exact hf

@[simp] theorem yields_fail {f : Failure} {a : α} : ¬ (fail f : Run α).Yields s a s' := by
  intro h
  have : (Except.error f, s) = (Except.ok a, s') := h
  simp at this

@[simp] theorem yields_get {t : State} : (get : Run State).Yields s t s' ↔ t = s ∧ s' = s := by
  show (Except.ok s, s) = (Except.ok t, s') ↔ _
  simp [eq_comm]

@[simp] theorem yields_modify {g : State → State} {u : PUnit} :
    (modify g : Run PUnit).Yields s u s' ↔ s' = g s := by
  show (Except.ok PUnit.unit, g s) = (Except.ok u, s') ↔ _
  simp [eq_comm]

@[simp] theorem yields_warn {w : Warning} {u : Unit} :
    (warn w).Yields s u s' ↔ s' = { s with warnings := s.warnings ++ [w] } := yields_modify

@[simp] theorem yields_warnAll {ws : List Warning} {u : Unit} :
    (warnAll ws).Yields s u s' ↔ s' = { s with warnings := s.warnings ++ ws } := yields_modify

@[simp] theorem yields_remember {key : String} {i : Imported} {u : Unit} :
    (remember key i).Yields s u s' ↔ s' = { s with imports := Imports.insert s.imports key i } :=
  yields_modify

@[simp] theorem yields_forget {key : String} {u : Unit} :
    (forget key).Yields s u s' ↔ s' = { s with imports := Imports.erase s.imports key } :=
  yields_modify

@[simp] theorem yields_imported {key : String} {i : Option Imported} :
    (imported? key).Yields s i s' ↔ i = Imports.get? s.imports key ∧ s' = s := by
  show (Except.ok (Imports.get? s.imports key), s) = (Except.ok i, s') ↔ _
  simp [eq_comm]

@[simp] theorem yields_register {t : AvroType} {dependencies : List String} {name : String} :
    (register t dependencies).Yields s name s' ↔ name = t.qualifiedName?.getD "" ∧
      s' = { s with registry := (Registry.register s.registry t dependencies).2 } := by
  simp only [register, yields_bind, yields_get, yields_modify, yields_pure]
  constructor
  · rintro ⟨_, _, ⟨rfl, rfl⟩, _, _, rfl, rfl, rfl⟩
    exact ⟨rfl, rfl⟩
  · rintro ⟨rfl, rfl⟩
    exact ⟨_, _, ⟨rfl, rfl⟩, ⟨⟩, _, rfl, rfl, rfl⟩

theorem yields_within {f : Frame} {x : Run α} {a : α} :
    (within f x).Yields s a s' ↔ ∃ s₁, x.Yields { s with frames := f :: s.frames } a s₁ ∧
      s' = { s₁ with frames := s₁.frames.tail } := by
  rcases hx : x.run.run { s with frames := f :: s.frames } with ⟨r, s₁⟩
  have run : (within f x).run.run s = (r, { s₁ with frames := s₁.frames.tail }) := by
    simp only [within, ExceptT.run, StateT.run] at hx ⊢
    rw [hx]
  simp only [Yields, run, hx]
  constructor
  · intro h
    obtain ⟨hr, hs⟩ := Prod.mk.inj h
    exact ⟨s₁, by rw [hr], hs.symm⟩
  · rintro ⟨s₂, h, hs⟩
    obtain ⟨hr, rfl⟩ := Prod.mk.inj h
    rw [hr, hs]

end Run

namespace Build

variable {α β : Type} {s s' : State} {names names' : List String}

@[simp] theorem yields_pure {a b : α} :
    (pure a : Build α).Yields names s b names' s' ↔ b = a ∧ names' = names ∧ s' = s := by
  simp [Yields, and_assoc]

@[simp] theorem yields_bind {x : Build α} {f : α → Build β} {b : β} :
    (x >>= f).Yields names s b names' s' ↔ ∃ a names₁ s₁, x.Yields names s a names₁ s₁ ∧
      (f a).Yields names₁ s₁ b names' s' := by
  simp only [Yields, StateT.run_bind, Run.yields_bind, Prod.exists]

@[simp] theorem yields_lift {x : Run α} {a : α} :
    (liftM x : Build α).Yields names s a names' s' ↔ x.Yields s a s' ∧ names' = names := by
  show (x >>= fun a => (pure (a, names) : Run (α × List String))).Yields s (a, names') s' ↔ _
  simp only [Run.yields_bind, Run.yields_pure, Prod.mk.injEq]
  constructor
  · rintro ⟨_, _, hx, ⟨rfl, rfl⟩, rfl⟩
    exact ⟨hx, rfl⟩
  · rintro ⟨hx, rfl⟩
    exact ⟨a, s', hx, ⟨rfl, rfl⟩, rfl⟩

@[simp] theorem yields_modify {g : List String → List String} {u : PUnit} :
    (modify g : Build PUnit).Yields names s u names' s' ↔ names' = g names ∧ s' = s := by
  show (pure (PUnit.unit, g names) : Run _).Yields s (u, names') s' ↔ _
  simp

@[simp] theorem yields_depend {name : String} {u : Unit} :
    (depend name).Yields names s u names' s' ↔ names' = addNew names name ∧ s' = s :=
  yields_modify

@[simp] theorem yields_dependAll {more : List String} {u : Unit} :
    (dependAll more).Yields names s u names' s' ↔ names' = addAll names more ∧ s' = s :=
  yields_modify

@[simp] theorem yields_lift_names {more : List String} {u : Unit} :
    (lift more).Yields names s u names' s' ↔ names' = names ++ more ∧ s' = s :=
  yields_modify

@[simp] theorem yields_getThe {t : State} :
    (getThe State : Build State).Yields names s t names' s' ↔
      t = s ∧ names' = names ∧ s' = s := by
  show (liftM (get : Run State) : Build State).Yields names s t names' s' ↔ _
  rw [yields_lift, Run.yields_get, and_assoc, and_comm (a := s' = s)]

/-- A computation whose value is handed on as the one that there is. -/
theorem yields_some {x : Build α} {t : Option α} :
    (do return some (← x) : Build (Option α)).Yields names s t names' s' ↔
      ∃ a, t = some a ∧ x.Yields names s a names' s' := by
  rw [yields_bind]
  constructor
  · rintro ⟨a, names₁, s₁, hx, hp⟩
    obtain ⟨rfl, rfl, rfl⟩ := yields_pure.mp hp
    exact ⟨a, rfl, hx⟩
  · rintro ⟨a, rfl, hx⟩
    exact ⟨a, names', s', hx, yields_pure.mpr ⟨rfl, rfl, rfl⟩⟩

@[simp] theorem yields_apart {x : Build α} {r : α × List String} :
    (apart x).Yields s r s' ↔ x.Yields [] s r.1 r.2 s' := Iff.rfl

end Build

end AvroDerive
