import AvroDerive.Proofs.AlikeComposition
import AvroDerive.Proofs.Coincidence

/-! # Concurring runs

Two computations concur if they do the same, whether they succeed or fail, but for the warnings they
give and those given before. -/
namespace AvroDerive

open Json Schema

/-- The scope in another document. -/
def Scope.onto (s : Scope) (d : Json) : Scope := { s with document := d }

namespace Convert

/-- After other warnings, the second computation does the same but for warnings. -/
structure ConcurAt (cfg : Setting) {α : Type} (x y : Run α) (s : State) (before : List Warning) :
    Prop where
  stocked : Stocked cfg (x.run.run s).2
  same : ∃ after, y.run.run { s with warnings := before } =
    ((x.run.run s).1, { (x.run.run s).2 with warnings := after })

def Concur (cfg : Setting) {α : Type} (x y : Run α) : Prop :=
  ∀ s before, Stocked cfg s → ConcurAt cfg x y s before

/-- As `Concur`, whatever names were gathered before. -/
def BuildsConcur (cfg : Setting) {α : Type} (x y : Build α) : Prop :=
  ∀ names, Concur cfg (x.run names) (y.run names)

/-- Where a reference leads from either document: to schemas that are alike, each in its document, or
to one place elsewhere. -/
structure Located.Matches (d d' : Json) (l l' : Located) : Prop where
  fragment : l.fragment.pare .schema = l'.fragment.pare .schema
  baseUri : l'.baseUri = l.baseUri
  url : l'.url = l.url
  document : l.document = d ∧ l'.document = d' ∨ l'.document = l.document

section Concur

variable {cfg : Setting} {α β : Type} {x y : Run α}

theorem Concur.of_neutral (h : x.Neutral) : Concur cfg x x := by
  intro s before hd
  obtain ⟨a, t, ht⟩ := h s
  have run : x.run.run s = (.ok a, t) := ht.yields
  refine ⟨?_, ?_⟩
  · rw [run]
    exact fun e he => hd e (ht.documents ▸ he)
  · rw [run]
    exact ht.unwarned before

theorem Concur.pure (a : α) : Concur cfg (Pure.pure a) (Pure.pure a) := .of_neutral (.pure a)

theorem Concur.fail (e : Failure) : Concur cfg (Run.fail e : Run α) (Run.fail e) :=
  fun _ before hd => ⟨hd, before, rfl⟩

theorem Concur.warn_all (ws ws' : List Warning) : Concur cfg (Run.warnAll ws) (Run.warnAll ws') :=
  fun _ _ hd => ⟨hd, _, rfl⟩

theorem Concur.bind_seen {f g : α → Run β} (hx : Concur cfg x y)
    (hf : ∀ a, (∃ s t, Stocked cfg s ∧ x.Yields s a t) → Concur cfg (f a) (g a)) :
    Concur cfg (x >>= f) (y >>= g) := by
  intro s before hd
  obtain ⟨hstocked, between, hsame⟩ := hx s before hd
  rcases hr : x.run.run s with ⟨r, t⟩
  rw [hr] at hstocked hsame
  cases r with
  | error e =>
    have run : (x >>= f).run.run s = (.error e, t) := by rw [Run.run_bind, hr]
    refine ⟨?_, between, ?_⟩
    · rwa [run]
    · rw [run, Run.run_bind, hsame]
  | ok a =>
    have run : (x >>= f).run.run s = (f a).run.run t := by rw [Run.run_bind, hr]
    obtain ⟨hstocked', after, hsame'⟩ := hf a ⟨s, t, hd, hr⟩ t between hstocked
    refine ⟨?_, after, ?_⟩
    · rwa [run]
    · rw [run, Run.run_bind, hsame]
      exact hsame'

theorem Concur.bind {f g : α → Run β} (hx : Concur cfg x y) (hf : ∀ a, Concur cfg (f a) (g a)) :
    Concur cfg (x >>= f) (y >>= g) :=
  hx.bind_seen fun a _ => hf a

theorem Concur.within (f : Frame) (h : Concur cfg x y) :
    Concur cfg (Run.within f x) (Run.within f y) := by
  intro s before hd
  obtain ⟨hstocked, after, hsame⟩ := h { s with frames := f :: s.frames } before hd
  refine ⟨hstocked, after, ?_⟩
  rw [run_within, run_within]
  show Prod.mk (y.run.run { { s with frames := f :: s.frames } with warnings := before }).1 _ = _
  rw [hsame]

/-- What follows may depend on the state, but for the warnings. -/
theorem Concur.get {f g : State → Run α}
    (h : ∀ s before, Concur cfg (f s) (g { s with warnings := before })) :
    Concur cfg (MonadState.get >>= f) (MonadState.get >>= g) :=
  fun s before hd => ⟨(h s before s before hd).stocked, (h s before s before hd).same⟩

theorem fetch_document_concurs (url : Url) :
    Concur cfg (fetchDocument cfg url) (fetchDocument cfg url) := by
  intro s before hd
  refine ⟨(fetch_document_retains cfg url s).stocked hd, before, ?_⟩
  rw [fetch_document_run, fetch_document_run]
  cases s.documents.lookup url.text with
  | some d => rfl
  | none =>
    cases download cfg url with
    | ok d => rfl
    | error e => rfl

/-- A reference leads to places that match, if it does so within the two documents. -/
theorem Concur.locate {reference : String} {scope : Scope} {d' : Json} {f g : Located → Run β}
    (target : SameTarget scope.document d' reference)
    (h : ∀ l l', LeadsTo cfg reference scope l → LeadsTo cfg reference (scope.onto d') l' →
      l.Matches scope.document d' l' → Concur cfg (f l) (g l')) :
    Concur cfg (Convert.locate cfg reference scope >>= f)
      (Convert.locate cfg reference (scope.onto d') >>= g) := by
  unfold Convert.locate
  split
  · dsimp only [Scope.onto]
    unfold SameTarget at target
    cases hf : localFragment? scope.document reference with
    | none =>
      rw [hf, Option.map_none, eq_comm, Option.map_eq_none_iff] at target
      rw [target]
      exact .fail _
    | some fragment =>
      rw [hf, Option.map_some, eq_comm, Option.map_eq_some_iff] at target
      obtain ⟨fragment', hf', hsame⟩ := target
      rw [hf']
      dsimp only
      rw [pure_bind, pure_bind]
      exact h _ _ (.inside hf) (.inside hf') ⟨hsame.symm, rfl, rfl, Or.inl ⟨rfl, rfl⟩⟩
  · next hlocal =>
    rw [Option.not_isSome_iff_eq_none] at hlocal
    dsimp only [Scope.onto]
    cases hurl : absolute reference scope.baseUri with
    | error e => exact .fail _
    | ok url =>
      dsimp only
      rw [bind_assoc, bind_assoc]
      refine (fetch_document_concurs _).bind_seen fun d hseen => ?_
      obtain ⟨s, t, hd, hy⟩ := hseen
      cases hf : d.pointer? ((url.fragment.map fragmentPointer).getD "") with
      | none => exact .fail _
      | some fragment =>
        dsimp only
        rw [pure_bind, pure_bind]
        have hfetched := fetch_document_fetched hd hy
        exact h _ _ (.across hlocal hurl hfetched hf) (.across hlocal hurl hfetched hf)
          ⟨rfl, rfl, rfl, Or.inr rfl⟩

end Concur

section Builds

variable {cfg : Setting} {α β : Type}

theorem BuildsConcur.of_neutral {x : Build α} (h : x.Neutral) : BuildsConcur cfg x x :=
  fun names => .of_neutral (h names)

theorem BuildsConcur.pure (a : α) : BuildsConcur cfg (Pure.pure a) (Pure.pure a) :=
  .of_neutral (.pure a)

theorem BuildsConcur.bind {x y : Build α} {f g : α → Build β} (hx : BuildsConcur cfg x y)
    (hf : ∀ a, BuildsConcur cfg (f a) (g a)) : BuildsConcur cfg (x >>= f) (y >>= g) := by
  intro names
  rw [StateT.run_bind, StateT.run_bind]
  exact (hx names).bind fun r => hf r.1 r.2

theorem BuildsConcur.lift {x y : Run α} (h : Concur cfg x y) :
    BuildsConcur cfg (liftM x : Build α) (liftM y) :=
  fun names => h.bind (f := fun a => Pure.pure (a, names)) (g := fun a => Pure.pure (a, names))
    fun _ => .pure _

theorem BuildsConcur.apart {x y : Build α} (h : BuildsConcur cfg x y) :
    Concur cfg (Build.apart x) (Build.apart y) :=
  h []

theorem BuildsConcur.locate {reference : String} {scope : Scope} {d' : Json}
    {f g : Located → Build β} (target : SameTarget scope.document d' reference)
    (h : ∀ l l', LeadsTo cfg reference scope l → LeadsTo cfg reference (scope.onto d') l' →
      l.Matches scope.document d' l' → BuildsConcur cfg (f l) (g l')) :
    BuildsConcur cfg (liftM (Convert.locate cfg reference scope) >>= f)
      (liftM (Convert.locate cfg reference (scope.onto d')) >>= g) := by
  intro names
  rw [run_lift_bind, run_lift_bind]
  exact Concur.locate target fun l l' hl hl' hm => h l l' hl hl' hm names

/-- Conditional keywords are dropped on both sides, with a warning on either. -/
theorem Concur.without_conditionals {o o' : Object} {f g : Object → Run α}
    (h : Concur cfg (f (unconditional o)) (g (unconditional o'))) :
    Concur cfg (withoutConditionals o >>= f) (withoutConditionals o' >>= g) := by
  rw [without_conditionals_eq, without_conditionals_eq, bind_assoc, bind_assoc]
  refine (Concur.warn_all _ _).bind fun _ => ?_
  rwa [pure_bind, pure_bind]

theorem BuildsConcur.without_conditionals {o o' : Object} {f g : Object → Build α}
    (h : BuildsConcur cfg (f (unconditional o)) (g (unconditional o'))) :
    BuildsConcur cfg (liftM (withoutConditionals o) >>= f)
      (liftM (withoutConditionals o') >>= g) := by
  intro names
  rw [run_lift_bind, run_lift_bind]
  exact .without_conditionals (h names)

end Builds

end Convert

end AvroDerive
