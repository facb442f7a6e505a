import AvroDerive.Proofs.NodeStep

/-! # Repeated runs

A computation is run once more, from the state in which its first run ended. What the first run
remembers at some point it remembers to its end, up to the imports that are under way there. So the
second run follows no reference that the first one did not, and where it follows one too, both begin
the import. -/
namespace AvroDerive.Convert

open AvroType Json Schema

def Remembers (s : State) (key : String) : Prop := Imports.get? s.imports key ≠ none

def RemembersName (s : State) (key : String) : Prop :=
  ∃ name, Imports.get? s.imports key = some (.named name)

/-- The documents at hand are those that the source gives. -/
def Stocked (cfg : Setting) (s : State) : Prop := ∀ e ∈ s.documents, Fetched cfg e.1 e.2

/-- What a computation leaves as it is, whether it succeeds or fails. -/
structure Retains (cfg : Setting) (s t : State) : Prop where
  log : s.imports <:+ t.imports
  remembers : ∀ key, Remembers s key → Remembers t key
  names : ∀ key, RemembersName s key → RemembersName t key
  frames : t.frames = s.frames
  documents : ∀ url d, s.documents.lookup url = some d → t.documents.lookup url = some d
  stocked : Stocked cfg s → Stocked cfg t

/-- At a point of the first run, what is remembered lasts to its end unless it is under way. -/
structure Lasts (final : State) (is : List Import) (s : State) : Prop where
  log : s.imports <:+ final.imports
  remembers : ∀ key, Remembers s key → Remembers final key ∨ ∃ i ∈ is, i.key = key
  names : ∀ key, RemembersName s key → RemembersName final key ∨ ∃ i ∈ is, i.key = key
  documents : ∀ url d, s.documents.lookup url = some d → final.documents.lookup url = some d

/-- The states of both runs at the same point, where the same imports are under way. -/
structure Along (cfg : Setting) (c : Corpus) (final : State) (is : List Import) (s s' : State) :
    Prop where
  first : Stocked cfg s
  second : Stocked cfg s'
  frames : s'.frames = s.frames
  documents : s'.documents = final.documents
  remembers : ∀ key, Remembers final key → Remembers s' key
  names : ∀ key, RemembersName final key → RemembersName s' key
  valid : ∀ i ∈ is, i.Valid cfg c
  promised : ∀ i ∈ is, isStandalone i.located.fragment = true → Remembers s' i.key
  begun : ∀ i ∈ is, Remembers s' i.key → Remembers s i.key

/-- Where a reference of the key is followed, or a definition of the key is not passed over in its
turn, the conversion can fail with the cause. -/
inductive StopsAt (cfg : Setting) (c : Corpus) (e : Failure) : String → Prop
  | reference {o reference scope levels names s s'} : c.stands scope.baseUri scope.document →
    ObjectIn c.written o → (Object.get? o "$ref").bind asString? = some reference → Stocked cfg s →
    ¬ Remembers s (Location.resolve scope.baseUri reference) →
    ((referenceType cfg (nodeWithin cfg levels) o scope).run names).run.run s = (.error e, s') →
    StopsAt cfg c e (Location.resolve scope.baseUri reference)
  | turn {baseUri d t key s s'} : c.stands baseUri d → c.turns baseUri t →
    t.key baseUri = some key → Stocked cfg s → ¬ RemembersName s key →
    (definition cfg d baseUri t.name t.schema t.pointer).run.run s = (.error e, s') →
    StopsAt cfg c e key

/-- A key is remembered, and not under way, although the conversion fails there. -/
def Escapes (cfg : Setting) (c : Corpus) (e : Failure) (is : List Import) (s : State) : Prop :=
  ∃ key, StopsAt cfg c e key ∧ Remembers s key ∧ ∀ i ∈ is, i.key ≠ key

/-- From the given states, the second computation goes as the first one, which is part of a run that
ends in the final state: it succeeds where that does, with the same view of the value, and fails for
the same cause, if it does not escape that. -/
structure Follows (cfg : Setting) (c : Corpus) (final : State) (is : List Import) {α β : Type}
    (view : α → β) (x y : Run α) (s s' : State) : Prop where
  done : ∀ a t, x.Yields s a t → Lasts final is t →
    ∃ b t', y.Yields s' b t' ∧ Along cfg c final is t t' ∧ view a = view b
  failed : ∀ e t, x.run.run s = (.error e, t) → Lasts final is t → t.documents = final.documents →
    (∃ t', y.run.run s' = (.error e, t')) ∨ Escapes cfg c e is (y.run.run s').2

/-- The second computation goes as the first one, wherever both are begun. -/
structure Repeats (cfg : Setting) (c : Corpus) (final : State) (is : List Import) {α β : Type}
    (view : α → β) (x y : Run α) : Prop where
  first : ∀ s, Stocked cfg s → Retains cfg s (x.run.run s).2
  second : ∀ s, Stocked cfg s → Retains cfg s (y.run.run s).2
  follows : ∀ s s', Along cfg c final is s s' → Follows cfg c final is view x y s s'

/-- As `Repeats`, whatever names were gathered before. -/
def BuildsRepeat (cfg : Setting) (c : Corpus) (final : State) (is : List Import) {α β : Type}
    (view : α → β) (x y : Build α) : Prop :=
  ∀ names names', Repeats cfg c final is (fun r => view r.1) (x.run names) (y.run names')

/-- The view of which nothing is asked. -/
abbrev unseen {α : Type} : α → Unit := fun _ => ()

section States

variable {cfg : Setting} {c : Corpus} {final s s' t t' u : State} {is : List Import} {e : Failure}

theorem Retains.refl (s : State) : Retains cfg s s :=
  ⟨List.suffix_refl _, fun _ => id, fun _ => id, rfl, fun _ _ => id, id⟩

theorem Retains.trans (h : Retains cfg s t) (h' : Retains cfg t u) : Retains cfg s u where
  log := h.log.trans h'.log
  remembers key := h'.remembers key ∘ h.remembers key
  names key := h'.names key ∘ h.names key
  frames := h'.frames.trans h.frames
  documents url d := h'.documents url d ∘ h.documents url d
  stocked := h'.stocked ∘ h.stocked

/-- Warnings and the registry do not count. -/
theorem Retains.of_same (hi : t.imports = s.imports) (hf : t.frames = s.frames)
    (hd : t.documents = s.documents) : Retains cfg s t where
  log := by rw [hi]
  remembers key h := by rwa [Remembers, hi]
  names key h := by rwa [RemembersName, hi]
  frames := hf
  documents url d h := by rwa [hd]
  stocked h := by rwa [Stocked, hd]

/-- What is kept up to a point that lasts, lasts itself. -/
theorem Retains.lasts (h : Retains cfg s t) (hl : Lasts final is t) : Lasts final is s where
  log := h.log.trans hl.log
  remembers key hk := hl.remembers key (h.remembers key hk)
  names key hk := hl.names key (h.names key hk)
  documents url d hd := hl.documents url d (h.documents url d hd)

theorem Lasts.refl (s : State) : Lasts s is s :=
  ⟨List.suffix_refl _, fun _ => Or.inl, fun _ => Or.inl, fun _ _ => id⟩

theorem Escapes.mono (h : Escapes cfg c e is s) (hr : Retains cfg s t) : Escapes cfg c e is t := by
  obtain ⟨key, hstops, hm, hfree⟩ := h
  exact ⟨key, hstops, hr.remembers key hm, hfree⟩

/-- Changes that concern neither what is remembered nor the documents do not count. -/
theorem Along.aside (h : Along cfg c final is s s') (hi : t.imports = s.imports)
    (hf : t.frames = s.frames) (hd : t.documents = s.documents) (hi' : t'.imports = s'.imports)
    (hf' : t'.frames = s'.frames) (hd' : t'.documents = s'.documents) :
    Along cfg c final is t t' where
  first := by rw [Stocked, hd]; exact h.first
  second := by rw [Stocked, hd']; exact h.second
  frames := by rw [hf, hf', h.frames]
  documents := hd'.trans h.documents
  remembers key hk := by rw [Remembers, hi']; exact h.remembers key hk
  names key hk := by rw [RemembersName, hi']; exact h.names key hk
  valid := h.valid
  promised i hm halone := by rw [Remembers, hi']; exact h.promised i hm halone
  begun i hm hk := by
    rw [Remembers, hi'] at hk
    rw [Remembers, hi]
    exact h.begun i hm hk

/-- The first run may go on alone. -/
theorem Along.first_on (h : Along cfg c final is s s') (hr : Retains cfg s t) :
    Along cfg c final is t s' where
  first := hr.stocked h.first
  second := h.second
  frames := h.frames.trans hr.frames.symm
  documents := h.documents
  remembers := h.remembers
  names := h.names
  valid := h.valid
  promised := h.promised
  begun i hm hk := hr.remembers _ (h.begun i hm hk)

end States

section Runs

variable {cfg : Setting} {c : Corpus} {final s s' t : State} {is : List Import} {α β γ δ : Type}
  {view : α → γ} {see : β → δ} {x y : Run α}

theorem retains_yields {a : α} (h : Retains cfg s (x.run.run s).2) (hy : x.Yields s a t) :
    Retains cfg s t := by
  rwa [show x.run.run s = (.ok a, t) from hy] at h

/-- A computation keeps what its parts keep, up to the one that fails. -/
theorem retains_bind {f : α → Run β} (hx : Retains cfg s (x.run.run s).2)
    (hf : ∀ a t, x.Yields s a t → Retains cfg t ((f a).run.run t).2) :
    Retains cfg s ((x >>= f).run.run s).2 := by
  rw [Run.run_bind]
  rcases h : x.run.run s with ⟨r, t⟩
  rw [h] at hx
  cases r with
  | ok a => exact hx.trans (hf a t h)
  | error e => exact hx

/-- Only the runs from the given states count. -/
theorem Follows.of_runs {x' y' : Run α} (h : Follows cfg c final is view x' y' s s')
    (hx : x.run.run s = x'.run.run s) (hy : y.run.run s' = y'.run.run s') :
    Follows cfg c final is view x y s s' where
  done a t hya hl := by
    obtain ⟨b, t', hyb, along⟩ := h.done a t (hx.symm.trans hya) hl
    exact ⟨b, t', hy.trans hyb, along⟩
  failed e t hfail hl hd := by
    rw [hy]
    exact h.failed e t (hx.symm.trans hfail) hl hd

theorem Follows.bind {f g : α → Run β} (hx : Follows cfg c final is view x y s s')
    (first : ∀ a t, x.Yields s a t → Retains cfg t ((f a).run.run t).2)
    (second : ∀ b t', y.Yields s' b t' → Retains cfg t' ((g b).run.run t').2)
    (hf : ∀ a b t t', x.Yields s a t → y.Yields s' b t' → view a = view b →
      Along cfg c final is t t' → Follows cfg c final is see (f a) (g b) t t') :
    Follows cfg c final is see (x >>= f) (y >>= g) s s' where
  done b u hy hl := by
    obtain ⟨a, t, ha, hb⟩ := Run.yields_bind.mp hy
    have kept := retains_yields (first a t ha) hb
    obtain ⟨a', t', ha', along, hview⟩ := hx.done a t ha (kept.lasts hl)
    obtain ⟨b', u', hb', along', hsee⟩ := (hf a a' t t' ha ha' hview along).done b u hb hl
    exact ⟨b', u', Run.yields_bind.mpr ⟨a', t', ha', hb'⟩, along', hsee⟩
  failed e u hfail hl hd := by
    rw [Run.run_bind] at hfail
    rw [Run.run_bind]
    rcases h : x.run.run s with ⟨r, t⟩
    rw [h] at hfail
    cases r with
    | ok a =>
      -- The second part fails, of which the second run takes the first part as well.
      have kept := first a t h
      rw [show (f a).run.run t = (.error e, u) from hfail] at kept
      obtain ⟨a', t', ha', along, hview⟩ := hx.done a t h (kept.lasts hl)
      rw [show y.run.run s' = (.ok a', t') from ha']
      exact (hf a a' t t' h ha' hview along).failed e u hfail hl hd
    | error e' =>
      obtain ⟨he, rfl⟩ := Prod.mk.inj hfail
      obtain rfl := Except.error.inj he
      rcases hx.failed e' t h hl hd with ⟨t', h'⟩ | hesc
      · rw [h']
        exact Or.inl ⟨t', rfl⟩
      · rcases h' : y.run.run s' with ⟨r', t'⟩
        rw [h'] at hesc
        cases r' with
        | ok b => exact Or.inr (hesc.mono (second b t' h'))
        | error e' => exact Or.inr hesc

theorem Repeats.pure {a b : α} (h : view a = view b) :
    Repeats cfg c final is view (pure a) (pure b) where
  first s _ := .refl s
  second s _ := .refl s
  follows s s' hs := by
    refine ⟨fun a' t hy _ => ?_, fun e t hfail => ?_⟩
    · obtain ⟨rfl, rfl⟩ := Run.yields_pure.mp hy
      exact ⟨b, s', Run.yields_pure.mpr ⟨rfl, rfl⟩, hs, h⟩
    · have : (Except.ok a, s) = (Except.error e, t) := hfail
      simp at this

theorem Repeats.fail (f : Failure) :
    Repeats cfg c final is view (Run.fail f : Run α) (Run.fail f) where
  first s _ := .refl s
  second s _ := .refl s
  follows s s' _ := by
    refine ⟨fun a t hy => absurd hy Run.yields_fail, fun e t hfail _ _ => Or.inl ⟨s', ?_⟩⟩
    have : (Except.error f, s) = (Except.error e, t) := hfail
    obtain rfl := Except.error.inj (Prod.mk.inj this).1
    rfl

theorem Repeats.bind {f g : α → Run β} (hx : Repeats cfg c final is view x y)
    (hf : ∀ a b, view a = view b → Repeats cfg c final is see (f a) (g b)) :
    Repeats cfg c final is see (x >>= f) (y >>= g) where
  first s hs := retains_bind (hx.first s hs) fun a t hy =>
    (hf a a rfl).first t ((retains_yields (hx.first s hs) hy).stocked hs)
  second s hs := retains_bind (hx.second s hs) fun b t hy =>
    (hf b b rfl).second t ((retains_yields (hx.second s hs) hy).stocked hs)
  follows s s' hs := by
    refine (hx.follows s s' hs).bind
      (fun a t hy => (hf a a rfl).first t
        ((retains_yields (hx.first s hs.first) hy).stocked hs.first))
      (fun b t' hy => (hf b b rfl).second t'
        ((retains_yields (hx.second s' hs.second) hy).stocked hs.second)) ?_
    intro a b t t' _ _ hview along
    exact (hf a b hview).follows t t' along

/-- Both computations succeed and change neither what is remembered nor the documents. -/
theorem Repeats.of_aside {g h : State → State} {f k : State → α}
    (hx : ∀ s, x.Yields s (f s) (g s)) (hy : ∀ s, y.Yields s (k s) (h s))
    (hg : ∀ s, (g s).imports = s.imports ∧ (g s).frames = s.frames ∧
      (g s).documents = s.documents)
    (hh : ∀ s, (h s).imports = s.imports ∧ (h s).frames = s.frames ∧
      (h s).documents = s.documents)
    (hview : ∀ s s', s'.frames = s.frames → view (f s) = view (k s')) :
    Repeats cfg c final is view x y where
  first s _ := by
    rw [show x.run.run s = (.ok (f s), g s) from hx s]
    exact .of_same (hg s).1 (hg s).2.1 (hg s).2.2
  second s _ := by
    rw [show y.run.run s = (.ok (k s), h s) from hy s]
    exact .of_same (hh s).1 (hh s).2.1 (hh s).2.2
  follows s s' hs := by
    refine ⟨fun a t hya _ => ?_, fun e t hfail => ?_⟩
    · have run : (Except.ok (f s), g s) = (Except.ok a, t) := (hx s).symm.trans hya
      obtain ⟨ha, rfl⟩ := Prod.mk.inj run
      obtain rfl := Except.ok.inj ha
      exact ⟨k s', h s', hy s', hs.aside (hg s).1 (hg s).2.1 (hg s).2.2 (hh s').1 (hh s').2.1
        (hh s').2.2, hview s s' hs.frames⟩
    · have : (Except.ok (f s), g s) = (Except.error e, t) := (hx s).symm.trans hfail
      simp at this

/-- Both computations leave the state as it is. -/
theorem Repeats.of_still (hx : ∀ s, ∃ a, x.Yields s a s) (hy : ∀ s, ∃ b, y.Yields s b s) :
    Repeats cfg c final is unseen x y := by
  choose f hf using hx
  choose k hk using hy
  exact .of_aside hf hk (fun _ => ⟨rfl, rfl, rfl⟩) (fun _ => ⟨rfl, rfl, rfl⟩) fun _ _ _ => rfl

theorem Repeats.warnAll (ws ws' : List Warning) :
    Repeats cfg c final is unseen (Run.warnAll ws) (Run.warnAll ws') :=
  .of_aside (f := fun _ => ⟨⟩) (k := fun _ => ⟨⟩) (fun _ => Run.yields_warnAll.mpr rfl)
    (fun _ => Run.yields_warnAll.mpr rfl) (fun _ => ⟨rfl, rfl, rfl⟩) (fun _ => ⟨rfl, rfl, rfl⟩)
    fun _ _ _ => rfl

theorem Repeats.warn (w w' : Warning) :
    Repeats cfg c final is unseen (Run.warn w) (Run.warn w') := .warnAll [w] [w']

/-- The states are not equal, but the same records are under construction. -/
theorem Repeats.get : Repeats cfg c final is State.frames (get : Run State) get :=
  .of_aside (fun _ => Run.yields_get.mpr ⟨rfl, rfl⟩) (fun _ => Run.yields_get.mpr ⟨rfl, rfl⟩)
    (fun _ => ⟨rfl, rfl, rfl⟩) (fun _ => ⟨rfl, rfl, rfl⟩) fun _ _ h => h.symm

theorem retains_within {f : Frame}
    (hx : Retains cfg { s with frames := f :: s.frames }
      (x.run.run { s with frames := f :: s.frames }).2) :
    Retains cfg s ((Run.within f x).run.run s).2 where
  log := hx.log
  remembers := hx.remembers
  names := hx.names
  frames := by
    show (x.run.run { s with frames := f :: s.frames }).2.frames.tail = s.frames
    rw [hx.frames]
    rfl
  documents := hx.documents
  stocked := hx.stocked

theorem Repeats.within {f : Frame} (hx : Repeats cfg c final is view x y) :
    Repeats cfg c final is view (Run.within f x) (Run.within f y) where
  first _ hs := retains_within (hx.first _ hs)
  second _ hs := retains_within (hx.second _ hs)
  follows s s' hs := by
    have begun : Along cfg c final is { s with frames := f :: s.frames }
        { s' with frames := f :: s'.frames } :=
      ⟨hs.first, hs.second, by rw [hs.frames], hs.documents, hs.remembers, hs.names, hs.valid,
        hs.promised, hs.begun⟩
    have inner := hx.follows _ _ begun
    have run : ∀ (x : Run α) (s : State), (Run.within f x).run.run s =
        ((x.run.run { s with frames := f :: s.frames }).1,
          { (x.run.run { s with frames := f :: s.frames }).2 with
            frames := (x.run.run { s with frames := f :: s.frames }).2.frames.tail }) :=
      fun _ _ => rfl
    refine ⟨fun a t hy hl => ?_, fun e t hfail hl hd => ?_⟩
    · obtain ⟨t₁, hx₁, rfl⟩ := Run.yields_within.mp hy
      obtain ⟨b, t₁', hy₁, along, hview⟩ :=
        inner.done a t₁ hx₁ ⟨hl.log, hl.remembers, hl.names, hl.documents⟩
      refine ⟨b, _, Run.yields_within.mpr ⟨t₁', hy₁, rfl⟩, ?_, hview⟩
      exact ⟨along.first, along.second, by rw [along.frames], along.documents, along.remembers,
        along.names, along.valid, along.promised, along.begun⟩
    · rw [run] at hfail ⊢
      obtain ⟨he, rfl⟩ := Prod.mk.inj hfail
      have hx₁ : x.run.run { s with frames := f :: s.frames } =
          (.error e, (x.run.run { s with frames := f :: s.frames }).2) := Prod.ext he rfl
      rcases inner.failed e _ hx₁ ⟨hl.log, hl.remembers, hl.names, hl.documents⟩ hd with
        ⟨t', h'⟩ | hesc
      · rw [h']
        exact Or.inl ⟨_, rfl⟩
      · exact Or.inr hesc

end Runs

section Builds

variable {cfg : Setting} {c : Corpus} {final : State} {is : List Import} {α β γ δ : Type}
  {view : α → γ} {see : β → δ} {x y : Build α}

theorem BuildsRepeat.pure {a b : α} (h : view a = view b) :
    BuildsRepeat cfg c final is view (pure a) (pure b) :=
  fun _ _ => Repeats.pure h

theorem BuildsRepeat.bind {f g : α → Build β} (hx : BuildsRepeat cfg c final is view x y)
    (hf : ∀ a b, view a = view b → BuildsRepeat cfg c final is see (f a) (g b)) :
    BuildsRepeat cfg c final is see (x >>= f) (y >>= g) := by
  intro names names'
  rw [StateT.run_bind, StateT.run_bind]
  exact (hx names names').bind fun r r' hview => hf r.1 r'.1 hview r.2 r'.2

theorem BuildsRepeat.lift {x y : Run α} (h : Repeats cfg c final is view x y) :
    BuildsRepeat cfg c final is view (liftM x) (liftM y) :=
  fun _ _ => Repeats.bind (f := fun a => Pure.pure (a, _)) (g := fun a => Pure.pure (a, _)) h
    fun _ _ hview => Repeats.pure hview

theorem Repeats.apart (h : BuildsRepeat cfg c final is view x y) :
    Repeats cfg c final is (fun r => view r.1) (Build.apart x) (Build.apart y) := h [] []

/-- Only names are gathered, and these do not count. -/
theorem BuildsRepeat.of_still (hx : ∀ names s, ∃ a names', x.Yields names s a names' s)
    (hy : ∀ names s, ∃ a names', y.Yields names s a names' s) :
    BuildsRepeat cfg c final is unseen x y := by
  intro names names'
  refine Repeats.of_still (fun s => ?_) fun s => ?_
  · obtain ⟨a, more, ha⟩ := hx names s
    exact ⟨(a, more), ha⟩
  · obtain ⟨a, more, ha⟩ := hy names' s
    exact ⟨(a, more), ha⟩

end Builds

end AvroDerive.Convert
