import AvroDerive.Proofs.ImportStep

/-! # Conversions are made of import steps

Every conversion takes the state from step to step, whether it succeeds or fails. If it succeeds, it
has settled all imports that it began, and a reference that it gives as a type is to a name that was
handed out. -/
namespace AvroDerive.Convert

open AvroType Json Schema

/-- The documents at hand are those that the source gives, and no import stands for a reference
that is not remembered by its name. -/
structure Furnished (cfg : Setting) (s : State) : Prop where
  documents : ∀ e ∈ s.documents, Fetched cfg e.1 e.2
  inline : ∀ key t, (key, some (.inline t)) ∈ s.imports → ∀ name, t ≠ .reference name

/-- The conversion of the fragment has failed, after the import was begun. -/
def Import.Stopped (cfg : Setting) (e : Failure) (i : Import) : Prop :=
  ∃ levels s s', Imports.get? s.imports i.key = none ∧
    (Build.apart (nodeWithin cfg levels i.located.fragment (i.inner cfg))).run.run (i.begun cfg s) =
      (.error e, s')

/-- The computation takes the state from step to step. If it fails, imports are left begun. -/
structure Traced (cfg : Setting) (c : Corpus) {α : Type} (x : Run α) (begun : List Import)
    (s : State) (post : α → State → Prop) : Prop where
  furnished : Furnished cfg (x.run.run s).2
  done : ∀ a, (x.run.run s).1 = .ok a →
    Steps cfg c (begun, s) (begun, (x.run.run s).2) ∧ post a (x.run.run s).2
  failed : ∀ e, (x.run.run s).1 = .error e → ∃ more : List Import,
    (∀ i ∈ more, i.Valid cfg c ∧ i.Stopped cfg e) ∧
      Steps cfg c (begun, s) (more ++ begun, (x.run.run s).2)

/-- As `Traced`, for a computation that gathers names. -/
def BuildsTraced (cfg : Setting) (c : Corpus) {α : Type} (x : Build α) (names : List String)
    (begun : List Import) (s : State) (post : α → State → Prop) : Prop :=
  Traced cfg c (x.run names) begun s fun r s' => post r.1 s'

/-- A type that is a reference is to a name that was handed out. -/
def HandsOut (c : Corpus) (t : Option AvroType) (s : State) : Prop :=
  ∀ name, t = some (.reference name) → Handed c s name

/-- A converter goes from step to step, whatever schema of the corpus it is given. -/
def NodeTraced (cfg : Setting) (c : Corpus) (node : NodeConverter) : Prop :=
  ∀ schema scope names begun s, Furnished cfg s → c.stands scope.baseUri scope.document →
    SchemaIn c.written schema → BuildsTraced cfg c (node schema scope) names begun s (HandsOut c)

section Steps

variable {cfg : Setting} {c : Corpus} {s s' : State} {begun begun' : List Import} {i : Import}

theorem begun_extends (i : Import) (s : State) : Extends s (i.begun cfg s) := by
  unfold Import.begun
  split
  · exact ⟨List.prefix_refl _, List.suffix_cons _ _⟩
  · exact .refl s

theorem Settles.extends {key expected : String} {t : Option AvroType} {u : AvroType}
    (h : Settles key expected t u s s') : Extends s s' := by
  cases h with
  | registered hkind hname => exact ⟨register_extends _ _, List.suffix_cons _ _⟩
  | standIn hkind hname => exact ⟨List.prefix_refl _, List.suffix_cons _ _⟩
  | passed => exact ⟨List.prefix_refl _, List.suffix_cons _ _⟩
  | inline hkind hname => exact ⟨List.prefix_refl _, List.suffix_cons _ _⟩
  | empty => exact ⟨List.prefix_refl _, List.suffix_cons _ _⟩

theorem Keeps.extends {key : Option String} {schema : Json} {name : String × String}
    {t : Option AvroType} {n : Option String} (h : Keeps key schema name t n s s') :
    Extends s s' := by
  cases h with
  | registered hu => exact ⟨register_extends _ _, List.suffix_append _ _⟩
  | passed hc => exact ⟨List.prefix_refl _, List.suffix_append _ _⟩
  | empty => exact ⟨List.prefix_refl _, List.suffix_refl _⟩

/-- A step keeps what is registered and remembered. -/
theorem Step.extends {a b : List Import × State} (h : Step cfg c a b) : Extends a.2 b.2 := by
  cases h with
  | aside hi hr hw => exact ⟨by rw [hr], by rw [hi]⟩
  | begin hv hnew => exact begun_extends _ _
  | settle hv hy ht h => exact h.extends
  | turn hd ht htop hy h => exact h.extends

/-- A step remembers at most one thing more, and ends no import but one for the reference of which that
is remembered. -/
theorem Step.entry {a b : List Import × State} (h : Step cfg c a b) :
    (b.2.imports = a.2.imports ∧ a.1 ⊆ b.1) ∨
      ∃ key entry, b.2.imports = (key, entry) :: a.2.imports ∧ Adds cfg c a b key entry ∧
        ∀ i ∈ a.1, i.key = key ∨ i ∈ b.1 := by
  cases h with
  | aside hi => exact Or.inl ⟨hi, List.Subset.refl _⟩
  | @begin is i s hv =>
    have stays : ∀ j ∈ is, j ∈ i :: is := fun j hj => List.mem_cons_of_mem _ hj
    dsimp only [Import.begun]
    split
    · next halone =>
      exact Or.inr ⟨_, _, rfl, .promised hv rfl rfl rfl halone, fun j hj => Or.inr (stays j hj)⟩
    · exact Or.inl ⟨rfl, stays⟩
  | @settle is i levels names t u s s₀ s' hv hy ht hs =>
    have stays : ∀ j ∈ i :: is, j.key = i.key ∨ j ∈ is := by
      intro j hj
      rcases List.mem_cons.mp hj with rfl | hj
      · exact Or.inl rfl
      · exact Or.inr hj
    refine Or.inr ⟨i.key, ?_⟩
    cases hs with
    | registered hkind hname =>
      exact ⟨_, rfl, .registered hv rfl rfl (register_defined _ hname), stays⟩
    | passed => exact ⟨_, rfl, .passed hv rfl hy (ht _ rfl), stays⟩
    | inline => exact ⟨_, rfl, .inline hy, stays⟩
    | standIn => exact ⟨_, rfl, .forgotten, stays⟩
    | empty => exact ⟨_, rfl, .forgotten, stays⟩
  | @turn baseUri d t r names n s s₀ s' hd ht htop hy hs =>
    cases hs with
    | registered hu =>
      cases hk : (t.key baseUri).filter fun _ => isStandalone t.schema with
      | none => exact Or.inl ⟨by simp, List.Subset.refl _⟩
      | some key =>
        obtain ⟨hkey, -⟩ := Option.filter_eq_some_iff.mp hk
        exact Or.inr ⟨key, _, by simp,
          .turn ht hkey rfl (register_defined _ (kept_qualified hu)), by simp⟩
    | passed hc =>
      cases hk : t.key baseUri with
      | none => exact Or.inl ⟨by simp, List.Subset.refl _⟩
      | some key =>
        exact Or.inr ⟨key, _, by simp, .aliased ht hk htop hy (contains_iff_defined.mp hc),
          by simp⟩
    | empty => exact Or.inl ⟨rfl, List.Subset.refl _⟩

/-- All that is remembered after a step was so before, or is added by it. -/
theorem Step.adds {a b : List Import × State} (h : Step cfg c a b) {key : String}
    {entry : Option Imported} (hm : (key, entry) ∈ b.2.imports) :
    (key, entry) ∈ a.2.imports ∨ Adds cfg c a b key entry := by
  rcases h.entry with ⟨himports, -⟩ | ⟨k, e, himports, hadds, -⟩
  · exact Or.inl (himports ▸ hm)
  · rw [himports] at hm
    rcases List.mem_cons.mp hm with he | hm
    · obtain ⟨rfl, rfl⟩ := Prod.mk.inj he
      exact Or.inr hadds
    · exact Or.inl hm

/-- What is remembered of a reference after a step was so before, and no import of it has ended, or is
added by it. -/
theorem Step.finds {a b : List Import × State} (h : Step cfg c a b) {key : String} {i : Imported}
    (hi : Imports.get? b.2.imports key = some i) :
    (Imports.get? a.2.imports key = some i ∧ ∀ j ∈ a.1, j.key = key → j ∈ b.1) ∨
      Adds cfg c a b key (some i) := by
  rcases h.entry with ⟨himports, hstay⟩ | ⟨k, e, himports, hadds, hstay⟩
  · exact Or.inl ⟨himports ▸ hi, fun j hj _ => hstay hj⟩
  · rw [himports] at hi
    by_cases hk : key = k
    · subst hk
      rw [get_cons_self] at hi
      exact Or.inr (hi ▸ hadds)
    · rw [get_cons_ne e hk] at hi
      exact Or.inl ⟨hi, fun j hj hkey => (hstay j hj).resolve_left fun h => hk (hkey.symm.trans h)⟩

/-- The state in which a fragment is converted is furnished. -/
theorem Furnished.at_begin (hs : Furnished cfg s) (i : Import) : Furnished cfg (i.begun cfg s) := by
  unfold Import.begun
  split
  · refine ⟨hs.documents, fun key t h => ?_⟩
    rcases List.mem_cons.mp h with h | h
    · simp at h
    · exact hs.inline key t h
  · exact hs

theorem Furnished.settled (hs : Furnished cfg s) {key expected : String} {t : Option AvroType}
    {u : AvroType} (h : Settles key expected t u s s') : Furnished cfg s' := by
  have added : ∀ i : Option Imported, (∀ v, i = some (.inline v) → ∀ name, v ≠ .reference name) →
      ∀ k v, (k, some (Imported.inline v)) ∈ (key, i) :: s.imports → ∀ name, v ≠ .reference name := by
    intro i hi k v hm
    rcases List.mem_cons.mp hm with hm | hm
    · exact hi v (Prod.mk.inj hm).2.symm
    · exact hs.inline k v hm
  cases h with
  | registered hkind hname => exact ⟨hs.documents, added _ (by simp)⟩
  | standIn hkind hname => exact ⟨hs.documents, added _ (by simp)⟩
  | passed => exact ⟨hs.documents, added _ (by simp)⟩
  | inline hkind hname =>
    refine ⟨hs.documents, added _ fun v hv => ?_⟩
    obtain rfl := Imported.inline.inj (Option.some.inj hv)
    exact hname
  | empty => exact ⟨hs.documents, added _ (by simp)⟩

theorem Furnished.kept (hs : Furnished cfg s) {key : Option String} {schema : Json}
    {name : String × String} {t : Option AvroType} {n : Option String}
    (h : Keeps key schema name t n s s') : Furnished cfg s' := by
  have added : ∀ (k : Option String) (target : String) key v, (key, some (Imported.inline v)) ∈
      (k.map (·, some (Imported.named target))).toList ++ s.imports → ∀ name, v ≠ .reference name := by
    intro k target key v hm
    rcases List.mem_append.mp hm with hm | hm
    · simp at hm
    · exact hs.inline key v hm
  cases h with
  | registered hu => exact ⟨hs.documents, added _ _⟩
  | passed hc => exact ⟨hs.documents, added _ _⟩
  | empty => exact ⟨hs.documents, hs.inline⟩

theorem steps_extend {a b : List Import × State} (h : Steps cfg c a b) : Extends a.2 b.2 := by
  induction h with
  | refl => exact .refl _
  | tail _ hstep ih =>
    have he := hstep.extends
    exact ⟨ih.registry.trans he.registry, ih.imports.trans he.imports⟩

theorem Settles.logs {key expected : String} {t : Option AvroType} {u : AvroType}
    (h : Settles key expected t u s s') : s.warnings <+: s'.warnings := by
  cases h with
  | empty => exact List.prefix_append _ _
  | _ => exact List.prefix_refl _

theorem Keeps.logs {key : Option String} {schema : Json} {name : String × String}
    {t : Option AvroType} {n : Option String} (h : Keeps key schema name t n s s') :
    s.warnings <+: s'.warnings := by
  cases h with
  | empty => exact List.prefix_append _ _
  | _ => exact List.prefix_refl _

/-- Warnings are only added. -/
theorem steps_log {a b : List Import × State} (h : Steps cfg c a b) :
    a.2.warnings <+: b.2.warnings := by
  induction h with
  | refl => exact List.prefix_refl _
  | tail _ hstep ih =>
    refine ih.trans ?_
    cases hstep with
    | aside hi hr hw => exact hw
    | begin hv hnew =>
      unfold Import.begun
      split <;> exact List.prefix_refl _
    | settle hv hy ht h => exact h.logs
    | turn hd ht htop hy h => exact h.logs

theorem Handed.mono (he : Extends s s') {name : String} (h : Handed c s name) :
    Handed c s' name := by
  rcases h with h | ⟨key, h⟩ | h
  · exact Or.inl (he.defined h)
  · exact Or.inr (Or.inl ⟨key, he.imports.subset h⟩)
  · exact Or.inr (Or.inr h)

end Steps

section Traced

variable {cfg : Setting} {c : Corpus} {α β : Type} {x : Run α} {s : State}
  {begun : List Import}

/-- A computation that succeeds in a single step. -/
theorem Traced.of_step {a : α} {s' : State} {post : α → State → Prop} (hy : x.Yields s a s')
    (hs : Furnished cfg s') (hstep : Step cfg c (begun, s) (begun, s')) (hp : post a s') :
    Traced cfg c x begun s post := by
  have run : x.run.run s = (.ok a, s') := hy
  refine ⟨by rw [run]; exact hs, fun b hb => ?_, fun e he => ?_⟩
  · rw [run] at hb ⊢
    obtain rfl := Except.ok.inj hb
    exact ⟨.single hstep, hp⟩
  · rw [run] at he
    simp at he

/-- A computation that succeeds and changes neither what is remembered nor what is registered. -/
theorem Traced.of_aside {a : α} {s' : State} {post : α → State → Prop} (hy : x.Yields s a s')
    (hs : Furnished cfg s') (hi : s'.imports = s.imports) (hr : s'.registry = s.registry)
    (hw : s.warnings <+: s'.warnings) (hp : post a s') : Traced cfg c x begun s post :=
  .of_step hy hs (.aside hi hr hw) hp

theorem Traced.pure (hs : Furnished cfg s) {a : α} {post : α → State → Prop} (hp : post a s) :
    Traced cfg c (pure a) begun s post :=
  .of_aside (Run.yields_pure.mpr ⟨rfl, rfl⟩) hs rfl rfl (List.prefix_refl _) hp

theorem Traced.fail (hs : Furnished cfg s) {f : Failure} {post : α → State → Prop} :
    Traced cfg c (Run.fail f : Run α) begun s post := by
  refine ⟨hs, fun a ha => ?_, fun _ _ => ⟨[], by simp, .refl⟩⟩
  have : Except.error f = Except.ok a := ha
  simp at this

/-- What follows a computation is traced from where that ends. -/
theorem Traced.bind_run {f : α → Run β} {mid : α → State → Prop} {post : β → State → Prop}
    (hx : Traced cfg c x begun s mid) (hf : ∀ a s', x.Yields s a s' → Furnished cfg s' →
      Steps cfg c (begun, s) (begun, s') → mid a s' → Traced cfg c (f a) begun s' post) :
    Traced cfg c (x >>= f) begun s post := by
  obtain ⟨hs₁, done, failed⟩ := hx
  rcases h : x.run.run s with ⟨r, s₁⟩
  rw [h] at hs₁ done failed
  cases r with
  | error e =>
    have run : (x >>= f).run.run s = (.error e, s₁) := by rw [Run.run_bind, h]
    refine ⟨by rw [run]; exact hs₁, fun b hb => ?_, fun e' he' => ?_⟩
    · rw [run] at hb
      simp at hb
    · rw [run] at he' ⊢
      obtain rfl := Except.error.inj he'
      exact failed e rfl
  | ok a =>
    obtain ⟨hsteps, hmid⟩ := done a rfl
    have run : (x >>= f).run.run s = (f a).run.run s₁ := by rw [Run.run_bind, h]
    obtain ⟨hs', done', failed'⟩ := hf a s₁ h hs₁ hsteps hmid
    refine ⟨by rw [run]; exact hs', fun b hb => ?_, fun e he => ?_⟩
    · rw [run] at hb ⊢
      obtain ⟨hsteps', hp⟩ := done' b hb
      exact ⟨hsteps.trans hsteps', hp⟩
    · rw [run] at he ⊢
      obtain ⟨more, hstopped, hsteps'⟩ := failed' e he
      exact ⟨more, hstopped, hsteps.trans hsteps'⟩

theorem Traced.bind {f : α → Run β} {mid : α → State → Prop} {post : β → State → Prop}
    (hx : Traced cfg c x begun s mid)
    (hf : ∀ a s', Furnished cfg s' → Extends s s' → mid a s' → Traced cfg c (f a) begun s' post) :
    Traced cfg c (x >>= f) begun s post :=
  .bind_run hx fun a s' _ hs' hsteps hm => hf a s' hs' (steps_extend hsteps) hm

theorem Traced.imp {post post' : α → State → Prop} (h : Traced cfg c x begun s post)
    (hp : ∀ a s', Furnished cfg s' → post a s' → post' a s') : Traced cfg c x begun s post' where
  furnished := h.furnished
  done a ha := ⟨(h.done a ha).1, hp a _ h.furnished (h.done a ha).2⟩
  failed := h.failed

theorem Traced.get (hs : Furnished cfg s) :
    Traced cfg c (get : Run State) begun s fun t s' => s = t ∧ s = s' :=
  .of_aside (Run.yields_get.mpr ⟨rfl, rfl⟩) hs rfl rfl (List.prefix_refl _) ⟨rfl, rfl⟩

theorem Traced.warnAll (hs : Furnished cfg s) (ws : List Warning) :
    Traced cfg c (Run.warnAll ws) begun s fun _ _ => True :=
  .of_aside (a := ⟨⟩) (Run.yields_warnAll.mpr rfl) ⟨hs.documents, hs.inline⟩ rfl rfl
    (List.prefix_append _ _) trivial

theorem Traced.warn (hs : Furnished cfg s) (w : Warning) :
    Traced cfg c (Run.warn w) begun s fun _ _ => True := .warnAll hs [w]

theorem Traced.imported (hs : Furnished cfg s) (key : String) :
    Traced cfg c (Run.imported? key) begun s fun i s' =>
      i = Imports.get? s.imports key ∧ s' = s :=
  .of_aside (Run.yields_imported.mpr ⟨rfl, rfl⟩) hs rfl rfl (List.prefix_refl _) ⟨rfl, rfl⟩

/-- The records under construction do not count. -/
theorem Traced.within {f : Frame} {post : α → State → Prop}
    (hx : Traced cfg c x begun { s with frames := f :: s.frames } fun a s' =>
      ∀ frames, post a { s' with frames }) :
    Traced cfg c (Run.within f x) begun s post := by
  have run : (Run.within f x).run.run s =
      ((x.run.run { s with frames := f :: s.frames }).1,
        { (x.run.run { s with frames := f :: s.frames }).2 with
          frames := (x.run.run { s with frames := f :: s.frames }).2.frames.tail }) := rfl
  have first : Steps cfg c (begun, s) (begun, { s with frames := f :: s.frames }) :=
    .single (.aside rfl rfl (List.prefix_refl _))
  refine ⟨by rw [run]; exact ⟨hx.furnished.documents, hx.furnished.inline⟩, fun a ha => ?_,
    fun e he => ?_⟩
  · rw [run] at ha ⊢
    obtain ⟨hsteps, hp⟩ := hx.done a ha
    exact ⟨first.trans (hsteps.tail (.aside rfl rfl (List.prefix_refl _))), hp _⟩
  · rw [run] at he ⊢
    obtain ⟨more, hstopped, hsteps⟩ := hx.failed e he
    exact ⟨more, hstopped, first.trans (hsteps.tail (.aside rfl rfl (List.prefix_refl _)))⟩

end Traced

section Builds

variable {cfg : Setting} {c : Corpus} {α β : Type} {x : Build α} {s : State}
  {names : List String} {begun : List Import}

theorem BuildsTraced.pure (hs : Furnished cfg s) {a : α} {post : α → State → Prop}
    (hp : post a s) : BuildsTraced cfg c (pure a) names begun s post :=
  Traced.pure hs hp

theorem BuildsTraced.bind {f : α → Build β} {mid : α → State → Prop} {post : β → State → Prop}
    (hx : BuildsTraced cfg c x names begun s mid)
    (hf : ∀ a names' s', Furnished cfg s' → Extends s s' → mid a s' →
      BuildsTraced cfg c (f a) names' begun s' post) :
    BuildsTraced cfg c (x >>= f) names begun s post := by
  unfold BuildsTraced
  rw [StateT.run_bind]
  exact Traced.bind hx fun r s' hs' he hm => hf r.1 r.2 s' hs' he hm

theorem BuildsTraced.lift {x : Run α} {post : α → State → Prop}
    (h : Traced cfg c x begun s post) : BuildsTraced cfg c (liftM x) names begun s post :=
  Traced.bind (f := fun a => Pure.pure (a, names)) h fun _ _ hs' _ hp => Traced.pure hs' hp

theorem Traced.apart {post : α → State → Prop} (h : BuildsTraced cfg c x [] begun s post) :
    Traced cfg c (Build.apart x) begun s fun r s' => post r.1 s' := h

/-- Gathering names leaves the state alone. -/
theorem BuildsTraced.gather (hs : Furnished cfg s) (g : List String → List String) :
    BuildsTraced cfg c (modify g : Build PUnit) names begun s fun _ s' => s' = s :=
  Traced.pure (a := (PUnit.unit, g names)) hs rfl

theorem BuildsTraced.getThe (hs : Furnished cfg s) :
    BuildsTraced cfg c (getThe State : Build State) names begun s fun t s' => s = t ∧ s = s' :=
  BuildsTraced.lift (Traced.get hs)

end Builds

section HandsOut

variable {c : Corpus} {s s' : State} {t : AvroType}

theorem HandsOut.mono {t : Option AvroType} (he : Extends s s') (h : HandsOut c t s) :
    HandsOut c t s' :=
  fun name hn => (h name hn).mono he

theorem hands_out_none : HandsOut c none s := by
  simp [HandsOut]

theorem hands_out_of (h : ∀ name, t ≠ .reference name) : HandsOut c (some t) s :=
  fun name hn => absurd (Option.some.inj hn) (h name)

theorem hands_out_useful {t : Option AvroType} (h : HandsOut c t s) :
    HandsOut c (some (usefulOrGeneric t)) s :=
  useful_or_generic (p := fun u => HandsOut c (some u) s) (hands_out_of (by simp [generic]))
    fun _ hu => hu ▸ h

end HandsOut

end AvroDerive.Convert
