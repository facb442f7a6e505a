import AvroDerive.Proofs.Promise

/-! # Computations that keep a state sound

A computation, begun in a sound state, ends in a sound one that grew out of it. Such computations
are put together along their binds. -/
namespace AvroDerive.Convert

open AvroType

section

variable (cfg : Setting) (j : Json) (pending : String → Prop)

/-- From the sound state every successful run leads to a sound state that grew out of it. -/
def Runs {α : Type} (x : Run α) (s : State) (post : α → State → Prop) : Prop :=
  ∀ a s', x.Yields s a s' → Sound cfg j pending s' ∧ Grows s s' ∧ post a s'

/-- As `Runs`, for a computation that gathers names and keeps those that are there. -/
def Builds {α : Type} (x : Build α) (names : List String) (s : State)
    (post : α → List String → State → Prop) : Prop :=
  ∀ a names' s', x.Yields names s a names' s' →
    Sound cfg j pending s' ∧ Grows s s' ∧ names ⊆ names' ∧ post a names' s'

/-- The references of the type are fine. At the top, where no record is under construction, so are
those of a record's fields apart from its name. -/
structure Built (t : AvroType) (names : List String) (s : State) : Prop where
  refer : t.AllRefer (Fine cfg j pending s names) none
  top : s.frames = [] → ∀ r, t = .record r → ∀ f ∈ r.fields,
    f.type.AllRefer (Fine cfg j pending s names) none

/-- As `Built`, for a type that need not be there. -/
def MaybeBuilt (t : Option AvroType) (names : List String) (s : State) : Prop :=
  ∀ u, t = some u → Built cfg j pending u names s

end

variable {cfg : Setting} {j : Json} {pending : String → Prop} {s s' : State}
  {names names' : List String}

/-- Nothing happened but warnings. -/
def Quiet (s s' : State) : Prop := ∃ ws, s' = { s with warnings := ws }

theorem Quiet.refl (s : State) : Quiet s s := ⟨s.warnings, rfl⟩

theorem Quiet.trans {s s' s'' : State} (h : Quiet s s') (h' : Quiet s' s'') : Quiet s s'' := by
  obtain ⟨ws, rfl⟩ := h
  obtain ⟨ws', rfl⟩ := h'
  exact ⟨ws', rfl⟩

theorem Quiet.grows {s s' : State} (h : Quiet s s') : Grows s s' := by
  obtain ⟨ws, rfl⟩ := h
  exact ⟨⟨List.prefix_refl _, List.suffix_refl _⟩, rfl⟩

theorem Quiet.sound (h : Quiet s s') (hs : Sound cfg j pending s) : Sound cfg j pending s' := by
  obtain ⟨ws, rfl⟩ := h
  exact hs.warn ws

section Built

variable {t : AvroType}

theorem Built.mono (h : Built cfg j pending t names s) (hg : Grows s s') (hn : names ⊆ names') :
    Built cfg j pending t names' s' where
  refer := h.refer.imp fun _ _ h => h.mono hg.toExtends hn
  top ht r hr f hf := (h.top (hg.frames ▸ ht) r hr f hf).imp fun _ _ h =>
    h.mono hg.toExtends hn

/-- A type that is no record need only be fine as a whole. -/
theorem Built.of_not_record (h : t.AllRefer (Fine cfg j pending s names) none)
    (hr : t.isRecord = false) : Built cfg j pending t names s :=
  ⟨h, fun _ r hr' => by simp [hr', isRecord] at hr⟩

/-- A record whose fields are fine apart from its name is fine. -/
theorem Built.of_fields {r : Record AvroType}
    (h : ∀ f ∈ r.fields, f.type.AllRefer (Fine cfg j pending s names) none) :
    Built cfg j pending (.record r) names s where
  refer := all_refer_record.mpr fun f hf => (h f hf).into_field fine_movable _
  top _ r' hr := by
    obtain rfl := AvroType.record.inj hr
    exact h

/-- A condition on names alone does not depend on places. -/
theorem Built.of_names (h : t.AllRefer
    (fun _ n => Known cfg j pending s n ∧ (n ∈ names ∨ Shared s n)) none) :
    Built cfg j pending t names s where
  refer := h.imp fun _ _ => Or.inl
  top _ r hr f hf := by
    rw [hr, all_refer_record] at h
    have moved : f.type.AllRefer
        (fun _ n => Known cfg j pending s n ∧ (n ∈ names ∨ Shared s n)) none := by
      refine AllRefer.moved ?_ f.type (h f hf)
      exact fun _ => id
    exact moved.imp fun _ _ => Or.inl

theorem Built.of_no_refer (h : ∀ q : Place → String → Prop, t.AllRefer q none) :
    Built cfg j pending t names s := .of_names (h _)

theorem Built.settle {pending' : String → Prop} (h : Built cfg j pending t names s)
    (hp : ∀ n, pending n → Known cfg j pending' s n) : Built cfg j pending' t names s where
  refer := h.refer.imp fun _ _ h => h.extend hp (.refl s) (List.Subset.refl _)
  top ht r hr f hf := (h.top ht r hr f hf).imp fun _ _ h =>
    h.extend hp (.refl s) (List.Subset.refl _)

theorem Built.maybe (h : Built cfg j pending t names s) :
    MaybeBuilt cfg j pending (some t) names s := by
  intro u hu
  obtain rfl := Option.some.inj hu
  exact h

theorem maybe_built_none : MaybeBuilt cfg j pending none names s := by
  simp [MaybeBuilt]

theorem built_generic : Built cfg j pending .generic names s :=
  .of_no_refer fun _ => generic_refer

end Built

section Runs

variable {α β : Type} {x : Run α}

theorem Runs.pure (hs : Sound cfg j pending s) {a : α} {post : α → State → Prop}
    (h : post a s) : Runs cfg j pending (pure a) s post := by
  intro b s' hy
  obtain ⟨rfl, rfl⟩ := Run.yields_pure.mp hy
  exact ⟨hs, .refl _, h⟩

theorem Runs.bind {f : α → Run β} {mid : α → State → Prop} {post : β → State → Prop}
    (hx : Runs cfg j pending x s mid)
    (hf : ∀ a s', Sound cfg j pending s' → Grows s s' → mid a s' →
      Runs cfg j pending (f a) s' post) : Runs cfg j pending (x >>= f) s post := by
  intro b s' hy
  obtain ⟨a, s₁, hxy, hfy⟩ := Run.yields_bind.mp hy
  obtain ⟨hs₁, hg₁, hm⟩ := hx a s₁ hxy
  obtain ⟨hs', hg', hp⟩ := hf a s₁ hs₁ hg₁ hm b s' hfy
  exact ⟨hs', hg₁.trans hg', hp⟩

theorem Runs.imp {post post' : α → State → Prop} (h : Runs cfg j pending x s post)
    (hp : ∀ a s', Sound cfg j pending s' → Grows s s' → post a s' → post' a s') :
    Runs cfg j pending x s post' := by
  intro a s' hy
  obtain ⟨hs', hg, h⟩ := h a s' hy
  exact ⟨hs', hg, hp a s' hs' hg h⟩

theorem Runs.fail {f : Failure} {post : α → State → Prop} :
    Runs cfg j pending (Run.fail f : Run α) s post :=
  fun _ _ h => absurd h Run.yields_fail

theorem Runs.get (hs : Sound cfg j pending s) :
    Runs cfg j pending (get : Run State) s fun t s' => s = t ∧ s = s' := by
  intro t s' hy
  obtain ⟨rfl, rfl⟩ := Run.yields_get.mp hy
  exact ⟨hs, .refl _, rfl, rfl⟩

theorem Runs.warnAll (hs : Sound cfg j pending s) (ws : List Warning) :
    Runs cfg j pending (Run.warnAll ws) s fun _ _ => True := by
  intro _ s' hy
  obtain rfl := Run.yields_warnAll.mp hy
  exact ⟨hs.warn _, ⟨⟨List.prefix_refl _, List.suffix_refl _⟩, rfl⟩, trivial⟩

/-- A record is under construction, with an anchored name, while a computation runs. -/
theorem Runs.within {f : Frame} (hs : Sound cfg j pending s) (hf : Name.ofText f.name = f.name)
    (ha : Anchored cfg j pending s f.qualifiedName) {post : α → State → Prop}
    (hx : ∀ s₀, Sound cfg j pending s₀ → Extends s s₀ →
      Runs cfg j pending x s₀ fun a s₁ => ∀ s', Extends s₁ s' → post a s') :
    Runs cfg j pending (Run.within f x) s post := by
  intro a s' hy
  obtain ⟨s₁, hxy, rfl⟩ := Run.yields_within.mp hy
  have begun : Extends s { s with frames := f :: s.frames } :=
    ⟨List.prefix_refl _, List.suffix_refl _⟩
  have hs₀ : Sound cfg j pending { s with frames := f :: s.frames } := by
    refine hs.extend begun (fun _ => Or.inl) (fun _ _ => Or.inl) (fun _ _ => Or.inl) ?_
      (fun _ => Or.inl)
    intro g hg
    rcases List.mem_cons.mp hg with rfl | hg
    · exact Or.inr ⟨hf, ha.mono begun⟩
    · exact Or.inl hg
  obtain ⟨hs₁, hg₁, hp⟩ := hx _ hs₀ begun a s₁ hxy
  have done : Extends s₁ { s₁ with frames := s₁.frames.tail } :=
    ⟨List.prefix_refl _, List.suffix_refl _⟩
  refine ⟨?_, ⟨⟨hg₁.registry, hg₁.imports⟩, ?_⟩, hp _ done⟩
  · exact hs₁.extend done (fun _ => Or.inl) (fun _ _ => Or.inl) (fun _ _ => Or.inl)
      (fun _ hg => Or.inl (List.mem_of_mem_tail hg)) (fun _ => Or.inl)
  · rw [hg₁.frames]
    rfl

theorem Runs.warn (hs : Sound cfg j pending s) (w : Warning) :
    Runs cfg j pending (Run.warn w) s fun _ _ => True := Runs.warnAll hs [w]

theorem Runs.register (hs : Sound cfg j pending s) {t : AvroType} {dependencies : List String}
    {expected : String} (hnamed : t.isNamed = true) (hname : t.qualifiedName? = some expected)
    (ht : t.AllRefer (Fine cfg j pending s (dependencies ++ t.ownDependencies)) none) :
    Runs cfg j pending (Run.register t dependencies) s fun name s' =>
      name = expected ∧ expected ∈ definedNames s'.registry := by
  intro name s' hy
  obtain ⟨hn, rfl⟩ := Run.yields_register.mp hy
  rw [hname, Option.getD_some] at hn
  exact ⟨hs.register hnamed ht, ⟨⟨register_extends t dependencies, List.suffix_refl _⟩, rfl⟩, hn,
    register_defined dependencies hname⟩

theorem Runs.remember (hs : Sound cfg j pending s) (key : String) {i : Imported}
    (hi : Stands cfg j pending s (some i)) :
    Runs cfg j pending (Run.remember key i) s fun _ s' => s'.registry = s.registry := by
  intro _ s' hy
  obtain rfl := Run.yields_remember.mp hy
  exact ⟨hs.supersede (.refl key s) hi, ⟨⟨List.prefix_refl _, List.suffix_cons _ _⟩, rfl⟩, rfl⟩

end Runs

section Builds

variable {α β : Type} {x : Build α}

theorem Builds.pure (hs : Sound cfg j pending s) {a : α} {post : α → List String → State → Prop}
    (h : post a names s) : Builds cfg j pending (pure a) names s post := by
  intro b names' s' hy
  obtain ⟨rfl, rfl, rfl⟩ := Build.yields_pure.mp hy
  exact ⟨hs, .refl _, List.Subset.refl _, h⟩

theorem Builds.bind {f : α → Build β} {mid : α → List String → State → Prop}
    {post : β → List String → State → Prop} (hx : Builds cfg j pending x names s mid)
    (hf : ∀ a names' s', Sound cfg j pending s' → Grows s s' → names ⊆ names' → mid a names' s' →
      Builds cfg j pending (f a) names' s' post) :
    Builds cfg j pending (x >>= f) names s post := by
  intro b names' s' hy
  obtain ⟨a, names₁, s₁, hxy, hfy⟩ := Build.yields_bind.mp hy
  obtain ⟨hs₁, hg₁, hn₁, hm⟩ := hx a names₁ s₁ hxy
  obtain ⟨hs', hg', hn', hp⟩ := hf a names₁ s₁ hs₁ hg₁ hn₁ hm b names' s' hfy
  exact ⟨hs', hg₁.trans hg', List.Subset.trans hn₁ hn', hp⟩

theorem Builds.imp {post post' : α → List String → State → Prop}
    (h : Builds cfg j pending x names s post)
    (hp : ∀ a names' s', Sound cfg j pending s' → Grows s s' → names ⊆ names' →
      post a names' s' → post' a names' s') : Builds cfg j pending x names s post' := by
  intro a names' s' hy
  obtain ⟨hs', hg, hn, h⟩ := h a names' s' hy
  exact ⟨hs', hg, hn, hp a names' s' hs' hg hn h⟩

theorem Builds.lift {x : Run α} {post : α → State → Prop} (h : Runs cfg j pending x s post) :
    Builds cfg j pending (liftM x) names s fun a names' s' => names' = names ∧ post a s' := by
  intro a names' s' hy
  obtain ⟨hx, rfl⟩ := Build.yields_lift.mp hy
  obtain ⟨hs', hg, hp⟩ := h a s' hx
  exact ⟨hs', hg, List.Subset.refl _, rfl, hp⟩

theorem Runs.apart {post : α → List String → State → Prop}
    (h : Builds cfg j pending x [] s post) :
    Runs cfg j pending (Build.apart x) s fun r s' => post r.1 r.2 s' := by
  intro r s' hy
  obtain ⟨hs', hg, -, hp⟩ := h r.1 r.2 s' (Build.yields_apart.mp hy)
  exact ⟨hs', hg, hp⟩

theorem Builds.depend (hs : Sound cfg j pending s) (name : String) :
    Builds cfg j pending (Build.depend name) names s fun _ names' s' =>
      name ∈ names' ∧ s = s' := by
  intro _ names' s' hy
  obtain ⟨rfl, rfl⟩ := Build.yields_depend.mp hy
  exact ⟨hs, .refl _, fun _ h => mem_addNew.mpr (Or.inl h), mem_addNew.mpr (Or.inr rfl), rfl⟩

theorem Builds.lift_names (hs : Sound cfg j pending s) (more : List String) :
    Builds cfg j pending (Build.lift more) names s fun _ names' s' =>
      more ⊆ names' ∧ s = s' := by
  intro _ names' s' hy
  obtain ⟨rfl, rfl⟩ := Build.yields_lift_names.mp hy
  exact ⟨hs, .refl _, List.subset_append_left _ _, List.subset_append_right _ _, rfl⟩

end Builds

section Scope

variable {scope : Scope}

theorem SoundScope.extend (h : SoundScope cfg j pending s scope) (he : Extends s s') :
    SoundScope cfg j pending s' scope :=
  ⟨h.document, h.home.mono he⟩

theorem SoundScope.mono (h : SoundScope cfg j pending s scope) (hg : Grows s s') :
    SoundScope cfg j pending s' scope := h.extend hg.toExtends

theorem SoundScope.deeper (h : SoundScope cfg j pending s scope) :
    SoundScope cfg j pending s scope.deeper :=
  ⟨h.document, h.home⟩

theorem SoundScope.for_field (h : SoundScope cfg j pending s scope) (field : String) :
    SoundScope cfg j pending s (scope.forField field) :=
  ⟨h.document, h.home⟩

theorem SoundScope.for_record (h : SoundScope cfg j pending s scope) {record ns : String}
    (ha : Anchored cfg j pending s (qualify (some ns) (Name.ofText record))) :
    SoundScope cfg j pending s (scope.forRecord record ns) :=
  ⟨h.document, ha⟩

theorem SoundScope.with_document (h : SoundScope cfg j pending s scope) {d : Json}
    (hd : IsDocument cfg j d) (baseUri : String) :
    SoundScope cfg j pending s (scope.withDocument d baseUri) :=
  ⟨hd, h.home⟩

/-- A type that is made at a scope is named after the type around it, or lives beneath that. -/
theorem SoundScope.local_home (h : SoundScope cfg j pending s scope) :
    Anchored cfg j pending s (qualify (some scope.typeNs) (Name.ofText scope.localName)) := by
  by_cases hf : scope.field = ""
  · simpa only [Scope.typeNs, Scope.localName, if_pos hf] using h.home
  · rw [Scope.typeNs, if_neg hf]
    exact Or.inr .beneath

end Scope

theorem document_texts {d : Json} (h : IsDocument cfg j d) : d.TextsIn (Written cfg j) :=
  fun _ hn => ⟨d, h, hn⟩

end AvroDerive.Convert
