import AvroDerive.Proofs.Promise
import AvroDerive.Proofs.Unfolding

/-! # Orderly states

What holds of a conversion whether it succeeds or fails: the registry grows by records and
enumerations of new names, whose dependencies are listed once and in one place, and every record
that is begun also ends. A computation keeps a state orderly if all its parts do, up to the one that
fails. -/
namespace AvroDerive.Convert

open AvroType

/-- A reference is to one of the names, to a name that a shared type refers to, or closes a
cycle. -/
def Listed (s : State) (names : List String) (place : Place) (name : String) : Prop :=
  name ∈ names ∨ Shared s name ∨ Closing place name

/-- A registered type lists each dependency once, is not among them, and holds all of them itself. -/
structure Entry (t : AvroType) : Prop where
  kind : (t.isRecord || t.isEnum) = true
  once : t.ownDependencies.Nodup
  apart : ∀ name, t.qualifiedName? = some name → name ∉ t.ownDependencies
  gathered : ∀ d ∈ t.definitions.tail, d.ownDependencies = []

structure Orderly (s : State) : Prop where
  entries : ∀ t ∈ s.registry, Entry t
  distinct : (definedNames s.registry).Nodup
  listed : ∀ t ∈ s.registry,
    t.AllRefer (Listed s (t.qualifiedName?.toList ++ t.ownDependencies)) none
  inline : ∀ key t, (key, some (.inline t)) ∈ s.imports → t.isRecord = false
  frames : ∀ f ∈ s.frames, Name.ofText f.name = f.name

/-- However the computation ends, the state is orderly and grew out of the first one. -/
def StaysOrderly {α : Type} (x : Run α) (s : State) (post : α → State → Prop) : Prop :=
  Orderly (x.run.run s).2 ∧ Grows s (x.run.run s).2 ∧
    ∀ a, (x.run.run s).1 = .ok a → post a (x.run.run s).2

/-- As `StaysOrderly`, for a computation that gathers names and keeps those that are there. -/
def BuildsOrderly {α : Type} (x : Build α) (names : List String) (s : State)
    (post : α → List String → State → Prop) : Prop :=
  StaysOrderly (x.run names) s fun r s' => names ⊆ r.2 ∧ post r.1 r.2 s'

section Orderly

variable {s s' : State} {names names' : List String} {name : String} {place : Place}

theorem Listed.mono (he : Extends s s') (hn : names ⊆ names') (h : Listed s names place name) :
    Listed s' names' place name :=
  h.imp (fun h => hn h) (Or.imp_left he.shared)

theorem listed_movable : Movable (Listed s names) where
  into_field place name h := by
    rcases h with h | h | ⟨_, _, _, _, hc, _⟩
    · exact Or.inl h
    · exact Or.inr (Or.inl h)
    · simp at hc
  renamed front owner back field name h := by
    rcases h with h | h | ⟨first, field', last, ns, hc, hn⟩
    · exact Or.inl h
    · exact Or.inr (Or.inl h)
    · obtain ⟨rfl, rfl⟩ := Prod.mk.inj (Option.some.inj hc)
      refine Or.inr (Or.inr ⟨front ++ first, field, last ++ back, ns, ?_, hn⟩)
      simp only [String.append_assoc]

/-- A state stays orderly if what is added to it is in order. -/
theorem Orderly.extend (hs : Orderly s) (he : Extends s s')
    (hr : ∀ t ∈ s'.registry, t ∈ s.registry ∨ Entry t ∧
      t.AllRefer (Listed s' (t.qualifiedName?.toList ++ t.ownDependencies)) none)
    (hd : (definedNames s'.registry).Nodup)
    (hi : ∀ key t, (key, some (.inline t)) ∈ s'.imports → (key, some (.inline t)) ∈ s.imports ∨
      t.isRecord = false)
    (hf : ∀ f ∈ s'.frames, f ∈ s.frames ∨ Name.ofText f.name = f.name) : Orderly s' where
  entries t ht := (hr t ht).elim (hs.entries t) And.left
  distinct := hd
  listed t ht := by
    rcases hr t ht with h | h
    · exact (hs.listed t h).imp fun _ _ h => h.mono he (List.Subset.refl _)
    · exact h.2
  inline key t h := (hi key t h).elim (hs.inline key t) id
  frames f h := (hf f h).elim (hs.frames f) id

/-- Warnings and fetched documents do not count. -/
theorem Orderly.aside (hs : Orderly s) (ws : List Warning) (documents : List (String × Json)) :
    Orderly { s with warnings := ws, documents } :=
  ⟨hs.entries, hs.distinct, hs.listed, hs.inline, hs.frames⟩

theorem Orderly.remember (hs : Orderly s) (key : String) {i : Option Imported}
    (hi : ∀ t, i = some (.inline t) → t.isRecord = false) :
    Orderly { s with imports := (key, i) :: s.imports } := by
  refine hs.extend ⟨List.prefix_refl _, List.suffix_cons _ _⟩ (fun _ => Or.inl) hs.distinct ?_
    (fun _ => Or.inl)
  intro key' t h
  rcases List.mem_cons.mp h with h | h
  · exact Or.inr (hi t (Prod.mk.inj h).2.symm)
  · exact Or.inl h

mutual

theorem definitions_clear : (t : AvroType) → ∀ d ∈ t.clearDependencies.definitions,
    d.ownDependencies = []
  | .record r, d, h => by
    rw [clearDependencies, definitions, List.mem_cons] at h
    rcases h with rfl | h
    · rfl
    · exact field_definitions_clear r.fields d h
  | .array items, d, h => definitions_clear items d h
  | .map values, d, h => definitions_clear values d h
  | .union branches, d, h => branch_definitions_clear branches d h
  | .enum _, d, h | .fixed _, d, h => by
    obtain rfl := List.mem_singleton.mp h
    rfl
  | .primitive _, d, h | .reference _, d, h | .logical _ _, d, h => absurd h List.not_mem_nil

theorem field_definitions_clear : (fs : List (Field AvroType)) →
    ∀ d ∈ fieldDefinitions (clearFields fs), d.ownDependencies = []
  | f :: fs, d, h => by
    rw [clearFields, fieldDefinitions, List.mem_append] at h
    exact h.elim (definitions_clear f.type d) (field_definitions_clear fs d)

theorem branch_definitions_clear : (ts : List AvroType) →
    ∀ d ∈ branchDefinitions (clearBranches ts), d.ownDependencies = []
  | t :: ts, d, h => by
    rw [clearBranches, branchDefinitions, List.mem_append] at h
    exact h.elim (definitions_clear t d) (branch_definitions_clear ts d)

end

/-- What is registered gathers its dependencies, without itself and without those inside. -/
theorem entry_gather (dependencies : List String) {t : AvroType}
    (hkind : (t.isRecord || t.isEnum) = true) (honce : t.ownDependencies.Nodup) :
    Entry (Registry.gather dependencies t) := by
  cases t with
  | record r =>
    refine ⟨rfl, (addAll_nodup honce _).filter _, ?_, field_definitions_clear r.fields⟩
    intro name hname hm
    obtain rfl : qualify r.ns r.name = name := Option.some.inj hname
    simpa using (List.mem_filter.mp hm).2
  | enum e =>
    refine ⟨rfl, List.nodup_nil, fun _ _ => List.not_mem_nil, ?_⟩
    simp [Registry.gather, definitions]
  | _ => simp [isRecord, isEnum] at hkind

theorem Orderly.register (hs : Orderly s) {t : AvroType} {dependencies : List String}
    (hkind : (t.isRecord || t.isEnum) = true) (honce : t.ownDependencies.Nodup)
    (ht : t.AllRefer (Listed s (dependencies ++ t.ownDependencies)) none) :
    Orderly { s with registry := (Registry.register s.registry t dependencies).2 } := by
  have he : Extends s { s with registry := (Registry.register s.registry t dependencies).2 } :=
    ⟨register_extends t dependencies, List.suffix_refl _⟩
  obtain ⟨name, hname⟩ : ∃ name, t.qualifiedName? = some name := by
    cases t <;> simp_all [isRecord, isEnum, qualifiedName?, name?]
  have hname' : (Registry.gather dependencies t).qualifiedName? = some name := by
    rw [Registry.qualifiedName?_gather, hname]
  have hlisted : (Registry.gather dependencies t).AllRefer
      (Listed s ((Registry.gather dependencies t).qualifiedName?.toList ++
        (Registry.gather dependencies t).ownDependencies)) none := by
    intro p n hm
    rw [mentions_gather] at hm
    cases t with
    | record r => exact (ht p n hm).mono (.refl s) fun m hm => gather_names (List.mem_append.mp hm)
    | enum e => simp [mentions] at hm
    | _ => simp [isRecord, isEnum] at hkind
  by_cases hc : Registry.contains s.registry name = true
  · have same : (Registry.register s.registry t dependencies).2 = s.registry := by
      simp [Registry.register, hname, hc]
    rw [same]
    exact hs
  · have added : (Registry.register s.registry t dependencies).2 =
        s.registry ++ [Registry.gather dependencies t] := by
      simp [Registry.register, hname, hc]
    have fresh : name ∉ definedNames s.registry := mt contains_iff_defined.mpr hc
    refine hs.extend he ?_ ?_ (fun _ _ => Or.inl) (fun _ => Or.inl)
    · intro u hu
      simp only [added, List.mem_append, List.mem_singleton] at hu
      rcases hu with hu | rfl
      · exact Or.inl hu
      · exact Or.inr ⟨entry_gather dependencies hkind honce,
          hlisted.imp fun _ _ h => h.mono he (List.Subset.refl _)⟩
    · simp only [added, defined_append]
      refine List.nodup_append.mpr ⟨hs.distinct, ?_, ?_⟩
      · simp [definedNames, hname']
      · intro a ha b hb
        obtain rfl : b = name := by simpa [definedNames, hname', eq_comm] using hb
        exact fun hab => fresh (hab ▸ ha)

end Orderly

section Stays

variable {α β : Type} {x : Run α} {s s' : State}

theorem StaysOrderly.pure (hs : Orderly s) {a : α} {post : α → State → Prop} (h : post a s) :
    StaysOrderly (pure a) s post := by
  refine ⟨hs, .refl s, fun b hb => ?_⟩
  obtain rfl := Except.ok.inj hb
  exact h

theorem StaysOrderly.bind {f : α → Run β} {mid : α → State → Prop} {post : β → State → Prop}
    (hx : StaysOrderly x s mid)
    (hf : ∀ a s', Orderly s' → Grows s s' → mid a s' → StaysOrderly (f a) s' post) :
    StaysOrderly (x >>= f) s post := by
  obtain ⟨hs₁, hg₁, hm⟩ := hx
  unfold StaysOrderly
  rw [Run.run_bind]
  rcases h : x.run.run s with ⟨r, s₁⟩
  rw [h] at hs₁ hg₁ hm
  cases r with
  | error e => exact ⟨hs₁, hg₁, by simp⟩
  | ok a =>
    obtain ⟨hs', hg', hp⟩ := hf a s₁ hs₁ hg₁ (hm a rfl)
    exact ⟨hs', hg₁.trans hg', hp⟩

theorem StaysOrderly.imp {post post' : α → State → Prop} (h : StaysOrderly x s post)
    (hp : ∀ a s', Orderly s' → Grows s s' → post a s' → post' a s') :
    StaysOrderly x s post' := by
  obtain ⟨hs', hg, h⟩ := h
  exact ⟨hs', hg, fun a ha => hp a _ hs' hg (h a ha)⟩

theorem StaysOrderly.fail (hs : Orderly s) {f : Failure} {post : α → State → Prop} :
    StaysOrderly (Run.fail f : Run α) s post := by
  refine ⟨hs, .refl s, fun a ha => ?_⟩
  have : Except.error f = Except.ok a := ha
  simp at this

/-- A step that only changes the state, into an orderly one. -/
theorem StaysOrderly.modify {g : State → State} (hs : Orderly (g s)) (hg : Grows s (g s)) :
    StaysOrderly (modify g : Run PUnit) s fun _ s' => s' = g s :=
  ⟨hs, hg, fun _ _ => rfl⟩

theorem StaysOrderly.get (hs : Orderly s) :
    StaysOrderly (get : Run State) s fun t s' => s = t ∧ s = s' := by
  refine ⟨hs, .refl s, fun t ht => ?_⟩
  exact ⟨Except.ok.inj ht, rfl⟩

theorem StaysOrderly.warnAll (hs : Orderly s) (ws : List Warning) :
    StaysOrderly (Run.warnAll ws) s fun _ _ => True :=
  (StaysOrderly.modify (hs.aside _ _) ⟨⟨List.prefix_refl _, List.suffix_refl _⟩, rfl⟩).imp
    fun _ _ _ _ _ => trivial

theorem StaysOrderly.warn (hs : Orderly s) (w : Warning) :
    StaysOrderly (Run.warn w) s fun _ _ => True := StaysOrderly.warnAll hs [w]

theorem StaysOrderly.remember (hs : Orderly s) (key : String) {i : Imported}
    (hi : ∀ t, i = .inline t → t.isRecord = false) :
    StaysOrderly (Run.remember key i) s fun _ s' => s'.imports = (key, some i) :: s.imports :=
  (StaysOrderly.modify (hs.remember key fun t ht => hi t (Option.some.inj ht))
    ⟨⟨List.prefix_refl _, List.suffix_cons _ _⟩, rfl⟩).imp fun _ _ _ _ h => by rw [h]; rfl

theorem StaysOrderly.forget (hs : Orderly s) (key : String) :
    StaysOrderly (Run.forget key) s fun _ _ => True :=
  (StaysOrderly.modify (hs.remember key (by simp))
    ⟨⟨List.prefix_refl _, List.suffix_cons _ _⟩, rfl⟩).imp fun _ _ _ _ _ => trivial

theorem StaysOrderly.imported (hs : Orderly s) (key : String) :
    StaysOrderly (Run.imported? key) s fun i s' => i = Imports.get? s.imports key ∧ s' = s := by
  refine ⟨hs, .refl s, fun i hi => ?_⟩
  exact ⟨(Except.ok.inj hi).symm, rfl⟩

theorem StaysOrderly.register (hs : Orderly s) {t : AvroType} {dependencies : List String}
    (hkind : (t.isRecord || t.isEnum) = true) (honce : t.ownDependencies.Nodup)
    (ht : t.AllRefer (Listed s (dependencies ++ t.ownDependencies)) none) :
    StaysOrderly (Run.register t dependencies) s fun _ _ => True := by
  have run : (Run.register t dependencies).run.run s = (.ok (t.qualifiedName?.getD ""),
      { s with registry := (Registry.register s.registry t dependencies).2 }) := rfl
  unfold StaysOrderly
  rw [run]
  exact ⟨hs.register hkind honce ht,
    ⟨⟨register_extends t dependencies, List.suffix_refl _⟩, rfl⟩, fun _ _ => trivial⟩

/-- A record is under construction while a computation runs, and no longer when it has failed. -/
theorem StaysOrderly.within {f : Frame} (hs : Orderly s) (hf : Name.ofText f.name = f.name)
    {post : α → State → Prop}
    (hx : ∀ s₀, Orderly s₀ → StaysOrderly x s₀ fun a s₁ => ∀ s', Extends s₁ s' → post a s') :
    StaysOrderly (Run.within f x) s post := by
  have begun : Extends s { s with frames := f :: s.frames } :=
    ⟨List.prefix_refl _, List.suffix_refl _⟩
  have hs₀ : Orderly { s with frames := f :: s.frames } := by
    refine hs.extend begun (fun _ => Or.inl) hs.distinct (fun _ _ => Or.inl) fun g hg => ?_
    rcases List.mem_cons.mp hg with rfl | hg
    · exact Or.inr hf
    · exact Or.inl hg
  have inner := hx _ hs₀
  have run : (Run.within f x).run.run s =
      ((x.run.run { s with frames := f :: s.frames }).1,
        { (x.run.run { s with frames := f :: s.frames }).2 with
          frames := (x.run.run { s with frames := f :: s.frames }).2.frames.tail }) := rfl
  unfold StaysOrderly at inner ⊢
  rw [run]
  obtain ⟨hs₁, hg₁, hp⟩ := inner
  have done : Extends (x.run.run { s with frames := f :: s.frames }).2
      { (x.run.run { s with frames := f :: s.frames }).2 with
        frames := (x.run.run { s with frames := f :: s.frames }).2.frames.tail } :=
    ⟨List.prefix_refl _, List.suffix_refl _⟩
  refine ⟨?_, ⟨⟨hg₁.registry, hg₁.imports⟩, ?_⟩, fun a ha => hp a ha _ done⟩
  · exact hs₁.extend done (fun _ => Or.inl) hs₁.distinct (fun _ _ => Or.inl)
      fun g hg => Or.inl (List.mem_of_mem_tail hg)
  · show (x.run.run { s with frames := f :: s.frames }).2.frames.tail = s.frames
    rw [hg₁.frames]
    rfl

end Stays

section Builds

variable {α β : Type} {x : Build α} {s s' : State} {names names' : List String}

theorem BuildsOrderly.pure (hs : Orderly s) {a : α} {post : α → List String → State → Prop}
    (h : post a names s) : BuildsOrderly (pure a) names s post :=
  StaysOrderly.pure hs ⟨List.Subset.refl _, h⟩

theorem BuildsOrderly.bind {f : α → Build β} {mid : α → List String → State → Prop}
    {post : β → List String → State → Prop} (hx : BuildsOrderly x names s mid)
    (hf : ∀ a names' s', Orderly s' → Grows s s' → names ⊆ names' → mid a names' s' →
      BuildsOrderly (f a) names' s' post) : BuildsOrderly (x >>= f) names s post := by
  unfold BuildsOrderly
  rw [StateT.run_bind]
  refine StaysOrderly.bind hx ?_
  rintro ⟨a, names₁⟩ s₁ hs₁ hg₁ ⟨hn₁, hm⟩
  refine (hf a names₁ s₁ hs₁ hg₁ hn₁ hm).imp ?_
  exact fun r s' _ _ ⟨hn, hp⟩ => ⟨List.Subset.trans hn₁ hn, hp⟩

theorem BuildsOrderly.imp {post post' : α → List String → State → Prop}
    (h : BuildsOrderly x names s post)
    (hp : ∀ a names' s', Orderly s' → Grows s s' → names ⊆ names' →
      post a names' s' → post' a names' s') : BuildsOrderly x names s post' :=
  StaysOrderly.imp h fun r s' hs' hg ⟨hn, hq⟩ => ⟨hn, hp r.1 r.2 s' hs' hg hn hq⟩

theorem BuildsOrderly.lift {x : Run α} {post : α → State → Prop} (h : StaysOrderly x s post) :
    BuildsOrderly (liftM x) names s fun a names' s' => names' = names ∧ post a s' :=
  StaysOrderly.bind (f := fun a => Pure.pure (a, names)) h fun _ _ hs' _ hp =>
    StaysOrderly.pure hs' ⟨List.Subset.refl _, rfl, hp⟩

theorem StaysOrderly.apart {post : α → List String → State → Prop}
    (h : BuildsOrderly x [] s post) :
    StaysOrderly (Build.apart x) s fun r s' => post r.1 r.2 s' :=
  StaysOrderly.imp h fun _ _ _ _ hp => hp.2

theorem BuildsOrderly.depend (hs : Orderly s) (name : String) :
    BuildsOrderly (Build.depend name) names s fun _ names' s' => name ∈ names' ∧ s' = s :=
  StaysOrderly.pure (a := ((), addNew names name)) hs
    ⟨fun _ h => mem_addNew.mpr (Or.inl h), mem_addNew.mpr (Or.inr rfl), rfl⟩

theorem BuildsOrderly.dependAll (hs : Orderly s) (more : List String) :
    BuildsOrderly (Build.dependAll more) names s fun _ names' s' => more ⊆ names' ∧ s' = s :=
  StaysOrderly.pure (a := ((), addAll names more)) hs
    ⟨fun _ h => mem_addAll.mpr (Or.inl h), fun _ h => mem_addAll.mpr (Or.inr h), rfl⟩

theorem BuildsOrderly.lift_names (hs : Orderly s) (more : List String) :
    BuildsOrderly (Build.lift more) names s fun _ names' s' => more ⊆ names' ∧ s' = s :=
  StaysOrderly.pure (a := ((), names ++ more)) hs
    ⟨List.subset_append_left _ _, List.subset_append_right _ _, rfl⟩

theorem BuildsOrderly.getThe (hs : Orderly s) :
    BuildsOrderly (getThe State : Build State) names s fun t names' s' =>
      s = t ∧ s' = s ∧ names' = names :=
  (BuildsOrderly.lift (StaysOrderly.get hs)).imp
    fun _ _ _ _ _ _ ⟨hn, ht, hsame⟩ => ⟨ht, hsame.symm, hn⟩

end Builds

end AvroDerive.Convert
