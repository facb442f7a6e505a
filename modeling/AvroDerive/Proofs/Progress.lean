import AvroDerive.Proofs.DefinitionMeaning

/-! # What is remembered and registered agrees with a plan

While the definitions of a document are converted, what references stand for is remembered and types
are registered. Each entry of the two agrees with the plan, and remembering and registering what the
plan says keeps it so. -/
namespace AvroDerive.Convert

open AvroType Json Schema

/-- How far the conversion of a document has come. -/
structure Stage where
  /-- The definitions that are being converted and will be registered. -/
  pending : List (String × Json) := []
  /-- The definitions whose turn has come. -/
  passed : List (String × Json) := []
  /-- Types that have been registered, without the names that are gathered in records. -/
  kept : List AvroType := []
  /-- The records under construction. -/
  frames : Frames := []

section Progress

variable (cfg : Setting) (baseUri : String) (members : Object) (plan : Plan) (stage : Stage)

/-- The name is registered, or that of a definition that is being converted. -/
def Stage.Known (s : State) (name : String) : Prop :=
  name ∈ definedNames s.registry ∨ ∃ p ∈ stage.pending, name = fullName cfg p.1

/-- What is remembered and registered agrees with the plan and the stage. -/
structure Progress (s : State) : Prop where
  imports : ∀ m ∈ members, ∀ i, Imports.get? s.imports (placeOf baseUri m.1) = some i →
    standsFor cfg baseUri members (plan.meaning cfg baseUri members) m = some i
  registry : ∀ t ∈ s.registry, ∃ m ∈ members,
    recorded? cfg baseUri members (plan.meaning cfg baseUri members) m = some t.clearDependencies
  named : ∀ m ∈ members, ∀ name, Imports.get? s.imports (placeOf baseUri m.1) = some (.named name) →
    stage.Known cfg s name
  pending : ∀ p ∈ stage.pending, fullName cfg p.1 ∉ definedNames s.registry
  /-- A definition that stands alone is remembered with its registration. -/
  remembered : ∀ m ∈ members, isStandalone m.2 = true →
    fullName cfg m.1 ∈ definedNames s.registry →
    (Imports.get? s.imports (placeOf baseUri m.1)).isSome
  /-- Any other definition is registered in its turn only. -/
  passed : ∀ m ∈ members, isStandalone m.2 = false →
    fullName cfg m.1 ∈ definedNames s.registry → m ∈ stage.passed
  kept : stage.kept ⊆ s.registry.map clearDependencies
  frames : s.frames = stage.frames

end Progress

section Entries

variable {cfg : Setting} {baseUri : String} {members : Object} {plan : Plan} {stage : Stage}
  {m m' : String × Json} {s : State} {t : AvroType} {imports : Imports}

theorem entry_parts (name : String) (hnamed : t.isNamed = true) :
    (entryOf cfg name t).name? = some (Name.ofText name) ∧
      (entryOf cfg name t).ns? = some (homeNs cfg) := by
  cases t with
  | record r => exact ⟨rfl, rfl⟩
  | enum e => exact ⟨rfl, rfl⟩
  | fixed f => exact ⟨rfl, rfl⟩
  | _ => simp [isNamed] at hnamed

theorem named_of_kind (h : (t.isRecord || t.isEnum) = true) : t.isNamed = true := by
  cases t with
  | record r => rfl
  | enum e => rfl
  | _ => simp [isRecord, isEnum] at h

/-- What is registered for a definition has its name. -/
theorem recorded_parts (h : recorded? cfg baseUri members imports m = some t) :
    t.name? = some (Name.ofText m.1) ∧ t.ns? = some (homeNs cfg) := by
  obtain ⟨u, -, hu⟩ := Option.bind_eq_some_iff.mp h
  split at hu
  · next hkind => exact Option.some.inj hu ▸ entry_parts m.1 (named_of_kind hkind)
  · split at hu
    · simp at hu
    · exact Option.some.inj hu ▸ entry_parts m.1 rfl

theorem recorded_qualified (h : recorded? cfg baseUri members imports m = some t) :
    t.qualifiedName? = some (fullName cfg m.1) := by
  obtain ⟨hname, hns⟩ := recorded_parts h
  rw [qualifiedName?, hname, hns]
  rfl

theorem Plan.Fits.member_of_name (h : plan.Fits cfg baseUri members) (hm : m ∈ members)
    (hm' : m' ∈ members) (hname : fullName cfg m.1 = fullName cfg m'.1) : m = m' :=
  List.inj_on_of_nodup_map h.names hm hm' (qualify_inj hname)

/-- The type that is registered under the name of a definition is the definition's. -/
theorem Progress.own (hp : Progress cfg baseUri members plan stage s)
    (h : plan.Fits cfg baseUri members) (hm : m ∈ members)
    (hname : fullName cfg m.1 ∈ definedNames s.registry) : ∃ t ∈ s.registry,
      recorded? cfg baseUri members (plan.meaning cfg baseUri members) m =
        some t.clearDependencies := by
  obtain ⟨t, ht, hown⟩ := mem_defined.mp hname
  obtain ⟨m', hm', hrecorded⟩ := hp.registry t ht
  have hqualified := recorded_qualified hrecorded
  rw [qualified_clear, hown] at hqualified
  obtain rfl := h.member_of_name hm hm' (Option.some.inj hqualified)
  exact ⟨t, ht, hrecorded⟩

end Entries

section Stages

variable {cfg : Setting} {baseUri : String} {members : Object} {plan : Plan} {stage : Stage}
  {m : String × Json} {s : State} {t : AvroType}

theorem Stage.Known.mono {name : String} {pending : List (String × Json)} {s' : State}
    (h : stage.Known cfg s name) (hregistry : definedNames s.registry ⊆ definedNames s'.registry)
    (hpending : ∀ p ∈ stage.pending, p ∈ pending ∨ fullName cfg p.1 ∈ definedNames s'.registry) :
    { stage with pending }.Known cfg s' name := by
  rcases h with h | ⟨p, hp, rfl⟩
  · exact Or.inl (hregistry h)
  · exact (hpending p hp).symm.imp id fun hp => ⟨p, hp, rfl⟩

/-- Less may be said of what has been registered, and more turns may have passed. -/
theorem Progress.later (hp : Progress cfg baseUri members plan stage s)
    {passed : List (String × Json)} {kept : List AvroType} (hpassed : stage.passed ⊆ passed)
    (hkept : kept ⊆ stage.kept) :
    Progress cfg baseUri members plan { stage with passed, kept } s where
  imports := hp.imports
  registry := hp.registry
  named := hp.named
  pending := hp.pending
  remembered := hp.remembered
  passed m hm hs hname := hpassed (hp.passed m hm hs hname)
  kept := List.Subset.trans hkept hp.kept
  frames := hp.frames

theorem Progress.warned (hp : Progress cfg baseUri members plan stage s) (ws : List Warning) :
    Progress cfg baseUri members plan stage { s with warnings := ws } :=
  ⟨hp.imports, hp.registry, hp.named, hp.pending, hp.remembered, hp.passed, hp.kept, hp.frames⟩

/-- The conversion of a definition begins that is not registered. -/
theorem Progress.begin (hp : Progress cfg baseUri members plan stage s)
    (hfresh : fullName cfg m.1 ∉ definedNames s.registry) :
    Progress cfg baseUri members plan { stage with pending := m :: stage.pending } s where
  imports := hp.imports
  registry := hp.registry
  named m' hm' name h :=
    (hp.named m' hm' name h).mono (List.Subset.refl _) fun _ hq => Or.inl (List.mem_cons_of_mem _ hq)
  pending := List.forall_mem_cons.mpr ⟨hfresh, hp.pending⟩
  remembered := hp.remembered
  passed := hp.passed
  kept := hp.kept
  frames := hp.frames

/-- What references to a definition stand for is remembered. -/
theorem Progress.remember (hp : Progress cfg baseUri members plan stage s)
    (h : plan.Fits cfg baseUri members) (hm : m ∈ members) {i : Imported}
    (hi : standsFor cfg baseUri members (plan.meaning cfg baseUri members) m = some i)
    (hknown : ∀ name, i = .named name → stage.Known cfg s name) :
    Progress cfg baseUri members plan stage
      { s with imports := Imports.insert s.imports (placeOf baseUri m.1) i } where
  imports m' hm' i' hi' := by
    rw [Imports.get?_insert] at hi'
    split at hi'
    · next hplace =>
      obtain rfl := List.inj_on_of_nodup_map h.places hm' hm hplace
      exact hi.trans hi'
    · exact hp.imports m' hm' i' hi'
  registry := hp.registry
  named m' hm' name hi' := by
    rw [Imports.get?_insert] at hi'
    split at hi'
    · exact hknown name (Option.some.inj hi')
    · exact hp.named m' hm' name hi'
  pending := hp.pending
  remembered m' hm' hs hname := by
    rw [Imports.get?_insert]
    split
    · rfl
    · exact hp.remembered m' hm' hs hname
  passed := hp.passed
  kept := hp.kept
  frames := hp.frames

theorem defined_register {r : Registry} {name : String} (names : List String)
    (ht : t.qualifiedName? = some name) (hfresh : name ∉ definedNames r) :
    (Registry.register r t names).2 = r ++ [Registry.gather names t] ∧
      definedNames (Registry.register r t names).2 = definedNames r ++ [name] := by
  have added : (Registry.register r t names).2 = r ++ [Registry.gather names t] := by
    simp only [Registry.register, ht, Option.getD_some, if_neg (mt contains_iff_defined.mp hfresh)]
  refine ⟨added, ?_⟩
  rw [added, defined_append]
  simp [definedNames, Registry.qualifiedName?_gather, ht]

/-- The type of a definition is registered, which ends its conversion. -/
theorem Progress.register (stage : Stage) {pending : List (String × Json)}
    (hp : Progress cfg baseUri members plan { stage with pending } s)
    (h : plan.Fits cfg baseUri members) (hm : m ∈ members)
    (hrecorded : recorded? cfg baseUri members (plan.meaning cfg baseUri members) m =
      some t.clearDependencies)
    (hfresh : fullName cfg m.1 ∉ definedNames s.registry)
    (hpending : ∀ p ∈ pending, p ∈ stage.pending ∨ p = m)
    (hstill : ∀ p ∈ stage.pending, p ∈ pending ∧ p ∈ members ∧ p ≠ m)
    (hturn : if isStandalone m.2 = true then (Imports.get? s.imports (placeOf baseUri m.1)).isSome
      else m ∈ stage.passed) (names : List String) :
    Progress cfg baseUri members plan { stage with kept := t.clearDependencies :: stage.kept }
      { s with registry := (Registry.register s.registry t names).2 } := by
  have hqualified : t.qualifiedName? = some (fullName cfg m.1) :=
    (qualified_clear t).symm.trans (recorded_qualified hrecorded)
  obtain ⟨added, defined⟩ := defined_register names hqualified hfresh
  have own : ∀ m' ∈ members, fullName cfg m'.1 ∈ definedNames s.registry ++ [fullName cfg m.1] →
      fullName cfg m'.1 ∈ definedNames s.registry ∨ m' = m := by
    intro m' hm' hname
    rcases List.mem_append.mp hname with hname | hname
    · exact Or.inl hname
    · exact Or.inr (h.member_of_name hm' hm (List.mem_singleton.mp hname))
  refine ⟨hp.imports, ?registry, ?named, ?pending, ?remembered, ?passed, ?kept, hp.frames⟩
  case registry =>
    rw [added]
    refine List.forall_mem_append.mpr ⟨hp.registry, List.forall_mem_singleton.mpr ⟨m, hm, ?_⟩⟩
    rw [clear_gather, hrecorded]
  case named =>
    intro m' hm' name hi
    refine (hp.named m' hm' name hi).mono ?_ fun p hq => (hpending p hq).imp_right ?_
    · rw [defined]
      exact List.subset_append_left _ _
    · rintro rfl
      rw [defined]
      exact List.mem_append_right _ (List.mem_singleton_self _)
  case pending =>
    intro p hq hname
    obtain ⟨hq, hmem, hne⟩ := hstill p hq
    rw [defined] at hname
    exact (own p hmem hname).elim (hp.pending p hq) hne
  case remembered =>
    intro m' hm' hs hname
    rw [defined] at hname
    rcases own m' hm' hname with hname | rfl
    · exact hp.remembered m' hm' hs hname
    · rwa [if_pos hs] at hturn
  case passed =>
    intro m' hm' hs hname
    rw [defined] at hname
    rcases own m' hm' hname with hname | rfl
    · exact hp.passed m' hm' hs hname
    · rwa [if_neg (by simp [hs])] at hturn
  case kept =>
    rw [added, List.map_append, List.map_singleton, clear_gather]
    refine List.cons_subset.mpr ⟨List.mem_append_right _ (List.mem_singleton_self _), ?_⟩
    exact List.Subset.trans hp.kept (List.subset_append_left _ _)

/-- The type of a definition that stands alone is registered and its name remembered. -/
theorem Progress.register_named (stage : Stage)
    (hp : Progress cfg baseUri members plan { stage with pending := m :: stage.pending } s)
    (h : plan.Fits cfg baseUri members) (hm : m ∈ members) (hs : isStandalone m.2 = true)
    (hrecorded : recorded? cfg baseUri members (plan.meaning cfg baseUri members) m =
      some t.clearDependencies) (hother : ∀ p ∈ stage.pending, p ∈ members ∧ p ≠ m)
    (names : List String) :
    Progress cfg baseUri members plan { stage with kept := t.clearDependencies :: stage.kept }
      { s with
        registry := (Registry.register s.registry t names).2
        imports := Imports.insert s.imports (placeOf baseUri m.1) (.named (fullName cfg m.1)) } := by
  have hfresh := hp.pending m (List.mem_cons_self ..)
  have remembered := hp.remember h hm (if_pos hs) fun name hn =>
    Or.inr ⟨m, List.mem_cons_self .., (Imported.named.inj hn).symm⟩
  refine Progress.register stage remembered h hm hrecorded hfresh ?_ ?_ ?_ names
  · exact fun p hq => (List.mem_cons.mp hq).symm
  · exact fun p hq => ⟨List.mem_cons_of_mem _ hq, hother p hq⟩
  · rw [if_pos hs, Imports.get?_insert, if_pos rfl]
    rfl

theorem same_ns_ne {a b : String} (hb : b ≠ "") (hne : a ≠ b) :
    Registry.sameNs (some a) (some b) = false := by
  by_cases ha : a = "" <;> simp [Registry.sameNs, Option.filter_some, ha, hb, hne]

/-- A type that is named apart from the definitions is not found in the registry. -/
theorem Progress.unused (hp : Progress cfg baseUri members plan stage s)
    (h : plan.Fits cfg baseUri members) (hm : m ∈ members)
    (hpending : isStandalone m.2 = true → m ∈ stage.pending) {t : AvroType} {name : String}
    (ht : Apart (plan.view cfg baseUri m) (isStandalone m.2) t) (hname : t.name? = some name) :
    Registry.find? s.registry name t.ns? = none := by
  rw [Registry.find?, List.find?_eq_none]
  intro u hu
  obtain ⟨m', hm', hrecorded⟩ := hp.registry u hu
  obtain ⟨hname', hns'⟩ := recorded_parts hrecorded
  rw [clear_name] at hname'
  rw [clear_ns] at hns'
  rw [hname', hns']
  simp only [Option.some.injEq, Bool.and_eq_true, decide_eq_true_eq, not_and, Bool.not_eq_true]
  intro hown
  rcases ht name hname with ⟨ns, hns, hlong⟩ | ⟨hs, hv, hns⟩
  · have hlong : (homeNs cfg).length < ns.length := hlong
    have hne : ns ≠ "" := fun he => by simp [he] at hlong
    have hne' : homeNs cfg ≠ ns := fun he => by simp [he] at hlong
    rw [hns]
    exact same_ns_ne hne hne'
  · obtain rfl : m' = m := List.inj_on_of_nodup_map h.names hm' hm (hown.trans hv)
    have hdefined : fullName cfg m'.1 ∈ definedNames s.registry := by
      refine mem_defined.mpr ⟨u, hu, ?_⟩
      rw [qualifiedName?, hname', hns']
      rfl
    exact absurd hdefined (hp.pending m' (hpending hs))

end Stages

end AvroDerive.Convert
