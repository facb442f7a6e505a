import AvroDerive.Proofs.Progress

/-! # References to definitions in parallel runs

Whatever was converted before, a reference to a definition gets the type that the plan gives it: it
was remembered, or the definition is converted now and remembered. What is registered on the way are
the types of definitions. -/
namespace AvroDerive.Convert

open AvroType Json Schema

section Converting

variable (cfg : Setting) (baseUri : String) (members : Object) (plan : Plan) (stage : Stage) in
/-- A run that converts a definition is compared with one in which all references are remembered. -/
def converting (m : String × Json) : Comparison where
  related frames s s' :=
    Progress cfg baseUri members plan { stage with frames := frames ++ stage.frames } s ∧
      (∀ f ∈ frames, f.name ∈ plan.records m.1) ∧
        s' = { s' with imports := plan.meaning cfg baseUri members, registry := [], frames }
  exact := false
  known := stage.Known cfg
  reads := Holds members

variable {cfg : Setting} {baseUri : String} {members : Object} {plan : Plan} {stage : Stage}
  {m : String × Json}

theorem converting_faithful (h : plan.Fits cfg baseUri members) (hm : m ∈ members)
    (hpending : isStandalone m.2 = true → m ∈ stage.pending)
    (hframes : ∀ f ∈ stage.frames, f.name ∈ plan.around m.1) :
    Faithful (converting cfg baseUri members plan stage m) (plan.view cfg baseUri m) where
  legal := of_text_idem m.1
  warned := by
    rintro frames s s' ws ⟨hp, hf, hs'⟩
    refine ⟨hp.warned _, hf, ?_⟩
    rw [hs']
  begun := by
    rintro frames s s' f hname ⟨hp, hf, hs'⟩
    refine ⟨⟨hp.imports, hp.registry, hp.named, hp.pending, hp.remembered, hp.passed, hp.kept,
      congrArg (f :: ·) hp.frames⟩, List.forall_mem_cons.mpr ⟨hname, hf⟩, ?_⟩
    rw [hs']
  ended := by
    rintro frames s s' f ⟨hp, hf, hs'⟩
    refine ⟨⟨hp.imports, hp.registry, hp.named, hp.pending, hp.remembered, hp.passed, hp.kept,
      congrArg List.tail hp.frames⟩, (List.forall_mem_cons.mp hf).2, ?_⟩
    rw [hs']
    rfl
  found := by
    rintro frames s s' name ⟨hp, -, hs'⟩ hname
    refine ⟨?_, by rw [hs']⟩
    rw [hp.frames, Frames.find?, List.find?_append, Frames.find?]
    have hnone : List.find? (fun f : Frame => decide (f.name = name)) stage.frames = none := by
      rw [List.find?_eq_none]
      intro f hf heq
      exact (h.each m hm).apart name hname (of_decide_eq_true heq ▸ hframes f hf)
    rw [hnone, Option.or_none]
  unused := by
    rintro frames s s' t name ⟨hp, -, hs'⟩ ht hname
    refine ⟨hp.unused h hm hpending ht hname, ?_⟩
    rw [hs']
    rfl

variable (cfg baseUri members plan) in
/-- The references in a definition are treated alike in every conversion of it. -/
def RefersAlike (m : String × Json) : Prop :=
  ∀ stage : Stage, (isStandalone m.2 = true → m ∈ stage.pending) →
    (∀ p ∈ stage.pending, p ∈ members ∧ plan.rank m.1 ≤ plan.rank p.1) →
    (∀ f ∈ stage.frames, f.name ∈ plan.around m.1) → ∀ l l', l ≤ cfg.options.maxDepth →
    ReferencesAlike cfg (converting cfg baseUri members plan stage m) (plan.view cfg baseUri m)
      (definitionsOf members) (nodeWithin cfg l) (nodeWithin cfg l')

variable (cfg baseUri members plan stage m) in
/-- The definition has got its type, as a reference finds it. -/
def Converted (t : Option AvroType) (s : State) : Prop :=
  Progress cfg baseUri members plan stage s ∧
    t = referredType cfg baseUri members (plan.meaning cfg baseUri members) m ∧
      (isAlias m.2 = true → ∀ name, t = some (.reference name) → stage.Known cfg s name)

/-- A definition gets the type of the plan as a reference finds it, however deep that is. -/
theorem referred_builds_to (stage : Stage) (h : plan.Fits cfg baseUri members) (hm : m ∈ members)
    (hrefs : RefersAlike cfg baseUri members plan m)
    (hown : isStandalone m.2 = true → m ∈ stage.pending)
    (hpending : ∀ p ∈ stage.pending, p ∈ members ∧ plan.rank m.1 ≤ plan.rank p.1)
    (hframes : ∀ f ∈ stage.frames, f.name ∈ plan.around m.1) {levels : Nat}
    (hlevels : levels ≤ cfg.options.maxDepth + 1) {d : Json} (hd : Holds members d) (depth : Nat) :
    BuildsTo (nodeWithin cfg levels m.2 { definitionScope cfg baseUri d m.1 with depth })
      (Progress cfg baseUri members plan stage) (Converted cfg baseUri members plan stage m) := by
  have inexact : (converting cfg baseUri members plan stage m).exact = false := rfl
  have nodes := levels_alike (converting_faithful h hm hown hframes) hlevels (by simp [inexact])
    fun l l' hl _ _ => hrefs stage hown hpending hframes l l' (by omega)
  have site : AtSite (converting cfg baseUri members plan stage m) (plan.view cfg baseUri m)
      (definitionsOf members) (definitionSite m) { definitionScope cfg baseUri d m.1 with depth } 0 :=
    at_definition _ h hm hd hd (by simp [inexact])
  have alike := nodes [] (definitionSite m) m.2 _ 0 site (fun _ => rfl) (h.each m hm).fits
  have runs := alike.builds_to inexact { imports := plan.meaning cfg baseUri members }
  refine (runs.of_pre fun s hs => ⟨hs, by simp, rfl⟩).imp ?_
  rintro t s ⟨p, s', hy, ⟨hs, -, -⟩, ⟨⟨rfl, -⟩, hknown⟩⟩
  exact ⟨hs, (type_in_of_yields hy).symm, hknown⟩

end Converting

section Settling

variable {cfg : Setting} {baseUri : String} {members : Object} {plan : Plan} {stage : Stage}
  {m : String × Json} {t : AvroType}

/-- A type that stands alone is registered under its name. -/
theorem settle_registers (h : plan.Fits cfg baseUri members) (hm : m ∈ members)
    (hs : isStandalone m.2 = true) (hkind : (t.isRecord || t.isEnum) = true)
    (hname : t.qualifiedName? = some (fullName cfg m.1))
    (hrecorded : recorded? cfg baseUri members (plan.meaning cfg baseUri members) m =
      some t.clearDependencies) (hother : ∀ p ∈ stage.pending, p ∈ members ∧ p ≠ m)
    (reference : String) (scope : Scope) (names : List String) :
    BuildsTo (settle (placeOf baseUri m.1) reference (fullName cfg m.1) scope (some t) names)
      (Progress cfg baseUri members plan { stage with pending := m :: stage.pending }) fun u s =>
      Progress cfg baseUri members plan stage s ∧ u = .reference (fullName cfg m.1) ∧
        stage.Known cfg s (fullName cfg m.1) := by
  unfold settle
  dsimp only
  rw [if_pos hkind, if_pos hname]
  -- Between the two steps the registration is not remembered: only what was before is kept of it.
  refine .bind (m := fun name s => name = fullName cfg m.1 ∧ ∃ s₀, Progress cfg baseUri members plan
      { stage with pending := m :: stage.pending } s₀ ∧
      s = { s₀ with registry := (Registry.register s₀.registry t names).2 })
    (.lift (.register ?_)) ?_ ?_
  · exact fun s hp => ⟨by rw [hname]; rfl, s, hp, rfl⟩
  · intro _ _ name _ _ _
    refine .bind (.lift (Run.logs_remember _ _)) fun _ => ?_
    exact .bind (Build.logs_modify _) fun _ => .pure _
  · rintro name ⟨-, rfl, -⟩
    refine .bind (m := fun _ s => Progress cfg baseUri members plan stage s ∧
      stage.Known cfg s (fullName cfg m.1)) (.lift (.remember ?_)) ?_ ?_
    · rintro _ ⟨-, s, hp, rfl⟩
      refine ⟨(Progress.register_named stage hp h hm hs hrecorded hother names).later (List.Subset.refl _)
        (List.subset_cons_self _ _), Or.inl ?_⟩
      obtain ⟨-, hdefined⟩ := defined_register names hname (hp.pending m (List.mem_cons_self ..))
      rw [hdefined]
      exact List.mem_append_right _ (List.mem_singleton_self _)
    · exact fun _ _ _ _ _ _ => .bind (Build.logs_modify _) fun _ => .pure _
    · intro _ _
      refine .bind (.modify _) (fun _ _ _ _ _ _ => .pure _) fun _ _ => .pure ?_
      exact fun s hs => ⟨hs.1, rfl, hs.2⟩

/-- A type without a name is remembered as it is. -/
theorem settle_keeps (stage : Stage) (h : plan.Fits cfg baseUri members) (hm : m ∈ members)
    (hs : isStandalone m.2 = false) (hunnamed : t.isNamed = false)
    (hreferred : referredType cfg baseUri members (plan.meaning cfg baseUri members) m = some t)
    (reference expected : String) (scope : Scope) (names : List String) :
    BuildsTo (settle (placeOf baseUri m.1) reference expected scope (some t) names)
      (fun s => Progress cfg baseUri members plan stage s ∧
        ∀ name, t = .reference name → stage.Known cfg s name) fun u s =>
      Progress cfg baseUri members plan stage s ∧ u = t ∧
        ∀ name, t = .reference name → stage.Known cfg s name := by
  have hkind : ¬(t.isRecord || t.isEnum) = true := fun hk => by simp [named_of_kind hk] at hunnamed
  have stands : standsFor cfg baseUri members (plan.meaning cfg baseUri members) m =
      some (importedAs t) := by
    rw [standsFor, if_neg (by simp [hs]), hreferred, Option.map_some]
  have split : settle (placeOf baseUri m.1) reference expected scope (some t) names = (do
      Run.remember (placeOf baseUri m.1) (importedAs t)
      Build.dependAll names
      return t) := by
    unfold settle
    dsimp only
    rw [if_neg hkind]
    cases t <;> rfl
  rw [split]
  refine .bind (m := fun _ s => Progress cfg baseUri members plan stage s ∧
    ∀ name, t = .reference name → stage.Known cfg s name) (.lift (.remember ?_)) ?_ ?_
  · rintro s ⟨hp, hknown⟩
    refine ⟨hp.remember h hm stands fun name hname => hknown name ?_, hknown⟩
    cases t with
    | reference n => simpa [importedAs, referenceTo?] using hname
    | _ => simp [importedAs, referenceTo?] at hname
  · exact fun _ _ _ _ _ _ => .bind (Build.logs_modify _) fun _ => .pure _
  · intro _ _
    refine .bind (.modify _) (fun _ _ _ _ _ _ => .pure _) fun _ _ => .pure ?_
    exact fun s hs => ⟨hs.1, rfl, hs.2⟩

end Settling

section Importing

variable {cfg : Setting} {baseUri : String} {members : Object} {plan : Plan} {stage : Stage}
  {m : String × Json}

variable (cfg baseUri members plan stage m) in
/-- A reference to the definition has got its type. -/
def Referred (t : AvroType) (s : State) : Prop :=
  Progress cfg baseUri members plan stage s ∧
    (∃ i, standsFor cfg baseUri members (plan.meaning cfg baseUri members) m = some i ∧
      t = importedType i) ∧ ∀ name, t = .reference name → stage.Known cfg s name

/-- The name that a reference to a definition asks for. -/
theorem reference_name_of_leads {reference name : String} (h : leadsTo baseUri reference name = true)
    (scope : Scope) : referenceName cfg reference none scope = (Name.ofText name, homeNs cfg) := by
  obtain ⟨part, hpart, hpointer⟩ := part_of_leads h
  unfold referenceName
  dsimp only
  rw [hpart, Option.getD_some, hpointer, definition_name]

/-- A definition that was converted is settled with the type of the plan. -/
theorem settle_converted {x : Build (Option AvroType)} {pre : State → Prop}
    {post : AvroType → State → Prop} {key reference expected : String} {scope : Scope}
    {t : AvroType} (hx : BuildsTo x pre (Converted cfg baseUri members plan stage m))
    (hreferred : referredType cfg baseUri members (plan.meaning cfg baseUri members) m = some t)
    (hsettle : ∀ names, BuildsTo (settle key reference expected scope (some t) names)
      (Converted cfg baseUri members plan stage m (some t)) post) :
    BuildsTo (do
      let (t, names) ← Build.apart x
      settle key reference expected scope t names) pre post := by
  refine .bind (.lift (.apart hx)) (fun _ _ _ _ _ _ => (neutral_settle _ _ _ _ _ _).logs) ?_
  rintro ⟨u, names⟩ ⟨-, -, hu, -⟩
  obtain rfl : u = some t := hu.trans hreferred
  exact hsettle names

/-- A definition that is imported gets its type, and so does the reference to it. -/
theorem import_builds_to (h : plan.Fits cfg baseUri members) (hm : m ∈ members)
    (hsettled : plan.Settled cfg baseUri members m)
    (hrefs : RefersAlike cfg baseUri members plan m)
    (hpending : ∀ p ∈ stage.pending, p ∈ members ∧ plan.rank m.1 < plan.rank p.1)
    (hframes : ∀ f ∈ stage.frames, f.name ∈ plan.around m.1) {levels : Nat}
    (hlevels : levels ≤ cfg.options.maxDepth + 1) {d : Json} (hd : Holds members d)
    {reference : String} (hleads : leadsTo baseUri reference m.1 = true) (scope : Scope) :
    BuildsTo (importFragment cfg (nodeWithin cfg levels) (placeOf baseUri m.1) reference
        { fragment := m.2, document := d, baseUri, url := none } scope)
      (fun s => Progress cfg baseUri members plan stage s ∧
        Imports.get? s.imports (placeOf baseUri m.1) = none)
      (Referred cfg baseUri members plan stage m) := by
  obtain ⟨t, hreferred, hkind⟩ := hsettled
  have others : ∀ p ∈ stage.pending, p ∈ members ∧ plan.rank m.1 ≤ plan.rank p.1 :=
    fun p hp => (hpending p hp).imp_right Nat.le_of_lt
  unfold importFragment
  rw [reference_name_of_leads hleads]
  dsimp only
  by_cases hs : isStandalone m.2 = true
  · rw [if_pos hs] at hkind ⊢
    obtain ⟨hkind, hname, hrecorded⟩ := hkind
    have stands : standsFor cfg baseUri members (plan.meaning cfg baseUri members) m =
        some (.named (fullName cfg m.1)) := if_pos hs
    have other : ∀ p ∈ stage.pending, p ∈ members ∧ p ≠ m := by
      intro p hp
      refine ⟨(hpending p hp).1, ?_⟩
      rintro rfl
      exact Nat.lt_irrefl _ (hpending p hp).2
    have run : BuildsTo (do
        let (t, names) ← Build.apart (nodeWithin cfg levels m.2
          { definitionScope cfg baseUri d m.1 with depth := scope.depth + 1 })
        settle (placeOf baseUri m.1) reference (fullName cfg m.1) scope t names)
        (Progress cfg baseUri members plan { stage with pending := m :: stage.pending })
        (Referred cfg baseUri members plan stage m) := by
      have converted := referred_builds_to { stage with pending := m :: stage.pending } h hm hrefs
        (fun _ => List.mem_cons_self ..) (List.forall_mem_cons.mpr ⟨⟨hm, Nat.le_refl _⟩, others⟩)
        hframes hlevels hd (scope.depth + 1)
      refine settle_converted converted hreferred fun names => ?_
      refine ((settle_registers h hm hs hkind hname hrecorded other _ scope names).of_pre
        fun s hs => hs.1).imp ?_
      rintro _ s ⟨hp, rfl, hknown⟩
      exact ⟨hp, ⟨_, stands, rfl⟩, fun name hn => AvroType.reference.inj hn ▸ hknown⟩
    refine .bind (.lift (.remember ?_)) (fun _ _ _ _ _ _ => run.logs) fun _ _ => run
    rintro s ⟨hp, hnone⟩
    have hfresh : fullName cfg m.1 ∉ definedNames s.registry := by
      intro hdefined
      have hsome := hp.remembered m hm hs hdefined
      simp [hnone] at hsome
    refine (hp.begin hfresh).remember h hm stands fun name hn => ?_
    exact Or.inr ⟨m, List.mem_cons_self .., (Imported.named.inj hn).symm⟩
  · rw [if_neg hs] at hkind ⊢
    have hs : isStandalone m.2 = false := by simpa using hs
    have stands : standsFor cfg baseUri members (plan.meaning cfg baseUri members) m =
        some (importedAs t) := by
      rw [standsFor, if_neg (by simp [hs]), hreferred, Option.map_some]
    have run := referred_builds_to stage h hm hrefs (by simp [hs]) others hframes hlevels hd
      (scope.depth + 1)
    refine settle_converted (run.of_pre fun s hs => hs.1) hreferred fun names => ?_
    have settled := settle_keeps stage h hm hs hkind hreferred reference
      (fullName cfg m.1) scope names
    refine (settled.of_pre ?_).imp ?_
    · rintro s ⟨hp, -, hknown⟩
      refine ⟨hp, fun name ht => hknown ?_ name (congrArg some ht)⟩
      exact (h.aliased hm hs (hreferred.trans (congrArg some ht))).1
    · rintro _ s ⟨hp, rfl, hknown⟩
      exact ⟨hp, ⟨_, stands, (imported_type_as _).symm⟩, hknown⟩

theorem reuse_builds_to (i : Imported) (pre : State → Prop) :
    BuildsTo (reuseImported i) pre fun u s => pre s ∧ u = importedType i := by
  unfold reuseImported
  cases i with
  | named name =>
    exact .bind (.modify _) (fun _ _ _ _ _ _ => .pure _) fun _ _ => .pure fun s hs => ⟨hs, rfl⟩
  | inline t => exact .pure fun s hs => ⟨hs, rfl⟩

theorem imported_reference {i : Imported} {name : String}
    (h : standsFor cfg baseUri members (plan.meaning cfg baseUri members) m = some i)
    (hi : importedType i = .reference name) : i = .named name := by
  cases i with
  | named n => exact congrArg Imported.named (reference.inj hi)
  | inline t =>
    obtain rfl : t = .reference name := hi
    rw [standsFor] at h
    split at h
    · simp at h
    · obtain ⟨u, -, hu⟩ := Option.map_eq_some_iff.mp h
      cases u <;> simp [importedAs, referenceTo?] at hu

/-- A reference gets the type that it stands for, whether it was met before or not. -/
theorem reference_builds_to (stage : Stage) (h : plan.Fits cfg baseUri members) (hm : m ∈ members)
    (hsettled : plan.Settled cfg baseUri members m)
    (hrefs : RefersAlike cfg baseUri members plan m)
    (hpending : ∀ p ∈ stage.pending, p ∈ members ∧ plan.rank m.1 < plan.rank p.1)
    (hframes : ∀ f ∈ stage.frames, f.name ∈ plan.around m.1) {levels : Nat}
    (hlevels : levels ≤ cfg.options.maxDepth + 1) {scope : Scope} (hbase : scope.baseUri = baseUri)
    (hd : Holds members scope.document) {o : Object} (hbare : isBareReference o = true)
    {reference : String} (href : (Object.get? o "$ref").bind asString? = some reference)
    (hleads : leadsTo baseUri reference m.1 = true) :
    BuildsTo (referenceType cfg (nodeWithin cfg levels) o scope)
      (Progress cfg baseUri members plan stage) fun t s =>
        ∃ u, t = some u ∧ Referred cfg baseUri members plan stage m u s := by
  have imported := import_builds_to h hm hsettled hrefs hpending hframes hlevels hd hleads scope
  have hplace := place_of_leads hleads
  have located : locate cfg reference scope = pure
      { fragment := m.2, document := scope.document, baseUri, url := none } := by
    have hfragment : localFragment? scope.document reference = some m.2 :=
      fragment_of_leads hleads hd hm
    obtain ⟨part, hpart, -⟩ := part_of_leads hleads
    rw [locate, hpart, Option.isSome_some, if_pos rfl, hfragment, hbase]
  unfold referenceType
  rw [href]
  dsimp only
  rw [hbase, hplace, located, liftM_pure]
  simp only [pure_bind, if_pos hbare]
  refine .bind (m := fun i s => Progress cfg baseUri members plan stage s ∧
    Imports.get? s.imports (placeOf baseUri m.1) = i) (.lift (.imported ?_)) ?_ ?_
  · exact fun s hs => ⟨hs, rfl⟩
  · intro _ _ i _ _ _
    split
    · exact .bind (reuse_builds_to _ fun _ => True).logs fun _ => .pure _
    · exact .bind imported.logs fun _ => .pure _
  · rintro i -
    split
    · next i =>
      refine .bind (m := Referred cfg baseUri members plan stage m) ?_
        (fun _ _ _ _ _ _ => .pure _) fun u _ => .pure fun s hs => ⟨u, rfl, hs⟩
      refine (reuse_builds_to i _).imp ?_
      rintro u s ⟨⟨hs, hi⟩, rfl⟩
      have stands := hs.imports m hm i hi
      refine ⟨hs, ⟨i, stands, rfl⟩, fun name hname => hs.named m hm name ?_⟩
      rw [hi, imported_reference stands hname]
    · exact .bind imported (fun _ _ _ _ _ _ => .pure _) fun u _ => .pure fun s hs => ⟨u, rfl, hs⟩

/-- In every conversion of a definition its references get the types that they stand for. -/
theorem references_alike (h : plan.Fits cfg baseUri members) : ∀ m ∈ members,
    RefersAlike cfg baseUri members plan m := by
  -- By induction on the rank: what is referred to may have to be converted now, and is lower.
  have ranked : ∀ r, ∀ m ∈ members, plan.rank m.1 = r →
      RefersAlike cfg baseUri members plan m := by
    intro r
    induction r using Nat.strongRecOn with
    | ind r ih =>
      intro m hm hr stage _ hpending hframes l l' hl frames site o scope depth hs hfit names names'
      obtain ⟨hbare, reference, href, hrefers⟩ := reference_of_fits hfit
      obtain ⟨target, htarget, hleads⟩ := List.any_eq_true.mp hrefers
      obtain ⟨schema, hmem, hrank, hrecords, haround, hsettled⟩ := h.target hm htarget
      have hplace := place_of_leads hleads
      have hbase : scope.baseUri = baseUri := hs.baseUri
      have below : ∀ p ∈ stage.pending, p ∈ members ∧ plan.rank target < plan.rank p.1 :=
        fun p hp => (hpending p hp).imp_right (Nat.lt_of_lt_of_le hrank)
      have runs : ∀ inner : Frames, (∀ f ∈ inner, f.name ∈ plan.records m.1) →
          BuildsTo (referenceType cfg (nodeWithin cfg l) o scope)
            (Progress cfg baseUri members plan { stage with frames := inner ++ stage.frames })
            fun t s => ∃ u, t = some u ∧ Referred cfg baseUri members plan
              { stage with frames := inner ++ stage.frames } (target, schema) u s := by
        intro inner hinner
        have around : ∀ f ∈ inner ++ stage.frames, f.name ∈ plan.around target :=
          List.forall_mem_append.mpr
            ⟨fun f hf => hrecords (hinner f hf), fun f hf => haround (hframes f hf)⟩
        exact reference_builds_to { stage with frames := inner ++ stage.frames } h hmem hsettled
          (ih _ (hr ▸ hrank) _ hmem rfl) below around (Nat.le_succ_of_le hl) hbase
          hs.reads hbare href hleads
      -- That warnings are only added holds whatever is under construction.
      refine ⟨fun _ => (runs [] (by simp)).logs names, ?_⟩
      rintro s s' ⟨hp, hinner, hs'⟩ hcounts
      have shallow := hcounts.resolve_left (by simp [converting])
      obtain ⟨⟨t, names₁⟩, s₁, hx, u, rfl, hp₁, ⟨i, hstands, rfl⟩, hknown⟩ :=
        (runs frames hinner names).ends s hp shallow
      have hi : Imports.get? s'.imports (Location.resolve scope.baseUri reference) = some i := by
        rw [hs', hbase, hplace]
        exact (meaning_at h hmem).trans hstands
      obtain ⟨names₂, hy⟩ := remembered_yields cfg (nodeWithin cfg l') names'
        (scope.moved (definitionsOf members) depth) href hi
      refine ⟨_, _, s₁, s', hx, hy, ⟨hp₁, hinner, hs'⟩, rfl, ?_, ?_⟩
      · rintro _ ⟨⟩
        obtain ⟨j, hj, hnamed⟩ := hsettled.stands
        rw [hstands] at hj
        exact Option.some.inj hj ▸ hnamed
      · exact fun name hname => hknown name (Option.some.inj hname)
  exact fun m hm => ranked _ m hm rfl

end Importing

end AvroDerive.Convert
