import AvroDerive.Proofs.ReferenceParallel

/-! # Definitions in their turn

A definition that no reference has led to is converted when its turn comes. It then gets the type of
the plan as well, whatever was converted before. -/
namespace AvroDerive.Convert

open AvroType Json Schema

section Entry

variable {cfg : Setting} {baseUri : String} {members : Object} {imports : Imports}
  {m : String × Json} {t u : AvroType}

theorem clear_entry (name : String) (t : AvroType) :
    (entryOf cfg name t) =
      ((t.clearDependencies.withName (Name.ofText name)).withNs (homeNs cfg)).clearDependencies := by
  cases t with
  | record r => simp only [entryOf, clearDependencies, withName, withNs, clear_fields_clear]
  | array items => simp only [entryOf, clearDependencies, withName, withNs, clear_clear]
  | map values => simp only [entryOf, clearDependencies, withName, withNs, clear_clear]
  | union branches => simp only [entryOf, clearDependencies, withName, withNs, clear_branches_clear]
  | _ => rfl

theorem entry_congr (name : String) (h : t.clearDependencies = u.clearDependencies) :
    entryOf cfg name t = entryOf cfg name u := by
  rw [clear_entry, clear_entry, h]

theorem kind_congr (h : t.clearDependencies = u.clearDependencies) :
    (t.isRecord || t.isEnum) = (u.isRecord || u.isEnum) := by
  have kind : ∀ t : AvroType, (t.clearDependencies.isRecord || t.clearDependencies.isEnum) =
      (t.isRecord || t.isEnum) := fun t => by cases t <;> rfl
  rw [← kind t, h, kind u]

theorem reference_congr (h : t.clearDependencies = u.clearDependencies) :
    referenceTo? t = referenceTo? u := by
  have reference : ∀ t : AvroType, referenceTo? t.clearDependencies = referenceTo? t :=
    fun t => by cases t <;> rfl
  rw [← reference t, h, reference u]

theorem value_congr (name ns : String) (schema : Json)
    (h : t.clearDependencies = u.clearDependencies) :
    (valueRecord name ns schema t).clearDependencies =
      (valueRecord name ns schema u).clearDependencies := by
  simp [valueRecord, clearDependencies, Record.pushField, Record.empty, clearFields, h]

/-- What is registered for a definition is told by its type up to the names gathered in records. -/
theorem recorded_of_same {t : Option AvroType}
    (h : SameType t (processedType cfg baseUri members imports m)) :
    recorded? cfg baseUri members imports m = t.bind fun t =>
      if t.isRecord || t.isEnum then some (entryOf cfg m.1 t)
      else if (referenceTo? t).isSome then none
      else some (entryOf cfg m.1 (valueRecord (Name.ofText m.1) (homeNs cfg) m.2 t)) := by
  rw [recorded?]
  cases hu : processedType cfg baseUri members imports m with
  | none =>
    rw [hu] at h
    cases t with
    | none => rfl
    | some t => simp [SameType] at h
  | some u =>
    rw [hu] at h
    cases t with
    | none => simp [SameType] at h
    | some t =>
      have hclear : t.clearDependencies = u.clearDependencies := Option.some.inj h
      simp only [Option.bind_some, kind_congr hclear, reference_congr hclear,
        entry_congr m.1 hclear, entry_congr m.1 (value_congr _ _ m.2 hclear)]

end Entry

theorem same_reference {t : Option AvroType} {name : String}
    (h : SameType (some (.reference name)) t) : t = some (.reference name) := by
  cases t with
  | none => simp [SameType] at h
  | some t => cases t <;> simp_all [SameType, clearDependencies]

theorem processed_of_ordinary {cfg : Setting} {baseUri : String} {members : Object}
    {imports : Imports} {m : String × Json} (h : isOrdinary m.2 = true) :
    processedType cfg baseUri members imports m = referredType cfg baseUri members imports m := by
  obtain ⟨key, schema⟩ := m
  cases schema with
  | obj o =>
    have hplain : isRecordSchema o = false := by simpa [isOrdinary] using h
    simp only [processedType, referredType, definitionType, hplain, Bool.false_eq_true, if_false]
  | _ => rfl

section Processing

variable {cfg : Setting} {baseUri : String} {members : Object} {plan : Plan} {stage : Stage}
  {m : String × Json} {d : Json}

theorem whole_record_alike {c : Comparison} {v : View} {document : Json} {node node' : NodeConverter}
    {levels depth : Nat} {name ns : String} {site : Site} {scope : Scope} {o : Object}
    (h : NodesAlike c v document levels node node') (hc : Faithful c v)
    (hs : AtSite c v document site scope depth) (hns : v.ns.length ≤ ns.length)
    (hname : Name.ofText name = name) (hrecord : name ∈ v.records)
    (hfit : AllFit v document levels
      (if hasComposition (unconditional o) then [(⟨false, name, "value"⟩, .obj (unconditional o))]
        else recordVisits name (unconditional o))) :
    RunsAlike c [] (objectRecord node name ns o scope)
      (objectRecord node' name ns o (scope.moved document depth)) fun t u _ =>
        SameType t u ∧ ∀ t', t = some t' → t'.isRecord = true := by
  by_cases hcomposition : hasComposition (unconditional o) = true
  · rw [if_pos hcomposition, AllFit, List.forall_mem_singleton] at hfit
    unfold objectRecord
    refine unconditional_alike hc ?_
    rw [if_pos hcomposition, if_pos hcomposition]
    refine .bind (composition_record_alike h hs hns hfit) (fun _ _ _ _ _ => .pure _) ?_
    rintro t u ⟨hsame, hparts⟩
    exact .pure fun _ => ⟨hsame, fun t' ht => (hparts t' ht).1⟩
  · rw [if_neg hcomposition] at hfit
    rw [← hname] at hrecord hfit
    refine (object_record_alike [] h hc hs hns (by simpa using hcomposition) hrecord hfit).imp ?_
    rintro t u _ ⟨hsame, hparts⟩
    exact ⟨hsame, fun t' ht => (hparts t' ht).1⟩

/-- A definition is converted alike in its turn, whatever was converted before. -/
theorem definition_type_alike (h : plan.Fits cfg baseUri members) (hm : m ∈ members)
    (hpending : isStandalone m.2 = true → m ∈ stage.pending)
    (hmembers : ∀ p ∈ stage.pending, p ∈ members ∧ plan.rank m.1 ≤ plan.rank p.1)
    (hframes : ∀ f ∈ stage.frames, f.name ∈ plan.around m.1) (hd : Holds members d) :
    RunsAlike (converting cfg baseUri members plan stage m) []
      (definitionType cfg m.2 (definitionScope cfg baseUri d m.1))
      (definitionType cfg m.2 (definitionScope cfg baseUri (definitionsOf members) m.1))
      fun p q s => SameType p.1 q.1 ∧ ∀ name, p.1 = some (.reference name) →
        isOrdinary m.2 = true ∧ (isAlias m.2 = true → stage.Known cfg s name) := by
  have inexact : (converting cfg baseUri members plan stage m).exact = false := rfl
  have faithful := converting_faithful h hm hpending hframes
  have nodes : NodesAlike (converting cfg baseUri members plan stage m) (plan.view cfg baseUri m)
      (definitionsOf members) (cfg.options.maxDepth + 1) (node cfg) (node cfg) :=
    levels_alike faithful (Nat.le_refl _) (fun _ => rfl) fun l l' hl _ _ =>
      references_alike h m hm stage hpending hmembers hframes l l' (Nat.le_of_lt_succ hl)
  have site : AtSite (converting cfg baseUri members plan stage m) (plan.view cfg baseUri m)
      (definitionsOf members) (definitionSite m) (definitionScope cfg baseUri d m.1) 0 :=
    at_definition _ h hm hd hd fun _ => rfl
  have whole : RunsAlike (converting cfg baseUri members plan stage m) []
      (Build.apart (node cfg m.2 (definitionScope cfg baseUri d m.1)))
      (Build.apart (node cfg m.2 (definitionScope cfg baseUri (definitionsOf members) m.1)))
      fun p q s => SameType p.1 q.1 ∧
        ∀ name, p.1 = some (.reference name) → isAlias m.2 = true → stage.Known cfg s name := by
    refine (RunsAlike.apart (nodes [] (definitionSite m) m.2 _ 0 site (fun _ => rfl)
      (h.each m hm).fits)).imp ?_
    rintro p q s ⟨⟨hsame, -⟩, hknown⟩
    exact ⟨congrArg (Option.map clearDependencies) hsame, fun name hname ha => hknown ha name hname⟩
  unfold definitionType
  cases hj : m.2 with
  | obj o =>
    rw [hj] at whole
    dsimp only
    by_cases hrecord : isRecordSchema o = true
    · rw [if_pos hrecord, if_pos hrecord]
      have fit := (h.each m hm).processed
      rw [processedVisits, hj] at fit
      dsimp only at fit
      rw [if_pos hrecord] at fit
      refine .bind (whole_record_alike nodes faithful site (Nat.le_refl _) (of_text_idem m.1)
        ((h.each m hm).own (by simpa [isOrdinary, hj] using hrecord)) fit) (fun _ _ _ _ _ => .pure _) ?_
      rintro t u ⟨hsame, hkind⟩
      refine .pure fun _ => ⟨hsame, fun name ht => ?_⟩
      exact absurd (hkind _ ht) (by simp [isRecord])
    · rw [if_neg hrecord, if_neg hrecord]
      refine whole.imp fun p q _ hp => ⟨hp.1, fun name hname => ⟨?_, hp.2 name hname⟩⟩
      simpa [isOrdinary] using hrecord
  | _ =>
    rw [hj] at whole
    exact whole.imp fun p q _ hp => ⟨hp.1, fun name hname => ⟨rfl, hp.2 name hname⟩⟩

/-- A definition that comes out as a reference is an alias, and as such for references too. -/
theorem alias_of_processed (h : plan.Fits cfg baseUri members) (hm : m ∈ members) {name : String}
    (hprocessed : processedType cfg baseUri members (plan.meaning cfg baseUri members) m =
      some (.reference name)) (hordinary : isOrdinary m.2 = true) :
    isStandalone m.2 = false ∧ isAlias m.2 = true ∧
      referredType cfg baseUri members (plan.meaning cfg baseUri members) m =
        some (.reference name) := by
  have unrecorded : recorded? cfg baseUri members (plan.meaning cfg baseUri members) m = none := by
    rw [recorded?, hprocessed]
    rfl
  have hs : isStandalone m.2 = false := by
    by_contra hs
    have := (h.each m hm).registered (by simpa using hs)
    simp [unrecorded] at this
  have hreferred : referredType cfg baseUri members (plan.meaning cfg baseUri members) m =
      some (.reference name) := by
    rw [processed_of_ordinary hordinary] at hprocessed
    exact hprocessed
  exact ⟨hs, (h.aliased hm hs hreferred).1, hreferred⟩

/-- A definition gets the type of the plan in its turn. -/
theorem definition_type_runs_to (h : plan.Fits cfg baseUri members) (hm : m ∈ members)
    (hpending : isStandalone m.2 = true → m ∈ stage.pending)
    (hmembers : ∀ p ∈ stage.pending, p ∈ members ∧ plan.rank m.1 ≤ plan.rank p.1)
    (hframes : ∀ f ∈ stage.frames, f.name ∈ plan.around m.1) (hd : Holds members d) :
    RunsTo (definitionType cfg m.2 (definitionScope cfg baseUri d m.1))
      (Progress cfg baseUri members plan stage) fun p s =>
        Progress cfg baseUri members plan stage s ∧
          SameType p.1 (processedType cfg baseUri members (plan.meaning cfg baseUri members) m) ∧
          ∀ name, p.1 = some (.reference name) → stage.Known cfg s name ∧
            isStandalone m.2 = false ∧
            referredType cfg baseUri members (plan.meaning cfg baseUri members) m =
              some (.reference name) where
  logs := (definition_type_alike h hm hpending hmembers hframes hd).logs rfl
  ends s hs hshallow := by
    obtain ⟨p, q, t, t', hx, hy, ⟨hp, -, -⟩, hsame, hknown⟩ :=
      (definition_type_alike h hm hpending hmembers hframes hd).along s
        { imports := plan.meaning cfg baseUri members } ⟨hs, by simp, rfl⟩ (Or.inr hshallow)
    have hq : processedType cfg baseUri members (plan.meaning cfg baseUri members) m = q.1 :=
      type_in_of_yields hy
    refine ⟨p, t, hx, hp, hq ▸ hsame, fun name hname => ?_⟩
    obtain ⟨hordinary, hknown⟩ := hknown name hname
    have hreference : q.1 = some (.reference name) := by
      rw [hname] at hsame
      exact same_reference hsame
    obtain ⟨hs, halias, hreferred⟩ := alias_of_processed h hm (hq.trans hreference) hordinary
    exact ⟨hknown halias, hs, hreferred⟩

end Processing

section Keeping

variable {cfg : Setting} {baseUri : String} {members : Object} {plan : Plan} {stage : Stage}
  {m : String × Json} {t : AvroType} {s : State}

/-- The stage while the definition is converted in its turn. -/
def Stage.turn (stage : Stage) (m : String × Json) : Stage :=
  { stage with pending := if isStandalone m.2 then [m] else [] }

/-- The stage after the turn of the definition. -/
def Stage.after (stage : Stage) (m : String × Json) (recorded : Option AvroType) : Stage :=
  { stage with pending := [], passed := m :: stage.passed, kept := recorded.toList ++ stage.kept }

/-- The type of a definition is registered in its turn. -/
theorem register_runs_to (h : plan.Fits cfg baseUri members) (hm : m ∈ members)
    (hturn : m ∉ stage.passed)
    (hrecorded : recorded? cfg baseUri members (plan.meaning cfg baseUri members) m =
      some (entryOf cfg m.1 t)) (names : List String) :
    RunsTo (registerDefinition (some (placeOf baseUri m.1)) m.2 (Name.ofText m.1) (homeNs cfg) t
        names)
      (Progress cfg baseUri members plan (stage.turn m)) fun _ s =>
        Progress cfg baseUri members plan (stage.after m (some (entryOf cfg m.1 t))) s := by
  have hname : ((t.withName (Name.ofText m.1)).withNs (homeNs cfg)).qualifiedName? =
      some (fullName cfg m.1) := by
    rw [← qualified_clear]
    exact recorded_qualified hrecorded
  by_cases hs : isStandalone m.2 = true
  · have hstage : stage.turn m = { stage with pending := [m] } := by rw [Stage.turn, if_pos hs]
    rw [hstage]
    unfold registerDefinition
    simp only [if_pos hs]
    refine .bind (m := fun name s => name = fullName cfg m.1 ∧ ∃ s₀, Progress cfg baseUri members
        plan { stage with pending := [m] } s₀ ∧ s = { s₀ with
          registry := (Registry.register s₀.registry
            ((t.withName (Name.ofText m.1)).withNs (homeNs cfg)) names).2 }) (.register ?_) ?_ ?_
    · exact fun s hp => ⟨by rw [hname]; rfl, s, hp, rfl⟩
    · exact fun _ _ _ _ => .bind (Run.logs_remember _ _) fun _ _ _ _ => .pure _
    · rintro name ⟨-, rfl, -⟩
      refine .bind (m := fun _ => Progress cfg baseUri members plan
          (stage.after m (some (entryOf cfg m.1 t)))) (.remember ?_) (fun _ _ _ _ => .pure _)
        fun _ _ => .pure fun _ hp => hp
      rintro _ ⟨-, s, hp, rfl⟩
      have registered := Progress.register_named { stage with pending := [] } hp h hm hs
        hrecorded (by simp) names
      exact registered.later (List.subset_cons_self _ _) (List.Subset.refl _)
  · have hs : isStandalone m.2 = false := by simpa using hs
    have hstage : stage.turn m = { stage with pending := [] } := by
      rw [Stage.turn, if_neg (by simp [hs])]
    rw [hstage]
    unfold registerDefinition
    simp only [hs, Bool.false_eq_true, if_false]
    refine .bind (.register fun s hp => ?_) (fun _ _ _ _ => .pure _) fun _ _ => .pure fun _ hp => hp
    have hfresh : fullName cfg m.1 ∉ definedNames s.registry :=
      fun hd => hturn (hp.passed m hm hs hd)
    have passing := hp.later (List.subset_cons_self m stage.passed) (List.Subset.refl _)
    exact Progress.register { stage with pending := [], passed := m :: stage.passed }
      passing h hm hrecorded hfresh (by simp) (by simp) (by simp [hs]) names

/-- A definition that refers to a registered type is remembered by the name of that. -/
theorem alias_runs_to (h : plan.Fits cfg baseUri members) (hm : m ∈ members)
    (hs : isStandalone m.2 = false) {name : String}
    (hreferred : referredType cfg baseUri members (plan.meaning cfg baseUri members) m =
      some (.reference name)) :
    RunsTo (Run.remember (placeOf baseUri m.1) (.named name))
      (fun s => Progress cfg baseUri members plan (stage.turn m) s ∧ name ∈ definedNames s.registry)
      fun _ s => Progress cfg baseUri members plan (stage.after m none) s := by
  have hturn : stage.turn m = { stage with pending := [] } := by
    rw [Stage.turn, if_neg (by simp [hs])]
  have stands : standsFor cfg baseUri members (plan.meaning cfg baseUri members) m =
      some (.named name) := by
    rw [standsFor, if_neg (by simp [hs]), hreferred]
    rfl
  refine .remember fun s hp => ?_
  obtain ⟨hp, hdefined⟩ := hp
  rw [hturn] at hp
  refine (hp.remember h hm stands ?_).later (List.subset_cons_self _ _) (List.Subset.refl _)
  rintro _ ⟨⟩
  exact Or.inl hdefined

/-- What a definition has become is kept in its turn. -/
theorem keep_runs_to (h : plan.Fits cfg baseUri members) (hm : m ∈ members)
    (hturn : m ∉ stage.passed) {t : Option AvroType}
    (hsame : SameType t (processedType cfg baseUri members (plan.meaning cfg baseUri members) m))
    (halias : ∀ name, t = some (.reference name) → isStandalone m.2 = false ∧
      referredType cfg baseUri members (plan.meaning cfg baseUri members) m =
        some (.reference name)) (names : List String) :
    RunsTo (keepDefinition (some (placeOf baseUri m.1)) m.1 m.2 (Name.ofText m.1) (homeNs cfg) t
        names)
      (fun s => Progress cfg baseUri members plan (stage.turn m) s ∧
        ∀ name, t = some (.reference name) → (stage.turn m).Known cfg s name) fun _ s =>
      Progress cfg baseUri members plan (stage.after m
        (recorded? cfg baseUri members (plan.meaning cfg baseUri members) m)) s := by
  have hrecorded := recorded_of_same hsame
  cases t with
  | none =>
    rw [Option.bind_none] at hrecorded
    have hs : ¬isStandalone m.2 = true := fun hs => by
      simpa [hrecorded] using (h.each m hm).registered hs
    unfold keepDefinition
    rw [hrecorded, Stage.turn, if_neg hs]
    refine .bind (.warn fun s hp => ?_) (fun _ _ _ _ => .pure _) fun _ _ => .pure fun _ hp => hp
    exact (hp.1.warned _).later (List.subset_cons_self _ _) (List.Subset.refl _)
  | some t =>
    rw [Option.bind_some] at hrecorded
    unfold keepDefinition
    dsimp only
    by_cases hkind : (t.isRecord || t.isEnum) = true
    · rw [if_pos hkind] at hrecorded ⊢
      rw [hrecorded]
      exact .bind ((register_runs_to h hm hturn hrecorded names).of_pre fun s hs => hs.1)
        (fun _ _ _ _ => .pure _) fun _ _ => .pure fun _ hp => hp
    · rw [if_neg hkind] at hrecorded ⊢
      refine .bind (m := fun st s => st = s ∧ Progress cfg baseUri members plan (stage.turn m) s ∧
        ∀ name, some t = some (.reference name) → (stage.turn m).Known cfg s name)
        (.get fun s hs => ⟨rfl, hs⟩) ?_ ?_
      · intro _ st _ _
        split
        · exact .bind (Run.logs_remember _ _) fun _ _ _ _ => .pure _
        · exact .bind ((neutral_register_definition _ _ _ _ _ _).logs) fun _ _ _ _ => .pure _
      rintro st ⟨s, rfl, -, hknown⟩
      cases hreference : referenceTo? t with
      | some name =>
        obtain rfl : t = .reference name := by
          cases t <;> simp_all [referenceTo?]
        obtain ⟨hs, hreferred⟩ := halias name rfl
        -- nothing is being converted any more, so what it refers to is registered
        have hdefined : name ∈ definedNames st.registry := by
          refine (hknown name rfl).resolve_right ?_
          simp [Stage.turn, hs]
        have halias : aliasOf? st.registry (.reference name) = some name :=
          if_pos (contains_iff_defined.mpr hdefined)
        rw [halias, hrecorded]
        refine .bind ((alias_runs_to h hm hs hreferred).of_pre ?_) (fun _ _ _ _ => .pure _)
          fun _ _ => .pure fun _ hp => hp
        rintro s ⟨rfl, hp, -⟩
        exact ⟨hp, hdefined⟩
      | none =>
        rw [hreference] at hrecorded
        have hnone : aliasOf? st.registry t = none := by
          cases t <;> first | rfl | simp [referenceTo?] at hreference
        rw [hnone]
        refine .bind ((register_runs_to h hm hturn ?_ names).of_pre fun s hs => hs.2.1)
          (fun _ _ _ _ => .pure _) fun _ _ => .pure fun _ hp => ?_
        · exact hrecorded
        · rw [hrecorded]
          exact hp

theorem is_imported_runs_to (key : String) (pre : State → Prop) :
    RunsTo (isImported (some key)) pre fun b s =>
      pre s ∧ (b = true ↔ ∃ name, Imports.get? s.imports key = some (.named name)) := by
  unfold isImported
  dsimp only
  refine .bind (m := fun i s => pre s ∧ Imports.get? s.imports key = i)
    (.imported fun s hs => ⟨hs, rfl⟩) (fun _ _ _ _ => ?_) fun i _ => ?_
  · split <;> exact .pure _
  · split
    · next name => exact .pure fun s hs => ⟨hs.1, by simp [hs.2]⟩
    · next hother =>
      refine .pure fun s hs => ⟨hs.1, iff_of_false (by simp) ?_⟩
      rintro ⟨name, hname⟩
      exact hother name (hs.2.symm.trans hname)

/-- If a reference has given a definition a name, what it has become is registered. -/
theorem Progress.imported (hp : Progress cfg baseUri members plan stage s)
    (h : plan.Fits cfg baseUri members) (hm : m ∈ members) (hpending : stage.pending = [])
    {name : String} (hname : Imports.get? s.imports (placeOf baseUri m.1) = some (.named name)) :
    Progress cfg baseUri members plan (stage.after m
      (recorded? cfg baseUri members (plan.meaning cfg baseUri members) m)) s := by
  have stands := hp.imports m hm _ hname
  obtain ⟨pending, passed, kept, frames⟩ := stage
  obtain rfl : pending = [] := hpending
  by_cases hs : isStandalone m.2 = true
  · rw [standsFor, if_pos hs, Option.some.injEq, Imported.named.injEq] at stands
    have hdefined : fullName cfg m.1 ∈ definedNames s.registry := by
      rw [stands]
      exact (hp.named m hm name hname).resolve_right (by simp)
    obtain ⟨t, ht, hrecorded⟩ := hp.own h hm hdefined
    have passing := hp.later (List.subset_cons_self m passed) (List.Subset.refl _)
    rw [hrecorded]
    exact { passing with kept := List.cons_subset.mpr ⟨List.mem_map_of_mem ht, hp.kept⟩ }
  · have hs : isStandalone m.2 = false := by simpa using hs
    rw [standsFor, if_neg (by simp [hs])] at stands
    obtain ⟨t, hreferred, ht⟩ := Option.map_eq_some_iff.mp stands
    obtain rfl : t = .reference name := by
      cases t <;> simp_all [importedAs, referenceTo?]
    obtain ⟨-, hordinary⟩ := h.aliased hm hs hreferred
    have unrecorded : recorded? cfg baseUri members (plan.meaning cfg baseUri members) m =
        none := by
      rw [recorded?, processed_of_ordinary hordinary, hreferred]
      rfl
    rw [unrecorded]
    exact hp.later (List.subset_cons_self _ _) (List.Subset.refl _)

/-- The turn of a definition begins that no reference has given a name. -/
theorem Progress.turn (hp : Progress cfg baseUri members plan stage s)
    (hm : m ∈ members) (hpending : stage.pending = [])
    (hname : ¬∃ name, Imports.get? s.imports (placeOf baseUri m.1) = some (.named name)) :
    Progress cfg baseUri members plan (stage.turn m) s := by
  obtain ⟨pending, passed, kept, frames⟩ := stage
  obtain rfl : pending = [] := hpending
  by_cases hs : isStandalone m.2 = true
  · rw [Stage.turn, if_pos hs]
    refine hp.begin fun hdefined => ?_
    obtain ⟨i, hi⟩ := Option.isSome_iff_exists.mp (hp.remembered m hm hs hdefined)
    have stands := hp.imports m hm i hi
    rw [standsFor, if_pos hs, Option.some.injEq] at stands
    exact hname ⟨_, stands ▸ hi⟩
  · rw [Stage.turn, if_neg hs]
    exact hp

/-- In its turn a definition is converted and registered, if that has not happened before. -/
theorem definition_runs_to (h : plan.Fits cfg baseUri members) (hm : m ∈ members)
    (hturn : m ∉ stage.passed) (hpending : stage.pending = []) (hframes : stage.frames = [])
    {d : Json} (hd : Holds members d) :
    RunsTo (definition cfg d baseUri m.1 m.2 (some (definitionPointer m.1)))
      (Progress cfg baseUri members plan stage) fun _ s =>
      Progress cfg baseUri members plan (stage.after m
        (recorded? cfg baseUri members (plan.meaning cfg baseUri members) m)) s := by
  have own : isStandalone m.2 = true → m ∈ (stage.turn m).pending := fun hs => by
    simp [Stage.turn, hs]
  have only : ∀ p ∈ (stage.turn m).pending, p ∈ members ∧ plan.rank m.1 ≤ plan.rank p.1 := by
    intro p hp
    simp only [Stage.turn] at hp
    split at hp
    · obtain rfl := List.mem_singleton.mp hp
      exact ⟨hm, Nat.le_refl _⟩
    · simp at hp
  have outside : ∀ f ∈ (stage.turn m).frames, f.name ∈ plan.around m.1 := by
    simp [Stage.turn, hframes]
  have converted := definition_type_runs_to h hm own only outside hd
  unfold definition
  rw [Option.bind_some, definition_name]
  refine .bind (is_imported_runs_to (placeOf baseUri m.1) _) (fun _ b _ _ => ?_) fun b _ => ?_
  · split
    · exact .pure _
    · exact .bind converted.logs fun _ _ _ _ => (neutral_keep_definition _ _ _ _ _ _ _).logs
  · split
    · refine .pure fun s hs => ?_
      obtain ⟨name, hname⟩ := hs.2.mp ‹_›
      exact hs.1.imported h hm hpending hname
    · refine .bind (converted.of_pre fun s hs => hs.1.turn hm hpending fun hn => ?_)
        (fun _ _ _ _ => (neutral_keep_definition _ _ _ _ _ _ _).logs) ?_
      · exact absurd (hs.2.mpr hn) ‹_›
      rintro ⟨t, names⟩ ⟨_, -, hsame, hknown⟩
      refine (keep_runs_to h hm hturn hsame (fun name hname => (hknown name hname).2) names).of_pre ?_
      exact fun s hs => ⟨hs.1, fun name hname => (hs.2.2 name hname).1⟩

end Keeping

end AvroDerive.Convert
