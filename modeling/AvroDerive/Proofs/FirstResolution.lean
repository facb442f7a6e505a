import AvroDerive.Proofs.DepthLimit
import AvroDerive.Proofs.Descent
import AvroDerive.Proofs.GrowingRun
import AvroDerive.Proofs.ShallowerScope
import AvroDerive.Proofs.SiblingKeys

/-! # The first resolution of a reference

What a fragment came to when a reference was resolved first is taken at every later resolution, at
whatever depth that was. It is what a shallower resolution would have come to, if nothing was given up for
the depth. The name of a record does not depend on the depth at all. -/
namespace AvroDerive

/-- The first scope is in the document of the second, and no deeper. -/
structure Scope.Above (q p : Scope) : Prop where
  document : q.document = p.document
  baseUri : q.baseUri = p.baseUri
  depth : q.depth ≤ p.depth

/-- A node was given up for its depth. -/
def Warning.isTooDeep : Warning → Bool
  | .tooDeep .. => true
  | _ => false

namespace Convert

open AvroType Json Schema

/-- The same reference at another scope. -/
def Import.at (i : Import) (q : Scope) : Import := { i with scope := q }

section Resolution

variable {cfg : Setting} {node : NodeConverter} {o : Object} {i : Import} {s s₀ s' : State}
  {names names' : List String}

/-- A bare reference that nothing is remembered for becomes what its fragment is imported as. -/
theorem reference_type_imports (hr : (Object.get? o "$ref").bind asString? = some i.reference)
    (hbare : isBareReference o = true) (hnew : Imports.get? s.imports i.key = none)
    (hl : (locate cfg i.reference i.scope).Yields s i.located s₀) :
    ((referenceType cfg node o i.scope).run names).run.run s =
      ((some <$> importFragment cfg node i.key i.reference i.located i.scope).run names).run.run
        s₀ := by
  have looked : (Run.imported? i.key).run.run s = (.ok none, s) :=
    Run.yields_imported.mpr ⟨hnew.symm, rfl⟩
  have found : (locate cfg i.reference i.scope).run.run s = (.ok i.located, s₀) := hl
  unfold referenceType
  rw [hr]
  dsimp only
  rw [run_lift_bind, Run.run_bind, ← Import.key, looked]
  dsimp only
  rw [run_lift_bind, Run.run_bind, found]
  dsimp only
  rw [if_pos hbare, map_eq_pure_bind]

/-- The import comes to a type: its fragment is converted where the name is promised, and what that gives
is settled. -/
def Import.ComesTo (cfg : Setting) (node : NodeConverter) (i : Import) (names : List String) (s : State)
    (u : AvroType) (names' : List String) (s' : State) : Prop :=
  ∃ t gathered s₁, (node i.located.fragment (i.inner cfg)).Yields [] (i.begun cfg s) t gathered s₁ ∧
    (settle i.key i.reference (fullOf (i.typeName cfg)) i.scope t gathered).Yields names s₁ u names' s'

theorem import_fragment_yields {u : AvroType} :
    (importFragment cfg node i.key i.reference i.located i.scope).Yields names s u names' s' ↔
      i.ComesTo cfg node names s u names' s' := by
  unfold Build.Yields
  rw [Run.Yields, import_fragment_run]
  constructor
  · intro h
    obtain ⟨⟨t, gathered⟩, s₁, hnode, hsettle⟩ := Run.yields_bind.mp h
    exact ⟨t, gathered, s₁, hnode, hsettle⟩
  · rintro ⟨t, gathered, s₁, hnode, hsettle⟩
    exact Run.yields_bind.mpr ⟨(t, gathered), s₁, hnode, hsettle⟩

theorem reference_type_yields (hr : (Object.get? o "$ref").bind asString? = some i.reference)
    (hbare : isBareReference o = true) (hnew : Imports.get? s.imports i.key = none)
    (hl : (locate cfg i.reference i.scope).Yields s i.located s₀) {u : AvroType} :
    (referenceType cfg node o i.scope).Yields names s (some u) names' s' ↔
      i.ComesTo cfg node names s₀ u names' s' := by
  rw [← import_fragment_yields, Build.Yields, Run.Yields, reference_type_imports hr hbare hnew hl,
    map_eq_pure_bind]
  constructor
  · intro h
    obtain ⟨v, _, _, hv, hp⟩ := Build.yields_bind.mp h
    obtain ⟨hu, rfl, rfl⟩ := Build.yields_pure.mp hp
    obtain rfl := Option.some.inj hu
    exact hv
  · exact fun h => Build.yields_bind.mpr ⟨u, _, _, h, Build.yields_pure.mpr ⟨rfl, rfl, rfl⟩⟩

end Resolution

section Settled

variable {s s' : State} {key reference expected : String} {x : Option AvroType} {u : AvroType}
  {names more more' : List String}

/-- Whatever is remembered for a reference that is settled is what the reference became. -/
theorem Settles.remembered (h : Settles key expected x u s s') {i : Imported}
    (hi : Imports.get? s'.imports key = some i) : i.type = u := by
  cases h with
  | registered =>
    rw [Imports.get?_insert, if_pos rfl] at hi
    exact congrArg Imported.type (Option.some.inj hi).symm
  | standIn => simp [Imports.get?_erase] at hi
  | passed =>
    rw [Imports.get?_insert, if_pos rfl] at hi
    exact congrArg Imported.type (Option.some.inj hi).symm
  | inline =>
    rw [Imports.get?_insert, if_pos rfl] at hi
    exact congrArg Imported.type (Option.some.inj hi).symm
  | empty => simp [Imports.get?_erase] at hi

/-- A record of the name, or a reference to the name. -/
def GoesBy (t : AvroType) (name : String) : Prop :=
  t.isRecord = true ∧ t.qualifiedName? = some name ∨ t = .reference name

theorem Settles.named (h : Settles key expected x u s s') {t : AvroType} (hx : x = some t)
    (ht : GoesBy t expected) : u = .reference expected ∧
      Imports.get? s'.imports key = some (.named expected) := by
  have inserted : ∀ i, Imports.get? (Imports.insert s.imports key i) key = some i := by
    intro i
    rw [Imports.get?_insert, if_pos rfl]
  cases h with
  | registered => exact ⟨rfl, inserted _⟩
  | standIn hkind hname =>
    obtain rfl := Option.some.inj hx
    rcases ht with ⟨-, hq⟩ | rfl
    · exact absurd hq hname
    · simp [isRecord, isEnum] at hkind
  | passed =>
    obtain rfl := Option.some.inj hx
    rcases ht with ⟨hkind, -⟩ | hr
    · simp [isRecord] at hkind
    · obtain rfl := AvroType.reference.inj hr
      exact ⟨rfl, inserted _⟩
  | inline hkind href =>
    obtain rfl := Option.some.inj hx
    rcases ht with ⟨hrecord, -⟩ | hr
    · simp [hrecord] at hkind
    · exact absurd hr (href _)
  | empty => simp at hx

/-- At another scope the same is settled, but for the words of a warning. -/
theorem settle_elsewhere {p : Scope} (q : Scope)
    (h : (settle key reference expected p x names).Yields more s u more' s') :
    ∃ s₁, Quiet s' s₁ ∧ (settle key reference expected q x names).Yields more s u more' s₁ := by
  cases x with
  | none =>
    unfold settle at h
    obtain ⟨_, _, _, hforget, hrest⟩ := Build.yields_bind.mp h
    obtain ⟨hforgets, rfl⟩ := Build.yields_lift.mp hforget
    obtain rfl := Run.yields_forget.mp hforgets
    obtain ⟨_, _, _, hwarn, hp⟩ := Build.yields_bind.mp hrest
    obtain ⟨hwarns, rfl⟩ := Build.yields_lift.mp hwarn
    obtain rfl := Run.yields_warn.mp hwarns
    obtain ⟨rfl, rfl, rfl⟩ := Build.yields_pure.mp hp
    exact ⟨_, ⟨_, rfl⟩, rfl⟩
  | some t =>
    have same : settle key reference expected q (some t) names =
        settle key reference expected p (some t) names := by
      unfold settle
      rfl
    exact ⟨s', .refl s', same ▸ h⟩

end Settled

/-- Schemas whose type is a record of the name that is asked for: object schemas with a field, and
compositions that come to a single such schema, so many levels further down. -/
inductive MakesRecord (d : Json) : Nat → Json → Prop
  | listed {o} : ListsProperties o → Object.get? o "const" = none → fieldNames (propertiesOf o) ≠ [] →
    MakesRecord d 0 (.obj o)
  | composed {o n candidate} : hasComposition (unconditional o) = true →
    (expand d (unconditional o)).1 = [candidate] → MakesRecord d n candidate →
    MakesRecord d (n + 1) (.obj o)

section Record

variable {cfg : Setting} {scope : Scope} {s s' : State} {names names' : List String}
  {t : Option AvroType}

/-- A composition that comes to a single candidate has the candidate's type, if that says anything. -/
theorem sole_candidate_yields {o : Object} {candidate : Json}
    (hc : hasComposition (unconditional o) = true)
    (hsingle : (expand scope.document (unconditional o)).1 = [candidate])
    (hdepth : scope.depth ≤ cfg.options.maxDepth)
    (hy : (node cfg (.obj o) scope).Yields names s t names' s') :
    ∃ s₁ u, Quiet s s₁ ∧ (node cfg candidate scope.deeper).Yields names s₁ u names' s' ∧
      (t = u ∨ t = some (usefulOrGeneric u)) := by
  rw [node_eq_step hdepth] at hy
  have hobject : (objectNode cfg (node cfg) o scope).Yields names s t names' s' := hy
  obtain ⟨s₁, hquiet, hcandidates⟩ := composed_node_yields hc hobject
  rw [hsingle, candidatesType] at hcandidates
  obtain ⟨u, names₁, s₂, hu, hp⟩ := Build.yields_bind.mp hcandidates
  obtain ⟨rfl, rfl, rfl⟩ := Build.yields_pure.mp hp
  refine ⟨s₁, u, hquiet, hu, ?_⟩
  split
  · exact Or.inl rfl
  · exact Or.inr rfl

/-- Such a schema has a type that goes by the name of its scope, if the limit allows for its levels and no
record of the name is under construction. Whether nodes inside are given up is all one. -/
theorem MakesRecord.yields {n : Nat} {schema : Json} (h : MakesRecord scope.document n schema)
    (hdepth : scope.depth + n ≤ cfg.options.maxDepth)
    (hnew : Frames.find? s.frames (Name.ofText scope.localName) = none)
    (hy : (node cfg schema scope).Yields names s t names' s') :
    ∃ u, t = some u ∧ u.isEmpty = false ∧
      GoesBy u (fullOf (Name.ofText scope.localName, scope.typeNs)) := by
  induction n generalizing schema scope s t with
  | zero =>
    cases h with
    | listed ho hconst hfields =>
      rw [node_eq_step hdepth] at hy
      obtain ⟨r, n, hname, ht, hn⟩ := object_node_record ho hconst hy
      obtain ⟨rfl, hprefix⟩ := hn.resolve_right fun hstand => by simp [hnew] at hstand
      rcases ht with rfl | ⟨rfl, -⟩
      · have fields : r.fields ≠ [] := by
          intro hr
          rw [hr, List.map_nil, List.prefix_nil] at hprefix
          exact hfields hprefix
        exact ⟨_, rfl, by simpa [isEmpty] using fields, Or.inl ⟨rfl, congrArg some hname⟩⟩
      · exact ⟨_, rfl, rfl, Or.inr rfl⟩
  | succ n ih =>
    cases h with
    | composed hc hsingle hcandidate =>
      obtain ⟨s₁, v, hquiet, hv, ht⟩ := sole_candidate_yields hc hsingle (by omega) hy
      have single : MakesRecord scope.deeper.document n _ := hcandidate
      have deeper : scope.deeper.depth = scope.depth + 1 := rfl
      rw [← hquiet.grows.frames] at hnew
      obtain ⟨u, rfl, huseful, hgoes⟩ := ih single (by omega) hnew hv
      have kept : usefulOrGeneric (some u) = u := by
        rw [usefulOrGeneric, Option.filter_some, huseful]
        rfl
      rw [kept] at ht
      exact ⟨u, ht.elim id id, huseful, hgoes⟩

end Record

section Above

variable {cfg : Setting} {o : Object} {i : Import} {q : Scope} {s s₀ s' : State} {t : AvroType}
  {names names' : List String}

/-- Within a document a reference leads to the same place from everywhere. -/
theorem locate_above (hq : q.Above i.scope) (reference : String) :
    locate cfg reference q = locate cfg reference i.scope := by
  unfold locate
  rw [hq.document, hq.baseUri]

theorem key_above (hq : q.Above i.scope) : (i.at q).key = i.key :=
  congrArg (Location.resolve · i.reference) hq.baseUri

/-- A resolution that gives up no node for its depth goes the same way at a shallower scope. -/
theorem resolution_shallower (hr : (Object.get? o "$ref").bind asString? = some i.reference)
    (hbare : isBareReference o = true) (hnew : Imports.get? s.imports i.key = none)
    (hl : (locate cfg i.reference i.scope).Yields s i.located s₀) (hq : q.Above i.scope)
    (hname : (i.at q).typeName cfg = i.typeName cfg)
    (h : (referenceType cfg (node cfg) o i.scope).Yields names s (some t) names' s')
    (hshallow : ShallowSince s s') :
    ∃ s₁, Quiet s' s₁ ∧ (referenceType cfg (node cfg) o q).Yields names s (some t) names' s₁ := by
  obtain ⟨k, hk⟩ : ∃ k, i.scope.depth = k + q.depth :=
    ⟨i.scope.depth - q.depth, by have := hq.depth; omega⟩
  have deeper : i.inner cfg = ((i.at q).inner cfg).sunk k := by
    unfold Import.inner Scope.sunk
    rw [hname]
    simp only [Import.at, hk]
    rfl
  have begun : (i.at q).begun cfg s₀ = i.begun cfg s₀ := by
    unfold Import.begun
    rw [key_above hq, hname]
    rfl
  have hl' : (locate cfg (i.at q).reference (i.at q).scope).Yields s (i.at q).located s₀ :=
    (locate_above hq i.reference).symm ▸ hl
  obtain ⟨x, gathered, s₁, hx, hsettle⟩ := (reference_type_yields hr hbare hnew hl).mp h
  rw [deeper] at hx
  have shallow : ShallowSince (i.begun cfg s₀) s₁ := by
    have unwarned : (i.begun cfg s₀).warnings = s₀.warnings := by
      unfold Import.begun
      split <;> rfl
    have found : s.warnings <+: (i.begun cfg s₀).warnings :=
      unwarned ▸ warnings_kept (locate_agrees _ _).logs hl
    have converted : (i.begun cfg s₀).warnings <+: s₁.warnings :=
      warnings_kept (node_within_sunk k le_rfl _ _ []).logs hx
    have settled : s₁.warnings <+: s'.warnings :=
      warnings_kept ((neutral_settle _ _ _ _ _ _).logs names) hsettle
    exact ((hshallow.split found (converted.trans settled)).2.split converted settled).1
  obtain ⟨s₂, hquiet, hsettled⟩ := settle_elsewhere q hsettle
  refine ⟨s₂, hquiet, ?_⟩
  refine (reference_type_yields (i := i.at q) hr hbare (key_above hq ▸ hnew) hl').mpr
    ⟨x, gathered, s₁, ?_, ?_⟩
  · rw [begun]
    exact node_sunk_yields k hx shallow
  · rw [key_above hq, hname]
    exact hsettled

/-- A reference to a schema that makes a record becomes the record's name, and is remembered by it. -/
theorem record_resolution (hr : (Object.get? o "$ref").bind asString? = some i.reference)
    (hbare : isBareReference o = true) (hnew : Imports.get? s.imports i.key = none)
    (hl : (locate cfg i.reference i.scope).Yields s i.located s₀) (htop : s.frames = []) {n : Nat}
    (hmakes : MakesRecord i.located.document n i.located.fragment)
    (hdepth : i.scope.depth + 1 + n ≤ cfg.options.maxDepth)
    (h : (referenceType cfg (node cfg) o i.scope).Yields names s (some t) names' s') :
    t = .reference (fullOf (i.typeName cfg)) ∧
      Imports.get? s'.imports i.key = some (.named (fullOf (i.typeName cfg))) := by
  obtain ⟨x, gathered, s₁, hx, hsettle⟩ := (reference_type_yields hr hbare hnew hl).mp h
  have none : (i.begun cfg s₀).frames = [] := by
    have grows : Grows s ((locate cfg i.reference i.scope).run.run s).2 := locate_growing _ _ s
    rw [show (locate cfg i.reference i.scope).run.run s = (.ok i.located, s₀) from hl] at grows
    unfold Import.begun
    split <;> exact grows.frames.trans htop
  have makes : MakesRecord (i.inner cfg).document n i.located.fragment := hmakes
  have depth : (i.inner cfg).depth = i.scope.depth + 1 := rfl
  obtain ⟨u, hu, -, hgoes⟩ := makes.yields (by omega) (by rw [none]; rfl) hx
  have named : fullOf (Name.ofText (i.inner cfg).localName, (i.inner cfg).typeNs) =
      fullOf (i.typeName cfg) := by
    simp only [Scope.localName, Scope.typeNs, Import.inner, if_true, i.type_name_legal cfg]
  rw [named] at hgoes
  exact (settle_settles hsettle).named hu hgoes

end Above

/-- The first resolution of a bare reference. Whatever is remembered of it is the type that it came to,
and any later resolution gives that type. If no node was given up for its depth, a resolution at a
shallower scope would have come to the same. If the fragment makes a record and the limit allows for that,
the reference becomes the name of the record at both scopes, whatever is given up inside. -/
theorem first_resolution_decides (cfg : Setting) (o : Object) (i : Import) (q : Scope)
    (names names' : List String) (s s₀ s₁ : State) (t : AvroType)
    (hr : (Object.get? o "$ref").bind asString? = some i.reference) (hbare : isBareReference o = true)
    (hnew : Imports.get? s.imports i.key = none)
    (hl : (locate cfg i.reference i.scope).Yields s i.located s₀) (hq : q.Above i.scope)
    (hname : (i.at q).typeName cfg = i.typeName cfg)
    (h : (referenceType cfg (node cfg) o i.scope).Yields names s (some t) names' s₁) :
    (∀ known, Imports.get? s₁.imports i.key = some known → known.type = t ∧
      ∀ more s₂, Imports.get? s₂.imports i.key = some known →
        (referenceType cfg (node cfg) o q).Yields more s₂ (some t) (known.gather more) s₂) ∧
    (ShallowSince s s₁ →
      ∃ s₂, Quiet s₁ s₂ ∧ (referenceType cfg (node cfg) o q).Yields names s (some t) names' s₂) ∧
    (s.frames = [] → ∀ n, MakesRecord i.located.document n i.located.fragment →
      i.scope.depth + 1 + n ≤ cfg.options.maxDepth →
      t = .reference (fullOf (i.typeName cfg)) ∧
      Imports.get? s₁.imports i.key = some (.named (fullOf (i.typeName cfg))) ∧
      ∀ fresh found more u more' last, fresh.frames = [] → Imports.get? fresh.imports i.key = none →
        (locate cfg i.reference q).Yields fresh i.located found →
        (referenceType cfg (node cfg) o q).Yields more fresh (some u) more' last → u = t) := by
  refine ⟨fun known hknown => ?_, ?_, fun htop n hmakes hdepth => ?_⟩
  · obtain ⟨x, gathered, s₂, -, hsettle⟩ := (reference_type_yields hr hbare hnew hl).mp h
    have type := (settle_settles hsettle).remembered hknown
    refine ⟨type, fun more s₂ hs₂ => ?_⟩
    rw [← type]
    exact reference_type_remembered hr ((congrArg _ (key_above hq)).trans hs₂)
  · exact resolution_shallower hr hbare hnew hl hq hname h
  · obtain ⟨ht, hknown⟩ := record_resolution hr hbare hnew hl htop hmakes hdepth h
    refine ⟨ht, hknown, fun fresh found more u more' last hfresh hempty hfound hu => ?_⟩
    have shallower : (i.at q).scope.depth + 1 + n ≤ cfg.options.maxDepth := by
      have := hq.depth
      show q.depth + 1 + n ≤ _
      omega
    have same := (record_resolution (i := i.at q) hr hbare (key_above hq ▸ hempty) hfound hfresh hmakes
      shallower hu).1
    rw [same, ht, hname]

/-- A document with the fragment as its definition `R`. -/
def holding (fragment : Json) : Json := .obj [("definitions", .obj [("R", fragment)])]

/-- A reference to the definition, so deep in the document. -/
def referenceTo (fragment : Json) (depth : Nat) : Import where
  reference := "#/definitions/R"
  scope := (Scope.root "D" "ns" (holding fragment) "").sunk depth
  located := ⟨fragment, holding fragment, "", none⟩

def toR : Object := [("$ref", .str "#/definitions/R")]

/-- A setting that gives up nodes beyond the depth of four. -/
def fourLevels : Setting := offline.withLimit 4

/-- What becomes of the reference at a depth, and the state afterwards. -/
def resolved (fragment : Json) (depth : Nat) (s : State) :
    Except Failure (Option AvroType × List String) × State :=
  ((referenceType fourLevels (node fourLevels) toR (referenceTo fragment depth).scope).run []).run.run s

theorem reference_to_found (fragment : Json) (depth : Nat) (s : State) :
    (locate fourLevels (referenceTo fragment depth).reference (referenceTo fragment depth).scope).Yields s
      (referenceTo fragment depth).located s := by
  have along : localKeys? "#/definitions/R" = some ["definitions", "R"] := by decide +kernel
  exact locate_inside fourLevels (local_fragment_along along) s

def identifier : Json := .obj [("type", .str "string"), ("format", .str "uuid")]

/-- A record with a field for the identifier. -/
def identified : Json := objectSchema [("id", identifier)]

theorem identified_makes_record (d : Json) : MakesRecord d 0 identified := by
  refine .listed ⟨?_, rfl, rfl, rfl, rfl⟩ rfl ?_
  · simp [Object.keys]
  · show ["id"] ≠ []
    simp

/-- Where the reference is resolved first, the field of the record is too deep. The reference becomes the
record's name there, and at the top afterwards, as it would on its own. -/
theorem deep_record_named :
    (resolved identified 3 {}).1.toOption = some (some (.reference "ns.R"), ["ns.R"]) ∧
    (resolved identified 3 {}).2.warnings.any Warning.isTooDeep = true ∧
    (referenceType fourLevels (node fourLevels) toR (referenceTo identified 0).scope).Yields []
      (resolved identified 3 {}).2 (some (.reference "ns.R")) ["ns.R"] (resolved identified 3 {}).2 ∧
    ∀ u more last, (referenceType fourLevels (node fourLevels) toR
      (referenceTo identified 0).scope).Yields [] {} (some u) more last → u = .reference "ns.R" := by
  have first : (resolved identified 3 {}).1.toOption = some (some (.reference "ns.R"), ["ns.R"]) := by
    decide +kernel
  have above : (referenceTo identified 0).scope.Above (referenceTo identified 3).scope :=
    ⟨rfl, rfl, by decide⟩
  have full : fullOf ((referenceTo identified 3).typeName fourLevels) = "ns.R" := by decide +kernel
  obtain ⟨later, -, named⟩ := first_resolution_decides fourLevels toR (referenceTo identified 3)
    (referenceTo identified 0).scope [] ["ns.R"] {} {} _ _ rfl (by decide) rfl
    (reference_to_found identified 3 {}) above rfl (yields_of_ok first)
  obtain ⟨-, hknown, afresh⟩ := named rfl 0 (identified_makes_record _) (by decide)
  rw [full] at hknown
  exact ⟨first, by decide +kernel, (later _ hknown).2 [] _ hknown, fun u more last h =>
    afresh {} {} [] u more last rfl rfl (reference_to_found identified 0 {}) h⟩

/-- Where the reference is resolved first, the identifier itself is too deep. The generic type is taken for
it at the top afterwards, which on its own would be the identifier. -/
theorem given_up_type_remembered :
    (resolved identifier 4 {}).1.toOption = some (some .generic, []) ∧
    (resolved identifier 4 {}).2.warnings.any Warning.isTooDeep = true ∧
    (resolved identifier 4 {}).2.frames = [] ∧
    (resolved identifier 0 (resolved identifier 4 {}).2).1.toOption = some (some .generic, []) ∧
    (resolved identifier 0 {}).1.toOption = some (some (.logical "string" "uuid"), []) ∧
    (resolved identifier 0 {}).2.warnings.isEmpty = true := by
  decide +kernel

end Convert

end AvroDerive
