import AvroDerive.Convert.Document
import AvroDerive.Proofs.NodeParallel

/-! # What references to definitions stand for

The definitions of a document are laid out in ranks, so that each refers to lower ones only. Then it
can be said beforehand what a reference to a definition stands for, and what type the definition
has: the types are converted with the meaning of the lower ones at hand. -/
namespace AvroDerive.Convert

open AvroType Json Schema

/-- The pointer to a definition of a document. -/
def definitionPointer (name : String) : String := "/definitions" ++ "/" ++ Pointer.escape name

/-- A document that consists of definitions. -/
def definitionsOf (members : Object) : Json := .obj [("definitions", .obj members)]

/-- What is known of the definitions of a document beforehand, by their keys. -/
structure Plan where
  rank : String → Nat
  /-- All ranks are below. -/
  height : Nat
  /-- The definitions that a definition may refer to. -/
  targets : String → List String
  /-- The names of the records that are made inside a definition. -/
  records : String → List String
  /-- The names of the records that may be under construction around a definition. -/
  around : String → List String

/-- The name that a type is nothing but a reference to. -/
def referenceTo? : AvroType → Option String
  | .reference name => some name
  | _ => none

/-- What a reference stands for that leads to a fragment of the type. -/
def importedAs (t : AvroType) : Imported :=
  ((referenceTo? t).map Imported.named).getD (.inline t)

section Meaning

variable (cfg : Setting) (baseUri : String) (members : Object)

/-- The namespace of the definitions. -/
def homeNs : String := Namespace.compose [cfg.rootNs]

def fullName (name : String) : String := qualify (some (homeNs cfg)) (Name.ofText name)

/-- The key under which references to a definition are remembered. -/
def placeOf (name : String) : String := pointerKey baseUri (definitionPointer name)

/-- The scope of a definition itself. -/
def definitionScope (document : Json) (name : String) : Scope :=
  .root (Name.ofText name) (homeNs cfg) document baseUri

def leadsTo (reference name : String) : Bool :=
  Location.resolve baseUri reference == placeOf baseUri name &&
    (localPart? reference).map fragmentPointer == some (definitionPointer name)

/-- The type that a computation gives where references stand for the imports. -/
def typeIn (imports : Imports) (x : Run (Option AvroType × List String)) : Option AvroType :=
  (x.run.run { imports }).1.toOption.bind Prod.fst

/-- The type of a definition as a reference finds it. -/
def referredType (imports : Imports) (m : String × Json) : Option AvroType :=
  typeIn imports
    (Build.apart (node cfg m.2 (definitionScope cfg baseUri (definitionsOf members) m.1)))

/-- The type of a definition as it is converted in its turn. -/
def processedType (imports : Imports) (m : String × Json) : Option AvroType :=
  typeIn imports
    (definitionType cfg m.2 (definitionScope cfg baseUri (definitionsOf members) m.1))

/-- What a reference to a definition stands for. -/
def standsFor (imports : Imports) (m : String × Json) : Option Imported :=
  if isStandalone m.2 then some (.named (fullName cfg m.1))
  else (referredType cfg baseUri members imports m).map importedAs

/-- What the references to definitions stand for, if those in definitions beneath a rank do. -/
def meaning : Nat → Imports
  | 0 => []
  | rank + 1 => members.map fun m =>
    (placeOf baseUri m.1, standsFor cfg baseUri members (meaning rank) m)

/-- A type under the name of a definition, without the names that are gathered in records. -/
def entryOf (name : String) (t : AvroType) : AvroType :=
  ((t.withName (Name.ofText name)).withNs (homeNs cfg)).clearDependencies

/-- The type that is registered for a definition. -/
def recorded? (imports : Imports) (m : String × Json) : Option AvroType :=
  (processedType cfg baseUri members imports m).bind fun t =>
    if t.isRecord || t.isEnum then some (entryOf cfg m.1 t)
    else if (referenceTo? t).isSome then none
    else some (entryOf cfg m.1 (valueRecord (Name.ofText m.1) (homeNs cfg) m.2 t))

variable (plan : Plan)

/-- The view of a definition. -/
def Plan.view (m : String × Json) : View where
  name := Name.ofText m.1
  ns := homeNs cfg
  named := isStandalone m.2
  baseUri
  records := plan.records m.1
  refers reference := (plan.targets m.1).any (leadsTo baseUri reference)

/-- The site of a definition itself. -/
def definitionSite (m : String × Json) : Site := ⟨isStandalone m.2, Name.ofText m.1, ""⟩

/-- Whether a definition is converted like any other node in its turn. -/
def isOrdinary : Json → Bool
  | .obj o => !isRecordSchema o
  | _ => true

/-- The nodes of a definition that its conversion in its turn visits. -/
def processedVisits (m : String × Json) : List (Site × Json) :=
  match m.2 with
  | .obj o =>
    if isRecordSchema o then
      if hasComposition (unconditional o) then
        [(⟨false, Name.ofText m.1, "value"⟩, .obj (unconditional o))]
      else recordVisits (Name.ofText m.1) (unconditional o)
    else []
  | _ => []

def Plan.meaning : Imports := Convert.meaning cfg baseUri members plan.height

/-- A reference to the definition stands for the type that is registered for it, or else for a type
without a name. -/
def Plan.Settled (m : String × Json) : Prop :=
  ∃ t ∈ referredType cfg baseUri members (plan.meaning cfg baseUri members) m,
    if isStandalone m.2 = true then
      (t.isRecord || t.isEnum) = true ∧ t.qualifiedName? = some (fullName cfg m.1) ∧
        recorded? cfg baseUri members (plan.meaning cfg baseUri members) m =
          some t.clearDependencies
    else t.isNamed = false

/-- A definition may refer to another one that is lower, and the records that are under construction
in it are around the other one. -/
structure Plan.MayRefer (m p : String × Json) : Prop where
  rank : plan.rank p.1 < plan.rank m.1
  inside : plan.records m.1 ⊆ plan.around p.1
  outside : plan.around m.1 ⊆ plan.around p.1
  settled : plan.Settled cfg baseUri members p

/-- The plan is right about a definition. -/
structure Plan.FitsOne (m : String × Json) : Prop where
  schema : isSchemaLike m.2 = true
  height : plan.rank m.1 < plan.height
  targets : ∀ target ∈ plan.targets m.1, ∃ p ∈ members, p.1 = target ∧
    plan.MayRefer cfg baseUri members m p
  /-- No record inside the definition has the name of one around it. -/
  apart : ∀ name ∈ plan.records m.1, name ∉ plan.around m.1
  own : isOrdinary m.2 = false → Name.ofText m.1 ∈ plan.records m.1
  fits : fitsWithin (plan.view cfg baseUri m) (definitionsOf members)
    (cfg.options.maxDepth + 1) (definitionSite m) m.2 = true
  processed : ∀ p ∈ processedVisits m, fitsWithin (plan.view cfg baseUri m)
    (definitionsOf members) (cfg.options.maxDepth + 1) p.1 p.2 = true
  /-- If it stands alone it has a type. -/
  registered : isStandalone m.2 = true →
    (recorded? cfg baseUri members (plan.meaning cfg baseUri members) m).isSome
  /-- Otherwise it has the type of another definition only as a bare reference. -/
  aliased : isStandalone m.2 = false →
    ((referredType cfg baseUri members (plan.meaning cfg baseUri members) m).bind
      referenceTo?).isSome → isAlias m.2 = true ∧ isOrdinary m.2 = true

/-- The plan is right about the definitions. -/
structure Plan.Fits : Prop where
  keys : (members.map Prod.fst).Nodup
  names : (members.map fun m => Name.ofText m.1).Nodup
  places : (members.map fun m => placeOf baseUri m.1).Nodup
  each : ∀ m ∈ members, plan.FitsOne cfg baseUri members m

instance (m : String × Json) : Decidable (plan.Settled cfg baseUri members m) :=
  inferInstanceAs (Decidable (∃ t ∈ referredType cfg baseUri members
    (plan.meaning cfg baseUri members) m, if isStandalone m.2 = true then _ else _))

instance (m p : String × Json) : Decidable (plan.MayRefer cfg baseUri members m p) :=
  decidable_of_iff (_ ∧ _ ∧ _ ∧ _)
    ⟨fun ⟨h₁, h₂, h₃, h₄⟩ => ⟨h₁, h₂, h₃, h₄⟩, fun ⟨h₁, h₂, h₃, h₄⟩ => ⟨h₁, h₂, h₃, h₄⟩⟩

instance (m : String × Json) : Decidable (plan.FitsOne cfg baseUri members m) :=
  decidable_of_iff (_ ∧ _ ∧ _ ∧ _ ∧ _ ∧ _ ∧ _ ∧ _ ∧ _)
    ⟨fun ⟨h₁, h₂, h₃, h₄, h₅, h₆, h₇, h₈, h₉⟩ => ⟨h₁, h₂, h₃, h₄, h₅, h₆, h₇, h₈, h₉⟩,
      fun ⟨h₁, h₂, h₃, h₄, h₅, h₆, h₇, h₈, h₉⟩ => ⟨h₁, h₂, h₃, h₄, h₅, h₆, h₇, h₈, h₉⟩⟩

instance : Decidable (plan.Fits cfg baseUri members) :=
  decidable_of_iff (_ ∧ _ ∧ _ ∧ _)
    ⟨fun ⟨h₁, h₂, h₃, h₄⟩ => ⟨h₁, h₂, h₃, h₄⟩, fun ⟨h₁, h₂, h₃, h₄⟩ => ⟨h₁, h₂, h₃, h₄⟩⟩

end Meaning

section Documents

variable {baseUri : String} {members : Object} {d : Json} {reference name : String} {schema : Json}

/-- The definitions stand in the document. -/
def Holds (members : Object) (d : Json) : Prop :=
  ∀ m ∈ members, d.pointer? (definitionPointer m.1) = some m.2

theorem get_of_mem {o : Object} (h : (o.map Prod.fst).Nodup) {m : String × Json} (hm : m ∈ o) :
    Object.get? o m.1 = some m.2 := by
  induction o with
  | nil => simp at hm
  | cons first o ih =>
    rw [List.map_cons, List.nodup_cons] at h
    rw [Object.get?_cons]
    rcases List.mem_cons.mp hm with rfl | hm
    · rw [if_pos rfl]
    · rw [if_neg, ih h.2 hm]
      intro heq
      exact h.1 (heq ▸ List.mem_map_of_mem hm)

theorem definition_keys (name : String) :
    Pointer.keys (definitionPointer name) = ["definitions", name] := by
  have hfirst : Pointer.keys "/definitions" = ["definitions"] := by decide +kernel
  rw [definitionPointer, Pointer.keys_append_escape, hfirst]
  rfl

theorem holds_definitions {members' : Object} (hkeys : (members'.map Prod.fst).Nodup)
    (hsub : members ⊆ members') : Holds members (definitionsOf members') := by
  intro m hm
  have hget := get_of_mem hkeys (hsub hm)
  have hslash : (definitionPointer m.1).toList =
      '/' :: ("definitions" ++ "/" ++ Pointer.escape m.1).toList := by
    simp [definitionPointer]
  rw [pointer?, hslash]
  dsimp only
  rw [if_pos rfl, definition_keys]
  show (Object.get? [("definitions", Json.obj members')] "definitions" >>= fun j =>
    j.child? m.1 >>= pure) = some m.2
  rw [Object.get?_cons, if_pos rfl]
  show (Object.get? members' m.1 >>= pure) = some m.2
  rw [hget]
  rfl

theorem definition_name (cfg : Setting) (name : String) :
    typeName? cfg.rootNs (definitionPointer name) = some (Name.ofText name, homeNs cfg) := by
  have dropped : ["definitions", name].dropLast.filter (· ∉ definitionGroups) = [] := by
    rw [List.dropLast_cons_cons, List.dropLast_singleton]
    decide
  rw [typeName?, definition_keys, typeNameOfKeys?, dropped, homeNs]
  simp only [List.getLast?_cons_cons, List.getLast?_singleton, Option.map_some]

theorem Plan.Fits.target {cfg : Setting} {plan : Plan} (h : plan.Fits cfg baseUri members)
    {m : String × Json} (hm : m ∈ members) {target : String} (ht : target ∈ plan.targets m.1) :
    ∃ schema, (target, schema) ∈ members ∧
      plan.MayRefer cfg baseUri members m (target, schema) := by
  obtain ⟨⟨_, schema⟩, hmem, rfl, hrefer⟩ := (h.each m hm).targets target ht
  exact ⟨schema, hmem, hrefer⟩

theorem Plan.Fits.aliased {cfg : Setting} {plan : Plan} (h : plan.Fits cfg baseUri members)
    {m : String × Json} (hm : m ∈ members) (hs : isStandalone m.2 = false) {target : String}
    (ht : referredType cfg baseUri members (plan.meaning cfg baseUri members) m =
      some (.reference target)) : isAlias m.2 = true ∧ isOrdinary m.2 = true :=
  (h.each m hm).aliased hs (by rw [ht]; rfl)

theorem place_of_leads (h : leadsTo baseUri reference name = true) :
    Location.resolve baseUri reference = placeOf baseUri name := by
  simp only [leadsTo, Bool.and_eq_true, beq_iff_eq] at h
  exact h.1

theorem part_of_leads (h : leadsTo baseUri reference name = true) : ∃ part,
    localPart? reference = some part ∧ fragmentPointer part = definitionPointer name := by
  simp only [leadsTo, Bool.and_eq_true, beq_iff_eq] at h
  exact Option.map_eq_some_iff.mp h.2

theorem fragment_of_leads (h : leadsTo baseUri reference name = true) (hd : Holds members d)
    (hm : (name, schema) ∈ members) : localFragment? d reference = some schema := by
  obtain ⟨part, hpart, hpointer⟩ := part_of_leads h
  have hfound : d.pointer? (definitionPointer name) = some schema := hd (name, schema) hm
  simp only [localFragment?, hpart, Option.bind_some, hpointer, hfound]

/-- What the imports say about one of the places. -/
theorem get_place {places : String × Json → String} {f : String × Json → Option Imported}
    (h : (members.map places).Nodup) {m : String × Json} (hm : m ∈ members) :
    Imports.get? (members.map fun m => (places m, f m)) (places m) = f m := by
  induction members with
  | nil => simp at hm
  | cons first members ih =>
    rw [List.map_cons, List.nodup_cons] at h
    rw [Imports.get?, List.map_cons, List.lookup_cons]
    rcases List.mem_cons.mp hm with rfl | hm
    · simp
    · have hne : places m ≠ places first := fun heq => h.1 (heq ▸ List.mem_map_of_mem hm)
      have hb : (places m == places first) = false := by simpa using hne
      rw [hb]
      exact ih h.2 hm

end Documents

section Settling

variable {cfg : Setting} {baseUri : String} {members : Object} {plan : Plan} {d : Json}
  {m : String × Json} {s : State} {names : List String}

/-- The type that a remembered reference gets. -/
def importedType : Imported → AvroType
  | .named name => .reference name
  | .inline t => t

theorem imported_type_as (t : AvroType) : importedType (importedAs t) = t := by
  cases t <;> rfl

/-- A remembered reference gets its type at once. -/
theorem remembered_yields (cfg : Setting) (node : NodeConverter) (names : List String) {o : Object}
    (scope : Scope) {reference : String} {i : Imported} (href : (Object.get? o "$ref").bind asString? = some reference)
    (hi : Imports.get? s.imports (Location.resolve scope.baseUri reference) = some i) :
    ∃ names', (referenceType cfg node o scope).Yields names s (some (importedType i)) names' s := by
  have reuse : ∃ names', (reuseImported i).Yields names s (importedType i) names' s := by
    cases i with
    | named name =>
      exact ⟨addNew names name, Build.yields_bind.mpr ⟨⟨⟩, addNew names name, s,
        Build.yields_depend.mpr ⟨rfl, rfl⟩, Build.yields_pure.mpr ⟨rfl, rfl, rfl⟩⟩⟩
    | inline t => exact ⟨_, Build.yields_pure.mpr ⟨rfl, rfl, rfl⟩⟩
  obtain ⟨names', hreuse⟩ := reuse
  refine ⟨names', ?_⟩
  unfold referenceType
  rw [href]
  dsimp only
  refine Build.yields_bind.mpr ⟨some i, names, s,
    Build.yields_lift.mpr ⟨Run.yields_imported.mpr ⟨hi.symm, rfl⟩, rfl⟩, ?_⟩
  exact Build.yields_bind.mpr ⟨_, _, _, hreuse, Build.yields_pure.mpr ⟨rfl, rfl, rfl⟩⟩

theorem reference_of_fits {v : View} {o : Object} (h : referenceFits v o = true) :
    isBareReference o = true ∧ ∃ reference,
      (Object.get? o "$ref").bind asString? = some reference ∧ v.refers reference = true := by
  simp only [referenceFits, Bool.and_eq_true, Option.any_eq_true_iff_get] at h
  obtain ⟨hbare, hsome, href⟩ := h
  exact ⟨hbare, _, (Option.some_get hsome).symm, href⟩

theorem type_in_of_yields {imports : Imports} {x : Run (Option AvroType × List String)}
    {p : Option AvroType × List String} {t : State} (h : x.Yields { imports } p t) :
    typeIn imports x = p.1 := by
  rw [typeIn, show x.run.run { imports } = (.ok p, t) from h]
  rfl

/-- A definition's view looks at the definition from its own site. -/
theorem at_definition (c : Comparison) (h : plan.Fits cfg baseUri members) (hm : m ∈ members)
    (hd : Holds members d) (hreads : c.reads d) {depth : Nat}
    (hexact : c.exact = true → depth = 0) :
    AtSite c (plan.view cfg baseUri m) (definitionsOf members) (definitionSite m)
      { definitionScope cfg baseUri d m.1 with depth } 0 where
  record := rfl
  field := rfl
  baseUri := rfl
  reads := hreads
  same reference href := by
    obtain ⟨target, htarget, hleads⟩ := List.any_eq_true.mp href
    obtain ⟨schema, hmem, -⟩ := h.target hm htarget
    have hown := holds_definitions h.keys (List.Subset.refl members)
    exact (fragment_of_leads hleads hd hmem).trans (fragment_of_leads hleads hown hmem).symm
  bound := Nat.zero_le _
  exact he := (hexact he).symm
  beneath := Nat.le_refl _
  home h := ⟨h, rfl, rfl, rfl⟩

end Settling

section Consistency

variable {cfg : Setting} {baseUri : String} {members : Object} {plan : Plan} {m : String × Json}

/-- Two runs from states in which references stand for the one and for the other. -/
def between (a b : Imports) : Comparison where
  related frames s s' := s.imports = a ∧ s'.imports = b ∧ s.registry = [] ∧ s'.registry = [] ∧
    s.frames = frames ∧ s'.frames = frames
  exact := true
  known _ _ := True
  reads _ := True

theorem between_faithful (a b : Imports) {v : View} (hlegal : Name.ofText v.name = v.name) :
    Faithful (between a b) v where
  legal := hlegal
  warned _ h := h
  begun := by
    rintro frames s s' f - ⟨ha, hb, hr, hr', hf, hf'⟩
    exact ⟨ha, hb, hr, hr', by rw [hf], by rw [hf']⟩
  ended := by
    rintro frames s s' f ⟨ha, hb, hr, hr', hf, hf'⟩
    exact ⟨ha, hb, hr, hr', by rw [hf, List.tail_cons], by rw [hf', List.tail_cons]⟩
  found := by
    rintro frames s s' name ⟨-, -, -, -, hf, hf'⟩ -
    rw [hf, hf']
    exact ⟨rfl, rfl⟩
  unused := by
    rintro frames s s' t name ⟨-, -, hr, hr', -⟩ - -
    rw [hr, hr']
    exact ⟨rfl, rfl⟩

theorem between_references {a b : Imports} {v : View} {document : Json} {node node' : NodeConverter}
    (hagree : ∀ reference, v.refers reference = true → ∃ i,
      Imports.get? a (Location.resolve v.baseUri reference) = some i ∧
        Imports.get? b (Location.resolve v.baseUri reference) = some i ∧
          (importedType i).isNamed = false) :
    ReferencesAlike cfg (between a b) v document node node' := by
  intro frames site o scope depth hs hfit names names'
  refine ⟨fun he => by simp [between] at he, fun s s' hr _ => ?_⟩
  obtain ⟨-, reference, href, hrefers⟩ := reference_of_fits hfit
  obtain ⟨i, ha, hb, hnamed⟩ := hagree reference hrefers
  rw [← hs.baseUri] at ha hb
  obtain ⟨n, hx⟩ := remembered_yields cfg node names scope href (hr.1 ▸ ha)
  obtain ⟨n', hy⟩ := remembered_yields cfg node' names' (scope.moved document depth) href
    (hr.2.1 ▸ hb)
  refine ⟨_, _, s, s', hx, hy, hr, rfl, ?_, fun _ _ => trivial⟩
  rintro _ ⟨⟩
  exact hnamed

theorem stands_congr {a b : Imports}
    (h : referredType cfg baseUri members a m = referredType cfg baseUri members b m) :
    standsFor cfg baseUri members a m = standsFor cfg baseUri members b m := by
  rw [standsFor, standsFor, h]

/-- A reference to a settled definition stands for a name or for a type without one. -/
theorem Plan.Settled.stands (h : plan.Settled cfg baseUri members m) : ∃ i,
    standsFor cfg baseUri members (plan.meaning cfg baseUri members) m = some i ∧
      (importedType i).isNamed = false := by
  obtain ⟨t, ht, hkind⟩ := h
  by_cases hs : isStandalone m.2 = true
  · exact ⟨_, by rw [standsFor, if_pos hs], rfl⟩
  · rw [if_neg hs] at hkind
    refine ⟨importedAs t, by rw [standsFor, if_neg hs, ht, Option.map_some], ?_⟩
    rw [imported_type_as]
    exact hkind

theorem referred_agree (h : plan.Fits cfg baseUri members) (hm : m ∈ members) {a b : Imports}
    (hagree : ∀ target ∈ plan.targets m.1, ∃ i,
      Imports.get? a (placeOf baseUri target) = some i ∧
        Imports.get? b (placeOf baseUri target) = some i ∧ (importedType i).isNamed = false) :
    referredType cfg baseUri members a m = referredType cfg baseUri members b m := by
  have faithful : Faithful (between a b) (plan.view cfg baseUri m) :=
    between_faithful a b (of_text_idem m.1)
  have refers : ∀ reference, (plan.view cfg baseUri m).refers reference = true → ∃ i,
      Imports.get? a (Location.resolve baseUri reference) = some i ∧
        Imports.get? b (Location.resolve baseUri reference) = some i ∧
          (importedType i).isNamed = false := by
    intro reference href
    obtain ⟨target, htarget, hleads⟩ := List.any_eq_true.mp href
    rw [place_of_leads hleads]
    exact hagree target htarget
  have nodes : NodesAlike (between a b) (plan.view cfg baseUri m) (definitionsOf members)
      (cfg.options.maxDepth + 1) (node cfg) (node cfg) :=
    levels_alike faithful (Nat.le_refl _) (fun _ => rfl)
      fun _ _ _ _ _ => between_references refers
  have site : AtSite (between a b) (plan.view cfg baseUri m) (definitionsOf members)
      (definitionSite m) (definitionScope cfg baseUri (definitionsOf members) m.1) 0 :=
    at_definition _ h hm (holds_definitions h.keys (List.Subset.refl members)) trivial fun _ => rfl
  have alike := nodes [] (definitionSite m) m.2 _ 0 site (fun _ => rfl) (h.each m hm).fits
  obtain ⟨x, y, t, t', hx, hy, -, ⟨hp, -⟩, -⟩ := (alike [] []).along { imports := a } { imports := b }
    ⟨rfl, rfl, rfl, rfl, rfl, rfl⟩ (Or.inl rfl)
  rw [referredType, referredType]
  exact (type_in_of_yields hx).trans (hp.trans (type_in_of_yields hy).symm)

/-- The type of a definition no longer changes once the definitions beneath it have a meaning. -/
theorem referred_stable (h : plan.Fits cfg baseUri members) : ∀ m ∈ members, ∀ a b,
    plan.rank m.1 ≤ a → plan.rank m.1 ≤ b →
    referredType cfg baseUri members (meaning cfg baseUri members a) m =
      referredType cfg baseUri members (meaning cfg baseUri members b) m := by
  have ranked : ∀ r, ∀ m ∈ members, plan.rank m.1 = r → ∀ a b, r ≤ a → r ≤ b →
      referredType cfg baseUri members (meaning cfg baseUri members a) m =
        referredType cfg baseUri members (meaning cfg baseUri members b) m := by
    intro r
    induction r using Nat.strongRecOn with
    | ind r ih =>
      intro m hm hr a b ha hb
      refine referred_agree h hm fun target ht => ?_
      obtain ⟨schema, hmem, hrefer⟩ := h.target hm ht
      obtain ⟨i, hi, hnamed⟩ := hrefer.settled.stands
      have hrank := hrefer.rank
      rw [hr] at hrank
      have place : ∀ k, r ≤ k →
          Imports.get? (meaning cfg baseUri members k) (placeOf baseUri target) = some i := by
        intro k hk
        obtain ⟨k, rfl⟩ := Nat.exists_eq_add_of_le' (Nat.lt_of_lt_of_le
          (Nat.lt_of_le_of_lt (Nat.zero_le _) hrank) hk)
        rw [Convert.meaning, get_place h.places hmem, ← hi]
        refine stands_congr (ih _ hrank _ hmem rfl _ _ ?_ ?_)
        · omega
        · exact Nat.le_of_lt (h.each _ hmem).height
      exact ⟨i, place a ha, place b hb, hnamed⟩
  exact fun m hm a b => ranked _ m hm rfl a b

/-- The meaning of a plan says what references to the definitions stand for. -/
theorem meaning_at (h : plan.Fits cfg baseUri members) (hm : m ∈ members) :
    Imports.get? (plan.meaning cfg baseUri members) (placeOf baseUri m.1) =
      standsFor cfg baseUri members (plan.meaning cfg baseUri members) m := by
  have hheight := (h.each m hm).height
  obtain ⟨k, hk⟩ := Nat.exists_eq_add_of_le' (Nat.lt_of_le_of_lt (Nat.zero_le _) hheight)
  have place : Imports.get? (plan.meaning cfg baseUri members) (placeOf baseUri m.1) =
      standsFor cfg baseUri members (meaning cfg baseUri members k) m := by
    rw [Plan.meaning, hk, Convert.meaning, get_place h.places hm]
  rw [place]
  refine stands_congr (referred_stable h m hm _ _ ?_ ?_)
  · omega
  · exact Nat.le_of_lt hheight

end Consistency

end AvroDerive.Convert
