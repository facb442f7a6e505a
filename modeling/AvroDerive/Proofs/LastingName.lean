import AvroDerive.Proofs.LawfulCall
import AvroDerive.Proofs.NamedReference

/-! # Names that last

Once a reference stands for a name between two calls, it stands for that name after all further calls:
every change of what a reference stands for comes after a look that found no name. And all types that
a converter holds are regular. -/
namespace AvroDerive.Convert

open AvroType Json Schema

section Law

variable {imports : Imports → Prop} {free : String → Prop}

/-- A law that speaks of the references that are remembered, and of nothing else. -/
def Law.ofImports (cfg : Setting) (imports : Imports → Prop) (free : String → Prop)
    (unknown : ∀ {known key}, imports known →
      (∀ name, Imports.get? known key ≠ some (.named name)) → free key)
    (write : ∀ {known key}, imports known → free key → ∀ i, imports ((key, i) :: known)) :
    Law cfg where
  imports := imports
  free := free
  documents _ := True
  spot _ := True
  turn _ _ _ := True
  origin _ := True
  unknown := unknown
  write := write
  fetched _ _ := trivial
  inner _ _ := trivial
  target _ _ _ _ := trivial
  begins _ := trivial
  beginsRecord _ _ _ _ := trivial
  alike _ _ := trivial
  joinedRecord _ _ := trivial
  mergedEnum _ _ := trivial
  listed _ _ _ _ _ := trivial
  made _ _ _ _ _ := trivial
  registered _ _ _ := trivial

/-- Nothing is said but that types are regular. -/
def Law.regular (cfg : Setting) : Law cfg :=
  .ofImports cfg (fun _ => True) (fun _ => True) (fun _ _ => trivial) fun _ _ _ => trivial

/-- The key stands for the name, and other keys may change. -/
def Law.named (cfg : Setting) (key name : String) : Law cfg :=
  .ofImports cfg (fun known => Imports.get? known key = some (.named name)) (· ≠ key)
    (by
      rintro known key' hknown hother rfl
      exact hother name hknown)
    (by
      intro known key' hknown hfree i
      rw [get_cons_ne _ (Ne.symm hfree)]
      exact hknown)

end Law

/-- The types that a state holds are regular. -/
structure Intact (s : State) : Prop where
  registry : ∀ t ∈ s.registry, AllParts Regular t
  inline : ∀ key t, (key, some (.inline t)) ∈ s.imports → AllParts Regular t

section Calls

variable {cfg : Setting} {s : State} {key name : String}

theorem Intact.good (L : Law cfg) (horigin : ∀ t, L.origin t) {t : AvroType}
    (h : AllParts Regular t) : L.Good t :=
  h.imp fun u hu => ⟨hu, fun _ => horigin u⟩

theorem Intact.regular (h : Intact s) : (Law.regular cfg).Holds s where
  imports := trivial
  documents := trivial
  registry t ht := Intact.good _ (fun _ => trivial) (h.registry t ht)
  inline key t ht := Intact.good _ (fun _ => trivial) (h.inline key t ht)

theorem Intact.named (h : Intact s) (hname : Imports.get? s.imports key = some (.named name)) :
    (Law.named cfg key name).Holds s where
  imports := hname
  documents := trivial
  registry t ht := Intact.good _ (fun _ => trivial) (h.registry t ht)
  inline key t ht := Intact.good _ (fun _ => trivial) (h.inline key t ht)

theorem Law.Holds.intact {L : Law cfg} (h : L.Holds s) : Intact s where
  registry t ht := (h.registry t ht).regular
  inline key t ht := (h.inline key t ht).regular

theorem intact_start : Intact {} := ⟨by simp, by simp⟩

theorem call_intact (call : Call) (hs : Intact s) : Intact (call.after cfg s) :=
  (call_lawful (L := Law.regular cfg) (fun _ _ _ _ => trivial) s hs.regular).1.intact

/-- A call keeps the name that a reference stands for, whether it succeeds or fails. -/
theorem call_keeps_name (call : Call) (hs : Intact s)
    (hname : Imports.get? s.imports key = some (.named name)) :
    Imports.get? (call.after cfg s).imports key = some (.named name) :=
  (call_lawful (L := Law.named cfg key name) (fun _ _ _ _ => trivial) s (hs.named hname)).1.imports

end Calls

/-- The state after further calls. What the content source answers may change from call to call. -/
def afterCalls (cfg : Setting) (calls : List (Source × Call)) (s : State) : State :=
  calls.foldl (fun s c => c.2.after { cfg with source := c.1 } s) s

section Calls

variable {cfg : Setting} {s : State} {key name : String}

theorem state_after_append (calls more : List (Source × Call)) :
    stateAfter cfg (calls ++ more) = afterCalls cfg more (stateAfter cfg calls) :=
  List.foldl_append

/-- All types that a converter holds after any calls are regular. -/
theorem calls_intact (calls : List (Source × Call)) (hs : Intact s) :
    Intact (afterCalls cfg calls s) := by
  induction calls generalizing s with
  | nil => exact hs
  | cons c calls ih => exact ih (call_intact c.2 hs)

theorem state_intact (calls : List (Source × Call)) : Intact (stateAfter cfg calls) :=
  calls_intact calls intact_start

theorem calls_keep_name (calls : List (Source × Call)) (hs : Intact s)
    (hname : Imports.get? s.imports key = some (.named name)) :
    Imports.get? (afterCalls cfg calls s).imports key = some (.named name) := by
  induction calls generalizing s with
  | nil => exact hname
  | cons c calls ih => exact ih (call_intact c.2 hs) (call_keeps_name c.2 hs hname)

end Calls

section Reference

variable {cfg : Setting} {s : State} {key name : String} {o : Object} {scope : Scope}

/-- A reference that stands for a name becomes a reference to that name, and nothing else changes. -/
theorem named_reference_yields (node : NodeConverter) (names : List String) {reference : String}
    (href : (Object.get? o "$ref").bind asString? = some reference)
    (hname : Imports.get? s.imports (Location.resolve scope.baseUri reference) = some (.named name)) :
    (referenceType cfg node o scope).Yields names s (some (.reference name)) (addNew names name) s := by
  have imported : (liftM (Run.imported? (Location.resolve scope.baseUri reference)) :
      Build (Option Imported)).Yields names s (some (.named name)) names s :=
    Build.yields_lift.mpr ⟨Run.yields_imported.mpr ⟨hname.symm, rfl⟩, rfl⟩
  have reused : (reuseImported (.named name)).Yields names s (.reference name) (addNew names name) s :=
    Build.yields_bind.mpr ⟨⟨⟩, _, _, Build.yields_depend.mpr ⟨rfl, rfl⟩,
      Build.yields_pure.mpr ⟨rfl, rfl, rfl⟩⟩
  unfold referenceType
  rw [href]
  exact Build.yields_bind.mpr ⟨_, _, _, imported, Build.yields_bind.mpr ⟨_, _, _, reused,
    Build.yields_pure.mpr ⟨rfl, rfl, rfl⟩⟩⟩

theorem bare_lacks (hbare : isBareReference o = true) {key : String} (hk : key ∉ annotationKeywords) :
    Object.contains o key = false := by
  rw [← Bool.not_eq_true]
  intro hc
  obtain ⟨value, hm⟩ := Option.isSome_iff_exists.mp hc
  have hkey : key ∈ Object.keys o := List.mem_map.mpr ⟨_, Object.mem_of_get? hm, rfl⟩
  exact hk (by simpa using List.all_eq_true.mp hbare key hkey)

/-- A node that is nothing but a reference is converted as one. -/
theorem bare_object_node (node : NodeConverter) (hbare : isBareReference o = true)
    (href : Object.contains o "$ref" = true) :
    objectNode cfg node o scope = referenceType cfg node o scope := by
  have plain : withoutConditionals? o = none := by
    have none_there : conditionalKeywords.any (Object.contains o) = false := by
      rw [List.any_eq_false]
      intro key hk
      rw [bare_lacks hbare (by revert key; decide)]
      simp
    rw [withoutConditionals?, none_there]
    rfl
  have single : hasComposition o = false := by
    simp only [hasComposition, bare_lacks hbare (show "allOf" ∉ annotationKeywords by decide),
      bare_lacks hbare (show "oneOf" ∉ annotationKeywords by decide),
      bare_lacks hbare (show "anyOf" ∉ annotationKeywords by decide), Bool.or_self]
  have same : withObjectType o = o := by
    rw [withObjectType, bare_lacks hbare (show "properties" ∉ annotationKeywords by decide)]
    rfl
  unfold objectNode Convert.withoutConditionals
  rw [plain]
  dsimp only
  rw [liftM_pure, pure_bind, if_neg (by simp [single]), same, if_pos href]

/-- If after some calls a reference stands for a name, it does after any further ones, whether they
succeed or fail. Where it stands it becomes a reference to the name, which is listed among the
dependencies once more unless it is there; the state does not change. -/
theorem named_stays_named (cfg : Setting) (calls more : List (Source × Call)) {key name : String}
    (hname : Imports.get? (stateAfter cfg calls).imports key = some (.named name)) :
    let s := stateAfter cfg (calls ++ more)
    Imports.get? s.imports key = some (.named name) ∧
    ∀ (source : Source) (o : Object) (scope : Scope) (reference : String) (names : List String),
      (Object.get? o "$ref").bind asString? = some reference →
      Location.resolve scope.baseUri reference = key →
      (∀ node, (referenceType { cfg with source } node o scope).Yields names s
        (some (.reference name)) (addNew names name) s) ∧
      (isBareReference o = true → scope.depth ≤ cfg.options.maxDepth →
        (node { cfg with source } (.obj o) scope).Yields names s
          (some (.reference name)) (addNew names name) s) := by
  have lasting : Imports.get? (stateAfter cfg (calls ++ more)).imports key = some (.named name) := by
    rw [state_after_append]
    exact calls_keep_name more (state_intact calls) hname
  refine ⟨lasting, ?_⟩
  rintro source o scope reference names href rfl
  have yields : ∀ node, (referenceType { cfg with source } node o scope).Yields names
      (stateAfter cfg (calls ++ more)) (some (.reference name)) (addNew names name)
      (stateAfter cfg (calls ++ more)) :=
    fun node => named_reference_yields node names href lasting
  refine ⟨yields, fun hbare hdepth => ?_⟩
  have there : Object.contains o "$ref" = true := by
    cases hv : Object.get? o "$ref" with
    | none => simp [hv] at href
    | some value => simp [Object.contains, hv]
  have reached : node { cfg with source } (.obj o) scope =
      objectNode { cfg with source } (nodeWithin { cfg with source } cfg.options.maxDepth) o scope := by
    rw [node, nodeWithin]
    exact if_neg (not_lt.mpr hdepth)
  rw [reached, bare_object_node _ hbare there]
  exact yields _

/-- A record that refers to a definition that does not exist. -/
def dangling : Json := .obj [("definitions", .obj [("C", objectSchema [("d", definitionRef "D")])])]

/-- The call that converts the second document fails, and the reference to `B` keeps its name. -/
theorem referred_record_stays_named :
    Imports.get? (stateAfter offline (wholeDocument referring)).imports "#/definitions/B" =
      some (.named "ns.B") ∧
    ((Call.run offline (.document dangling "")).run.run
      (stateAfter offline (wholeDocument referring))).1 = .error (.unresolved "#/definitions/D" "") ∧
    (node offline (.obj [("$ref", .str "#/definitions/B")]) (.root "A" "ns" referring "")).Yields
      ["ns.X"] (stateAfter offline (wholeDocument referring ++ wholeDocument dangling))
      (some (.reference "ns.B")) ["ns.X", "ns.B"]
      (stateAfter offline (wholeDocument referring ++ wholeDocument dangling)) := by
  have named : Imports.get? (stateAfter offline (wholeDocument referring)).imports
      "#/definitions/B" = some (.named "ns.B") := by decide +kernel
  have key : Location.resolve "" "#/definitions/B" = "#/definitions/B" := by decide +kernel
  refine ⟨named, by decide +kernel, ?_⟩
  obtain ⟨-, resolves⟩ := named_stays_named offline (wholeDocument referring)
    (wholeDocument dangling) named
  exact (resolves offline.source [("$ref", .str "#/definitions/B")] (.root "A" "ns" referring "")
    "#/definitions/B" ["ns.X"] rfl key).2 (by decide) (by decide)

end Reference

end AvroDerive.Convert
