import AvroDerive.Proofs.ConversionCall
import AvroDerive.Proofs.NamedReference
import AvroDerive.Proofs.NodeSpot

/-! # Keys beside a reference

Keys beside a reference that shape the type are merged with the fragment that it leads to. That is how
the reference is converted as long as nothing is remembered for it. What is remembered is taken as it is,
and the keys have no effect. -/
namespace AvroDerive

/-- The type that a remembered reference gets. -/
def Imported.type : Imported → AvroType
  | .named name => .reference name
  | .inline t => t

/-- The names gathered when a remembered reference is met. -/
def Imported.gather (names : List String) : Imported → List String
  | .named name => addNew names name
  | .inline _ => names

namespace Convert

open AvroType Json Schema

section

variable {cfg : Setting} {node : NodeConverter} {o : Object} {scope : Scope} {reference : String}
  {names : List String} {s : State}

/-- What is remembered for a reference is taken as it is, whatever stands beside it. -/
theorem reference_type_remembered {i : Imported}
    (hr : (Object.get? o "$ref").bind asString? = some reference)
    (hi : Imports.get? s.imports (Location.resolve scope.baseUri reference) = some i) :
    (referenceType cfg node o scope).Yields names s (some i.type) (i.gather names) s := by
  unfold referenceType
  rw [hr]
  refine Build.yields_bind.mpr ⟨some i, names, s, ?_, ?_⟩
  · exact Build.yields_lift.mpr ⟨Run.yields_imported.mpr ⟨hi.symm, rfl⟩, rfl⟩
  · refine Build.yields_bind.mpr ⟨i.type, i.gather names, s, ?_, Build.yields_pure.mpr ⟨rfl, rfl, rfl⟩⟩
    cases i with
    | named name =>
      exact Build.yields_bind.mpr ⟨⟨⟩, _, s, Build.yields_depend.mpr ⟨rfl, rfl⟩,
        Build.yields_pure.mpr ⟨rfl, rfl, rfl⟩⟩
    | inline t => exact Build.yields_pure.mpr ⟨rfl, rfl, rfl⟩

/-- The schema that keys beside a reference make with the fragment. -/
def besideMerged (o : Object) (fragment : Json) : Object × List Warning :=
  mergeAll [.obj (Object.erase o "$ref"), fragment]

/-- A reference with keys beside it that nothing is remembered for: the keys are merged with the
fragment, and the conversion of that is all that happens. -/
theorem reference_type_merges {located : Located} {s₁ : State}
    (hr : (Object.get? o "$ref").bind asString? = some reference) (hbare : isBareReference o = false)
    (hnew : Imports.get? s.imports (Location.resolve scope.baseUri reference) = none)
    (hl : (locate cfg reference scope).Yields s located s₁) :
    ((referenceType cfg node o scope).run names).run.run s =
      ((node (.obj (besideMerged o located.fragment).1)
        (scope.withDocument located.document located.baseUri).deeper).run names).run.run
          { s₁ with warnings := s₁.warnings ++ (besideMerged o located.fragment).2 } := by
  have looked : (Run.imported? (Location.resolve scope.baseUri reference)).run.run s =
      (.ok none, s) := Run.yields_imported.mpr ⟨hnew.symm, rfl⟩
  have found : (locate cfg reference scope).run.run s = (.ok located, s₁) := hl
  unfold referenceType
  rw [hr]
  dsimp only
  rw [run_lift_bind, Run.run_bind, looked]
  dsimp only
  rw [run_lift_bind, Run.run_bind, found]
  dsimp only
  rw [hbare, if_neg Bool.false_ne_true, run_lift_bind, Run.run_bind]
  rfl

end

/-- A reference with keys beside it that shape the type, and whose fragment can be found: if nothing is
remembered for the reference, its type is that of the keys merged with the fragment, converted one level
deeper where the fragment was found, in success and in failure. If something is, its type is what is
remembered and the state stays as it is, whatever the keys and the fragment are. -/
theorem siblings_merged_unless_remembered (cfg : Setting) (o : Object) (scope : Scope)
    (reference : String) (names : List String) (s s₁ : State) (located : Located)
    (hr : (Object.get? o "$ref").bind asString? = some reference) (hbare : isBareReference o = false)
    (hl : (locate cfg reference scope).Yields s located s₁) :
    (Imports.get? s.imports (Location.resolve scope.baseUri reference) = none →
      s₁.imports = s.imports ∧ ((referenceType cfg (node cfg) o scope).run names).run.run s =
        ((node cfg (.obj (besideMerged o located.fragment).1)
          (scope.withDocument located.document located.baseUri).deeper).run names).run.run
            { s₁ with warnings := s₁.warnings ++ (besideMerged o located.fragment).2 }) ∧
    ∀ i, Imports.get? s.imports (Location.resolve scope.baseUri reference) = some i →
      (referenceType cfg (node cfg) o scope).Yields names s (some i.type) (i.gather names) s :=
  ⟨fun hnew => ⟨locate_imports hl, reference_type_merges hr hbare hnew hl⟩,
    fun _ hi => reference_type_remembered hr hi⟩

/-- A reference to the definition `A` with a property of its own beside it. -/
def refined : Object := [("$ref", .str "#/definitions/A"),
  ("properties", .obj [("y", .obj [("type", .str "string")])])]

/-- The definition that it refers to. -/
def plainA : Json := objectSchema [("x", .obj [("type", .str "string")])]

def refining : Json := .obj [("definitions", .obj [
  ("A", plainA), ("B", objectSchema [("a", .obj refined)])])]

/-- Where the reference is converted. -/
def refinedScope : Scope := (Scope.root "B" "ns" refining "").forField "a"

/-- The state after the turn of `A`. -/
def afterA : State :=
  stateAfter offline [(offline.source, .definition refining "" "A" plainA (some "/definitions/A"))]

theorem refined_found (s : State) : (locate offline "#/definitions/A" refinedScope).Yields s
    ⟨plainA, refining, "", none⟩ s :=
  locate_inside offline
    (local_fragment_along (show _ = some ["definitions", "A"] by decide +kernel)) s

/-- The reference is merged with `A` at first, and is `A` without its property after the turn of `A`. -/
theorem refined_reference_depends : isBareReference refined = false ∧
    ((referenceType offline (node offline) refined refinedScope).run []).run.run {} =
      ((node offline (.obj (besideMerged refined plainA).1)
        (refinedScope.withDocument refining "").deeper).run []).run.run
          { warnings := [] ++ (besideMerged refined plainA).2 } ∧
    ∃ i, Imports.get? afterA.imports (Location.resolve refinedScope.baseUri "#/definitions/A") =
        some i ∧ i.type = .reference "ns.A" ∧
      (referenceType offline (node offline) refined refinedScope).Yields [] afterA
        (some i.type) (i.gather []) afterA := by
  have first := (siblings_merged_unless_remembered offline refined refinedScope "#/definitions/A" []
    {} {} _ rfl (by decide) (refined_found _)).1 rfl
  have later := (siblings_merged_unless_remembered offline refined refinedScope "#/definitions/A" []
    afterA afterA _ rfl (by decide) (refined_found _)).2
  have remembered : (Imports.get? afterA.imports
      (Location.resolve refinedScope.baseUri "#/definitions/A")).any
        (fun i => decide (i.type = .reference "ns.A")) = true := by
    decide +kernel
  obtain ⟨i, hi, htype⟩ := (Option.any_eq_true _ _).mp remembered
  exact ⟨by decide, first.2, i, hi, of_decide_eq_true htype, later i hi⟩

/-- After the turn of `A` the reference gives the name of `A`, and the merged schema a record with both
properties. -/
theorem remembered_reference_drops_keys : isBareReference refined = false ∧
    (locate offline "#/definitions/A" refinedScope).Yields afterA ⟨plainA, refining, "", none⟩ afterA ∧
    (∃ names s, (referenceType offline (node offline) refined refinedScope).Yields [] afterA
      (some (.reference "ns.A")) names s) ∧
    ∃ t names s, (node offline (.obj (besideMerged refined plainA).1)
      refinedScope.deeper).Yields [] afterA t names s ∧ fieldNamesOf t = ["y", "x"] := by
  have reference : (((referenceType offline (node offline) refined refinedScope).run []).run.run
      afterA).1.toOption.any (fun r => decide (r.1 = some (.reference "ns.A"))) = true := by
    decide +kernel
  have merged : (((node offline (.obj (besideMerged refined plainA).1)
      refinedScope.deeper).run []).run.run afterA).1.toOption.any
        (fun r => decide (fieldNamesOf r.1 = ["y", "x"])) = true := by
    decide +kernel
  obtain ⟨r, hr, ht⟩ := (Option.any_eq_true _ _).mp reference
  obtain ⟨m, hm, hnames⟩ := (Option.any_eq_true _ _).mp merged
  have keys : fieldNamesOf m.1 = ["y", "x"] := of_decide_eq_true hnames
  have yields := yields_of_ok hr
  obtain ⟨u, names⟩ := r
  obtain rfl : u = some (.reference "ns.A") := of_decide_eq_true ht
  exact ⟨by decide, refined_found _, ⟨names, _, yields⟩, m.1, m.2, _, yields_of_ok hm, keys⟩

end Convert

end AvroDerive
