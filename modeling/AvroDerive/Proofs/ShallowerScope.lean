import AvroDerive.Proofs.DepthAgreement

/-! # Shallower scopes

The depth of a scope counts at the limit only. So a node for which nothing is given up for its depth is
converted in the same way, from the same state, at a scope that is only less deep. -/
namespace AvroDerive

/-- The same scope, so many levels deeper. -/
def Scope.sunk (levels : Nat) (s : Scope) : Scope := { s with depth := levels + s.depth }

namespace Convert

open AvroType Json Schema

/-- From the first state to the second warnings are only added, and no node is given up for its depth. -/
def ShallowSince (s t : State) : Prop :=
  ∃ ws, t.warnings = s.warnings ++ ws ∧ ∀ limit record, .tooDeep limit record ∉ ws

/-- As `Agrees`, for what the first computation itself gives up, whatever was given up before. -/
structure AgreesSince {α : Type} (x y : Run α) : Prop where
  logs : x.Logs
  same : ∀ s, ShallowSince s (x.run.run s).2 → y.run.run s = x.run.run s

def BuildsAgreeSince {α : Type} (x y : Build α) : Prop :=
  ∀ names, AgreesSince (x.run names) (y.run names)

/-- The converters agree on every node at every scope. -/
def NodesAgreeSince (node node' : NodeConverter) : Prop :=
  ∀ schema scope, BuildsAgreeSince (node schema scope) (node' schema scope)

section Since

variable {α β : Type} {s t u : State}

theorem ShallowSince.split (hst : s.warnings <+: t.warnings) (htu : t.warnings <+: u.warnings)
    (h : ShallowSince s u) : ShallowSince s t ∧ ShallowSince t u := by
  obtain ⟨ws, hw, hws⟩ := h
  obtain ⟨first, hfirst⟩ := hst
  obtain ⟨second, hsecond⟩ := htu
  obtain rfl : ws = first ++ second := by
    rw [← hsecond, ← hfirst, List.append_assoc] at hw
    exact (List.append_cancel_left hw).symm
  exact ⟨⟨first, hfirst.symm, fun limit record hm => hws limit record (List.mem_append_left _ hm)⟩,
    second, hsecond.symm, fun limit record hm => hws limit record (List.mem_append_right _ hm)⟩

theorem warnings_kept {x : Run α} (h : x.Logs) {a : α} (hy : x.Yields s a t) :
    s.warnings <+: t.warnings := by
  have logs := h s
  rwa [show x.run.run s = (.ok a, t) from hy] at logs

theorem AgreesSince.refl {x : Run α} (h : x.Logs) : AgreesSince x x := ⟨h, fun _ _ => rfl⟩

theorem AgreesSince.bind {x y : Run α} {f g : α → Run β} (hx : AgreesSince x y)
    (hf : ∀ a, AgreesSince (f a) (g a)) : AgreesSince (x >>= f) (y >>= g) where
  logs := hx.logs.bind fun _ a _ _ => (hf a).logs
  same s hs := by
    have first := hx.logs s
    have same := hx.same s
    rw [Run.run_bind] at hs ⊢
    rw [Run.run_bind]
    rcases h : x.run.run s with ⟨r, t⟩
    rw [h] at hs first same
    cases r with
    | error e => rw [same hs]
    | ok a =>
      obtain ⟨before, after⟩ := hs.split first ((hf a).logs t)
      rw [same before]
      exact (hf a).same t after

theorem AgreesSince.within {x y : Run α} (h : AgreesSince x y) (f : Frame) :
    AgreesSince (Run.within f x) (Run.within f y) where
  logs s := h.logs { s with frames := f :: s.frames }
  same s hs := by
    have inner := h.same { s with frames := f :: s.frames } hs
    simp only [ExceptT.run, StateT.run] at inner
    simp only [Run.within, ExceptT.run, StateT.run, inner]

/-- A node that is given up agrees with anything. -/
theorem too_deep_agrees_since (cfg : Setting) (scope : Scope) (y : Build (Option AvroType)) :
    BuildsAgreeSince (tooDeep cfg scope) y := by
  intro names
  refine ⟨(too_deep_agrees cfg scope y names).logs, fun s hs => ?_⟩
  obtain ⟨ws, hw, hws⟩ := hs
  have given : [.tooDeep cfg.options.maxDepth scope.record] = ws := List.append_cancel_left hw
  exact absurd (given ▸ List.mem_singleton_self _) (hws cfg.options.maxDepth scope.record)

/-- The operations of a conversion keep this agreement, too. -/
def agreementSince (cfg : Setting) : Lockstep cfg where
  same _ _ _ x y := AgreesSince x y
  looks _ _ := True
  leads _ _ _ := True
  neutral h := .refl h.logs
  bind hx hf := hx.bind hf
  within f h := h.within f
  find _ _ h := .bind (.refl Run.logs_get) fun s => h s s rfl
  locate _ h := .bind (.refl (locate_agrees _ _).logs) fun located => h located trivial

theorem step_agrees_since {cfg : Setting} {node node' : NodeConverter} (h : NodesAgreeSince node node')
    (schema : Json) (scope : Scope) :
    BuildsAgreeSince (step cfg node schema scope) (step cfg node' schema scope) := by
  have same : (agreementSince cfg).nodes [] [] (step cfg node) (step cfg node') ⟨schema, scope⟩ :=
    Lockstep.step (fun _ _ => rfl) (fun q _ => h q.schema q.scope)
      fun _ _ => ⟨trivial, fun _ _ => h _ _⟩
  exact same

end Since

/-- The converter that takes each scope for so many levels deeper. -/
def sunk (levels : Nat) (node : NodeConverter) : NodeConverter :=
  fun schema scope => node schema (scope.sunk levels)

/-! Whatever converts a node converts the nodes inside deeper than it by as much as before: it may be
sunk together with its scope, or the converter of the nodes inside instead. -/
section Sunk

variable (cfg : Setting) (node : NodeConverter) (k : Nat) (scope : Scope) (o : Object)

theorem property_fields_sunk (required : List String) (properties : List (String × Json)) :
    propertyFields node required (scope.sunk k) properties =
      propertyFields (sunk k node) required scope properties := by
  induction properties with
  | nil => rfl
  | cons m properties ih =>
    obtain ⟨name, schema⟩ := m
    cases schema with
    | obj o =>
      rw [propertyFields, propertyFields, ih]
      rfl
    | bool b =>
      rw [propertyFields, propertyFields, ih]
      rfl
    | _ => exact ih

theorem pattern_fields_sunk (patterns : List (String × Json)) :
    patternFields node (scope.sunk k) patterns = patternFields (sunk k node) scope patterns := by
  induction patterns with
  | nil => rfl
  | cons m patterns ih =>
    rw [patternFields, patternFields, ih]
    rfl

theorem record_fields_sunk :
    recordFields node (scope.sunk k) o = recordFields (sunk k node) scope o := by
  unfold recordFields
  simp only [property_fields_sunk, pattern_fields_sunk]
  rfl

theorem object_record_sunk (name ns : String) :
    objectRecord node name ns o (scope.sunk k) = objectRecord (sunk k node) name ns o scope := by
  have built : ∀ (name : String) (o : Object),
      buildRecord node name ns o (scope.sunk k) = buildRecord (sunk k node) name ns o scope := by
    intro name o
    unfold buildRecord
    rw [← record_fields_sunk]
    rfl
  unfold objectRecord
  simp only [built]
  rfl

theorem alternative_types_sunk (n : Nat) (candidates : List Json) :
    alternativeTypes node (scope.sunk k) n candidates =
      alternativeTypes (sunk k node) scope n candidates := by
  induction candidates generalizing n with
  | nil => rfl
  | cons candidate candidates ih =>
    rw [alternativeTypes, alternativeTypes, ih]
    rfl

theorem candidates_type_sunk (keepEmpty : Bool) (candidates : List Json) :
    candidatesType node keepEmpty (scope.sunk k) candidates =
      candidatesType (sunk k node) keepEmpty scope candidates := by
  unfold candidatesType
  simp only [alternative_types_sunk]
  rfl

theorem listed_type_sunk (types : List Json) :
    listedType node types o (scope.sunk k) = listedType (sunk k node) types o scope := by
  unfold listedType
  simp only [candidates_type_sunk]
  rfl

theorem array_type_sunk : arrayType node o (scope.sunk k) = arrayType (sunk k node) o scope := by
  have tuple : ∀ (scope : Scope) (items : List Json),
      tupleTypes node (scope.sunk k) items = tupleTypes (sunk k node) scope items := by
    intro scope items
    induction items with
    | nil => rfl
    | cons item items ih =>
      rw [tupleTypes, tupleTypes, ih]
      rfl
  have deeper : (scope.sunk k).deeper = scope.deeper.sunk k := rfl
  unfold arrayType
  simp only [deeper, tuple]
  rfl

theorem inline_record_sunk : inlineRecord node o (scope.sunk k) = inlineRecord (sunk k node) o scope := by
  unfold inlineRecord
  rw [object_record_sunk]
  rfl

theorem keyword_type_sunk :
    keywordType node o (scope.sunk k) = keywordType (sunk k node) o scope := by
  unfold keywordType
  simp only [listed_type_sunk, array_type_sunk, inline_record_sunk]
  rfl

/-- What a fragment stands for is settled by its record alone. -/
theorem settle_sunk (key reference expected : String) (t : Option AvroType) (names : List String) :
    settle key reference expected (scope.sunk k) t names =
      settle key reference expected scope t names := by
  cases t with
  | none => rfl
  | some t =>
    unfold settle
    rfl

theorem import_fragment_sunk (key reference : String) (located : Located) :
    importFragment cfg node key reference located (scope.sunk k) =
      importFragment cfg (sunk k node) key reference located scope := by
  have record : (scope.sunk k).record = scope.record := rfl
  have named : referenceName cfg reference located.url (scope.sunk k) =
      referenceName cfg reference located.url scope := by
    unfold referenceName
    rw [record]
  have deeper : (scope.sunk k).depth + 1 = k + (scope.depth + 1) := rfl
  unfold importFragment sunk
  simp only [named, settle_sunk, deeper]
  simp only [Scope.sunk]

theorem reference_type_sunk :
    referenceType cfg node o (scope.sunk k) = referenceType cfg (sunk k node) o scope := by
  have found : ∀ reference, locate cfg reference (scope.sunk k) = locate cfg reference scope :=
    fun reference => by unfold locate; rfl
  unfold referenceType
  simp only [found, import_fragment_sunk]
  rfl

theorem step_sunk (schema : Json) :
    step cfg node schema (scope.sunk k) = step cfg (sunk k node) schema scope := by
  cases schema with
  | obj o =>
    show objectNode cfg node o (scope.sunk k) = objectNode cfg (sunk k node) o scope
    unfold objectNode
    simp only [candidates_type_sunk, reference_type_sunk, keyword_type_sunk]
    rfl
  | bool b => cases b <;> rfl
  | _ => rfl

end Sunk

section Levels

variable {cfg : Setting} (k : Nat)

/-- By induction on the levels, a node agrees with itself at a shallower scope, where more levels may be
left. -/
theorem node_within_sunk {levels levels' : Nat} (hlevels : levels ≤ levels') :
    NodesAgreeSince (sunk k (nodeWithin cfg levels)) (nodeWithin cfg levels') := by
  induction levels generalizing levels' with
  | zero => exact fun schema scope => too_deep_agrees_since cfg (scope.sunk k) _
  | succ levels ih =>
    obtain ⟨more, rfl⟩ : ∃ more, levels' = more + 1 := ⟨levels' - 1, by omega⟩
    intro schema scope
    rw [sunk, nodeWithin, nodeWithin]
    dsimp only
    by_cases hdepth : cfg.options.maxDepth < (scope.sunk k).depth
    · rw [if_pos hdepth]
      exact too_deep_agrees_since cfg (scope.sunk k) _
    · have shallower : ¬cfg.options.maxDepth < scope.depth := by
        have : (scope.sunk k).depth = k + scope.depth := rfl
        omega
      rw [if_neg hdepth, if_neg shallower, step_sunk]
      exact step_agrees_since (ih (by omega)) schema scope

/-- A node for which nothing is given up has the same type at a shallower scope, and the conversion
changes the state in the same way. -/
theorem node_sunk_yields {schema : Json} {scope : Scope} {names names' : List String} {s s' : State}
    {t : Option AvroType} (h : (node cfg schema (scope.sunk k)).Yields names s t names' s')
    (hshallow : ShallowSince s s') : (node cfg schema scope).Yields names s t names' s' := by
  have run : ((sunk k (node cfg) schema scope).run names).run.run s = (.ok (t, names'), s') := h
  have agrees : AgreesSince ((sunk k (node cfg) schema scope).run names)
      ((node cfg schema scope).run names) := node_within_sunk k le_rfl schema scope names
  have same := agrees.same s
  rw [run] at same
  exact same hshallow

end Levels

end Convert

end AvroDerive
