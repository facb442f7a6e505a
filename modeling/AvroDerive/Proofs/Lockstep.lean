import AvroDerive.Proofs.NeutralRun
import AvroDerive.Proofs.NodeSpot

/-! # Converting in lockstep

Two conversions of a node, or one conversion twice, are compared by the conversions of the nodes inside.
A comparison that is kept by the few operations which a conversion is made of holds of the conversions
of the node, if it holds wherever these convert another node. It may speak of the records that are under
construction in either of them. -/
namespace AvroDerive.Convert

open AvroType Json Schema

/-- The record that is under construction while the fields of an object schema are converted. -/
def recordFrame? (name ns : String) (o : Object) : Option Frame :=
  if hasComposition (unconditional o) then none else some ⟨Name.ofText name, ns⟩

/-- The record that is under construction while what the keywords of a schema hold is converted. -/
def keywordFrame? (scope : Scope) (o : Object) : Option Frame :=
  match Object.get? o "const", Object.get? o "type" with
  | none, some (.str type) =>
    if type = "object" then recordFrame? scope.localName scope.typeNs o else none
  | _, _ => none

def Keyword.frame? (scope : Scope) (o : Object) : Keyword → Option Frame
  | .object => recordFrame? scope.localName scope.typeNs o
  | _ => none

theorem Says.frame_eq {o : Object} {k : Keyword} {scope : Scope} (h : Says o k) :
    keywordFrame? scope o = k.frame? scope o := by
  unfold keywordFrame?
  cases h with
  | constant const => simp only [const, Keyword.frame?]
  | listed const type => simp only [const, type, Keyword.frame?]
  | array const type =>
    simp only [const, type, Keyword.frame?, if_neg (show "array" ≠ "object" by decide)]
  | object const type => simp only [const, type, Keyword.frame?, if_true]
  | @named value const type list array object =>
    simp only [const, type, Keyword.frame?]
    cases value with
    | str name =>
      dsimp only
      rw [if_neg (by simpa using object)]
    | _ => rfl
  | items const type | texts const type | format const type | silent const type =>
    simp only [const, type, Keyword.frame?]

/-- The record that is under construction while the nodes inside a node are converted. -/
def Spot.frame? (p : Spot) : Option Frame :=
  match p.schema with
  | .obj o => if isOwn o then keywordFrame? p.scope (plainObject o) else none
  | _ => none

/-- The records around the nodes inside a node. -/
def Frames.inside (frame : Option Frame) (frames : Frames) : Frames := frame.toList ++ frames

/-- A comparison of two computations, begun with the given records under construction, that the
operations of a conversion keep. -/
structure Lockstep (cfg : Setting) where
  same : Frames → Frames → ∀ {α : Type}, Run α → Run α → Prop
  /-- References that the comparison can bear to be looked up at a scope. -/
  looks : String → Scope → Prop
  /-- Where a reference may lead to. -/
  leads : String → Scope → Located → Prop
  neutral : ∀ {fs gs : Frames} {α : Type} {x : Run α}, x.Neutral → same fs gs x x
  bind : ∀ {fs gs : Frames} {α β : Type} {x y : Run α} {f g : α → Run β}, same fs gs x y →
    (∀ a, same fs gs (f a) (g a)) → same fs gs (x >>= f) (y >>= g)
  within : ∀ {fs gs : Frames} {α : Type} {x y : Run α} (f : Frame),
    same (f :: fs) (f :: gs) x y → same fs gs (Run.within f x) (Run.within f y)
  find : ∀ {fs gs : Frames} {β : Type} {f g : State → Run β} (name : String),
    Frames.find? fs name = Frames.find? gs name →
    (∀ s t, Frames.find? s.frames name = Frames.find? t.frames name → same fs gs (f s) (g t)) →
    same fs gs (get >>= f) (get >>= g)
  locate : ∀ {fs gs : Frames} {β : Type} {reference : String} {scope : Scope}
    {f g : Located → Run β}, looks reference scope →
    (∀ located, leads reference scope located → same fs gs (f located) (g located)) →
    same fs gs (Convert.locate cfg reference scope >>= f) (Convert.locate cfg reference scope >>= g)

namespace Lockstep

variable {cfg : Setting} (L : Lockstep cfg)

/-- The comparison of computations that gather names, whatever was gathered before. -/
def builds (fs gs : Frames) {α : Type} (x y : Build α) : Prop :=
  ∀ names, L.same fs gs (x.run names) (y.run names)

/-- The comparison holds of the conversions of a node. -/
def nodes (fs gs : Frames) (node node' : NodeConverter) (p : Spot) : Prop :=
  L.builds fs gs (node p.schema p.scope) (node' p.schema p.scope)

section Rules

variable {L} {fs gs : Frames} {α β : Type}

theorem pure (a : α) : L.same fs gs (Pure.pure a) (Pure.pure a) := L.neutral (.pure a)

theorem builds_neutral {x : Build α} (h : x.Neutral) : L.builds fs gs x x :=
  fun names => L.neutral (h names)

theorem builds_pure (a : α) : L.builds fs gs (Pure.pure a) (Pure.pure a) := builds_neutral (.pure a)

theorem builds_bind {x y : Build α} {f g : α → Build β} (h : L.builds fs gs x y)
    (hf : ∀ a, L.builds fs gs (f a) (g a)) : L.builds fs gs (x >>= f) (y >>= g) := by
  intro names
  rw [StateT.run_bind, StateT.run_bind]
  exact L.bind (h names) fun r => hf r.1 r.2

theorem builds_lift {x y : Run α} (h : L.same fs gs x y) :
    L.builds fs gs (liftM x : Build α) (liftM y) :=
  fun names => L.bind (f := fun a => Pure.pure (a, names)) (g := fun a => Pure.pure (a, names)) h
    fun _ => pure _

/-- Where a reference leads to is found by both computations. -/
theorem builds_locate {reference : String} {scope : Scope} {f g : Located → Build β}
    (h : L.looks reference scope) (hf : ∀ located, L.leads reference scope located →
      L.builds fs gs (f located) (g located)) :
    L.builds fs gs (liftM (Convert.locate cfg reference scope) >>= f)
      (liftM (Convert.locate cfg reference scope) >>= g) := by
  intro names
  rw [run_lift_bind, run_lift_bind]
  exact L.locate h fun located hl => hf located hl names

theorem apart {x y : Build α} (h : L.builds fs gs x y) :
    L.same fs gs (Build.apart x) (Build.apart y) :=
  h []

end Rules

section Record

variable {L} {node node' : NodeConverter} {fs gs : Frames} {scope : Scope} {o : Object}

theorem property_fields (required : List String) {properties : List (String × Json)}
    (h : ∀ m ∈ properties, L.nodes fs gs node node' ⟨m.2, scope.forField m.1⟩) :
    L.builds fs gs (propertyFields node required scope properties)
      (propertyFields node' required scope properties) := by
  induction properties with
  | nil => exact builds_pure []
  | cons m properties ih =>
    obtain ⟨name, schema⟩ := m
    rw [List.forall_mem_cons] at h
    have rest := ih h.2
    cases schema with
    | obj o =>
      rw [propertyFields, propertyFields]
      refine builds_bind h.1 fun t => ?_
      exact builds_bind rest fun fields => builds_pure _
    | bool b =>
      rw [propertyFields, propertyFields]
      refine builds_bind h.1 fun t => ?_
      exact builds_bind rest fun fields => builds_pure _
    | _ => exact rest

theorem additional_field (name : String)
    (h : ∀ schema ∈ (Object.get? o "additionalProperties").toList,
      L.nodes fs gs node node' ⟨schema, scope.forField (scope.record ++ "_extensions")⟩) :
    L.builds fs gs (additionalField node name scope o) (additionalField node' name scope o) := by
  unfold additionalField
  split
  · next schema hadditional =>
    exact builds_bind (h _ (by simp [hadditional])) fun t => builds_pure _
  · exact builds_pure []

theorem pattern_fields {patterns : List (String × Json)}
    (h : ∀ m ∈ patterns, L.nodes fs gs node node' ⟨m.2, scope.forField (patternName m.1)⟩) :
    L.builds fs gs (patternFields node scope patterns) (patternFields node' scope patterns) := by
  induction patterns with
  | nil => exact builds_pure []
  | cons m patterns ih =>
    rw [List.forall_mem_cons] at h
    rw [patternFields, patternFields]
    refine builds_bind h.1 fun t => ?_
    exact builds_bind (ih h.2) fun fields => builds_pure _

theorem values_field (h : ∀ items ∈ (Object.get? o "items").toList,
      L.nodes fs gs node node' ⟨items, scope.forField "values"⟩) :
    L.builds fs gs (valuesField node scope o) (valuesField node' scope o) := by
  unfold valuesField
  split
  · exact builds_pure _
  · split
    · split
      · next items hitems => exact builds_bind (h _ (by simp [hitems])) fun t => builds_pure _
      · exact builds_pure _
    · exact builds_pure _

theorem record_fields (h : ∀ q ∈ fieldSpots scope o, L.nodes fs gs node node' q) :
    L.builds fs gs (recordFields node scope o) (recordFields node' scope o) := by
  simp only [fieldSpots, List.forall_mem_append, List.forall_mem_map] at h
  obtain ⟨⟨⟨hproperties, hadditional⟩, hpatterns⟩, hitems⟩ := h
  unfold recordFields
  split
  · next property properties hget =>
    rw [hget, Option.getD_some] at hproperties
    refine builds_bind (property_fields _ hproperties) fun fields => ?_
    refine builds_bind (additional_field _ hadditional) fun additional => ?_
    exact builds_bind (pattern_fields hpatterns) fun patterns => builds_pure _
  · refine builds_bind (additional_field _ hadditional) fun additional => ?_
    refine builds_bind (pattern_fields hpatterns) fun patterns => ?_
    dsimp only
    split
    · exact values_field hitems
    · exact builds_pure _

theorem build_record {name ns : String}
    (h : ∀ q ∈ fieldSpots (scope.forRecord name ns) o, L.nodes fs gs node node' q) :
    L.same fs gs (buildRecord node name ns o scope) (buildRecord node' name ns o scope) := by
  unfold buildRecord
  refine L.bind (apart (record_fields h)) fun r => ?_
  dsimp only
  split
  · exact pure _
  · exact pure _

theorem composition_record {name ns : String}
    (h : L.nodes fs gs node node' ⟨.obj o, (scope.forRecord name ns).forField "value"⟩) :
    L.same fs gs (compositionRecord node name ns o scope)
      (compositionRecord node' name ns o scope) := by
  unfold compositionRecord
  exact L.bind (apart h) fun r => pure _

theorem without_conditionals {α : Type} {f g : Object → Run α}
    (h : L.same fs gs (f (unconditional o)) (g (unconditional o))) :
    L.same fs gs (withoutConditionals o >>= f) (withoutConditionals o >>= g) := by
  rw [without_conditionals_eq, bind_assoc, bind_assoc]
  refine L.bind (L.neutral (Run.neutral_warn_all _)) fun _ => ?_
  rw [pure_bind, pure_bind]
  exact h

theorem builds_without_conditionals {α : Type} {f g : Object → Build α}
    (h : L.builds fs gs (f (unconditional o)) (g (unconditional o))) :
    L.builds fs gs (liftM (withoutConditionals o) >>= f) (liftM (withoutConditionals o) >>= g) := by
  intro names
  rw [run_lift_bind, run_lift_bind]
  exact without_conditionals (h names)

/-- Both conversions find the same record of the name under construction, or none. -/
theorem object_record {name ns : String}
    (hfind : ∀ frame ∈ recordFrame? name ns o,
      Frames.find? fs frame.name = Frames.find? gs frame.name)
    (h : ∀ q ∈ recordSpots scope name ns o, L.nodes (Frames.inside (recordFrame? name ns o) fs)
      (Frames.inside (recordFrame? name ns o) gs) node node' q) :
    L.same fs gs (objectRecord node name ns o scope) (objectRecord node' name ns o scope) := by
  unfold recordSpots at h
  unfold recordFrame? at hfind h
  unfold objectRecord
  refine without_conditionals ?_
  split
  · next hc =>
    rw [if_pos hc, if_pos hc, List.forall_mem_singleton] at h
    exact L.bind (composition_record h) fun t => pure _
  · next hc =>
    rw [if_neg hc, if_neg hc] at h
    rw [if_neg hc] at hfind
    refine L.find (Name.ofText name) (hfind _ rfl) fun s t found => ?_
    rw [found]
    split
    · exact pure _
    · exact L.within _ (build_record h)

end Record

end Lockstep

end AvroDerive.Convert
