import AvroDerive.Proofs.InnerSpot
import AvroDerive.Proofs.LockstepCall

/-! # Conversions come to an end

References may lead round in circles, and composition makes schemas that are larger than those it is made
of. But every node that the conversion of a node calls for is deeper, and beyond the depth limit none is
called for. So there is one converter that unrolls into steps, and a conversion asks it for no node more
than two levels beyond the limit. -/
namespace AvroDerive.Convert

open AvroType Json Schema

section Descent

variable (cfg : Setting)

/-- The conversion of the first node may call for that of the second one. -/
inductive Descends : Spot → Spot → Prop
  | inner {p q} : p.scope.depth ≤ cfg.options.maxDepth → q ∈ p.inner → Descends p q
  | target {p reference} (located : Located) : p.scope.depth ≤ cfg.options.maxDepth →
    p.reference? = some reference → Descends p (p.target cfg reference located)

/-- What the converter gives for a node comes of a step, unless the node is too deep. -/
def Unrolls (f : NodeConverter) (p : Spot) : Prop :=
  f p.schema p.scope = if cfg.options.maxDepth < p.scope.depth then tooDeep cfg p.scope
    else step cfg f p.schema p.scope

end Descent

section Depth

variable {cfg : Setting} {p q : Spot}

theorem target_deeper {reference : String} (located : Located) (h : p.reference? = some reference) :
    (p.target cfg reference located).scope.depth = p.scope.depth + 1 := by
  obtain ⟨schema, scope⟩ := p
  cases schema with
  | obj o =>
    simp only [Spot.target, referenceSpot]
    split <;> rfl
  | _ => simp [Spot.reference?] at h

theorem Descends.within (h : Descends cfg p q) : p.scope.depth ≤ cfg.options.maxDepth := by
  cases h with
  | inner hdepth => exact hdepth
  | target _ hdepth => exact hdepth

theorem Descends.deeper (h : Descends cfg p q) :
    p.scope.depth < q.scope.depth ∧ q.scope.depth ≤ p.scope.depth + 2 := by
  cases h with
  | inner _ hq => exact ⟨(inner_below hq).deeper, (inner_below hq).near⟩
  | target located _ hr =>
    rw [target_deeper located hr]
    omega

theorem descends_well_founded (cfg : Setting) : WellFounded fun q p => Descends cfg p q := by
  refine Subrelation.wf ?_ (measure fun p : Spot => cfg.options.maxDepth + 1 - p.scope.depth).wf
  intro q p h
  have within := h.within
  have deeper := h.deeper.1
  show cfg.options.maxDepth + 1 - q.scope.depth < cfg.options.maxDepth + 1 - p.scope.depth
  omega

end Depth

namespace Lockstep

variable {cfg : Setting}

/-- Nodes, and records under construction around them in two conversions, that are met together. -/
structure Closed (L : Lockstep cfg) (meets : Frames → Frames → Spot → Prop) : Prop where
  inner : ∀ {fs gs p}, meets fs gs p → p.scope.depth ≤ cfg.options.maxDepth →
    ∀ q ∈ p.inner, meets (Frames.inside p.frame? fs) (Frames.inside p.frame? gs) q
  target : ∀ {fs gs p reference}, meets fs gs p → p.scope.depth ≤ cfg.options.maxDepth →
    p.reference? = some reference → L.looks reference p.scope ∧
      ∀ located, L.leads reference p.scope located → meets fs gs (p.target cfg reference located)
  find : ∀ {fs gs p}, meets fs gs p → p.scope.depth ≤ cfg.options.maxDepth →
    ∀ frame ∈ p.frame?, Frames.find? fs frame.name = Frames.find? gs frame.name

/-- A comparison holds of two converters wherever they are met, if it passes from their steps to them. -/
theorem Closed.nodes {L : Lockstep cfg} {meets : Frames → Frames → Spot → Prop} (h : L.Closed meets)
    {f g : NodeConverter} (unroll : ∀ p, (p.scope.depth ≤ cfg.options.maxDepth → ∀ fs gs,
      meets fs gs p → L.nodes fs gs (Convert.step cfg f) (Convert.step cfg g) p) →
      ∀ fs gs, meets fs gs p → L.nodes fs gs f g p) (p : Spot) :
    ∀ fs gs, meets fs gs p → L.nodes fs gs f g p := by
  induction p using (descends_well_founded cfg).induction with
  | _ p ih =>
    refine unroll p fun hdepth fs gs hp => ?_
    refine Lockstep.step (h.find hp hdepth) (fun q hq => ?_) fun reference hr => ?_
    · exact ih q (.inner hdepth hq) _ _ (h.inner hp hdepth q hq)
    · obtain ⟨hlooks, htarget⟩ := h.target hp hdepth hr
      exact ⟨hlooks, fun located hl => ih _ (.target located hdepth hr) _ _ (htarget located hl)⟩

/-- The strictest comparison. -/
def equality (cfg : Setting) : Lockstep cfg where
  same _ _ _ x y := x = y
  looks _ _ := True
  leads _ _ _ := True
  neutral _ := rfl
  bind hx hf := by rw [hx, funext hf]
  within _ h := by rw [h]
  find _ _ h := by rw [funext fun s => h s s rfl]
  locate _ h := by rw [funext fun located => h located trivial]

end Lockstep

section Unrolling

variable {cfg : Setting}

/-- A step asks the converter for the nodes only that the conversion of its node calls for. -/
theorem step_congr {f g : NodeConverter} {p : Spot} (hdepth : p.scope.depth ≤ cfg.options.maxDepth)
    (h : ∀ q, Descends cfg p q → f q.schema q.scope = g q.schema q.scope) :
    step cfg f p.schema p.scope = step cfg g p.schema p.scope := by
  have same : ∀ q, Descends cfg p q → (Lockstep.equality cfg).nodes [] [] f g q :=
    fun q hq names => congrArg (StateT.run · names) (h q hq)
  have steps : (Lockstep.equality cfg).nodes [] [] (step cfg f) (step cfg g) p :=
    Lockstep.step (fun _ _ => rfl) (fun q hq => same q (.inner hdepth hq)) fun reference hr =>
      ⟨trivial, fun located _ => same _ (.target located hdepth hr)⟩
  exact funext steps

theorem node_within_succ (levels : Nat) (p : Spot) :
    nodeWithin cfg (levels + 1) p.schema p.scope = if cfg.options.maxDepth < p.scope.depth
      then tooDeep cfg p.scope else step cfg (nodeWithin cfg levels) p.schema p.scope :=
  rfl

theorem node_within_deep {p : Spot} (h : cfg.options.maxDepth < p.scope.depth) (levels : Nat) :
    nodeWithin cfg levels p.schema p.scope = tooDeep cfg p.scope := by
  cases levels with
  | zero => rfl
  | succ levels => rw [node_within_succ, if_pos h]

/-- Where as many levels are left as there are up to the limit, more make no difference. -/
theorem enough_levels {levels levels' : Nat} {p : Spot}
    (h : cfg.options.maxDepth < p.scope.depth + levels)
    (h' : cfg.options.maxDepth < p.scope.depth + levels') :
    nodeWithin cfg levels p.schema p.scope = nodeWithin cfg levels' p.schema p.scope := by
  induction levels generalizing levels' p with
  | zero => rw [node_within_deep h, node_within_deep h]
  | succ levels ih =>
    cases levels' with
    | zero => rw [node_within_deep h', node_within_deep h']
    | succ levels' =>
      rw [node_within_succ, node_within_succ]
      split
      · rfl
      · next hdepth =>
        refine step_congr (Nat.le_of_not_lt hdepth) fun q hq => ?_
        have deeper := hq.deeper.1
        exact ih (by omega) (by omega)

/-- The levels never run out: the converter is tied together as a recursion without them would be. -/
theorem node_unrolls (p : Spot) : Unrolls cfg (node cfg) p := by
  unfold Unrolls
  rw [node, node_within_succ]
  split
  · rfl
  · next hdepth =>
    refine step_congr (Nat.le_of_not_lt hdepth) fun q hq => ?_
    have deeper := hq.deeper.1
    exact enough_levels (by omega) (by omega)

/-- Within the limit a node is converted by a step, with the converter itself for the nodes inside. -/
theorem node_eq_step {schema : Json} {scope : Scope} (hdepth : scope.depth ≤ cfg.options.maxDepth) :
    node cfg schema scope = step cfg (node cfg) schema scope := by
  have unrolls : Unrolls cfg (node cfg) ⟨schema, scope⟩ := node_unrolls _
  unfold Unrolls at unrolls
  rw [unrolls, if_neg (Nat.not_lt.mpr hdepth)]

/-- A comparison of two converters that unroll passes from their steps to them, if a node that is too
deep compares with itself. -/
theorem Lockstep.unrolled {L : Lockstep cfg} {f g : NodeConverter} {p : Spot} {fs gs : Frames}
    (hf : Unrolls cfg f p) (hg : Unrolls cfg g p)
    (h : p.scope.depth ≤ cfg.options.maxDepth →
      L.nodes fs gs (Convert.step cfg f) (Convert.step cfg g) p) : L.nodes fs gs f g p := by
  unfold Unrolls at hf hg
  unfold Lockstep.nodes
  rw [hf, hg]
  split
  · exact Lockstep.builds_neutral (.bind (.lift (Run.neutral_warn _)) fun _ => .pure _)
  · next hdepth => exact h (Nat.le_of_not_lt hdepth)

/-- A comparison holds of the converter and of any other that unrolls, at nodes which lead to no others
than such, with the same records under construction around both. -/
theorem Lockstep.replaced {L : Lockstep cfg} {f : NodeConverter} {visits : Spot → Prop}
    (inner : ∀ {p q}, visits p → p.scope.depth ≤ cfg.options.maxDepth → q ∈ p.inner → visits q)
    (target : ∀ {p reference}, visits p → p.scope.depth ≤ cfg.options.maxDepth →
      p.reference? = some reference → L.looks reference p.scope ∧
        ∀ located, L.leads reference p.scope located → visits (p.target cfg reference located))
    (hf : ∀ p, visits p → Unrolls cfg f p) (fs : Frames) {p : Spot} (hp : visits p) :
    L.nodes fs fs (node cfg) f p := by
  have closed : L.Closed fun fs gs p => fs = gs ∧ visits p :=
    { inner := fun hp hdepth _ hq => ⟨by rw [hp.1], inner hp.2 hdepth hq⟩
      target := fun hp hdepth hr =>
        (target hp.2 hdepth hr).imp_right fun h located hl => ⟨hp.1, h located hl⟩
      find := fun hp _ _ _ => by rw [hp.1] }
  refine closed.nodes (fun p h fs gs hmeets => ?_) p fs fs ⟨rfl, hp⟩
  exact Lockstep.unrolled (node_unrolls p) (hf p hmeets.2) fun hdepth => h hdepth fs gs hmeets

/-- The nodes inside the schema of a turn are at most two levels deep. -/
theorem turn_inner_shallow {call : Call} {t : Turn} {q : Spot} (hq : q ∈ t.inner cfg call) :
    q.scope.depth ≤ 2 := by
  unfold Turn.inner at hq
  split at hq
  · exact (record_spots_below _ _ hq).near
  · simp at hq

/-- A conversion by any converter that unrolls up to two levels beyond the limit is the same. -/
theorem convert_with_unrolled {f : NodeConverter}
    (hf : ∀ p, p.scope.depth ≤ cfg.options.maxDepth + 2 → Unrolls cfg f p) (j : Json)
    (location : String) : convertWith cfg f j location = convert cfg j location := by
  have same : ∀ fs p, p.scope.depth ≤ cfg.options.maxDepth + 2 →
      (Lockstep.equality cfg).nodes fs fs (node cfg) f p := by
    intro fs p hp
    refine Lockstep.replaced (fun _ hdepth hq => ?_) (fun _ hdepth hr => ⟨trivial, fun located _ => ?_⟩)
      hf fs hp
    · have deeper := (Descends.inner hdepth hq).deeper
      omega
    · have deeper := (Descends.target located hdepth hr).deeper
      omega
  rw [← convert_with_node]
  refine convert_with_congr (Lockstep.equality cfg) (fun h => by rw [h]) fun call _ t _ => ?_
  refine Lockstep.turn (fun _ => same [] _ (Nat.zero_le _)) fun _ q hq => same _ q ?_
  have shallow := turn_inner_shallow hq
  omega

/-- The converter, with another one in its place more than two levels beyond the limit. -/
def replacedBeyond (cfg : Setting) (other : NodeConverter) : NodeConverter := fun schema scope =>
  if cfg.options.maxDepth + 2 < scope.depth then other schema scope else node cfg schema scope

theorem replaced_unrolls (other : NodeConverter) {p : Spot}
    (hp : p.scope.depth ≤ cfg.options.maxDepth + 2) : Unrolls cfg (replacedBeyond cfg other) p := by
  have shallow : ∀ q : Spot, q.scope.depth ≤ cfg.options.maxDepth + 2 →
      replacedBeyond cfg other q.schema q.scope = node cfg q.schema q.scope :=
    fun q hq => if_neg (Nat.not_lt_of_le hq)
  unfold Unrolls
  rw [shallow p hp, node_unrolls p]
  split
  · rfl
  · next hdepth =>
    refine step_congr (Nat.le_of_not_lt hdepth) fun q hq => (shallow q ?_).symm
    have within := hq.within
    have deeper := hq.deeper
    omega

end Unrolling

section Success

variable {cfg : Setting}

/-- With these records under construction, the computation succeeds and leaves them so. -/
def Succeeds (frames : Frames) {α : Type} (x : Run α) : Prop :=
  ∀ s, s.frames = frames → ∃ a t, x.Yields s a t ∧ t.frames = frames

/-- The reference leads somewhere in the document. -/
def LeadsInside (d : Json) (reference : String) : Prop :=
  (localFragment? d reference).isSome = true

instance (d : Json) (reference : String) : Decidable (LeadsInside d reference) :=
  inferInstanceAs (Decidable (_ = true))

/-- Everything succeeds but the look-up of a reference that leads nowhere in its document. -/
def success (cfg : Setting) : Lockstep cfg where
  same frames _ _ x _ := Succeeds frames x
  looks reference scope := LeadsInside scope.document reference
  leads reference scope located := located.document = scope.document ∧
    LeadsTo cfg reference scope located
  neutral h s hs := by
    obtain ⟨a, t, ht⟩ := h s
    exact ⟨a, t, ht.yields, ht.grows.frames.trans hs⟩
  bind hx hf s hs := by
    obtain ⟨a, t, hy, ht⟩ := hx s hs
    obtain ⟨b, u, hy', hu⟩ := hf a t ht
    exact ⟨b, u, Run.yields_bind.mpr ⟨a, t, hy, hy'⟩, hu⟩
  within f h s hs := by
    obtain ⟨a, t, hy, ht⟩ := h { s with frames := f :: s.frames } (congrArg _ hs)
    exact ⟨a, _, Run.yields_within.mpr ⟨t, hy, rfl⟩, congrArg List.tail ht⟩
  find _ _ h s hs := by
    obtain ⟨a, t, hy, ht⟩ := h s s rfl s hs
    exact ⟨a, t, Run.yields_bind.mpr ⟨s, s, Run.yields_get.mpr ⟨rfl, rfl⟩, hy⟩, ht⟩
  locate h hf s hs := by
    obtain ⟨fragment, hfragment⟩ := Option.isSome_iff_exists.mp h
    obtain ⟨a, t, hy, ht⟩ := hf _ ⟨rfl, .inside hfragment⟩ s hs
    exact ⟨a, t, Run.yields_bind.mpr ⟨_, s, locate_inside cfg hfragment s, hy⟩, ht⟩

/-- A node all of whose references lead somewhere in its document, as all of the document's do. -/
structure Complete (p : Spot) : Prop where
  document : RefersIn (LeadsInside p.scope.document) p.scope.document
  schema : RefersIn (LeadsInside p.scope.document) p.schema

theorem Complete.of_nested {outer : Scope} {q : Spot}
    (hd : RefersIn (LeadsInside outer.document) outer.document)
    (hq : Nested (LeadsInside outer.document) outer q) : Complete q := by
  obtain ⟨below, hschema⟩ := hq
  constructor
  · rw [below.document]
    exact hd
  · rw [below.document]
    exact hschema

theorem Complete.target {p : Spot} {reference : String} {located : Located} (hp : Complete p)
    (hr : p.reference? = some reference) (hl : located.document = p.scope.document)
    (hleads : LeadsTo cfg reference p.scope located) : Complete (p.target cfg reference located) := by
  have stands : (p.target cfg reference located).scope.document = p.scope.document :=
    (target_document hr).trans hl
  constructor
  · rw [stands]
    exact hp.document
  · rw [stands]
    refine target_refers hr (fun r h => ?_) fun siblings hs => siblings_refer hp.schema hs
    have written := hleads.refers r h
    rw [hl] at written
    exact hp.document r written

/-- Where all references lead somewhere, no node fails. -/
theorem Complete.succeeds {p : Spot} (hp : Complete p) (fs : Frames) :
    (success cfg).nodes fs fs (node cfg) (node cfg) p := by
  refine Lockstep.replaced (fun hp _ hq => ?_) (fun hp _ hr => ?_) (fun p _ => node_unrolls p) fs hp
  · exact .of_nested hp.document (inner_nested hp.document hp.schema _ hq)
  · exact ⟨reference_refers hp.schema hr, fun located hl => hp.target hr hl.1 hl.2⟩

theorem turn_succeeds {call : Call} (hd : RefersIn (LeadsInside call.subject) call.subject)
    {t : Turn} (ht : RefersIn (LeadsInside call.subject) t.schema) :
    Succeeds [] (takeTurnWith cfg (node cfg) call.subject call.baseUri t) := by
  have complete : Complete (t.spot cfg call) := ⟨hd, ht⟩
  refine Lockstep.turn (L := success cfg) (fun _ => complete.succeeds []) fun _ q hq => ?_
  unfold Turn.inner at hq
  split at hq
  · next o ho =>
    have stands : (t.spot cfg call).scope.document = call.subject := rfl
    rw [ho] at ht
    rw [← stands] at hd ht
    exact (Complete.of_nested hd (record_spots_nested _ _ (refers_in_obj.mp ht) q hq)).succeeds _
  · simp at hq

theorem turns_succeed {d : Json} (hd : RefersIn (LeadsInside d) d) (baseUri : String) {ts : List Turn}
    (hts : ∀ t ∈ ts, RefersIn (LeadsInside d) t.schema) : Succeeds [] (takeTurns cfg d baseUri ts) := by
  have subject : (Call.document d baseUri).subject = d := rfl
  rw [← turns_with_node]
  refine Lockstep.turns (L := success cfg) (f := node cfg) (g := node cfg) d baseUri fun t ht => ?_
  rw [← subject] at hd
  exact turn_succeeds hd (hts t ht)

theorem turns_grow (cfg : Setting) (d : Json) (baseUri : String) (ts : List Turn) {s : State}
    (hs : Orderly s) (htop : s.frames = []) :
    StaysOrderly (takeTurns cfg d baseUri ts) s fun _ _ => True := by
  induction ts generalizing s with
  | nil => exact .pure hs trivial
  | cons t ts ih =>
    exact .then htop (definition_orderly _ _ _ _ _ hs htop) fun s' hs' htop' => ih hs' htop'

/-- The first schema has its turn, and what it lists is registered until the end. -/
theorem first_stays_registered {d : Json} {baseUri : String} {t : Turn} {ts : List Turn} {o : Object}
    {s : State} (ht : t.schema = .obj o) (ho : ListsProperties o)
    (hy : (takeTurns cfg d baseUri (t :: ts)).Yields {} () s) :
    fullOf (t.typeName cfg) ∈ definedNames s.registry := by
  obtain ⟨n, s₁, hfirst, hrest⟩ := Run.yields_bind.mp hy
  have first : (definition cfg d baseUri t.name t.schema t.pointer).run.run {} = (.ok n, s₁) := hfirst
  have rest : (takeTurns cfg d baseUri ts).run.run s₁ = (.ok (), s) := hrest
  have orderly : StaysOrderly (definition cfg d baseUri t.name t.schema t.pointer) {} fun _ _ => True :=
    definition_orderly _ _ _ _ _ orderly_start rfl
  rw [StaysOrderly, first] at orderly
  have grows := (turns_grow cfg d baseUri ts orderly.1 orderly.2.1.frames).2.1
  rw [rest] at grows
  refine grows.defined ?_
  rcases definition_yields hfirst with ⟨-, -, key, name, -, himported⟩ | ⟨r, names, s₂, htype, hkeeps⟩
  · simp [Imports.get?] at himported
  · rw [ht] at htype
    obtain ⟨u, hu, r', rfl, -⟩ := definition_type_describes ho rfl htype
    subst hu
    cases hkeeps with
    | registered hu => exact register_defined _ (kept_qualified hu)

/-- Where all references lead somewhere, a document whose first schema lists properties is converted. -/
theorem conversion_succeeds {j : Json} {location : String} {uri : List Char} {o : Object} {t : Turn}
    {ts : List Turn} (hlocation : addressed cfg location = (uri, none))
    (hturns : documentTurns cfg (String.ofList uri) j = .ok (t :: ts)) (ht : t.schema = .obj o)
    (ho : ListsProperties o) (hj : RefersIn (LeadsInside j) j) :
    (convert cfg j location).1.isOk = true := by
  have whole : output cfg j location = documentOutput cfg j (String.ofList uri) := by
    rw [← output_with_node, outputWith, hlocation]
    exact document_output_with_node cfg j _
  have hrefers := document_turns_inherit inherits_references hj hturns
  obtain ⟨⟨⟩, s, hy, -⟩ := turns_succeed hj (String.ofList uri) hrefers {} rfl
  have hdocument : (document cfg j (String.ofList uri)).Yields {} () s := by
    rw [show document cfg j (String.ofList uri) = _ from call_turns_taken cfg (.document j _)]
    simp only [Call.turns, hturns]
    exact hy
  have listed : s.registry.isEmpty = false := by
    have hmem := first_stays_registered ht ho hy
    cases hregistry : s.registry with
    | nil => simp [hregistry, definedNames] at hmem
    | cons _ _ => rfl
  obtain ⟨types, s', htypes⟩ := neutral_ordered_types.succeeds s
  have succeeds : (documentOutput cfg j (String.ofList uri)).Yields {} (.types (evict types)) s' := by
    refine Run.yields_bind.mpr ⟨(), s, hdocument, ?_⟩
    refine Run.yields_bind.mpr ⟨s, s, Run.yields_get.mpr ⟨rfl, rfl⟩, ?_⟩
    rw [listed, if_neg Bool.false_ne_true]
    exact Run.yields_bind.mpr ⟨types, s', htypes, Run.yields_pure.mpr ⟨rfl, rfl⟩⟩
  show ((output cfg j location).run.run {}).1.isOk = true
  rw [whole, show (documentOutput cfg j _).run.run {} = _ from succeeds]
  rfl

end Success

/-- The recursion of a conversion is well-founded. Each call goes deeper, and at most two levels beyond
the limit; a step asks for no other nodes. So one converter unrolls into steps, a conversion by any other
that does so is the same, and what a converter does further down has no part in it. -/
theorem conversion_terminates (cfg : Setting) :
    (WellFounded fun q p => Descends cfg p q) ∧
    (∀ p q, Descends cfg p q →
      p.scope.depth < q.scope.depth ∧ q.scope.depth ≤ cfg.options.maxDepth + 2) ∧
    (∀ f g p, p.scope.depth ≤ cfg.options.maxDepth →
      (∀ q, Descends cfg p q → f q.schema q.scope = g q.schema q.scope) →
      step cfg f p.schema p.scope = step cfg g p.schema p.scope) ∧
    (∀ p, Unrolls cfg (node cfg) p) ∧
    (∀ f, (∀ p, p.scope.depth ≤ cfg.options.maxDepth + 2 → Unrolls cfg f p) →
      ∀ j location, convertWith cfg f j location = convert cfg j location) ∧
    ∀ other j location,
      convertWith cfg (replacedBeyond cfg other) j location = convert cfg j location := by
  refine ⟨descends_well_founded cfg, fun p q h => ?_, fun f g p hdepth h => step_congr hdepth h,
    node_unrolls, fun f hf j location => convert_with_unrolled hf j location,
    fun other j location => convert_with_unrolled (fun p hp => replaced_unrolls other hp) j location⟩
  have within := h.within
  have deeper := h.deeper
  omega

/-- Definitions that refer to themselves, to each other, and to nothing but each other. -/
def circles : Json := .obj [("definitions", .obj [
  ("Loop", objectSchema [("next", definitionRef "Loop"), ("to", definitionRef "Back")]),
  ("Back", objectSchema [("to", definitionRef "Loop"), ("alias", definitionRef "Here")]),
  ("Here", definitionRef "There"), ("There", definitionRef "Here")])]

/-- Every reference in it leads to a definition. -/
theorem circles_lead_inside : RefersIn (LeadsInside circles) circles := by
  have written : circles.references = ["#/definitions/Loop", "#/definitions/Back",
      "#/definitions/Loop", "#/definitions/Here", "#/definitions/There", "#/definitions/Here"] := rfl
  unfold RefersIn
  rw [written]
  decide +kernel

theorem circles_succeed : (convert offline circles "").1.isOk = true := by
  have whole : addressed offline "" = ([], none) := rfl
  refine conversion_succeeds whole rfl rfl ?_ circles_lead_inside
  constructor <;> decide

theorem circles_end : (convert offline circles "").1.isOk = true ∧
    ∀ e, convertWith offline (replacedBeyond offline fun _ _ _ => Run.fail e) circles "" =
      convert offline circles "" :=
  ⟨circles_succeed, fun e =>
    (conversion_terminates offline).2.2.2.2.2 (fun _ _ _ => Run.fail e) circles ""⟩

end AvroDerive.Convert
