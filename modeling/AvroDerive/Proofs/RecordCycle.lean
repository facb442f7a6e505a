import AvroDerive.Proofs.HomeDocument

/-! # Records around a record

A record that stands in for one under construction breaks a cycle. Which records are under construction
around a node can be read off the document. Unless one of them has the name that the node's own record
will have, no stand-in is made: the conversion goes as if no record were ever under construction. -/
namespace AvroDerive.Convert

open AvroType Json Schema

section Met

variable (cfg : Setting) (call : Call)

/-- The nodes that a call may lead to, each with the records under construction around it. -/
inductive Met : Frames → Spot → Prop
  | turn {t} : call.Takes cfg t → t.isRecord = false → Met [] (t.spot cfg call)
  | record {t q} : call.Takes cfg t → t.isRecord = true → q ∈ t.inner cfg call →
    Met (t.frame? cfg).toList q
  | inner {frames p q} : Met frames p → p.scope.depth ≤ cfg.options.maxDepth → q ∈ p.inner →
    Met (Frames.inside p.frame? frames) q
  | target {frames p reference located} : Met frames p → p.scope.depth ≤ cfg.options.maxDepth →
    p.reference? = some reference → LeadsTo cfg reference p.scope located →
    Met frames (p.target cfg reference located)

/-- A record of the name that the node's own will have is under construction around it. -/
def Recurs (frames : Frames) (p : Spot) : Prop :=
  ∃ frame ∈ p.frame?, (Frames.find? frames frame.name).isSome = true

/-- Runs a computation as if no record were under construction. -/
def Build.outside {α : Type} (x : Build α) : Build α := fun names s =>
  ((x names { s with frames := [] }).1,
    { (x names { s with frames := [] }).2 with frames := s.frames })

/-- Converts nodes as if no record were under construction around any of them. -/
def unframedWithin : Nat → NodeConverter
  | 0 => fun _ scope => tooDeep cfg scope
  | levels + 1 => fun j scope =>
    if cfg.options.maxDepth < scope.depth then tooDeep cfg scope
    else Build.outside (step cfg (unframedWithin levels) j scope)

def unframed : NodeConverter := unframedWithin cfg (cfg.options.maxDepth + 1)

end Met

section Unframed

variable {cfg : Setting} {call : Call} {frames : Frames} {p : Spot}

theorem Met.visited (h : Met cfg call frames p) : Visited cfg call p := by
  induction h with
  | turn ht _ => exact .turn ht
  | record ht _ hq => exact turn_inner_visited ht hq
  | inner _ _ hq ih => exact .inner ih hq
  | target _ _ hr hl ih => exact .target ih hr hl

theorem run_outside {α : Type} (x : Build α) (names : List String) (s : State) :
    ((Build.outside x).run names).run.run s =
      (((x.run names).run.run { s with frames := [] }).1,
        { ((x.run names).run.run { s with frames := [] }).2 with frames := s.frames }) :=
  rfl

/-- What coincides with a computation outside all records does so wherever it is run like that. -/
theorem coincide_outside {α : Type} {x y : Build α} {fs : Frames}
    (h : (coincidence cfg).builds fs [] x y) (gs : Frames) :
    (coincidence cfg).builds fs gs x (Build.outside y) := by
  intro names s hs hd
  obtain ⟨hframes, hstocked, hsame⟩ := h names s hs hd
  refine ⟨hframes, hstocked, ?_⟩
  have outside : ((y.run names).run.run { { s with frames := gs } with frames := [] }) = _ := hsame
  rw [run_outside, outside]

/-- Where no record of the node's name is around it, the node is converted as if there were none. -/
theorem unframed_within_coincides (levels : Nat)
    (h : ∀ frames p, Met cfg call frames p → p.scope.depth ≤ cfg.options.maxDepth → ¬Recurs frames p)
    (hp : Met cfg call frames p) (gs : Frames) :
    (coincidence cfg).nodes frames gs (nodeWithin cfg levels) (unframedWithin cfg levels) p := by
  have deep : (coincidence cfg).builds frames gs (tooDeep cfg p.scope) (tooDeep cfg p.scope) :=
    Lockstep.builds_neutral (.bind (.lift (Run.neutral_warn _)) fun _ => .pure _)
  induction levels generalizing frames p gs with
  | zero => exact deep
  | succ levels ih =>
    have deeper : ∀ {frames p} (_ : Met cfg call frames p) (gs : Frames), (coincidence cfg).nodes
        frames gs (nodeWithin cfg levels) (unframedWithin cfg levels) p :=
      fun hp gs => ih hp gs (Lockstep.builds_neutral (.bind (.lift (Run.neutral_warn _))
        fun _ => .pure _))
    unfold Lockstep.nodes
    rw [node_within_succ, unframedWithin]
    dsimp only
    split
    · exact deep
    · next hdepth =>
      have within := Nat.le_of_not_lt hdepth
      refine coincide_outside ?_ gs
      refine Lockstep.step (fun frame hframe => ?_) (fun q hq => deeper (.inner hp within hq) _)
        fun reference hr => ⟨trivial, fun located hl => deeper (.target hp within hr hl) _⟩
      cases found : Frames.find? frames frame.name with
      | none => rfl
      | some f => exact absurd ⟨frame, hframe, by rw [found]; rfl⟩ (h frames p hp within)

theorem convert_unframed {j : Json} {location : String}
    (hcall : conversionCall? cfg j location = some call)
    (h : ∀ frames p, Met cfg call frames p → p.scope.depth ≤ cfg.options.maxDepth →
      ¬Recurs frames p) : convertWith cfg (unframed cfg) j location = convert cfg j location := by
  rw [← convert_with_node]
  refine convert_with_congr (coincidence cfg) Coincide.run_new fun call' hcall' t ht => ?_
  obtain rfl := Option.some.inj (hcall.symm.trans hcall')
  exact Lockstep.turn (fun hr => unframed_within_coincides _ h (.turn ht hr) _)
    fun hr q hq => unframed_within_coincides _ h (.record ht hr hq) _

end Unframed

section Success

variable {cfg : Setting} {call : Call} {j : Json} {location : String} {p : Spot}

/-- Where a document refers to nothing, no node that the conversion may lead to does. -/
theorem visited_refers_nowhere (hcall : conversionCall? cfg j location = some call)
    (hj : j.references = []) (hp : Visited cfg call p) :
    p.scope.document.references = [] ∧ p.schema.references = [] := by
  have nowhere : ∀ {k : Json}, RefersIn (fun _ => False) k ↔ k.references = [] :=
    fun {k} => List.eq_nil_iff_forall_not_mem.symm
  obtain ⟨hsubject, hturns⟩ := conversion_turns_refer hcall (nowhere.mpr hj)
  induction hp with
  | turn ht =>
    refine ⟨?_, nowhere.mp (hturns _ ht)⟩
    show call.subject.references = []
    rw [hsubject, hj]
  | @record t o q ht ho hq =>
    have refers := hturns t ht
    rw [ho] at refers
    obtain ⟨below, hrefers⟩ := record_spots_nested _ _ (refers_in_obj.mp refers) q hq
    refine ⟨?_, nowhere.mp hrefers⟩
    rw [below.document]
    show call.subject.references = []
    rw [hsubject, hj]
  | inner _ hq ih =>
    obtain ⟨below, hrefers⟩ := inner_nested (nowhere.mpr ih.1) (nowhere.mpr ih.2) _ hq
    exact ⟨by rw [below.document]; exact ih.1, nowhere.mp hrefers⟩
  | target _ hr _ ih => exact (reference_refers (nowhere.mpr ih.2) hr).elim

/-- A document that refers to nothing is converted without a failure at any node. -/
theorem node_succeeds (hcall : conversionCall? cfg j location = some call) (hj : j.references = [])
    (hp : Visited cfg call p) (names : List String) (s : State) : ∃ t names' s',
      (node cfg p.schema p.scope).Yields names s t names' s' ∧ s'.frames = s.frames := by
  have nowhere := visited_refers_nowhere hcall hj hp
  have complete : Complete p := by constructor <;> simp [RefersIn, nowhere.1, nowhere.2]
  have succeeds : (success cfg).nodes s.frames s.frames (node cfg) (node cfg) p := complete.succeeds _
  obtain ⟨⟨t, names'⟩, s', hy, hs'⟩ := succeeds names s rfl
  exact ⟨t, names', s', hy, hs'⟩

end Success

section Namesake

variable {cfg : Setting} {call : Call} {j : Json} {location : String} {p : Spot} {o : Object}

/-- While the fields of an object schema are converted, the record of its own name is under
construction. -/
theorem frame_of_lists (ho : ListsProperties o) (hconst : Object.get? o "const" = none)
    (hp : p.schema = .obj o) : p.frame? = some ⟨Name.ofText p.scope.localName, p.scope.typeNs⟩ := by
  have hplain := ho.unconditional
  have hwith : ListsProperties (Spot.plainObject o) := hplain.with_object
  have hconst' : Object.get? (Spot.plainObject o) "const" = none := (const_of_node ho).trans hconst
  have htype : Object.get? (Spot.plainObject o) "type" = some (.str "object") := hplain.type
  have own : Spot.isOwn o = true := by simp [Spot.isOwn, hplain.plain, hwith.own]
  simp only [Spot.frame?, hp, own, if_true, keywordFrame?, hconst', htype, recordFrame?,
    hwith.unconditional.plain, Bool.false_eq_true, if_false]

/-- The type is the record of an object schema at its place, or a reference to a type of that name. -/
def IsRecordOf (p : Spot) (o : Object) (defined : List String) (t : AvroType) : Prop :=
  (∃ r, t = .record r ∧ qualify r.ns r.name = fullOf (Name.ofText p.scope.localName, p.scope.typeNs) ∧
      fieldNames (propertiesOf o) <+: r.fields.map Field.name) ∨
    t = .reference (fullOf (Name.ofText p.scope.localName, p.scope.typeNs)) ∧
      fullOf (Name.ofText p.scope.localName, p.scope.typeNs) ∈ defined

/-- A record of the name that a node's own would have makes it a cycle, and nothing else does. Where no
node is met inside such a record, the conversion is as if no record were ever under construction. And in
a document without references, every object schema that is met inside no such record is converted
without a failure, to a record with a field for each property. -/
theorem stand_ins_inside_namesakes (hcall : conversionCall? cfg j location = some call) :
    ((∀ frames p, Met cfg call frames p → p.scope.depth ≤ cfg.options.maxDepth →
      ¬Recurs frames p) → convertWith cfg (unframed cfg) j location = convert cfg j location) ∧
    (j.references = [] → ∀ frames p o, Met cfg call frames p →
      p.scope.depth ≤ cfg.options.maxDepth → p.schema = .obj o → ListsProperties o →
      Object.get? o "const" = none → ¬Recurs frames p → ∀ names s, s.frames = frames →
      ∃ t names' s', (node cfg p.schema p.scope).Yields names s (some t) names' s' ∧
        s'.frames = frames ∧ IsRecordOf p o (definedNames s'.registry) t) := by
  refine ⟨convert_unframed hcall, fun hj frames p o hmet hdepth hp ho hconst hclash names s hs => ?_⟩
  obtain ⟨t, names', s', hy, hframes⟩ := node_succeeds hcall hj hmet.visited names s
  have unrolled : Unrolls cfg (node cfg) p := node_unrolls p
  rw [Unrolls, if_neg (Nat.not_lt_of_le hdepth), hp] at unrolled
  have object : (objectNode cfg (node cfg) o p.scope).Yields names s t names' s' := by
    rw [hp, unrolled] at hy
    exact hy
  obtain ⟨r, n, hr, ht, hn⟩ := object_node_record ho hconst object
  have free : n = fullOf (Name.ofText p.scope.localName, p.scope.typeNs) ∧
      fieldNames (propertiesOf o) <+: r.fields.map Field.name := by
    refine hn.resolve_right fun hfound => hclash ⟨_, frame_of_lists ho hconst hp, ?_⟩
    rw [← hs]
    exact hfound.1
  obtain ⟨rfl, hfields⟩ := free
  rcases ht with rfl | ⟨rfl, hdefined⟩
  · exact ⟨_, names', s', hy, hframes.trans hs, Or.inl ⟨r, rfl, hr, hfields⟩⟩
  · exact ⟨_, names', s', hy, hframes.trans hs, Or.inr ⟨rfl, hdefined⟩⟩

end Namesake

/-- An object schema with one property, which is a text. -/
def oneText : Object :=
  [("type", .str "object"), ("properties", .obj [("x", .obj [("type", .str "string")])])]

/-- A record with a field that is a record of the given name. -/
def nesting (name : String) : Json := .obj [("definitions", .obj [
  ("A", objectSchema [(name, .obj oneText)])])]

/-- The call that converts the record with a record `b` inside. -/
def nestingCall : Call := .document (nesting "b") ""

def nestedSpot : Spot :=
  ⟨.obj oneText, ((Scope.root "A" "ns" (nesting "b") "").forRecord "A" "ns").forField "b"⟩

def textSpot : Spot :=
  ⟨.obj [("type", .str "string")], (nestedSpot.scope.forRecord "b" "ns.A_types").forField "x"⟩

theorem nesting_takes {t : Turn} (ht : nestingCall.Takes offline t) :
    t = ⟨"A", objectSchema [("b", .obj oneText)], some "/definitions/A"⟩ := by
  obtain ⟨ts, hts, hm⟩ := ht
  obtain rfl := Except.ok.inj hts
  exact List.mem_singleton.mp hm

/-- Two nodes are met in it, the record `b` and the text inside. -/
theorem met_in_nesting {frames : Frames} {p : Spot} (h : Met offline nestingCall frames p) :
    frames = [⟨"A", "ns"⟩] ∧ p = nestedSpot ∨
      frames = [⟨"b", "ns.A_types"⟩, ⟨"A", "ns"⟩] ∧ p = textSpot := by
  induction h with
  | turn ht hr =>
    obtain rfl := nesting_takes ht
    exact absurd hr (by decide)
  | record ht _ hq =>
    obtain rfl := nesting_takes ht
    exact Or.inl ⟨rfl, List.mem_singleton.mp hq⟩
  | inner _ _ hq ih =>
    rcases ih with ⟨rfl, rfl⟩ | ⟨rfl, rfl⟩
    · exact Or.inr ⟨rfl, List.mem_singleton.mp hq⟩
    · exact (List.not_mem_nil hq).elim
  | target _ _ hr _ ih =>
    rcases ih with ⟨rfl, rfl⟩ | ⟨rfl, rfl⟩
    · exact absurd (show none = some _ from hr) (by simp)
    · exact absurd (show none = some _ from hr) (by simp)

theorem nesting_never_recurs {frames : Frames} {p : Spot}
    (h : Met offline nestingCall frames p) : ¬Recurs frames p := by
  rintro ⟨frame, hframe, hfound⟩
  rcases met_in_nesting h with ⟨rfl, rfl⟩ | ⟨rfl, rfl⟩
  · obtain rfl := Option.some.inj hframe
    exact absurd hfound (by decide)
  · exact absurd (show none = some frame from hframe) (by simp)

theorem one_text_lists : ListsProperties oneText :=
  ⟨by decide, by decide, by decide, by decide, by decide⟩

theorem nested_record_converted :
    convertWith offline (unframed offline) (nesting "b") "" = convert offline (nesting "b") "" ∧
    ∃ t names' s', (node offline nestedSpot.schema nestedSpot.scope).Yields []
        { frames := [⟨"A", "ns"⟩] } (some t) names' s' ∧ s'.frames = [⟨"A", "ns"⟩] ∧
      IsRecordOf nestedSpot oneText (definedNames s'.registry) t := by
  have takes : nestingCall.Takes offline ⟨"A", objectSchema [("b", .obj oneText)],
      some "/definitions/A"⟩ := ⟨_, rfl, List.mem_singleton_self _⟩
  have met : Met offline nestingCall [⟨"A", "ns"⟩] nestedSpot :=
    .record takes (by decide) (List.mem_singleton_self nestedSpot)
  have hcall : conversionCall? offline (nesting "b") "" = some nestingCall := rfl
  obtain ⟨unframed, converted⟩ := stand_ins_inside_namesakes hcall
  exact ⟨unframed fun frames p h _ => nesting_never_recurs h,
    converted (by decide +kernel) _ nestedSpot oneText met (by decide) rfl one_text_lists (by decide)
      (nesting_never_recurs met) [] _ rfl⟩

/-- The record that stands in for the one around it. -/
def nestedStandIn : AvroType := cycleRecord "A" "ns.A_types" ⟨"A", "ns"⟩

def hasField (name : String) : AvroType → Bool
  | .record r => (r.fields.map Field.name).contains name
  | _ => false

/-- A record inside one of its name is taken for a cycle, though the document has no references, and its
field is lost. -/
theorem nested_namesake_stands_in : (nesting "A").references = [] ∧
    (convert offline (nesting "A") "").2 = [] ∧ ∃ out ws,
      convert offline (nesting "A") "" = (.ok out, ws) ∧ nestedStandIn ∈ out.parts ∧
      out.parts.any (hasField "x") = false := by
  obtain ⟨out, hout, hparts⟩ := output_of_any (r := convert offline (nesting "A") "")
    (p := fun out => decide (nestedStandIn ∈ out.parts ∧ out.parts.any (hasField "x") = false))
    (by decide +kernel)
  obtain ⟨hstandIn, hlost⟩ := of_decide_eq_true hparts
  exact ⟨by decide +kernel, by decide +kernel, out, _, hout, hstandIn, hlost⟩

end AvroDerive.Convert
