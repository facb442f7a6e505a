import AvroDerive.Json.Printer
import AvroDerive.Proofs.Coincidence

/-! # The document that a reference is looked up in

A node is converted in one document, and local references are looked up there. It is the document that
they are written in, unless they stand beside a reference that leads to another document: then the
merged node goes there with them. -/
namespace AvroDerive.Convert

open AvroType Json Schema

section Astray

variable (cfg : Setting) (call : Call)

/-- A reference came to a node from keys beside a reference that leads to another document, and stands
with them in the fragment that is converted there. -/
inductive Astray (r : String) : Spot → Prop
  | beside {p reference located siblings} : Visited cfg call p → p.reference? = some reference →
    LeadsTo cfg reference p.scope located → located.url.isSome = true →
    p.siblings? = some siblings → r ∈ siblings.references →
    Astray r (p.target cfg reference located)
  | inner {p q} : Astray r p → q ∈ p.inner → r ∈ q.schema.references → Astray r q
  | target {p reference located siblings} : Astray r p → p.reference? = some reference →
    LeadsTo cfg reference p.scope located → located.url = none → p.siblings? = some siblings →
    r ∈ siblings.references → Astray r (p.target cfg reference located)

end Astray

section Turns

variable {cfg : Setting} {inherited : Json → Prop}

/-- The turns of a conversion are parts of the document. -/
theorem conversion_turns_inherit (hi : Inherits inherited) {j : Json} {location : String}
    {call : Call} (h : conversionCall? cfg j location = some call) (hj : inherited j) :
    call.subject = j ∧ ∀ turn, call.Takes cfg turn → inherited turn.schema := by
  unfold conversionCall? at h
  split at h
  · obtain ⟨schema, hschema, rfl⟩ := Option.map_eq_some_iff.mp h
    refine ⟨rfl, ?_⟩
    rintro turn ⟨turns, hturns, hm⟩
    obtain rfl := Except.ok.inj hturns
    obtain rfl := List.mem_singleton.mp hm
    exact hi.pointer hj hschema
  · obtain rfl := Option.some.inj h
    refine ⟨rfl, ?_⟩
    rintro turn ⟨turns, hturns, hm⟩
    exact document_turns_inherit hi hj hturns turn hm

theorem conversion_turns_refer {w : String → Prop} {j : Json} {location : String} {call : Call}
    (h : conversionCall? cfg j location = some call) (hj : RefersIn w j) :
    call.subject = j ∧ ∀ turn, call.Takes cfg turn → RefersIn w turn.schema :=
  conversion_turns_inherit inherits_references h hj

end Turns

section Home

variable {cfg : Setting} {call : Call} {p : Spot} {reference : String} {located : Located}

theorem visited_refers {j : Json} {location : String}
    (hcall : conversionCall? cfg j location = some call) (hp : Visited cfg call p) :
    RefersIn (fun r => r ∈ p.scope.document.references ∨ Astray cfg call r p) p.schema := by
  obtain ⟨hsubject, hturns⟩ := conversion_turns_refer (w := (· ∈ j.references)) hcall fun _ hr => hr
  induction hp with
  | @turn turn hturn =>
    intro r hr
    refine Or.inl ?_
    show r ∈ call.subject.references
    rw [hsubject]
    exact hturns turn hturn r hr
  | @record turn o q hturn ho hq =>
    intro r hr
    have refers := hturns turn hturn
    rw [ho] at refers
    obtain ⟨below, hrefers⟩ := record_spots_nested _ _ (refers_in_obj.mp refers) q hq
    refine Or.inl ?_
    rw [below.document]
    show r ∈ call.subject.references
    rw [hsubject]
    exact hrefers r hr
  | @inner p q hp hq ih =>
    intro r hr
    obtain ⟨below, hrefers⟩ := inner_nested (fun r hr => Or.inl hr) ih q hq
    rw [below.document]
    exact (hrefers r hr).imp_right fun h => .inner h hq hr
  | @target p reference located hp href hl ih =>
    rw [target_document href]
    refine target_refers href (fun r hr => Or.inl (hl.refers r hr)) fun siblings hs r hr => ?_
    cases hurl : located.url with
    | some url => exact Or.inr (.beside hp href hl (by rw [hurl]; rfl) hs hr)
    | none =>
      refine (siblings_refer ih hs r hr).imp (fun home => ?_) fun h => .target h href hl hurl hs hr
      cases hl with
      | inside => exact home
      | across => simp at hurl

/-- A local reference is found in the document that the node is converted in. -/
theorem locate_local {s t : State} {scope : Scope} (hs : Stocked cfg s)
    (hy : (locate cfg reference scope).Yields s located t)
    (hlocal : (localPart? reference).isSome = true) : located.document = scope.document ∧
      localFragment? scope.document reference = some located.fragment := by
  cases locate_leads hs hy with
  | inside hf => exact ⟨rfl, hf⟩
  | across hnone => simp [hnone] at hlocal

theorem turn_inner_visited {t : Turn} {q : Spot} (ht : call.Takes cfg t)
    (hq : q ∈ t.inner cfg call) : Visited cfg call q := by
  unfold Turn.inner at hq
  split at hq
  · next o ho => exact .record ht ho hq
  · simp at hq

/-- A conversion asks its converter for no other nodes than those that it may lead to. -/
theorem convert_with_visited {f : NodeConverter} {j : Json} {location : String}
    (hf : ∀ call, conversionCall? cfg j location = some call → ∀ p, Visited cfg call p →
      Unrolls cfg f p) : convertWith cfg f j location = convert cfg j location := by
  rw [← convert_with_node]
  refine convert_with_congr (coincidence cfg) Coincide.run_new fun call hcall t ht => ?_
  have same : ∀ fs p, Visited cfg call p → (coincidence cfg).nodes fs fs (node cfg) f p :=
    fun fs p => Lockstep.replaced (fun hp _ hq => .inner hp hq)
      (fun hp _ hr => ⟨trivial, fun located hl => .target hp hr hl⟩) (hf call hcall) fs
  exact Lockstep.turn (fun _ => same [] _ (.turn ht)) fun _ q hq =>
    same _ q (turn_inner_visited ht hq)

/-- What is looked up and converted for a node stands in the document where it is written. -/
structure AtHome (cfg : Setting) (call : Call) (p : Spot) : Prop where
  /-- The references of the node are written in the document in which it is converted, unless they came
  along with one that leads to another document. -/
  written : ∀ r ∈ p.schema.references, r ∈ p.scope.document.references ∨ Astray cfg call r p
  inner : ∀ q ∈ p.inner, q.scope.document = p.scope.document
  /-- A local reference is looked up in that document. -/
  lookedUp : ∀ reference located s t, p.reference? = some reference → Stocked cfg s →
    (locate cfg reference p.scope).Yields s located t → (localPart? reference).isSome = true →
    located.document = p.scope.document ∧
      localFragment? p.scope.document reference = some located.fragment
  /-- What any reference leads to is converted in the document that it was found in, where all the
  references of the fragment are written. -/
  target : ∀ reference located s t, p.reference? = some reference → Stocked cfg s →
    (locate cfg reference p.scope).Yields s located t →
    (p.target cfg reference located).scope.document = located.document ∧
      ∀ r ∈ located.fragment.references, r ∈ located.document.references

/-- References are looked up where they are written, at every node that a conversion may lead to. It
converts no others. -/
theorem references_at_home {j : Json} {location : String}
    (hcall : conversionCall? cfg j location = some call) :
    (∀ p, Visited cfg call p → AtHome cfg call p) ∧
    ∀ f, (∀ p, Visited cfg call p → Unrolls cfg f p) →
      convertWith cfg f j location = convert cfg j location := by
  refine ⟨fun p hp => ?_, fun f hf => convert_with_visited fun call' hcall' => ?_⟩
  · exact
      { written := visited_refers hcall hp
        inner := fun q hq => (inner_below hq).document
        lookedUp := fun reference located s t _ hs hy => locate_local hs hy
        target := fun reference located s t hr hs hy =>
          ⟨target_document hr, (locate_leads hs hy).refers⟩ }
  · obtain rfl := Option.some.inj (hcall.symm.trans hcall')
    exact hf

end Home

/-- The second of two documents. -/
def otherDocument : Json := .obj [("definitions", .obj [
  ("B", objectSchema [("y", .obj [("type", .str "string")])])])]

def twoDocuments : Setting :=
  { rootNs := "ns", source := .ofTexts [("file:///o.json", otherDocument.compact)] }

/-- A document with a reference to the second one, beside which the given properties stand. -/
def borrowing (properties : Object) : Json := .obj [("definitions", .obj [
  ("A", objectSchema [("k", .obj [("$ref", .str "o.json#/definitions/B"),
    ("properties", .obj properties)])]),
  ("Item", objectSchema [("x", .obj [("type", .str "string")])])])]

theorem borrowed_at_home : ∃ out call,
    (convert twoDocuments (borrowing [("i", .obj [("type", .str "string")])]) "file:///d.json").1 =
      .ok out ∧
    conversionCall? twoDocuments (borrowing [("i", .obj [("type", .str "string")])])
      "file:///d.json" = some call ∧
    (∀ p, Visited twoDocuments call p → AtHome twoDocuments call p) := by
  have found : (conversionCall? twoDocuments (borrowing [("i", .obj [("type", .str "string")])])
      "file:///d.json").isSome = true := by decide +kernel
  obtain ⟨call, hcall⟩ := Option.isSome_iff_exists.mp found
  obtain ⟨out, hout, -⟩ := output_of_any (r := convert twoDocuments
    (borrowing [("i", .obj [("type", .str "string")])]) "file:///d.json") (p := fun _ => true)
    (by decide +kernel)
  exact ⟨out, call, congrArg Prod.fst hout, hcall, (references_at_home hcall).1⟩

/-- A reference that stands beside one to another document is looked up there, and not where it is
written. -/
theorem borrowed_reference_astray :
    (localFragment? (borrowing [("i", definitionRef "Item")]) "#/definitions/Item").isSome = true ∧
    (convert twoDocuments (borrowing [("i", definitionRef "Item")]) "file:///d.json").1 =
      .error (.unresolved "#/definitions/Item" "file:///o.json") :=
  ⟨by decide +kernel, by decide +kernel⟩

end AvroDerive.Convert
