import AvroDerive.Proofs.DefinitionReference
import AvroDerive.Proofs.Eviction
import AvroDerive.Proofs.Inlining

/-! # References of the output

Ordering, evicting and inlining keep every name defined that is registered. So a reference of the
output is to a name that the output defines, up to names that are passed on and those that were
handed out for types that did not get them. -/
namespace AvroDerive

/-- What the output mentions, in the order in which it is read. -/
def Output.mentions : Output → List Mention
  | .types ts => ts.flatMap (AvroType.mentions none)
  | .fragment t => t.mentions none

namespace Convert

open AvroType

/-- The name was handed out for a type that need not have it: it was promised for a fragment put
together from others, or it closes the cycle of a record that stands inside another type. -/
def Abandoned (cfg : Setting) (j : Json) (place : Place) (name : String) : Prop :=
  Unkept cfg j name ∨ Closing place name ∧ Inner cfg j name

/-- A reference is to one of the names, or to a name that is passed on or abandoned. -/
def RefersInto (cfg : Setting) (j : Json) (names : List String) (place : Place) (name : String) :
    Prop :=
  name ∈ names ∨ PassedOn cfg j name ∨ Abandoned cfg j place name

section Ordered

variable {cfg : Setting} {j : Json} {s s' : State} {baseUri : String}

theorem Fine.refers {names : List String} {place : Place} {name : String}
    (h : Fine cfg j Nothing s names place name) :
    RefersInto cfg j (definedNames s.registry) place name := by
  rcases h with ⟨hk | hp | hu | hn, -⟩ | ⟨hc, (hk | hp | hu | hn) | hi⟩
  · exact Or.inl hk
  · exact Or.inr (Or.inl hp)
  · exact Or.inr (Or.inr (Or.inl hu))
  · exact hn.elim
  · exact Or.inl hk
  · exact Or.inr (Or.inl hp)
  · exact Or.inr (Or.inr (Or.inl hu))
  · exact hn.elim
  · exact Or.inr (Or.inr (Or.inr ⟨hc, hi⟩))

theorem order_perm (types : List AvroType) : (order types).types.Perm types :=
  orderFrom_perm _ _ _

theorem order_defined (types : List AvroType) (name : String) :
    name ∈ definedNames (order types).types ↔ name ∈ definedNames types :=
  ((order_perm types).filterMap qualifiedName?).mem_iff

theorem ordered_refer (hs : Sound cfg j Nothing s) : ∀ t ∈ (order s.registry).types,
    t.AllRefer (RefersInto cfg j (definedNames (order s.registry).types)) none := by
  intro t ht
  refine (hs.registered t ((order_perm s.registry).subset ht)).imp fun place name h => ?_
  exact h.refers.imp_left (order_defined s.registry name).mpr

/-- The state after the broken cycles are reported. -/
def reported (s : State) : State :=
  { s with warnings := s.warnings ++ (order s.registry).brokenAt.map .brokenCycle }

theorem ordered_types_yields {ts : List AvroType} (h : orderedTypes.Yields s ts s') :
    ts = (order s.registry).types ∧ s' = reported s := by
  unfold orderedTypes at h
  obtain ⟨_, _, hget, hrest⟩ := Run.yields_bind.mp h
  obtain ⟨rfl, rfl⟩ := Run.yields_get.mp hget
  obtain ⟨_, s₁, hw, hp⟩ := Run.yields_bind.mp hrest
  obtain rfl := Run.yields_warnAll.mp hw
  exact Run.yields_pure.mp hp

/-- The types of a whole document are ordered, and each name is defined once. -/
theorem document_output_yields {out : Output}
    (h : (documentOutput cfg j baseUri).Yields {} out s') : ∃ s, Sound cfg j Nothing s ∧
      out = .types (evict (order s.registry).types) ∧ s' = reported s := by
  unfold documentOutput at h
  obtain ⟨_, s₁, hdocument, hrest⟩ := Run.yields_bind.mp h
  obtain ⟨hs₁, -, -⟩ := document_runs start_sound rfl _ s₁ hdocument
  obtain ⟨_, _, hget, htypes⟩ := Run.yields_bind.mp hrest
  obtain ⟨rfl, rfl⟩ := Run.yields_get.mp hget
  split at htypes
  · exact absurd htypes Run.yields_fail
  · obtain ⟨ts, s₂, hordered, hp⟩ := Run.yields_bind.mp htypes
    obtain ⟨rfl, rfl⟩ := ordered_types_yields hordered
    obtain ⟨rfl, rfl⟩ := Run.yields_pure.mp hp
    exact ⟨_, hs₁, rfl, rfl⟩

theorem pointer_part {schema : Json} {pointer : String} (h : j.pointer? pointer = some schema) :
    Part j schema := by
  refine Json.pointer_inherits ?_ .whole h
  intro v child key hv hc
  cases v with
  | obj members => exact .member hv (Object.mem_of_get? hc)
  | arr items =>
    obtain ⟨i, -, hi⟩ := Option.bind_eq_some_iff.mp hc
    exact .item hv (List.mem_of_getElem? hi)
  | _ => simp [Json.child?] at hc

/-- The type of a fragment has the types it needs inside it. -/
theorem fragment_output_yields {fragment : String} {out : Output}
    (h : (fragmentOutput cfg j baseUri fragment).Yields {} out s') : ∃ s, Sound cfg j Nothing s ∧
      ∃ root ∈ (order s.registry).types, out = .fragment (inline (order s.registry).types root) := by
  unfold fragmentOutput at h
  dsimp only at h
  split at h
  · exact absurd h Run.yields_fail
  · next schema hschema =>
    obtain ⟨r, s₁, hdefinition, hrest⟩ := Run.yields_bind.mp h
    obtain ⟨hs₁, -, -⟩ := definition_runs start_sound rfl (pointer_part hschema) _ _ r s₁ hdefinition
    split at hrest
    · exact absurd hrest Run.yields_fail
    · obtain ⟨ts, s₂, hordered, hlookup⟩ := Run.yields_bind.mp hrest
      obtain ⟨rfl, -⟩ := ordered_types_yields hordered
      split at hlookup
      · next root hroot =>
        obtain ⟨rfl, -⟩ := Run.yields_pure.mp hlookup
        exact ⟨_, hs₁, root, List.mem_of_find?_eq_some hroot, rfl⟩
      · exact absurd hlookup Run.yields_fail

end Ordered

section Output

variable {cfg : Setting} {j : Json} {location : String}

theorem convert_yields {out : Output} (h : (convert cfg j location).1 = .ok out) :
    ∃ s, (output cfg j location).Yields {} out s :=
  ⟨((output cfg j location).run.run {}).2, Prod.ext h rfl⟩

theorem output_yields {out : Output} {s : State} (h : (output cfg j location).Yields {} out s) :
    (∃ baseUri, (documentOutput cfg j baseUri).Yields {} out s) ∨
      ∃ baseUri fragment, (fragmentOutput cfg j baseUri fragment).Yields {} out s := by
  unfold output at h
  dsimp only at h
  split at h
  · exact Or.inr ⟨_, _, h⟩
  · exact Or.inl ⟨_, h⟩

theorem document_refers {ts : List AvroType}
    (h : ∀ t ∈ ts, t.AllRefer (RefersInto cfg j (definedNames ts)) none) {place : Place}
    {name : String} (hm : Mention.refers place name ∈ (evict ts).flatMap (mentions none)) :
    RefersInto cfg j (introduced ((evict ts).flatMap (mentions none))) place name := by
  obtain ⟨defined, hreads, hnames⟩ := evict_from_reads [] ts h
  have introduced_of : ∀ n ∈ defined, n ∈ introduced ((evict ts).flatMap (mentions none)) := by
    intro n hn
    exact (hreads.mem_defined.mp hn).resolve_right List.not_mem_nil
  obtain ⟨before, after, hsplit⟩ := List.append_of_mem hm
  rcases hreads.behind hsplit with hn | hn | hn
  · simp at hn
  · left
    rw [hsplit, introduced_append]
    exact List.mem_append_left _ hn
  · exact hn.imp_left fun hn => introduced_of name (hnames name hn)

theorem fragment_refers {ts : List AvroType} {root : AvroType}
    (h : ∀ t ∈ ts, t.AllRefer (RefersInto cfg j (definedNames ts)) none) (hroot : root ∈ ts)
    {place : Place} {name : String}
    (hm : Mention.refers place name ∈ (inline ts root).mentions none) :
    RefersInto cfg j (introduced ((inline ts root).mentions none)) place name := by
  obtain ⟨defined, hreads⟩ := inline_reads h (h root hroot)
  obtain ⟨before, after, hsplit⟩ := List.append_of_mem hm
  rcases hreads.behind hsplit with hn | hn | ⟨hn, hundefined⟩
  · simp at hn
  · left
    rw [hsplit, introduced_append]
    exact List.mem_append_left _ hn
  · exact hn.imp_left fun hn => absurd hn hundefined

/-- Every reference of the output is to a name that the output defines, unless the name is passed
on from a document or abandoned. -/
theorem convert_refers {out : Output} {ws : List Warning}
    (h : convert cfg j location = (.ok out, ws)) (place : Place) (name : String)
    (hm : Mention.refers place name ∈ out.mentions) :
    name ∈ introduced out.mentions ∨ PassedOn cfg j name ∨ Abandoned cfg j place name := by
  obtain ⟨s', hy⟩ := convert_yields (congrArg Prod.fst h)
  rcases output_yields hy with ⟨baseUri, hy⟩ | ⟨baseUri, fragment, hy⟩
  · obtain ⟨s, hs, rfl, -⟩ := document_output_yields hy
    exact document_refers (ordered_refer hs) hm
  · obtain ⟨s, hs, root, hroot, rfl⟩ := fragment_output_yields hy
    exact fragment_refers (ordered_refer hs) hroot hm

end Output

/-- A setting without any documents to fetch. -/
def offline : Setting := { rootNs := "ns", source := .ofTexts [] }

theorem offline_document {j d : Json} (h : IsDocument offline j d) : d = j := by
  rcases h with h | ⟨url, place, content, -, hsource, -⟩
  · exact h
  · simp [offline, Source.ofTexts] at hsource

theorem ok_of_mentions (r : Except Failure Output × List Warning) (ms : List Mention)
    (h : r.1.toOption.map Output.mentions = some ms) :
    ∃ out, r = (.ok out, r.2) ∧ out.mentions = ms := by
  obtain ⟨result, ws⟩ := r
  cases result with
  | error e => simp [Except.toOption] at h
  | ok out => exact ⟨out, rfl, Option.some.inj h⟩

/-- An object schema with the properties. -/
def objectSchema (properties : Object) : Json :=
  .obj [("type", .str "object"), ("properties", .obj properties)]

def definitionRef (name : String) : Json := .obj [("$ref", .str ("#/definitions/" ++ name))]

/-- A record `A` with a field for a record `B`. -/
def referring : Json := .obj [("definitions", .obj [
  ("A", objectSchema [("b", definitionRef "B")]),
  ("B", objectSchema [("x", .obj [("type", .str "string")])])])]

theorem referring_output_refers : ∃ out ws, convert offline referring "" = (.ok out, ws) ∧
    Mention.refers (some ("A", "b")) "ns.B" ∈ out.mentions ∧
    ("ns.B" ∈ introduced out.mentions ∨ PassedOn offline referring "ns.B" ∨
      Abandoned offline referring (some ("A", "b")) "ns.B") := by
  obtain ⟨out, hout, hms⟩ := ok_of_mentions (convert offline referring "")
    [.defines "ns.B", .defines "ns.A", .refers (some ("A", "b")) "ns.B"] (by decide +kernel)
  have hm : Mention.refers (some ("A", "b")) "ns.B" ∈ out.mentions := by
    rw [hms]
    decide
  exact ⟨out, _, hout, hm, convert_refers hout _ _ hm⟩

/-- A composed definition whose record has a property of the name that the record is built under. -/
def renamed : Json := .obj [("definitions", .obj [("A", .obj [("allOf", .arr [
  objectSchema [("value", objectSchema [("x", .obj [("type", .str "string")])])]])])])]

/-- The record is renamed, and the reference that closes the cycle inside it keeps the old name. -/
theorem renamed_record_undefined : ∃ out ws, convert offline renamed "" = (.ok out, ws) ∧
    ∃ place name, Mention.refers place name ∈ out.mentions ∧ name ∉ introduced out.mentions ∧
      ¬Written offline renamed name := by
  obtain ⟨out, hout, hms⟩ := ok_of_mentions (convert offline renamed "")
    [.defines "ns.A", .defines "ns.A_types.value_types.value_ref",
      .refers (some ("value_ref", "value")) "ns.A_types.value"] (by decide +kernel)
  refine ⟨out, _, hout, some ("value_ref", "value"), "ns.A_types.value", ?_, ?_, ?_⟩
  · rw [hms]
    decide
  · rw [hms]
    decide
  · rintro ⟨d, hd, htext⟩
    rw [offline_document hd] at htext
    revert htext
    decide

end Convert

end AvroDerive
