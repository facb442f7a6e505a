import AvroDerive.Proofs.LastingName

/-! # Regular output

What a conversion gives, whole documents and fragments alike, is made of regular types: its names are
legal and its unions are flat. Ordering, eviction and inlining keep types regular. -/
namespace AvroDerive

open AvroType

/-- The types at any depth of what a conversion gives. -/
def Output.parts : Output → List AvroType
  | .types ts => ts.flatMap AvroType.parts
  | .fragment t => t.parts

namespace Convert

open Json Schema

section Output

variable {cfg : Setting} {j : Json} {location : String}

theorem regular_types {ts : List AvroType} (h : ∀ t ∈ ts, AllParts Regular t) :
    ∀ t ∈ (Output.types ts).parts, Regular t := by
  intro t ht
  obtain ⟨u, hu, hm⟩ := List.mem_flatMap.mp ht
  exact h u hu t hm

theorem ordered_types_lawful (L : Law cfg) :
    Lawful L orderedTypes fun ts => ∀ t ∈ ts, L.Good t := by
  unfold orderedTypes
  refine .bind .get ?_
  intro s hs
  refine .bind (.warnAll _) ?_
  intro _ _
  exact .pure fun t ht => hs.registry t ((order_perm s.registry).subset ht)

theorem document_output_regular (j : Json) (baseUri : String) :
    Lawful (Law.regular cfg) (documentOutput cfg j baseUri) fun out => ∀ t ∈ out.parts, Regular t := by
  have call : Lawful (Law.regular cfg) (document cfg j baseUri) fun _ => True :=
    show Lawful _ (Call.run cfg (.document j baseUri)) _ from call_lawful fun _ _ _ _ => trivial
  unfold documentOutput
  refine .bind call ?_
  intro _ _
  refine .bind .get ?_
  intro s _
  split
  · exact .fail
  · refine .bind (ordered_types_lawful _) ?_
    intro ts hts
    exact .pure (regular_types (evict_all_parts regular_inlinable fun t ht => (hts t ht).regular))

theorem fragment_output_regular (j : Json) (baseUri fragment : String) :
    Lawful (Law.regular cfg) (fragmentOutput cfg j baseUri fragment)
      fun out => ∀ t ∈ out.parts, Regular t := by
  unfold fragmentOutput
  dsimp only
  split
  · exact .fail
  · next schema _ =>
    refine .bind (definition_lawful ⟨_, schema, _⟩ trivial) ?_
    intro registered _
    split
    · exact .fail
    · refine .bind (ordered_types_lawful _) ?_
      intro ts hts
      split
      · next root hroot =>
        refine .pure ?_
        obtain ⟨defined, h⟩ := inline_inlined ts root
        exact h.all_parts regular_inlinable (fun t ht => (hts t ht).regular)
          (hts root (List.mem_of_find?_eq_some hroot)).regular
      · exact .fail

/-- All types of what a conversion gives are regular. -/
theorem convert_regular {out : Output} {ws : List Warning} (h : convert cfg j location = (.ok out, ws)) :
    ∀ t ∈ out.parts, Regular t := by
  have succeeds : (convert cfg j location).1 = .ok out := by rw [h]
  obtain ⟨s, hy⟩ := convert_yields succeeds
  have holds : (Law.regular cfg).Holds {} := intact_start.regular
  have ok : ((output cfg j location).run.run {}).1 = .ok out := by
    rw [show (output cfg j location).run.run {} = (.ok out, s) from hy]
  rcases output_yields hy with ⟨baseUri, hd⟩ | ⟨baseUri, fragment, hf⟩
  · refine (document_output_regular j baseUri {} holds).2 out ?_
    rw [show (documentOutput cfg j baseUri).run.run {} = (.ok out, s) from hd]
  · refine (fragment_output_regular j baseUri fragment {} holds).2 out ?_
    rw [show (fragmentOutput cfg j baseUri fragment).run.run {} = (.ok out, s) from hf]

/-- Whether the printed form of a type is `null`. -/
def printsNull (t : AvroType) : Bool := t.toJson.asString? == some "null"

/-- Only `null` and a reference to a type of that name are printed as `null`. -/
theorem printed_null {t : AvroType} (h : printsNull t = true) :
    t.isNull = true ∨ t = .reference "null" := by
  cases t <;> simp_all [printsNull, toJson, fixedJson, enumJson, asString?, isNull]

theorem printed_nulls {branches : List AvroType} (hflat : Flat branches)
    (hn : .reference "null" ∉ branches) : branches.countP printsNull ≤ 1 := by
  refine le_trans (List.countP_mono_left fun t ht h => ?_) hflat.nulls
  refine (printed_null h).resolve_right ?_
  rintro rfl
  exact hn ht

/-- No union that a conversion gives has a union as a branch, two arrays, two maps or two `null`s. Of
what is printed for its branches `null` is one at most, unless one refers to a type called `null`. -/
theorem output_unions_flat {out : Output} {ws : List Warning}
    (h : convert cfg j location = (.ok out, ws)) (branches : List AvroType)
    (hb : .union branches ∈ out.parts) :
    Flat branches ∧ (.reference "null" ∉ branches → branches.countP printsNull ≤ 1) := by
  have flat : Flat branches := convert_regular h _ hb
  exact ⟨flat, printed_nulls flat⟩

/-- The names of all types, fields and symbols that a conversion gives are legal. -/
theorem output_names_legal {out : Output} {ws : List Warning}
    (h : convert cfg j location = (.ok out, ws)) : ∀ t ∈ out.parts,
      (∀ name, t.name? = some name → Name.isLegal name = true) ∧
      (∀ r, t = .record r → ∀ f ∈ r.fields, Name.isLegal f.name = true) ∧
      (∀ e, t = .enum e → ∀ symbol ∈ e.symbols, Name.isLegal symbol = true) := by
  intro t ht
  have regular := convert_regular h t ht
  refine ⟨regular.name, ?_, ?_⟩
  · rintro r rfl
    exact regular.2
  · rintro e rfl
    exact regular.2

end Output

section Examples

theorem output_of_any {r : Except Failure Output × List Warning} {p : Output → Bool}
    (h : r.1.toOption.any p = true) : ∃ out, r = (.ok out, r.2) ∧ p out = true := by
  obtain ⟨result, ws⟩ := r
  cases result with
  | error e => simp [Except.toOption] at h
  | ok out => exact ⟨out, rfl, h⟩

/-- A tuple of a text that may be `null` and of two arrays. -/
def tuple : Json := .obj [("definitions", .obj [("A", objectSchema [("k", .obj [
  ("type", .str "array"), ("items", .arr [
    .obj [("type", .arr [.str "null", .str "string"])],
    .obj [("type", .str "array"), ("items", .obj [("type", .str "string")])],
    .obj [("type", .str "array"), ("items", .obj [("type", .str "integer")])]])])])])]

/-- The items of the tuple, with the two arrays joined. -/
def tupleBranches : List AvroType :=
  [.null, .primitive "string", .array (.union [.primitive "string", .primitive "int"])]

theorem tuple_union_flat : ∃ out ws, convert offline tuple "" = (.ok out, ws) ∧
    .union tupleBranches ∈ out.parts ∧ Flat tupleBranches ∧ tupleBranches.countP printsNull ≤ 1 := by
  obtain ⟨out, hout, hm⟩ := output_of_any (r := convert offline tuple "")
    (p := fun out => decide (.union tupleBranches ∈ out.parts)) (by decide +kernel)
  rw [decide_eq_true_iff] at hm
  obtain ⟨flat, printed⟩ := output_unions_flat hout tupleBranches hm
  exact ⟨out, _, hout, hm, flat, printed (by decide)⟩

/-- Without a namespace, a record is called `null` and another one refers to it. -/
def rootless : Setting := { rootNs := "", source := .ofTexts [] }

def nullRecord : Json := .obj [("definitions", .obj [
  ("null", objectSchema [("y", .obj [("type", .str "string")])]),
  ("A", objectSchema [("x", definitionRef "null")])])]

/-- The reference to the record is printed as `null`, beside the `null` for a missing field. -/
theorem null_record_prints_null : ∃ out ws, convert rootless nullRecord "" = (.ok out, ws) ∧
    .union [.null, .reference "null"] ∈ out.parts ∧
    ¬ [AvroType.null, .reference "null"].countP printsNull ≤ 1 := by
  obtain ⟨out, hout, hm⟩ := output_of_any (r := convert rootless nullRecord "")
    (p := fun out => decide (.union [.null, .reference "null"] ∈ out.parts)) (by decide +kernel)
  exact ⟨out, _, hout, of_decide_eq_true hm, by decide⟩

/-- A name for the root that starts with a digit, and properties, values and patterns that are no
names. -/
def unnameable : Json := .obj [("type", .str "object"),
  ("properties", .obj [("a b", .obj [("enum", .arr [.str "x-y", .str "2"])])]),
  ("patternProperties", .obj [("[0-9]", .obj [("format", .str "duration")])])]

/-- The type of the property, in the namespace of the root's fields. -/
def unnameableValues : AvroType :=
  .enum { name := "a_b_enum", ns := some "ns._9_lives_types", symbols := ["x_y", "_2"] }

theorem unnameable_names_legal : ∃ out ws,
    convert { offline with options := { rootName := "9 lives" } } unnameable "" = (.ok out, ws) ∧
    unnameableValues ∈ out.parts ∧ ∀ t ∈ out.parts,
      (∀ name, t.name? = some name → Name.isLegal name = true) ∧
      (∀ r, t = .record r → ∀ f ∈ r.fields, Name.isLegal f.name = true) ∧
      (∀ e, t = .enum e → ∀ symbol ∈ e.symbols, Name.isLegal symbol = true) := by
  obtain ⟨out, hout, hm⟩ := output_of_any
    (r := convert { offline with options := { rootName := "9 lives" } } unnameable "")
    (p := fun out => decide (unnameableValues ∈ out.parts)) (by decide +kernel)
  exact ⟨out, _, hout, of_decide_eq_true hm, output_names_legal hout⟩

end Examples

end Convert

end AvroDerive
