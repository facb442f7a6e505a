import AvroDerive.Proofs.ParedDocument

/-! # Conditional keywords in a document

Documents that are the same without the conditional keywords of their schemas are converted in the same
way. What could tell them apart is a reference into such a keyword, or schemas that are merged by
comparing what such keywords say. -/
namespace AvroDerive.Convert

open AvroType Json Schema

section Outputs

variable {cfg : Setting} {j j' : Json} {location : String}

/-- A conversion has no way to tell two documents apart that differ in conditional keywords: where the
location and the references lead, schemas are alike, and merging does not depend on them. -/
structure Indistinct (cfg : Setting) (j j' : Json) (location : String) : Prop where
  addressed : ∀ uri c rest, addressed cfg location = (uri, some (c :: rest)) →
    (j.pointer? (fragmentPointer (String.ofList (c :: rest)))).map (pare .schema) =
      (j'.pointer? (fragmentPointer (String.ofList (c :: rest)))).map (pare .schema)
  unnoticed : ∀ call call', conversionCall? cfg j location = some call →
    conversionCall? cfg j' location = some call' → Unnoticed cfg call call'

/-- The calls of two such conversions are alike. -/
theorem Indistinct.calls (h : Indistinct cfg j j' location) (hj : j.keyed = true)
    (hj' : j'.keyed = true) {call call' : Call} (hcall : conversionCall? cfg j location = some call)
    (hcall' : conversionCall? cfg j' location = some call') (hbase : call'.baseUri = call.baseUri) :
    AlikeCalls cfg call call' := by
  have inherits : Inherits fun j => j.keyed = true :=
    ⟨fun ho => (keyed_obj.mp ho).2, fun ha => keyed_arr.mp ha⟩
  obtain ⟨hsubject, hturns⟩ := conversion_turns_inherit inherits hcall hj
  obtain ⟨hsubject', hturns'⟩ := conversion_turns_inherit inherits hcall' hj'
  exact ⟨hbase, hsubject ▸ hj, hsubject' ▸ hj', hturns, hturns', h.unnoticed _ _ hcall hcall'⟩

theorem registered_types_concur (baseUri : String) :
    Concur cfg (registeredTypes baseUri) (registeredTypes baseUri) := by
  unfold registeredTypes
  refine .get fun s before => ?_
  dsimp only
  split
  · exact .fail _
  · exact .of_neutral (.bind neutral_ordered_types fun _ => .pure _)

theorem registered_type_concurs (baseUri fragment : String) (registered : Option String) :
    Concur cfg (registeredType baseUri fragment registered)
      (registeredType baseUri fragment registered) := by
  unfold registeredType
  split
  · exact .fail _
  · refine (Concur.of_neutral neutral_ordered_types).bind fun types => ?_
    split
    · exact .pure _
    · exact .fail _

theorem document_output_concurs (hj : j.keyed = true) (hj' : j'.keyed = true)
    (hpare : pareDocument j = pareDocument j') (h : Indistinct cfg j j' location) {baseUri : String}
    (hcall : conversionCall? cfg j location = some (.document j baseUri))
    (hcall' : conversionCall? cfg j' location = some (.document j' baseUri)) :
    Concur cfg ((Call.document j baseUri).runWith cfg (node cfg) >>= fun _ => registeredTypes baseUri)
      ((Call.document j' baseUri).runWith cfg (node cfg) >>= fun _ => registeredTypes baseUri) := by
  have calls := h.calls hj hj' hcall hcall' rfl
  have pair : TurnsPair (documentTurns cfg baseUri j) (documentTurns cfg baseUri j') :=
    document_turns_pair baseUri hpare
  refine Concur.bind ?_ fun _ => registered_types_concur baseUri
  simp only [Call.runWith, Call.turns]
  cases hts : documentTurns cfg baseUri j with
  | error e =>
    cases hts' : documentTurns cfg baseUri j' with
    | error e' =>
      rw [hts, hts'] at pair
      obtain rfl : e = e' := pair
      exact .fail e
    | ok ts' => simp [hts, hts', TurnsPair] at pair
  | ok ts =>
    cases hts' : documentTurns cfg baseUri j' with
    | error e' => simp [hts, hts', TurnsPair] at pair
    | ok ts' =>
      rw [hts, hts'] at pair
      exact turns_concur calls pair (fun t ht => ⟨ts, hts, ht⟩) fun t ht => ⟨ts', hts', ht⟩

theorem fragment_output_concurs (hj : j.keyed = true) (hj' : j'.keyed = true)
    (h : Indistinct cfg j j' location) {uri : List Char} {c : Char} {rest : List Char}
    (ha : Convert.addressed cfg location = (uri, some (c :: rest))) :
    Concur cfg (fragmentOutputWith cfg (node cfg) j (String.ofList uri) (String.ofList (c :: rest)))
      (fragmentOutputWith cfg (node cfg) j' (String.ofList uri) (String.ofList (c :: rest))) := by
  have found := h.addressed uri c rest ha
  have calls : ∀ k : Json, conversionCall? cfg k location =
      (k.pointer? (fragmentPointer (String.ofList (c :: rest)))).map
        (fragmentCall cfg k (String.ofList uri) (String.ofList (c :: rest))) := by
    intro k
    rw [conversionCall?, ha]
  unfold fragmentOutputWith
  cases hf : j.pointer? (fragmentPointer (String.ofList (c :: rest))) with
  | none =>
    rw [hf, Option.map_none, eq_comm, Option.map_eq_none_iff] at found
    rw [found]
    exact .fail _
  | some schema =>
    rw [hf, Option.map_some, eq_comm, Option.map_eq_some_iff] at found
    obtain ⟨schema', hf', hsame⟩ := found
    have alike : AlikeCalls cfg
        (fragmentCall cfg j (String.ofList uri) (String.ofList (c :: rest)) schema)
        (fragmentCall cfg j' (String.ofList uri) (String.ofList (c :: rest)) schema') :=
      h.calls hj hj' (by rw [calls, hf, Option.map_some]) (by rw [calls, hf', Option.map_some]) rfl
    have pair : (fragmentTurn cfg (String.ofList (c :: rest)) schema).Pairs
        (fragmentTurn cfg (String.ofList (c :: rest)) schema') := ⟨rfl, rfl, hsame.symm⟩
    have takes : ∀ (k : Json) schema,
        (fragmentCall cfg k (String.ofList uri) (String.ofList (c :: rest)) schema).Takes cfg
          (fragmentTurn cfg (String.ofList (c :: rest)) schema) :=
      fun _ _ => ⟨_, rfl, List.mem_singleton_self _⟩
    have turn := turn_concurs pair alike (takes j schema) (takes j' schema')
    rw [hf']
    refine Concur.bind ?_ fun registered => registered_type_concurs _ _ registered
    exact turn

theorem output_concurs (hj : j.keyed = true) (hj' : j'.keyed = true)
    (hpare : pareDocument j = pareDocument j') (h : Indistinct cfg j j' location) :
    Concur cfg (outputWith cfg (node cfg) j location) (outputWith cfg (node cfg) j' location) := by
  rcases haddress : Convert.addressed cfg location with ⟨uri, part⟩
  have calls : (∀ c rest, part ≠ some (c :: rest)) → ∀ k : Json,
      conversionCall? cfg k location = some (.document k (String.ofList uri)) := by
    intro hpart k
    rw [conversionCall?, haddress]
    rcases part with _ | (_ | ⟨c, rest⟩)
    · rfl
    · rfl
    · exact absurd rfl (hpart c rest)
  unfold outputWith
  rw [haddress]
  rcases part with _ | (_ | ⟨c, rest⟩)
  · exact document_output_concurs hj hj' hpare h (calls (by simp) j) (calls (by simp) j')
  · exact document_output_concurs hj hj' hpare h (calls (by simp) j) (calls (by simp) j')
  · exact fragment_output_concurs hj hj' h haddress

/-- Conditional keywords have no influence on the result. Documents that are the same without those of
their schemas give the same output or the same failure, unless a reference or the location leads to
schemas that differ in more, or merging compares what they say. -/
theorem conditionals_without_influence (hj : j.keyed = true) (hj' : j'.keyed = true)
    (hpare : pareDocument j = pareDocument j') (h : Indistinct cfg j j' location) :
    (convert cfg j' location).1 = (convert cfg j location).1 := by
  rw [← convert_with_node, ← convert_with_node]
  obtain ⟨-, after, hsame⟩ := output_concurs hj hj' hpare h {} [] (by simp [Stocked])
  have same : ((outputWith cfg (node cfg) j' location).run.run {}).1 =
      ((outputWith cfg (node cfg) j location).run.run {}).1 := by rw [hsame]
  exact same

end Outputs

section Example

def textWith (added : Object) : Json := .obj (("type", .str "string") :: added)

def recordWith (added : Object) : Json :=
  .obj ([("type", .str "object"), ("properties", .obj [("x", textWith added)])] ++ added)

/-- A record with a text, and one that refers to it. The first and its text have the members added. -/
def entitled (added : Object) : Json := .obj [("definitions", .obj [
  ("A", recordWith added), ("B", objectSchema [("a", definitionRef "A")])])]

def conditions : Object :=
  [("if", .obj [("required", .arr [.str "y"])]), ("then", .bool false), ("else", .obj [])]

variable {added : Object} {frames : Frames} {p : Spot}

theorem entitled_turns (hadded : added = [] ∨ added = conditions) :
    (Call.document (entitled added) "").turns offline =
      .ok [⟨"A", recordWith added, some "/definitions/A"⟩,
        ⟨"B", objectSchema [("a", definitionRef "A")], some "/definitions/B"⟩] := by
  rcases hadded with rfl | rfl <;> rfl

theorem entitled_takes {t : Turn} (hadded : added = [] ∨ added = conditions)
    (h : (Call.document (entitled added) "").Takes offline t) :
    t = ⟨"A", recordWith added, some "/definitions/A"⟩ ∨
      t = ⟨"B", objectSchema [("a", definitionRef "A")], some "/definitions/B"⟩ := by
  obtain ⟨ts, hts, ht⟩ := h
  rw [entitled_turns hadded, Except.ok.injEq] at hts
  simpa [← hts] using ht

theorem entitled_target (added : Object) :
    localFragment? (entitled added) "#/definitions/A" = some (recordWith added) :=
  local_fragment_along (show _ = some ["definitions", "A"] by decide +kernel)

/-- Of its schemas, only the reference is one. -/
theorem entitled_refers (hadded : added = [] ∨ added = conditions) {reference : String}
    (h : p.schema = textWith added ∨ p.schema = definitionRef "A" ∨ p.schema = recordWith added)
    (hr : p.reference? = some reference) :
    p.schema = definitionRef "A" ∧ reference = "#/definitions/A" := by
  obtain ⟨schema, scope⟩ := p
  rcases h with rfl | rfl | rfl
  · rcases hadded with rfl | rfl <;> exact absurd (show none = some reference from hr) (by simp)
  · exact ⟨rfl, (Option.some.inj (show some "#/definitions/A" = some reference from hr)).symm⟩
  · rcases hadded with rfl | rfl <;> exact absurd (show none = some reference from hr) (by simp)

/-- The nodes that are met in it are the text, the reference and the record that it leads to. -/
theorem met_in_entitled (hadded : added = [] ∨ added = conditions)
    (h : Met offline (.document (entitled added) "") frames p) :
    p.scope.document = entitled added ∧
      (p.schema = textWith added ∨ p.schema = definitionRef "A" ∨ p.schema = recordWith added) := by
  induction h with
  | turn ht hr =>
    rcases entitled_takes hadded ht with rfl | rfl
    · rcases hadded with rfl | rfl <;> exact absurd hr (by decide +kernel)
    · exact absurd hr (by decide +kernel)
  | record ht _ hq =>
    rcases entitled_takes hadded ht with rfl | rfl
    · rcases hadded with rfl | rfl <;>
      · obtain rfl := List.mem_singleton.mp hq
        exact ⟨rfl, Or.inl rfl⟩
    · obtain rfl := List.mem_singleton.mp hq
      exact ⟨rfl, Or.inr (Or.inl rfl)⟩
  | @inner _ p _ _ _ hq ih =>
    obtain ⟨schema, scope⟩ := p
    obtain ⟨hdocument, hschema⟩ := ih
    refine ⟨(inner_below hq).document.trans hdocument, Or.inl ?_⟩
    rcases hschema with rfl | rfl | rfl
    · rcases hadded with rfl | rfl <;> exact (List.not_mem_nil hq).elim
    · exact (List.not_mem_nil hq).elim
    · rcases hadded with rfl | rfl <;>
      · obtain rfl := List.mem_singleton.mp hq
        rfl
  | @target _ p reference located _ _ hr hl ih =>
    have stands : (p.target offline reference located).scope.document = located.document :=
      target_document hr
    obtain ⟨hschema, rfl⟩ := entitled_refers hadded ih.2 hr
    obtain ⟨schema, scope⟩ := p
    obtain rfl := hschema
    rcases hl with hfound | ⟨hpart, -⟩
    · rw [ih.1, entitled_target] at hfound
      obtain rfl := Option.some.inj hfound
      exact ⟨stands.trans ih.1, Or.inr (Or.inr rfl)⟩
    · exact absurd hpart (by decide +kernel)

theorem entitled_composes_nothing (hadded : added = [] ∨ added = conditions) {o : Object}
    (h : .obj o = textWith added ∨ .obj o = definitionRef "A" ∨ .obj o = recordWith added) :
    hasComposition (unconditional o) = false := by
  rcases hadded with rfl | rfl <;> rcases h with h | h | h <;> obtain rfl := Json.obj.inj h <;>
    decide +kernel

theorem entitled_reads_plainly (hadded : added = [] ∨ added = conditions)
    (h : Met offline (.document (entitled added) "") frames p) : p.ReadsPlainly offline := by
  have hschema := (met_in_entitled hadded h).2
  refine ⟨fun o ho hc => ?_, fun o reference l ho hr _ hb => ?_⟩
  · have none := entitled_composes_nothing hadded (ho ▸ hschema)
    exact absurd hc (by simp [none])
  · obtain ⟨hbare, -⟩ := entitled_refers hadded hschema hr
    obtain rfl := Json.obj.inj (ho.symm.trans hbare)
    exact absurd hb (by decide +kernel)

theorem entitled_looks_up (h : Met offline (.document (entitled []) "") frames p) :
    ∀ r ∈ p.lookups, r = "#/definitions/A" := by
  obtain ⟨schema, scope⟩ := p
  rcases (met_in_entitled (Or.inl rfl) h).2 with rfl | rfl | rfl
  · exact fun r hr => (List.not_mem_nil hr).elim
  · exact fun r hr => List.mem_singleton.mp hr
  · exact fun r hr => (List.not_mem_nil hr).elim

theorem entitled_indistinct : Indistinct offline (entitled []) (entitled conditions) "" := by
  refine ⟨fun uri c rest h => ?_, fun call call' hcall hcall' => ?_⟩
  · exact absurd (show some none = some (some (c :: rest)) from congrArg (some ·.2) h) (by simp)
  · obtain rfl := Option.some.inj hcall
    obtain rfl := Option.some.inj hcall'
    refine ⟨fun _ _ h _ => entitled_reads_plainly (Or.inl rfl) h,
      fun _ _ h _ => entitled_reads_plainly (Or.inr rfl) h, fun _ _ h _ _ r hr => ?_⟩
    obtain rfl := entitled_looks_up h r hr
    rw [SameTarget]
    simp only [Call.subject]
    rw [entitled_target, entitled_target]
    rfl

theorem entitled_without_influence :
    ((entitled []).keyed = true ∧ (entitled conditions).keyed = true ∧
      pareDocument (entitled []) = pareDocument (entitled conditions) ∧
      Indistinct offline (entitled []) (entitled conditions) "") ∧
    (convert offline (entitled conditions) "").1 = (convert offline (entitled []) "").1 :=
  have keyed : (entitled []).keyed = true := by decide +kernel
  have keyed' : (entitled conditions).keyed = true := by decide +kernel
  ⟨⟨keyed, keyed', rfl, entitled_indistinct⟩,
    conditionals_without_influence keyed keyed' rfl entitled_indistinct⟩

/-- A reference that leads into a condition. -/
def referenceInside : Json := .obj [("definitions", .obj [("A", recordWith conditions),
  ("B", objectSchema [("a", definitionRef "A/if")])])]

/-- A definition that says nothing but a condition, which is read as a definition of that name. -/
def conditionAlone : Json := .obj [("definitions", .obj [
  ("D", .obj [("if", recordWith [])])])]

def optionWith (added : Object) : Json :=
  .obj [("properties", .obj [("k", .obj [("oneOf", .arr [recordWith added])])])]

/-- A property with one option, in two schemas that are merged. In one of them it has a condition. -/
def optionTwice : Json := .obj [("definitions", .obj [("D", .obj [
  ("allOf", .arr [optionWith [], optionWith conditions])])])]

/-- Options that are no objects, beside a schema that says nothing but a condition. -/
def conditionBeside : Json := .obj [("definitions", .obj [("D", objectSchema [("p", .obj [
  ("allOf", .arr [.obj conditions]), ("oneOf", .arr [.bool false, .str "string"])])])])]

/-- Whether the result depends on the conditional keywords of the document. -/
def Influenced (j : Json) (location : String) : Prop :=
  j.keyed = true ∧ (convert offline j location).1 ≠ (convert offline (j.pare .schema) location).1

instance (j : Json) (location : String) : Decidable (Influenced j location) :=
  inferInstanceAs (Decidable (_ ∧ _))

/-- A condition matters that the location or a reference leads into, that is read as a definition, or
that merging compares. -/
theorem conditions_with_influence : Influenced (entitled conditions) "#/definitions/A/if" ∧
    Influenced referenceInside "" ∧ Influenced conditionAlone "" ∧ Influenced optionTwice "" ∧
    Influenced conditionBeside "" := by
  decide +kernel

end Example

end AvroDerive.Convert
