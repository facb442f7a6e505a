import AvroDerive.Proofs.CallStep
import AvroDerive.Proofs.ListedType
import AvroDerive.Proofs.NamedReference
import AvroDerive.Proofs.Registration

/-! # Definitions that list types

A definition with an object or an array among the listed types goes straight to the record builder. It is
registered as the record for an object, or else for an array; the other types that it lists count only
where it is converted as a node. -/
namespace AvroDerive.Convert

open AvroType Json Schema

/-- The listed type that the record of a definition is made for. -/
def recordedType (o : Object) (types : List String) : String :=
  if "object" ∈ types ∨ describesProperties o = true then "object" else "array"

section Definition

variable {cfg : Setting} {o : Object} {types : List String} {s s' : State}

theorem ListsTypes.includes (ho : ListsTypes o types) (name : String) :
    typeIncludes o name = decide (name ∈ types) := by
  rw [typeIncludes, ho.listed, Bool.eq_iff_iff, decide_eq_true_iff]
  simp [asString?]

/-- In its turn the schema becomes the record for the type that counts. -/
theorem listed_definition_type (ho : ListsTypes o types) (htop : s.frames = []) {d : Json}
    {baseUri : String} {turn : Turn} {x : Option AvroType} {names : List String}
    (h : (definitionType cfg (.obj o) (turn.scope cfg d baseUri)).Yields s (x, names) s') :
    names = [] ∧ ∃ r, x = some (.record r) ∧
      MadeRecord cfg o ⟨(turn.typeName cfg).1, (turn.typeName cfg).2⟩ (turn.scope cfg d baseUri)
        (recordedType o types == "object") r := by
  have structured : (typeIncludes o "object" || typeIncludes o "array") = true := by
    rw [ho.includes, ho.includes, Bool.or_eq_true, decide_eq_true_iff, decide_eq_true_iff]
    exact ho.structured
  have record : isRecordSchema o = true := by
    rw [isRecordSchema, Bool.or_assoc (Object.contains o "properties"), structured, Bool.or_true,
      Bool.true_or]
  have recorded : (recordedType o types == "object") =
      (typeIncludes o "object" || describesProperties o) := by
    unfold recordedType
    rw [ho.includes]
    by_cases hobject : "object" ∈ types <;> cases describesProperties o <;> simp [hobject]
  unfold definitionType at h
  dsimp only at h
  rw [if_pos record] at h
  obtain ⟨x', s₁, hx, hp⟩ := Run.yields_bind.mp h
  obtain ⟨he, -⟩ := Run.yields_pure.mp hp
  obtain ⟨rfl, rfl⟩ := Prod.mk.inj he
  have itself : SaysBeside o o := ⟨ho.keys, fun _ _ _ => rfl⟩
  obtain ⟨r, rfl, made, -⟩ := object_record_made itself ho.plain
    (by rw [htop]; rfl) (by rw [Bool.or_right_comm, structured, Bool.true_or]) hx
  refine ⟨rfl, r, rfl, ?_⟩
  rw [recorded]
  have legal : Name.ofText (turn.scope cfg d baseUri).record = (turn.typeName cfg).1 :=
    Turn.type_name_legal cfg turn
  rw [legal] at made
  exact made

/-- The record is registered as it is, unless its name is taken. -/
theorem listed_definition_registered (ho : ListsTypes o types) (htop : s.frames = []) {d : Json}
    {baseUri n : String} {turn : Turn} (hschema : turn.schema = .obj o)
    (h : (definition cfg d baseUri turn.name turn.schema turn.pointer).Yields s (some n) s') :
    n = turn.fullName cfg ∧ ∃ r s₁,
      (definitionType cfg (.obj o) (turn.scope cfg d baseUri)).Yields s (some (.record r), []) s₁ ∧
      MadeRecord cfg o ⟨(turn.typeName cfg).1, (turn.typeName cfg).2⟩ (turn.scope cfg d baseUri)
        (recordedType o types == "object") r ∧
      (n ∈ definedNames s₁.registry → s'.registry = s₁.registry) ∧
      (n ∉ definedNames s₁.registry → ∃ entry, s'.registry = s₁.registry ++ [entry] ∧
        entry.toJson = (AvroType.record { r with ns := some (turn.typeName cfg).2 }).toJson) := by
  rcases definition_yields h with ⟨hn, -⟩ | ⟨x, names, s₁, htype, hkeeps⟩
  · simp at hn
  rw [hschema] at htype
  obtain ⟨rfl, r, rfl, made⟩ := listed_definition_type ho htop htype
  have named : ((AvroType.record r).withName (turn.typeName cfg).1).withNs (turn.typeName cfg).2 =
      .record { r with ns := some (turn.typeName cfg).2 } := by
    rw [withName, withNs, made.name]
  have full : (AvroType.record { r with ns := some (turn.typeName cfg).2 }).qualifiedName? =
      some (turn.fullName cfg) := by
    rw [qualifiedName?, name?, ns?, made.name]
    rfl
  cases hkeeps with
  | @registered _ _ names _ hu =>
    obtain ⟨-, rfl⟩ | ⟨hno, -⟩ := hu
    · refine ⟨rfl, r, s₁, htype, made, fun taken => ?_, fun new => ?_⟩
      · dsimp only
        rw [named, Registry.register, full]
        exact if_pos (contains_iff_defined.mpr taken)
      · obtain ⟨entry, hentry, as_registered⟩ := gather_registered_as names
          { r with ns := some (turn.typeName cfg).2 }
        refine ⟨.record entry, ?_, as_registered.written⟩
        dsimp only
        rw [named, Registry.register, full, ← hentry]
        exact if_neg (mt contains_iff_defined.mp new)
    · simp [isRecord] at hno

end Definition

/-- A schema that lists types. As a node, each listed type is represented in its type, as the type that
the schema has with it alone or a reference to that. A definition becomes the record for one of the types,
whatever others are listed: an object if one is listed or the schema describes properties, an array
otherwise. So it keeps all listed types if it lists no other one than that. -/
theorem listed_types_represented (cfg : Setting) (o : Object) (types : List String)
    (ho : ListsTypes o types) :
    (recordNames o ≠ [] → ∀ {scope names s x names' s'}, scope.depth < cfg.options.maxDepth →
      (∀ q, AlternativeAt scope q → Frames.find? s.frames (Name.ofText q.localName) = none) →
      (node cfg (.obj o) scope).Yields names s x names' s' →
      ∃ t, x = some t ∧ ∀ type ∈ types, Represented cfg o scope t type) ∧
    ∀ {d : Json} {baseUri n : String} {turn : Turn} {s s'}, turn.schema = .obj o → s.frames = [] →
      (definition cfg d baseUri turn.name turn.schema turn.pointer).Yields s (some n) s' →
      n = turn.fullName cfg ∧ ∃ r s₁,
        (definitionType cfg (.obj o) (turn.scope cfg d baseUri)).Yields s (some (.record r), []) s₁ ∧
        MadeRecord cfg o ⟨(turn.typeName cfg).1, (turn.typeName cfg).2⟩ (turn.scope cfg d baseUri)
          (recordedType o types == "object") r ∧
        (n ∈ definedNames s₁.registry → s'.registry = s₁.registry) ∧
        (n ∉ definedNames s₁.registry → ∃ entry, s'.registry = s₁.registry ++ [entry] ∧
          entry.toJson = (AvroType.record { r with ns := some (turn.typeName cfg).2 }).toJson) :=
  ⟨fun hsome _ _ _ _ _ _ hdepth hnew h => listed_node_yields ho hsome hdepth hnew h,
    fun hschema htop h => listed_definition_registered ho htop hschema h⟩

/-- A schema with a property that lists the types. -/
def listSchema (types : List String) : Object :=
  [("type", .arr (types.map .str)), ("properties", .obj [("n", .obj [("type", .str "integer")])]),
    ("required", .arr [.str "n"])]

theorem lists_list_schema {types : List String} (h : "object" ∈ types) : ListsTypes (listSchema types) types where
  keys := show ["type", "properties", "required"].Nodup by decide
  plain := rfl
  own := rfl
  varies := rfl
  listed := rfl
  structured := Or.inl h

/-- The document with the schema as its definition `D`. -/
def listDocument (types : List String) : Json :=
  .obj [("definitions", .obj [("D", .obj (listSchema types))])]

def listTurn (types : List String) : Turn :=
  ⟨"D", .obj (listSchema types), some "/definitions/D"⟩

/-- Where the definition is converted as a node. -/
def listScope (types : List String) : Scope := .root "D" "ns" (listDocument types) ""

/-- A definition of an object or nothing: the node has both types, the definition is the record of the
object. -/
theorem optional_object_represented : ListsTypes (listSchema ["null", "object"]) ["null", "object"] ∧
    recordNames (listSchema ["null", "object"]) ≠ [] ∧
    (∃ t names s, (node offline (.obj (listSchema ["null", "object"]))
        (listScope ["null", "object"])).Yields [] {} (some t) names s ∧
      ∀ type ∈ ["null", "object"],
        Represented offline (listSchema ["null", "object"]) (listScope ["null", "object"]) t type) ∧
    ∃ r s, s.registry.length = 1 ∧ (definition offline (listDocument ["null", "object"]) "" "D"
        (.obj (listSchema ["null", "object"])) (some "/definitions/D")).Yields {} (some "ns.D") s ∧
      MadeRecord offline (listSchema ["null", "object"]) ⟨"D", "ns"⟩ (listScope ["null", "object"]) true
        r := by
  have lists : ListsTypes (listSchema ["null", "object"]) ["null", "object"] := lists_list_schema (by decide)
  have both := listed_types_represented offline (listSchema ["null", "object"]) ["null", "object"] lists
  refine ⟨lists, by decide, ?_, ?_⟩
  · obtain ⟨t, names, s, run⟩ : ∃ t names s, (node offline (.obj (listSchema ["null", "object"]))
        (listScope ["null", "object"])).Yields [] {} t names s := ⟨_, _, _, rfl⟩
    obtain ⟨t, rfl, each⟩ := both.1 (by decide) (by decide) (fun _ _ => rfl) run
    exact ⟨t, names, s, run, each⟩
  · obtain ⟨s, run, hone⟩ : ∃ s, (definition offline (listDocument ["null", "object"]) "" "D"
        (.obj (listSchema ["null", "object"])) (some "/definitions/D")).Yields {} (some "ns.D") s ∧
        s.registry.length = 1 := ⟨_, rfl, rfl⟩
    have written : (listTurn ["null", "object"]).schema = .obj (listSchema ["null", "object"]) := rfl
    obtain ⟨-, r, -, -, made, -⟩ := both.2 written rfl run
    exact ⟨r, s, hone, run, made⟩

/-- A definition of an object or a text is registered without the text, which the node has. -/
theorem mixed_definition_lacks_text : ListsTypes (listSchema ["object", "string"]) ["object", "string"] ∧
    (∃ registered s, (definition offline (listDocument ["object", "string"]) "" "D"
        (.obj (listSchema ["object", "string"])) (some "/definitions/D")).Yields {} (some "ns.D") s ∧
      s.registry = [registered] ∧ .primitive "string" ∉ registered.parts) ∧
    ∃ r names s, (node offline (.obj (listSchema ["object", "string"]))
      (listScope ["object", "string"])).Yields [] {}
        (some (.union [.record r, .primitive "string"])) names s :=
  ⟨lists_list_schema (by decide), ⟨_, _, rfl, rfl, by decide +kernel⟩, _, _, _, rfl⟩

end AvroDerive.Convert
