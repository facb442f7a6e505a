import AvroDerive.Proofs.ImportStep
import AvroDerive.Proofs.ReferenceRepeated
import AvroDerive.Proofs.SchemaKeyword

/-! # Where nodes are converted

A node is converted at a scope. Where the nodes inside it are converted can be read off the node, and
where a reference leads to off the fragment that is found. -/
namespace AvroDerive.Convert

open AvroType Json Schema

/-- A node and the scope at which it is converted. -/
structure Spot where
  schema : Json
  scope : Scope

section Spots

variable (scope : Scope)

def alternativeSpots : Nat → List Json → List Spot
  | _, [] => []
  | n, candidate :: rest =>
    ⟨candidate, scope.forField (if refersElsewhere candidate then ""
      else Name.ofText (scope.localName ++ "_" ++ toString (n + 1)))⟩ ::
      alternativeSpots (n + 1) rest

def candidateSpots : List Json → List Spot
  | [candidate] => [⟨candidate, scope.deeper⟩]
  | candidates => alternativeSpots scope 0 candidates

def itemSpots (o : Object) : List Spot :=
  match Object.get? o "items" with
  | some (.arr tuple) => tuple.map fun item => ⟨item, scope.deeper⟩
  | some items => [⟨items, scope.deeper⟩]
  | none => []

/-- The nodes of the fields of a record, given the scope of its fields. -/
def fieldSpots (o : Object) : List Spot :=
  (((Object.get? o "properties").bind Json.asObject?).getD []).map
      (fun m => ⟨m.2, scope.forField m.1⟩) ++
    (Object.get? o "additionalProperties").toList.map
      (fun schema => ⟨schema, scope.forField (scope.record ++ "_extensions")⟩) ++
    (patternsOf o).map (fun m => ⟨m.2, scope.forField (patternName m.1)⟩) ++
    (Object.get? o "items").toList.map fun items => ⟨items, scope.forField "values"⟩

/-- The nodes inside an object schema that becomes a record of the given name. -/
def recordSpots (name ns : String) (o : Object) : List Spot :=
  if hasComposition (unconditional o) then
    [⟨.obj (unconditional o), (scope.forRecord name ns).forField "value"⟩]
  else fieldSpots (scope.forRecord (Name.ofText name) ns) (unconditional o)

/-- The types of a list but `null`, each as a schema of its own. -/
def listedCandidates (types : List Json) (o : Object) : List Json :=
  (types.filter (!isNullName ·)).map fun type => .obj (Object.insert o "type" type)

/-- The nodes that the keywords of a schema hold. -/
def keywordSpots (o : Object) : List Spot :=
  match Object.get? o "const", Object.get? o "type" with
  | some _, _ => []
  | none, some (.arr types) =>
    if types.any isStructured then candidateSpots scope (listedCandidates types o) else []
  | none, some (.str type) =>
    if type = "array" then itemSpots scope o
    else if type = "object" then recordSpots scope scope.localName scope.typeNs o
    else []
  | none, some _ => []
  | none, none => itemSpots scope o

/-- The type that the keywords of a schema have by themselves. -/
def plainKeyword? (o : Object) : Option AvroType :=
  let format := (Object.get? o "format").bind Json.asString?
  let values := (Object.get? o "enum").bind Json.asArray?
  let primitive (values : Option (List Json)) (type : Json) : AvroType :=
    (primitiveType scope.localName format values type).1
  match Object.get? o "const", Object.get? o "type" with
  | some constant, _ => some (constantType scope constant)
  | none, some (.arr types) =>
    if types.any isStructured then none else some (primitive values (.arr types))
  | none, some (.str type) =>
    if type = "array" ∨ type = "object" then none else some (primitive values (.str type))
  | none, some type => some (primitive values type)
  | none, none =>
    if values.isSome then some (primitive values (.str "string"))
    else if Object.contains o "items" then none
    else if format.isSome then some (primitive none (.str "string"))
    else none

/-- The nodes that the keywords hold, by what they say. -/
def Keyword.spots (o : Object) : Keyword → List Spot
  | .listed types =>
    if types.any isStructured then candidateSpots scope (listedCandidates types o) else []
  | .array => itemSpots scope o
  | .object => recordSpots scope scope.localName scope.typeNs o
  | _ => []

/-- The type that the keywords have by themselves, by what they say. -/
def Keyword.plain? (o : Object) (k : Keyword) : Option AvroType :=
  let primitive (type : Json) : AvroType :=
    (primitiveType scope.localName ((Object.get? o "format").bind asString?)
      ((Object.get? o "enum").bind asArray?) type).1
  match k with
  | .constant value => some (constantType scope value)
  | .listed types => if types.any isStructured then none else some (primitive (.arr types))
  | .named type => some (primitive type)
  | _ => none

variable {scope} {o : Object} {k : Keyword}

/-- What the keywords hold is an alternative of the listed types, an item, or inside a record. -/
theorem keyword_spots_cases {q : Spot} (h : q ∈ keywordSpots scope o) :
    (∃ types, Object.get? o "type" = some (.arr types) ∧
      q ∈ candidateSpots scope (listedCandidates types o)) ∨
    q ∈ itemSpots scope o ∨ q ∈ recordSpots scope scope.localName scope.typeNs o := by
  unfold keywordSpots at h
  split at h
  · simp at h
  · next types _ htype =>
    split at h
    · exact Or.inl ⟨types, htype, h⟩
    · simp at h
  · split at h
    · exact Or.inr (Or.inl h)
    · split at h
      · exact Or.inr (Or.inr h)
      · simp at h
  · simp at h
  · exact Or.inr (Or.inl h)

/-- Items are nodes inside also where listed values keep a schema from being an array. -/
theorem Says.spots_subset (h : Says o k) : k.spots scope o ⊆ keywordSpots scope o := by
  unfold keywordSpots
  cases h with
  | constant const => simp only [const, Keyword.spots, List.Subset.refl]
  | listed const type => simp only [const, type, Keyword.spots, List.Subset.refl]
  | array const type => simp only [const, type, Keyword.spots, if_true, List.Subset.refl]
  | object const type =>
    simp only [const, type, Keyword.spots, if_neg (show "object" ≠ "array" by decide), if_true,
      List.Subset.refl]
  | items const type _ _ => simp only [const, type, Keyword.spots, List.Subset.refl]
  | _ => exact List.nil_subset _

theorem Says.plain_eq (h : Says o k) : plainKeyword? scope o = k.plain? scope o := by
  unfold plainKeyword? Keyword.plain?
  dsimp only
  cases h with
  | constant const => simp only [const]
  | listed const type => simp only [const, type]
  | array const type => simp only [const, type, true_or, if_true]
  | object const type => simp only [const, type, or_true, if_true]
  | @named value const type list array object =>
    simp only [const, type]
    cases value with
    | arr types => exact absurd rfl (list types)
    | str name =>
      dsimp only
      rw [if_neg (by simpa using And.intro array object)]
    | _ => rfl
  | items const type enum items => simp [const, type, enum, items]
  | texts const type enum => simp only [const, type, if_pos enum]
  | format const type enum items format => simp [const, type, enum, items, format]
  | silent const type enum items format => simp [const, type, enum, items, format]

end Spots

/-- The type of candidates, a single one of which is converted at once. -/
def soleOrUnited (node : NodeConverter) (scope : Scope) (candidates : List Json) :
    Build (Option AvroType) :=
  match candidates with
  | [single] => node single scope.deeper
  | others => candidatesType node false scope others

/-- A list that holds an object or an array stands for its types but `null`. -/
theorem listed_type_eq (node : NodeConverter) {types : List Json} (o : Object) (scope : Scope)
    (h : types.any isStructured = true) : listedType node types o scope =
      soleOrUnited node scope (listedCandidates types o) >>= fun t =>
        if types.any isNullName then return t.map fun t => unionOf [.null, t] else return t := by
  unfold listedType listedCandidates
  rw [if_pos h]
  rcases types.filter (!isNullName ·) with _ | ⟨t, _ | ⟨t', ts⟩⟩ <;> rfl

/-- A list of types gives a primitive type, or with an object or an array in it the type of its
alternatives, and `null` beside that if it is listed. -/
theorem listed_type_cases {node : NodeConverter} {types : List Json} {o : Object} {scope : Scope}
    {names names' : List String} {s s' : State} {t : Option AvroType}
    (h : (listedType node types o scope).Yields names s t names' s') :
    (types.any isStructured = false ∧ ∃ u, t = some u ∧
      (primitive scope ((Object.get? o "format").bind asString?)
        ((Object.get? o "enum").bind asArray?) (.arr types)).Yields names s u names' s') ∨
    (types.any isStructured = true ∧ ∃ x,
      (soleOrUnited node scope (listedCandidates types o)).Yields names s x names' s' ∧
      (t = x ∨ t = x.map fun t => unionOf [.null, t])) := by
  cases hs : types.any isStructured with
  | false =>
    rw [listedType, if_neg (by simp [hs])] at h
    exact Or.inl ⟨rfl, Build.yields_some.mp h⟩
  | true =>
    rw [listed_type_eq node o scope hs] at h
    obtain ⟨x, names₁, s₁, hx, hrest⟩ := Build.yields_bind.mp h
    split at hrest
    · obtain ⟨rfl, rfl, rfl⟩ := Build.yields_pure.mp hrest
      exact Or.inr ⟨rfl, _, hx, Or.inr rfl⟩
    · obtain ⟨rfl, rfl, rfl⟩ := Build.yields_pure.mp hrest
      exact Or.inr ⟨rfl, _, hx, Or.inl rfl⟩

namespace Spot

/-- An object node as its conversion reads it. -/
def plainObject (o : Object) : Object := withObjectType (unconditional o)

/-- Whether an object node gets its type from its own keywords, and stands for no other node. -/
def isOwn (o : Object) : Bool :=
  !hasComposition (unconditional o) && !Object.contains (plainObject o) "$ref"

def own (p : Spot) : Bool :=
  match p.schema with
  | .obj o => isOwn o
  | _ => false

/-- The nodes that are converted as parts of the node. -/
def inner (p : Spot) : List Spot :=
  match p.schema with
  | .obj o =>
    if hasComposition (unconditional o) then
      candidateSpots p.scope (expand p.scope.document (unconditional o)).1
    else if Object.contains (plainObject o) "$ref" then []
    else keywordSpots p.scope (plainObject o)
  | _ => []

/-- The type that the node has by itself, if no other node is converted for it. -/
def plain? (p : Spot) : Option AvroType :=
  match p.schema with
  | .obj o =>
    if hasComposition (unconditional o) || Object.contains (plainObject o) "$ref" then none
    else plainKeyword? p.scope (plainObject o)
  | .str text => some (primitiveType p.scope.localName none none (.str text)).1
  | .arr items => some (primitiveType p.scope.localName none none (.arr items)).1
  | _ => none

/-- The reference that the node is. -/
def reference? (p : Spot) : Option String :=
  match p.schema with
  | .obj o =>
    if hasComposition (unconditional o) then none
    else (Object.get? (plainObject o) "$ref").bind Json.asString?
  | _ => none

end Spot

/-- The type is that of a constant, or of a value of the `type` keyword. -/
def Spot.IsPlain (p : Spot) (t : AvroType) : Prop :=
  (∃ constant, t = constantType p.scope constant) ∨
    ∃ format values type, t = (primitiveType p.scope.localName format values type).1

theorem Spot.is_plain {p : Spot} {t : AvroType} (h : p.plain? = some t) : p.IsPlain t := by
  have keyword : ∀ {format values type},
      some (primitiveType p.scope.localName format values type).1 = some t → p.IsPlain t :=
    fun h => Or.inr ⟨_, _, _, (Option.some.inj h).symm⟩
  unfold Spot.plain? at h
  split at h
  · next o _ =>
    split at h
    · simp at h
    · obtain ⟨k, hk⟩ := said (plainObject o)
      rw [hk.plain_eq] at h
      cases k with
      | constant value => exact Or.inl ⟨_, (Option.some.inj h).symm⟩
      | listed types =>
        rw [Keyword.plain?] at h
        split at h
        · simp at h
        · exact keyword h
      | named type => exact keyword h
      | _ => simp [Keyword.plain?] at h
  · exact keyword h
  · exact keyword h
  · simp at h

/-- The node that is converted for a reference when its fragment is found: the fragment, or if keys
stand beside the reference, the fragment merged with them. -/
def referenceSpot (cfg : Setting) (o : Object) (scope : Scope) (reference : String)
    (located : Located) : Spot :=
  if isBareReference o then ⟨located.fragment, (Import.mk reference scope located).inner cfg⟩
  else ⟨.obj (mergeAll [.obj (Object.erase o "$ref"), located.fragment]).1,
    (scope.withDocument located.document located.baseUri).deeper⟩

/-- The node that is converted for the reference that a node is. -/
def Spot.target (cfg : Setting) (p : Spot) (reference : String) (located : Located) : Spot :=
  match p.schema with
  | .obj o => referenceSpot cfg (plainObject o) p.scope reference located
  | _ => p

end AvroDerive.Convert
