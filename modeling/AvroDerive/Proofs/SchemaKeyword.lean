import AvroDerive.Proofs.Outcome

/-! # What keywords say

The keywords of a schema that is typed by itself say one of six things about its type. Which of them
they say, by the order in which they are looked at, is settled here once, so that a property of the
type needs a case for each. -/
namespace AvroDerive.Convert

open AvroType Json

/-- What the keywords of a schema say about its type: a constant, a list of types, an array, an
object, another value of the `type` keyword, or nothing. -/
inductive Keyword
  | constant (value : Json)
  | listed (types : List Json)
  | array
  | object
  | named (type : Json)
  | silent

/-- The type of a schema whose keywords say so. -/
def Keyword.type (node : NodeConverter) (o : Object) (scope : Scope) :
    Keyword → Build (Option AvroType)
  | .constant value => return some (constantType scope value)
  | .listed types => listedType node types o scope
  | .array => return some (← arrayType node o scope)
  | .object => inlineRecord node o scope
  | .named type => return some (← primitive scope ((Object.get? o "format").bind asString?)
      ((Object.get? o "enum").bind asArray?) type)
  | .silent => return none

/-- What is said, and by which keywords. A constant comes before everything else, and the `type`
keyword before those that go without it. -/
inductive Says (o : Object) : Keyword → Prop
  | constant {value : Json} (const : Object.get? o "const" = some value) : Says o (.constant value)
  | listed {types : List Json} (const : Object.get? o "const" = none)
      (type : Object.get? o "type" = some (.arr types)) : Says o (.listed types)
  | array (const : Object.get? o "const" = none)
      (type : Object.get? o "type" = some (.str "array")) : Says o .array
  | object (const : Object.get? o "const" = none)
      (type : Object.get? o "type" = some (.str "object")) : Says o .object
  | named {value : Json} (const : Object.get? o "const" = none)
      (type : Object.get? o "type" = some value) (list : ∀ types, value ≠ .arr types)
      (array : value ≠ .str "array") (object : value ≠ .str "object") : Says o (.named value)
  | items (const : Object.get? o "const" = none) (type : Object.get? o "type" = none)
      (enum : (Object.get? o "enum").bind asArray? = none)
      (items : Object.contains o "items" = true) : Says o .array
  | texts (const : Object.get? o "const" = none) (type : Object.get? o "type" = none)
      (enum : ((Object.get? o "enum").bind asArray?).isSome = true) : Says o (.named (.str "string"))
  | format (const : Object.get? o "const" = none) (type : Object.get? o "type" = none)
      (enum : (Object.get? o "enum").bind asArray? = none)
      (items : Object.contains o "items" = false)
      (format : ((Object.get? o "format").bind asString?).isSome = true) :
      Says o (.named (.str "string"))
  | silent (const : Object.get? o "const" = none) (type : Object.get? o "type" = none)
      (enum : (Object.get? o "enum").bind asArray? = none)
      (items : Object.contains o "items" = false)
      (format : (Object.get? o "format").bind asString? = none) : Says o .silent

section Says

variable {o : Object} {k : Keyword} {node : NodeConverter} {scope : Scope}

/-- Every schema says something, if only that it is silent. -/
theorem said (o : Object) : ∃ k, Says o k := by
  cases hconst : Object.get? o "const" with
  | some value => exact ⟨_, .constant hconst⟩
  | none =>
    cases htype : Object.get? o "type" with
    | none =>
      cases henum : (Object.get? o "enum").bind asArray? with
      | some values => exact ⟨_, .texts hconst htype (by rw [henum]; rfl)⟩
      | none =>
        cases hitems : Object.contains o "items" with
        | true => exact ⟨_, .items hconst htype henum hitems⟩
        | false =>
          cases hformat : (Object.get? o "format").bind asString? with
          | some format => exact ⟨_, .format hconst htype henum hitems (by rw [hformat]; rfl)⟩
          | none => exact ⟨_, .silent hconst htype henum hitems hformat⟩
    | some value =>
      cases value with
      | arr types => exact ⟨_, .listed hconst htype⟩
      | str name =>
        by_cases harray : name = "array"
        · exact ⟨_, .array hconst (harray ▸ htype)⟩
        · by_cases hobject : name = "object"
          · exact ⟨_, .object hconst (hobject ▸ htype)⟩
          · exact ⟨_, .named hconst htype nofun (by simpa using harray) (by simpa using hobject)⟩
      | _ => exact ⟨_, .named hconst htype nofun nofun nofun⟩

theorem Says.type_eq (h : Says o k) : keywordType node o scope = k.type node o scope := by
  unfold keywordType Keyword.type
  dsimp only
  cases h with
  | constant const => simp only [const]
  | listed const type => simp only [const, type]
  | array const type => simp only [const, type, if_true]
  | object const type => simp only [const, type, if_neg (show "object" ≠ "array" by decide), if_true]
  | @named value const type list array object =>
    simp only [const, type]
    cases value with
    | arr types => exact absurd rfl (list types)
    | str name =>
      dsimp only
      rw [if_neg (by simpa using array), if_neg (by simpa using object)]
    | _ => rfl
  | items const type enum items => simp [const, type, enum, items]
  | texts const type enum => simp only [const, type, if_pos enum]
  | format const type enum items format => simp [const, type, enum, items, format]
  | silent const type enum items format => simp [const, type, enum, items, format]

theorem Says.listed_types {types : List Json} (h : Says o (.listed types)) :
    Object.get? o "type" = some (.arr types) := by
  cases h with
  | listed _ type => exact type

/-- Where the `type` keyword is missing, a schema that is no array is one of texts. -/
theorem Says.named_type {type : Json} (h : Says o (.named type)) :
    (Object.get? o "type").getD (.str "string") = type := by
  cases h with
  | named _ htype => rw [htype, Option.getD_some]
  | texts _ htype => rw [htype, Option.getD_none]
  | format _ htype => rw [htype, Option.getD_none]

end Says

section Given

variable {node : NodeConverter} {scope : Scope} {o : Object} {names names' : List String}
  {s s' : State}

/-- A value of the `type` keyword is not converted; its names are gathered. -/
theorem primitive_yields {format : Option String} {values : Option (List Json)} {type : Json}
    {t : AvroType} (h : (primitive scope format values type).Yields names s t names' s') :
    t = (Schema.primitiveType scope.localName format values type).1 ∧
      names' = addAll names (Schema.primitiveType scope.localName format values type).2 ∧ s' = s := by
  unfold primitive at h
  obtain ⟨_, names₁, s₁, hgather, hp⟩ := Build.yields_bind.mp h
  obtain ⟨rfl, rfl⟩ := Build.yields_dependAll.mp hgather
  obtain ⟨rfl, rfl, rfl⟩ := Build.yields_pure.mp hp
  exact ⟨rfl, rfl, rfl⟩

/-- A record passes its dependencies on; where there is none, nothing is passed on. -/
theorem inline_record_yields {t : Option AvroType}
    (h : (inlineRecord node o scope).Yields names s t names' s') :
    ∃ r, (objectRecord node scope.localName scope.typeNs o scope).Yields s r s' ∧
      t = r.map clearDependencies ∧ names' = names ++ r.elim [] AvroType.dependencies := by
  unfold inlineRecord at h
  obtain ⟨r, names₁, s₁, hlift, hrest⟩ := Build.yields_bind.mp h
  obtain ⟨hrecord, rfl⟩ := Build.yields_lift.mp hlift
  split at hrest
  · next r =>
    obtain ⟨_, names₂, s₂, hlifted, hp⟩ := Build.yields_bind.mp hrest
    obtain ⟨rfl, rfl⟩ := Build.yields_lift_names.mp hlifted
    obtain ⟨rfl, rfl, rfl⟩ := Build.yields_pure.mp hp
    exact ⟨some r, hrecord, rfl, rfl⟩
  · obtain ⟨rfl, rfl, rfl⟩ := Build.yields_pure.mp hrest
    exact ⟨none, hrecord, rfl, by simp⟩

end Given

end AvroDerive.Convert
