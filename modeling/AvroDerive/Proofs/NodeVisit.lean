import AvroDerive.Proofs.NodeReference
import AvroDerive.Proofs.ParallelRun

/-! # The nodes inside a definition

A definition is looked through beforehand: which nodes its conversion visits, where, and whether each
of them gets its type from the definition and what it refers to alone. -/
namespace AvroDerive.Convert

open AvroType Json Schema

/-- Where a node stands: the record around it, the field that it is the type of, and whether it is
the definition itself. -/
structure Site where
  home : Bool
  record : String
  field : String

def Site.localName (site : Site) : String := if site.field = "" then site.record else site.field

/-- What is known of a definition before it is converted. -/
structure View where
  name : String
  ns : String
  /-- Whether the type of the definition may have its name. -/
  named : Bool
  baseUri : String
  /-- The names of the records that are made inside the definition. -/
  records : List String
  /-- The references that it may hold. -/
  refers : String → Bool

section Visits

variable (document : Json)

/-- The nodes of numbered alternatives. -/
def alternativeVisits (site : Site) : Nat → List Json → List (Site × Json)
  | _, [] => []
  | n, candidate :: rest =>
    (⟨false, site.record, if refersElsewhere candidate then ""
      else Name.ofText (site.localName ++ "_" ++ toString (n + 1))⟩, candidate) ::
      alternativeVisits site (n + 1) rest

def candidateVisits (site : Site) : List Json → List (Site × Json)
  | [candidate] => [(site, candidate)]
  | candidates => alternativeVisits site 0 candidates

/-- The items of an array. They are no definitions themselves. -/
def itemVisits (site : Site) (o : Object) : List (Site × Json) :=
  match Object.get? o "items" with
  | some (.arr tuple) => tuple.map fun item => ({ site with home := false }, item)
  | some items => [({ site with home := false }, items)]
  | none => []

/-- The nodes of the fields of a record. -/
def recordVisits (record : String) (o : Object) : List (Site × Json) :=
  (((Object.get? o "properties").bind Json.asObject?).getD []).map
      (fun m => (⟨false, record, m.1⟩, m.2)) ++
    ((Object.get? o "additionalProperties").toList.map
      fun schema => (⟨false, record, record ++ "_extensions"⟩, schema)) ++
    (patternsOf o).map (fun m => (⟨false, record, patternName m.1⟩, m.2)) ++
    (Object.get? o "items").toList.map fun items => (⟨false, record, "values"⟩, items)

/-- The nodes that the keywords of a schema hold. -/
def keywordVisits (site : Site) (o : Object) : List (Site × Json) :=
  match Object.get? o "const", Object.get? o "type" with
  | some _, _ => []
  | none, some (.arr types) =>
    if types.any isStructured then
      candidateVisits site
        ((types.filter (!isNullName ·)).map fun type => .obj (Object.insert o "type" type))
    else []
  | none, some (.str type) =>
    if type = "array" then itemVisits site o
    else if type = "object" then recordVisits (Name.ofText site.localName) (unconditional o)
    else []
  | none, some _ => []
  | none, none => itemVisits site o

/-- The nodes that the conversion of a node visits directly. -/
def visits (site : Site) : Json → List (Site × Json)
  | .obj o =>
    if hasComposition (unconditional o) then
      candidateVisits site (expand document (unconditional o)).1
    else if Object.contains (withObjectType (unconditional o)) "$ref" then []
    else keywordVisits site (withObjectType (unconditional o))
  | _ => []

end Visits

/-- Whether a schema is nothing but a reference to another one. -/
def isAlias : Json → Bool
  | .obj o => !hasComposition (unconditional o) &&
    Object.contains (withObjectType (unconditional o)) "$ref"
  | _ => false

section Fits

variable (v : View) (document : Json)

/-- The members of a composition refer only to what the definition may refer to. -/
def memberFits : Json → Bool
  | .obj o => ((Object.get? o "$ref").bind Json.asString?).all v.refers
  | _ => true

def membersFit (o : Object) : Bool :=
  (((Object.get? o "allOf").bind Json.asArray?).getD []).all (memberFits v) &&
    (((Object.get? o "anyOf").bind Json.asArray?).getD []).all (memberFits v)

/-- A type is named at the place of the definition only if it is the definition's enumeration. -/
def isHomely (site : Site) (t : AvroType) : Bool := !t.isNamed || site.home && t.isEnum

/-- The keywords make records of the given names only. Where a type would be named after the
definition it is the definition's own. -/
def keywordFits (site : Site) (o : Object) : Bool :=
  let isObject := (Object.get? o "type").bind Json.asString? == some "object"
  (!isObject || decide (Name.ofText site.localName ∈ v.records)) &&
    (decide (site.field ≠ "") ||
      (!isObject || site.home) &&
        ((Object.get? o "const").bind Json.asString?).all (fun _ => site.home) &&
        isHomely site (primitiveType site.localName ((Object.get? o "format").bind Json.asString?)
          ((Object.get? o "enum").bind Json.asArray?)
          ((Object.get? o "type").getD (.str "string"))).1)

/-- References are bare and lead to where they may. -/
def referenceFits (o : Object) : Bool :=
  isBareReference o && ((Object.get? o "$ref").bind Json.asString?).any v.refers

def fits (site : Site) : Json → Bool
  | .obj o =>
    if hasComposition (unconditional o) then membersFit v (unconditional o)
    else if Object.contains (withObjectType (unconditional o)) "$ref" then
      referenceFits v (withObjectType (unconditional o))
    else keywordFits v site (withObjectType (unconditional o))
  | .arr items => !(primitiveType site.localName none none (.arr items)).1.isNamed
  | _ => true

/-- Every node that is visited within the levels fits. -/
def fitsWithin : Nat → Site → Json → Bool
  | 0, _, _ => true
  | levels + 1, site, j =>
    fits v site j && (visits document site j).all fun p => fitsWithin levels p.1 p.2

end Fits

end AvroDerive.Convert
