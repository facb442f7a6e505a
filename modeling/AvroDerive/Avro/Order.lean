import AvroDerive.Avro.Type

/-! # Emission order

A type is ready when each name it depends on is its own, is defined nowhere in the list, or is
emitted already. Passes over the types that remain emit the ready ones; a pass that finds none
emits the first of them all the same and reports it as the place where a cycle remains.
-/

namespace AvroDerive.AvroType

/-- The qualified names defined at the top of a list of types. -/
def definedNames (types : List AvroType) : List String := types.filterMap qualifiedName?

def isReady (known emitted : List String) (t : AvroType) : Bool :=
  t.ownDependencies.all fun name =>
    decide (some name = t.qualifiedName?) || !decide (name ∈ known) || decide (name ∈ emitted)

structure Pass where
  emitted : List AvroType
  held : List AvroType
  /-- The names emitted up to the end of the pass. -/
  names : List String

/-- One pass. What it emits counts as emitted for the types after it. -/
def pass (known : List String) : List String → List AvroType → Pass
  | names, [] => ⟨[], [], names⟩
  | names, t :: ts =>
    if isReady known names t then
      let rest := pass known (names ++ t.qualifiedName?.toList) ts
      { rest with emitted := t :: rest.emitted }
    else
      let rest := pass known names ts
      { rest with held := t :: rest.held }

/-- An ordered list of types, and the names at which cycles were broken. -/
structure Ordered where
  types : List AvroType
  brokenAt : List String

/-- Passes until nothing remains; every round emits a type, so `rounds` need not exceed their
number. -/
def orderFrom (known : List String) : Nat → List String → List AvroType → Ordered
  | 0, _, remaining => ⟨remaining, []⟩
  | _ + 1, _, [] => ⟨[], []⟩
  | rounds + 1, names, t :: ts =>
    let p := pass known names (t :: ts)
    if p.emitted.isEmpty then
      let name := t.qualifiedName?.getD ""
      let rest := orderFrom known rounds (names ++ [name]) ts
      ⟨t :: rest.types, name :: rest.brokenAt⟩
    else
      let rest := orderFrom known rounds p.names p.held
      { rest with types := p.emitted ++ rest.types }

def order (types : List AvroType) : Ordered :=
  orderFrom (definedNames types) types.length [] types

end AvroDerive.AvroType
