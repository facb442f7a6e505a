import AvroDerive.Json.Number

/-! # Equality of JSON values

The order of an object's keys does not count, that of an array's items does.
-/

namespace AvroDerive.Json

mutual

def same : Json → Json → Bool
  | .null, .null => true
  | .bool a, .bool b => a == b
  | .num a, .num b => a.same b
  | .str a, .str b => a == b
  | .arr a, .arr b => sameItems a b
  | .obj a, .obj b => a.length == b.length && sameMembers a b
  | _, _ => false

def sameItems : List Json → List Json → Bool
  | [], [] => true
  | a :: as, b :: bs => same a b && sameItems as bs
  | _, _ => false

/-- Every member of the first list has a counterpart in the second. -/
def sameMembers : List (String × Json) → List (String × Json) → Bool
  | [], _ => true
  | (key, value) :: rest, other =>
    (match other.lookup key with
      | some value' => same value value'
      | none => false) && sameMembers rest other

end

/-- Membership up to equality. -/
def elem (j : Json) (items : List Json) : Bool := items.any fun item => item.same j

end AvroDerive.Json
