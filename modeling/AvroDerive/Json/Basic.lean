/-! # JSON values

An object is the list of its members in the order in which the keys were first inserted; a key
occurs at most once in every object that the operations below build.
-/

namespace AvroDerive

/-- A JSON number is an integer or a binary64 value given by its bits. The two stay apart, so
`1` is not `1.0`. -/
inductive Number where
  | int (value : Int)
  | float (bits : UInt64)
  deriving DecidableEq, Repr, Inhabited

inductive Json where
  | null
  | bool (value : Bool)
  | num (value : Number)
  | str (text : String)
  | arr (items : List Json)
  | obj (members : List (String × Json))
  deriving Inhabited

/-- The members of a JSON object. -/
abbrev Object := List (String × Json)

namespace Object

def get? (o : Object) (key : String) : Option Json := o.lookup key

def contains (o : Object) (key : String) : Bool := (get? o key).isSome

def keys (o : Object) : List String := o.map Prod.fst

/-- A key that is present keeps its place and takes the new value; a new key goes to the end. -/
def insert : Object → String → Json → Object
  | [], key, value => [(key, value)]
  | (k, v) :: rest, key, value =>
    if k = key then (k, value) :: rest else (k, v) :: insert rest key value

/-- Inserts from left to right. -/
def ofList (members : List (String × Json)) : Object :=
  members.foldl (fun o m => insert o m.1 m.2) []

/-- The last member moves into the place of the erased one. -/
def erase (o : Object) (key : String) : Object :=
  match o.getLast? with
  | none => []
  | some last =>
    if contains o key then
      if last.1 = key then o.dropLast
      else o.dropLast.map fun m => if m.1 = key then last else m
    else o

@[simp] theorem get?_nil (key : String) : get? [] key = none := rfl

theorem get?_cons (k key : String) (v : Json) (o : Object) :
    get? ((k, v) :: o) key = if key = k then some v else get? o key := by
  simp only [get?, List.lookup_cons]
  grind

theorem get?_insert (o : Object) (k key : String) (v : Json) :
    get? (insert o k v) key = if key = k then some v else get? o key := by
  induction o with
  | nil => simp [insert, get?_cons]
  | cons m o ih =>
    obtain ⟨k', v'⟩ := m
    by_cases hk : k' = k
    · subst hk
      by_cases h : key = k' <;> simp [insert, get?_cons, h]
    · by_cases h : key = k'
      · subst h; simp [insert, get?_cons, hk]
      · simp [insert, get?_cons, hk, h, ih]

/-- Inserting a key that is there leaves the keys as they are. -/
theorem keys_insert (o : Object) (key : String) (v : Json) :
    keys (insert o key v) = if key ∈ keys o then keys o else keys o ++ [key] := by
  induction o with
  | nil => simp [insert, keys]
  | cons m o ih =>
    simp only [keys, insert] at *
    grind

theorem nodup_keys_insert {o : Object} (h : (keys o).Nodup) (key : String) (v : Json) :
    (keys (insert o key v)).Nodup := by
  rw [keys_insert]
  split
  · exact h
  · next hk => exact List.nodup_append.2 ⟨h, by simp, by grind⟩

theorem nodup_keys_ofList (members : List (String × Json)) : (keys (ofList members)).Nodup := by
  have all : ∀ o : Object, (keys o).Nodup →
      (keys (members.foldl (fun o m => insert o m.1 m.2) o)).Nodup := by
    induction members with
    | nil => exact fun o h => h
    | cons m members ih => exact fun o h => ih _ (nodup_keys_insert h m.1 m.2)
  exact all [] List.nodup_nil

end Object

namespace Json

def asObject? : Json → Option Object
  | .obj members => some members
  | _ => none

def asArray? : Json → Option (List Json)
  | .arr items => some items
  | _ => none

def asString? : Json → Option String
  | .str text => some text
  | _ => none

def asBool? : Json → Option Bool
  | .bool value => some value
  | _ => none

/-- The member of an object; a value that is no object has none. -/
def get? (j : Json) (key : String) : Option Json :=
  j.asObject?.bind fun o => Object.get? o key

def ofNat (n : Nat) : Json := .num (.int n)

/-- A list of texts as an array. -/
def ofStrings (texts : List String) : Json := .arr (texts.map .str)

end Json

end AvroDerive
