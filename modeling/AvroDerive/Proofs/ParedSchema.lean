import AvroDerive.Proofs.ObjectSchema
import Mathlib.Data.List.Perm.Subperm

/-! # Schemas without their conditional keywords

Conditional keywords are dropped from a schema when it is converted. What it says without them, at any
depth, is its pared form. Where an object holds names and not keywords, a name is kept even if it reads
like a keyword. -/
namespace AvroDerive

open Schema

/-- How the keys of an object are read. -/
inductive Role where
  /-- As the keywords of a schema. -/
  | schema
  /-- As names of properties or definitions. -/
  | names
  deriving DecidableEq

namespace Role

/-- Keywords whose objects give schemas by name. -/
def nameKeywords : List String := ["properties", "patternProperties", "definitions", "$defs"]

/-- How the keys of the objects under a key are read. -/
def under (r : Role) (key : String) : Role :=
  if r = .schema ∧ key ∈ nameKeywords then .names else .schema

/-- Whether a key is dropped. -/
def drops : Role → String → Bool
  | .schema, key => decide (key ∈ conditionalKeywords)
  | .names, _ => false

theorem keeps {key : String} (h : key ∉ conditionalKeywords) (r : Role) : r.drops key = false := by
  cases r with
  | schema => exact decide_eq_false h
  | names => rfl

end Role

namespace Json

mutual

/-- The value without the conditional keywords in it. -/
def pare (r : Role) : Json → Json
  | .arr items => .arr (pareItems r items)
  | .obj members => .obj (pareMembers r members)
  | j => j

def pareItems (r : Role) : List Json → List Json
  | [] => []
  | item :: items => pare r item :: pareItems r items

def pareMembers (r : Role) : List (String × Json) → List (String × Json)
  | [] => []
  | (key, value) :: members =>
    if r.drops key then pareMembers r members
    else (key, pare (r.under key) value) :: pareMembers r members

end

mutual

/-- Whether the keys of every object in the value are distinct, as they are in what is read from a
text. -/
def keyed : Json → Bool
  | .arr items => keyedItems items
  | .obj members => decide (Object.keys members).Nodup && keyedMembers members
  | _ => true

def keyedItems : List Json → Bool
  | [] => true
  | item :: items => item.keyed && keyedItems items

def keyedMembers : List (String × Json) → Bool
  | [] => true
  | (_, value) :: members => value.keyed && keyedMembers members

end

section Pare

variable {r : Role} {o : Object} {key : String}

theorem pare_items (items : List Json) : pareItems r items = items.map (pare r) := by
  induction items with
  | nil => rfl
  | cons item items ih => rw [pareItems, ih, List.map_cons]

@[simp] theorem pare_arr (items : List Json) : (Json.arr items).pare r = .arr (items.map (pare r)) := by
  rw [pare, pare_items]

@[simp] theorem pare_obj (o : Object) : (Json.obj o).pare r = .obj (pareMembers r o) := by
  rw [pare]

@[simp] theorem pare_str (text : String) : (Json.str text).pare r = .str text := by
  rw [pare] <;> simp

@[simp] theorem pare_bool (b : Bool) : (Json.bool b).pare r = .bool b := by
  rw [pare] <;> simp

@[simp] theorem pare_num (n : Number) : (Json.num n).pare r = .num n := by
  rw [pare] <;> simp

@[simp] theorem pare_null : Json.null.pare r = .null := by
  rw [pare] <;> simp

theorem get_pare : Object.get? (pareMembers r o) key =
    if r.drops key then none else (Object.get? o key).map (pare (r.under key)) := by
  induction o with
  | nil => simp [pareMembers]
  | cons m o ih =>
    obtain ⟨k, v⟩ := m
    rw [pareMembers, Object.get?_cons]
    by_cases hkey : key = k
    · subst hkey
      by_cases hd : r.drops key = true
      · rw [if_pos hd, ih, if_pos hd, if_pos hd]
      · rw [if_neg hd, Object.get?_cons, if_pos rfl, if_neg hd, if_pos rfl, Option.map_some]
    · rw [if_neg hkey, ← ih]
      split
      · rfl
      · rw [Object.get?_cons, if_neg hkey]

theorem get_pare_kept (h : r.drops key = false) : Object.get? (pareMembers r o) key =
    (Object.get? o key).map (pare (r.under key)) := by
  rw [get_pare, if_neg (by simp [h])]

theorem keys_pare : Object.keys (pareMembers r o) = (Object.keys o).filter (!r.drops ·) := by
  induction o with
  | nil => rfl
  | cons m o ih =>
    obtain ⟨k, v⟩ := m
    simp only [Object.keys, List.map_cons] at ih ⊢
    rw [pareMembers]
    by_cases hd : r.drops k = true
    · rw [if_pos hd, ih, List.filter_cons_of_neg (by simp [hd])]
    · rw [if_neg hd, List.map_cons, ih, List.filter_cons_of_pos (by simp [hd])]

theorem nodup_pare (h : (Object.keys o).Nodup) : (Object.keys (pareMembers r o)).Nodup := by
  rw [keys_pare]
  exact h.filter _

theorem names_pare (o : Object) :
    pareMembers .names o = o.map fun m => (m.1, m.2.pare .schema) := by
  induction o with
  | nil => rfl
  | cons m o ih =>
    obtain ⟨k, v⟩ := m
    have below : Role.names.under k = .schema := by simp [Role.under]
    rw [pareMembers, if_neg (by simp [Role.drops]), ih, below, List.map_cons]

theorem as_string_pare (j : Json) : (j.pare r).asString? = j.asString? := by
  cases j <;> simp [asString?]

theorem as_array_pare (j : Json) : (j.pare r).asArray? = j.asArray?.map (·.map (pare r)) := by
  cases j <;> simp [asArray?]

end Pare

section Keyed

variable {o : Object}

/-- Object keys are distinct, also in the values. -/
def KeyedObject (o : Object) : Prop := (Object.keys o).Nodup ∧ ∀ m ∈ o, m.2.keyed = true

theorem keyed_arr {items : List Json} :
    (Json.arr items).keyed = true ↔ ∀ item ∈ items, item.keyed = true := by
  rw [keyed]
  induction items with
  | nil => simp [keyedItems]
  | cons item items ih => rw [keyedItems, Bool.and_eq_true, ih, List.forall_mem_cons]

theorem keyed_obj : (Json.obj o).keyed = true ↔ KeyedObject o := by
  have members : ∀ ms : Object, keyedMembers ms = true ↔ ∀ m ∈ ms, m.2.keyed = true := by
    intro ms
    induction ms with
    | nil => simp [keyedMembers]
    | cons m ms ih => rw [keyedMembers, Bool.and_eq_true, ih, List.forall_mem_cons]
  rw [keyed, Bool.and_eq_true, decide_eq_true_eq, KeyedObject, members]

theorem KeyedObject.get (h : KeyedObject o) {key : String} {v : Json}
    (hv : Object.get? o key = some v) : v.keyed = true :=
  h.2 _ (Object.mem_of_get? hv)

end Keyed

section Same

theorem same_members_iff {ms other : List (String × Json)} : sameMembers ms other = true ↔
    ∀ m ∈ ms, ∃ v, Object.get? other m.1 = some v ∧ m.2.same v = true := by
  induction ms with
  | nil => simp [sameMembers]
  | cons m ms ih =>
    obtain ⟨k, v⟩ := m
    rw [sameMembers, Bool.and_eq_true, ih, List.forall_mem_cons]
    refine and_congr_left fun _ => ?_
    cases hw : Object.get? other k with
    | none => simp [show other.lookup k = none from hw]
    | some w => simp [show other.lookup k = some w from hw]

theorem same_obj_iff {o o' : Object} : (Json.obj o).same (.obj o') = true ↔
    o.length = o'.length ∧ ∀ m ∈ o, ∃ v, Object.get? o' m.1 = some v ∧ m.2.same v = true := by
  rw [same, Bool.and_eq_true, beq_iff_eq, same_members_iff]

/-- Objects that are the same have the same keys, in some order. -/
theorem keys_perm_of_same {o o' : Object} (ho : (Object.keys o).Nodup)
    (h : (Json.obj o).same (.obj o') = true) : (Object.keys o).Perm (Object.keys o') := by
  obtain ⟨hlength, hmembers⟩ := same_obj_iff.mp h
  have sub : Object.keys o ⊆ Object.keys o' := by
    intro key hkey
    obtain ⟨m, hm, rfl⟩ := List.mem_map.mp hkey
    obtain ⟨v, hv, -⟩ := hmembers m hm
    exact List.mem_map.mpr ⟨(m.1, v), Object.mem_of_get? hv, rfl⟩
  refine (List.subperm_of_subset ho sub).perm_of_length_le ?_
  simp [Object.keys, hlength]

mutual

/-- What is the same is so without its conditional keywords. -/
theorem same_pare (r : Role) : ∀ (j k : Json), j.keyed = true → j.same k = true →
    (j.pare r).same (k.pare r) = true
  | .arr items, k, hj, h => by
    cases k with
    | arr items' =>
      rw [same] at h
      rw [pare, pare, same]
      exact same_items_pare r items items' (keyed_arr.mp hj) h
    | _ => simp [same] at h
  | .obj o, k, hj, h => by
    cases k with
    | obj o' =>
      obtain ⟨hkeys, hvalues⟩ := keyed_obj.mp hj
      have perm := keys_perm_of_same hkeys h
      rw [pare, pare, same_obj_iff]
      refine ⟨?_, same_members_pare r o o' hvalues (same_obj_iff.mp h).2⟩
      have lengths := (perm.filter (!r.drops ·)).length_eq
      rw [← keys_pare, ← keys_pare] at lengths
      simpa [Object.keys] using lengths
    | _ => simp [same] at h
  | .null, k, _, h => by cases k <;> simp_all [same]
  | .bool _, k, _, h => by cases k <;> simp_all [same]
  | .num _, k, _, h => by cases k <;> simp_all [same]
  | .str _, k, _, h => by cases k <;> simp_all [same]

theorem same_items_pare (r : Role) : ∀ items items' : List Json,
    (∀ item ∈ items, item.keyed = true) → sameItems items items' = true →
    sameItems (pareItems r items) (pareItems r items') = true
  | [], [], _, _ => by rw [pareItems, sameItems]
  | [], _ :: _, _, h => by simp [sameItems] at h
  | _ :: _, [], _, h => by simp [sameItems] at h
  | item :: items, item' :: items', hk, h => by
    rw [sameItems, Bool.and_eq_true] at h
    rw [List.forall_mem_cons] at hk
    rw [pareItems, pareItems, sameItems, Bool.and_eq_true]
    exact ⟨same_pare r item item' hk.1 h.1, same_items_pare r items items' hk.2 h.2⟩

theorem same_members_pare (r : Role) : ∀ ms o : List (String × Json),
    (∀ m ∈ ms, m.2.keyed = true) →
    (∀ m ∈ ms, ∃ v, Object.get? o m.1 = some v ∧ m.2.same v = true) →
    ∀ m ∈ pareMembers r ms, ∃ v, Object.get? (pareMembers r o) m.1 = some v ∧ m.2.same v = true
  | [], _, _, _ => by simp [pareMembers]
  | (key, value) :: ms, o, hk, h => by
    rw [List.forall_mem_cons] at hk h
    have rest := same_members_pare r ms o hk.2 h.2
    rw [pareMembers]
    split
    · exact rest
    · next hd =>
      rw [List.forall_mem_cons]
      obtain ⟨v, hv, hs⟩ := h.1
      refine ⟨⟨v.pare (r.under key), ?_, same_pare _ value v hk.1 hs⟩, rest⟩
      rw [get_pare, if_neg hd, hv, Option.map_some]

end

end Same

end Json

end AvroDerive
