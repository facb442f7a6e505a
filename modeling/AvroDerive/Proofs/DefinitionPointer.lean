import AvroDerive.Proofs.DefinitionKept
import AvroDerive.Proofs.KeyedSchema

/-! # Pointers of definitions

Each definition of a list is converted under a pointer made of escaped keys. The keys are read off the
pointer again whatever characters they hold, so the pointer leads back to the definition, and tells the
groups that it stands in. -/
namespace AvroDerive

namespace Pointer

/-- The pointer that goes on from another one along the keys. -/
def along (pointer : String) (keys : List String) : String :=
  keys.foldl (fun pointer key => pointer ++ "/" ++ escape key) pointer

variable {pointer : String} {path path' : List String}

theorem keys_along (pointer : String) (path : List String) :
    keys (along pointer path) = keys pointer ++ path := by
  induction path generalizing pointer with
  | nil => exact (List.append_nil _).symm
  | cons key path ih =>
    show keys (along (pointer ++ "/" ++ escape key) path) = _
    rw [ih, keys_append_escape, List.append_assoc, List.singleton_append]

theorem along_inj (h : along pointer path = along pointer path') : path = path' := by
  have read := congrArg keys h
  rw [keys_along, keys_along] at read
  exact List.append_cancel_left read

end Pointer

namespace Json

theorem descend_cons (j : Json) (key : String) (path : List String) :
    j.descend? (key :: path) = (j.child? key).bind (·.descend? path) := by
  rw [descend?, List.foldlM_cons]
  rfl

/-- A key that is appended to a pointer leads one step further. -/
theorem pointer_append_escape (j : Json) (pointer key : String) :
    j.pointer? (pointer ++ "/" ++ Pointer.escape key) = (j.pointer? pointer).bind (·.child? key) := by
  have step : ∀ v : Json, v.descend? [key] = v.child? key := fun v => by
    rw [descend_cons]
    exact Option.bind_fun_some _
  have hs : "/".toList = ['/'] := rfl
  cases hp : pointer.toList with
  | nil =>
    obtain rfl := String.toList_eq_nil_iff.mp hp
    have keys : Pointer.keys ("" ++ "/" ++ Pointer.escape key) = [key] :=
      Pointer.keys_append_escape "" key
    simp only [pointer?, String.toList_append, hp, hs, List.nil_append, List.singleton_append,
      if_true, Option.bind_some]
    rw [keys, step]
  | cons c rest =>
    simp only [pointer?, String.toList_append, hp, List.cons_append]
    split
    · rw [Pointer.keys_append_escape, descend?_append]
      exact congrArg _ (funext step)
    · rfl

theorem pointer_key (j : Json) (key : String) :
    j.pointer? ("/" ++ Pointer.escape key) = j.child? key := by
  have step := pointer_append_escape j "" key
  rwa [String.empty_append] at step

theorem pointer_along (j : Json) (pointer : String) (path : List String) :
    j.pointer? (Pointer.along pointer path) = (j.pointer? pointer).bind (·.descend? path) := by
  induction path generalizing pointer with
  | nil => exact (Option.bind_fun_some _).symm
  | cons key path ih =>
    show j.pointer? (Pointer.along (pointer ++ "/" ++ Pointer.escape key) path) = _
    rw [ih, pointer_append_escape, Option.bind_assoc]
    exact congrArg _ (funext fun v => (descend_cons v key path).symm)

end Json

namespace Convert

open Json Schema

/-- A schema in a list of definitions, with the keys of the groups around it and its own key. -/
inductive Defines : Object → List String → String → Json → Prop
  | own {members name schema} : (name, schema) ∈ members → isSchemaLike schema = true →
    Defines members [] name schema
  | inside {members key group groups name schema} : (key, .obj group) ∈ members →
    isSchemaLike (.obj group) = false → Defines group groups name schema →
    Defines members (key :: groups) name schema

/-- The turn is that of a definition in the list, under the pointer along its keys. -/
def Turn.StandsIn (t : Turn) (pointer : String) (members : Object) : Prop :=
  ∃ groups, Defines members groups t.name t.schema ∧
    t.pointer = some (Pointer.along pointer (groups ++ [t.name]))

section Defines

variable {pointer : String} {members others : Object} {groups : List String} {name : String} {schema : Json}
  {t u : Turn}

theorem Defines.schema_like (h : Defines members groups name schema) : isSchemaLike schema = true := by
  induction h with
  | own _ h => exact h
  | inside _ _ _ ih => exact ih

theorem Defines.entry (h : Defines members groups name schema) (pointer : String) :
    ListEntry pointer members (Pointer.along pointer (groups ++ [name])) name schema := by
  induction h generalizing pointer with
  | own hm _ => exact .here hm
  | inside hm hgroup _ ih => exact .inside hm hgroup (ih _)

theorem Defines.mono (h : Defines members groups name schema) (hsub : members ⊆ others) :
    Defines others groups name schema := by
  cases h with
  | own hm hschema => exact .own (hsub hm) hschema
  | inside hm hgroup h => exact .inside (hsub hm) hgroup h

theorem Turn.StandsIn.mono (h : t.StandsIn pointer members) (hsub : members ⊆ others) :
    t.StandsIn pointer others := by
  obtain ⟨groups, hdefines, hpointer⟩ := h
  exact ⟨groups, hdefines.mono hsub, hpointer⟩

/-- The outermost key is one of the list. -/
theorem Defines.outermost (h : Defines members groups name schema) :
    ∃ key ∈ Object.keys members, (groups ++ [name]).head? = some key := by
  cases h with
  | own hm _ => exact ⟨_, List.mem_map_of_mem (f := Prod.fst) hm, rfl⟩
  | inside hm _ _ => exact ⟨_, List.mem_map_of_mem (f := Prod.fst) hm, rfl⟩

/-- Where keys are distinct, they lead to what is defined behind them. -/
theorem Defines.descends (h : Defines members groups name schema) (hkeyed : KeyedObject members) :
    (Json.obj members).descend? (groups ++ [name]) = some schema := by
  induction h with
  | own hm _ =>
    rw [List.nil_append, descend_cons]
    exact Option.bind_eq_some_iff.mpr ⟨_, (Object.get_iff_mem hkeyed.1).mpr hm, rfl⟩
  | inside hm _ _ ih =>
    rw [List.cons_append, descend_cons]
    refine Option.bind_eq_some_iff.mpr ⟨_, (Object.get_iff_mem hkeyed.1).mpr hm, ?_⟩
    exact ih (keyed_obj.mp (hkeyed.2 _ hm))

mutual

theorem member_turn_stands (pointer name : String) (schema : Json) :
    ∀ t ∈ memberTurns (pointer ++ "/" ++ Pointer.escape name) name schema,
      t.StandsIn pointer [(name, schema)] := by
  cases schema with
  | obj members =>
    rw [memberTurns]
    split
    · next hschema =>
      rw [List.forall_mem_singleton]
      exact ⟨[], .own (List.mem_singleton_self _) hschema, rfl⟩
    · next hgroup =>
      intro t ht
      obtain ⟨groups, hdefines, hpointer⟩ := list_turn_stands _ members t ht
      rw [Bool.not_eq_true] at hgroup
      exact ⟨name :: groups, .inside (List.mem_singleton_self _) hgroup hdefines, hpointer⟩
  | _ => simp [memberTurns]

theorem list_turn_stands (pointer : String) (members : List (String × Json)) :
    ∀ t ∈ listTurns pointer members, t.StandsIn pointer members := by
  cases members with
  | nil => simp [listTurns]
  | cons m members =>
    obtain ⟨name, schema⟩ := m
    rw [listTurns, List.forall_mem_append]
    constructor
    · intro t ht
      exact (member_turn_stands pointer name schema t ht).mono (by simp)
    · intro t ht
      exact (list_turn_stands pointer members t ht).mono (List.subset_cons_self _ _)

end

/-- The turns of a list of definitions are those of the definitions in it. -/
theorem mem_turns_iff : t ∈ listTurns pointer members ↔ t.StandsIn pointer members := by
  constructor
  · exact list_turn_stands pointer members t
  · rintro ⟨groups, hdefines, hpointer⟩
    have turn := entry_turn (hdefines.entry pointer) hdefines.schema_like
    rwa [← hpointer] at turn

/-- Definitions whose outermost keys are different have different pointers. -/
theorem pointers_apart (hkeys : (Object.keys members).Disjoint (Object.keys others))
    (ht : t.StandsIn pointer members) (hu : u.StandsIn pointer others) : t.pointer ≠ u.pointer := by
  obtain ⟨groups, hdefines, hpointer⟩ := ht
  obtain ⟨groups', hdefines', hpointer'⟩ := hu
  obtain ⟨key, hkey, hhead⟩ := hdefines.outermost
  obtain ⟨key', hkey', hhead'⟩ := hdefines'.outermost
  rw [hpointer, hpointer']
  intro he
  rw [Pointer.along_inj (Option.some.inj he), hhead'] at hhead
  exact hkeys hkey (Option.some.inj hhead ▸ hkey')

mutual

theorem member_pointers_nodup (pointer name : String) (schema : Json) (h : schema.keyed = true) :
    ((memberTurns pointer name schema).map Turn.pointer).Nodup := by
  cases schema with
  | obj members =>
    rw [memberTurns]
    split
    · exact List.nodup_singleton _
    · exact list_pointers_nodup pointer members (keyed_obj.mp h)
  | _ => simp [memberTurns]

theorem list_pointers_nodup (pointer : String) (members : List (String × Json))
    (h : KeyedObject members) : ((listTurns pointer members).map Turn.pointer).Nodup := by
  cases members with
  | nil => exact List.nodup_nil
  | cons m members =>
    obtain ⟨name, schema⟩ := m
    obtain ⟨hnodup, hkeyed⟩ := h
    rw [List.forall_mem_cons] at hkeyed
    rw [Object.keys, List.map_cons, List.nodup_cons] at hnodup
    have apart : (Object.keys [(name, schema)]).Disjoint (Object.keys members) :=
      List.singleton_disjoint.mpr hnodup.1
    -- The outermost key tells the pointers of the first member from those of the others.
    rw [listTurns, List.map_append, List.nodup_append]
    refine ⟨member_pointers_nodup _ name schema hkeyed.1,
      list_pointers_nodup pointer members ⟨hnodup.2, hkeyed.2⟩, ?_⟩
    intro p hp q hq
    obtain ⟨t, ht, rfl⟩ := List.mem_map.mp hp
    obtain ⟨u, hu, rfl⟩ := List.mem_map.mp hq
    exact pointers_apart apart (member_turn_stands pointer name schema t ht)
      (list_turn_stands pointer members u hu)

end

end Defines

section RoundTrip

variable {cfg : Setting} {j : Json} {baseUri pointer : String} {members : Object}

/-- The definitions of a list are converted one after another, each under a pointer of its own. The pointer
leads to the definition in the document, and its keys are those of the groups and of the definition itself,
which the type is named by. -/
structure PointersLeadBack (cfg : Setting) (j : Json) (baseUri pointer : String) (members : Object) :
    Prop where
  taken : definitionList cfg j baseUri pointer members =
    takeTurns cfg j baseUri (listTurns pointer members)
  turns : ∀ t, t ∈ listTurns pointer members ↔ t.StandsIn pointer members
  apart : ((listTurns pointer members).map Turn.pointer).Nodup
  addressed : ∀ {groups name schema}, Defines members groups name schema →
    j.pointer? (Pointer.along pointer (groups ++ [name])) = some schema
  keys : ∀ groups name, Pointer.keys (Pointer.along pointer (groups ++ [name])) =
    Pointer.keys pointer ++ groups ++ [name]
  named : ∀ groups name, typeName? cfg.rootNs (Pointer.along pointer (groups ++ [name])) =
    some (Name.ofText name, Namespace.compose
      (cfg.rootNs :: (Pointer.keys pointer ++ groups).filter (· ∉ definitionGroups)))

theorem pointers_lead_back (hj : j.keyed = true) (hp : j.pointer? pointer = some (.obj members)) :
    PointersLeadBack cfg j baseUri pointer members := by
  have hkeyed : KeyedObject members := keyed_obj.mp (keyed_pointer hj hp)
  have keys : ∀ groups name, Pointer.keys (Pointer.along pointer (groups ++ [name])) =
      Pointer.keys pointer ++ groups ++ [name] := by
    intro groups name
    rw [Pointer.keys_along, List.append_assoc]
  constructor
  · exact list_turns_taken cfg j baseUri pointer members
  · intro t
    exact mem_turns_iff
  · exact list_pointers_nodup pointer members hkeyed
  · intro groups name schema h
    rw [pointer_along, hp]
    exact h.descends hkeyed
  · exact keys
  · intro groups name
    rw [typeName?, keys, typeNameOfKeys?, List.getLast?_concat, List.dropLast_concat]
    rfl

theorem item_turns_unaddressed (index : Nat) (items : List Json) :
    ∀ t ∈ itemTurns cfg index items, t.pointer = none := by
  induction items generalizing index with
  | nil => simp [itemTurns]
  | cons item items ih =>
    cases item with
    | obj o =>
      rw [itemTurns, List.forall_mem_append, List.forall_mem_singleton]
      exact ⟨rfl, ih (index + 1)⟩
    | _ => simpa [itemTurns] using ih (index + 1)

/-- A document that is a collection of definitions holds them as a list under the name of a group. Other
documents have no pointers for what is converted. -/
theorem document_list_addressed {ts : List Turn} (hturns : documentTurns cfg baseUri j = .ok ts) :
    (∀ t ∈ ts, t.pointer = none) ∨ ∃ group ∈ definitionGroups, ∃ members,
      j.pointer? ("/" ++ Pointer.escape group) = some (.obj members) ∧
      document cfg j baseUri = definitionList cfg j baseUri ("/" ++ Pointer.escape group) members := by
  have run : document cfg j baseUri = takeTurns cfg j baseUri ts := by
    have taken := call_turns_taken cfg (.document j baseUri)
    rw [Call.turns, hturns] at taken
    exact taken
  cases document_turns_cases hturns with
  | single _ => exact Or.inl (by simp)
  | group _ hgroup hget =>
    rw [← list_turns_taken] at run
    exact Or.inr ⟨_, hgroup, _, (pointer_key _ _).trans hget, run⟩
  | items => exact Or.inl (item_turns_unaddressed 0 _)

/-- A document whose keys are distinct, as they are in what is read from a text, holds its definitions in a
list that a pointer leads to. From any such list, each definition is converted under a pointer that leads to
it, different ones under different pointers, and its keys can be read off the pointer: the last one gives the
name of the type, the ones before it that are no containers of definitions its namespace. -/
theorem definition_pointers_round_trip (cfg : Setting) (baseUri : String) {j : Json}
    (hj : j.keyed = true) :
    (∀ ts, documentTurns cfg baseUri j = .ok ts → (∀ t ∈ ts, t.pointer = none) ∨
      ∃ group ∈ definitionGroups, ∃ members,
        j.pointer? ("/" ++ Pointer.escape group) = some (.obj members) ∧
        document cfg j baseUri = definitionList cfg j baseUri ("/" ++ Pointer.escape group) members) ∧
    ∀ pointer members, j.pointer? pointer = some (.obj members) →
      PointersLeadBack cfg j baseUri pointer members :=
  ⟨fun _ => document_list_addressed, fun _ _ => pointers_lead_back hj⟩

/-- Keys that are empty, hold a slash, or read like escapes. -/
def oddDefinitions : Object :=
  [("", .obj [("a/b", .obj [("~1", .obj [("type", .str "string")])])]),
    ("~0", .obj [("$defs", .obj [("", .obj [("type", .str "null")])])])]

def oddDocument : Json := .obj [("definitions", .obj oddDefinitions)]

theorem odd_definitions_found : oddDocument.keyed = true ∧
    oddDocument.pointer? "/definitions" = some (.obj oddDefinitions) ∧
    oddDocument.pointer? "/definitions//a~1b/~01" = some (.obj [("type", .str "string")]) ∧
    typeName? "ns" "/definitions//a~1b/~01" = some ("_1", "ns.a_b") ∧
    (listTurns "/definitions" oddDefinitions).map Turn.pointer =
      [some "/definitions//a~1b/~01", some "/definitions/~00/$defs/"] := by
  have hkeyed : oddDocument.keyed = true := by decide +kernel
  have hlist : oddDocument.pointer? "/definitions" = some (.obj oddDefinitions) := rfl
  have back := (definition_pointers_round_trip offline "" hkeyed).2 _ _ hlist
  have found : Defines oddDefinitions ["", "a/b"] "~1" (.obj [("type", .str "string")]) :=
    .inside (List.mem_cons_self ..) rfl
      (.inside (List.mem_cons_self ..) rfl (.own (List.mem_cons_self ..) rfl))
  exact ⟨hkeyed, hlist, back.addressed found, back.named ["", "a/b"] "~1", by decide +kernel⟩

end RoundTrip

end Convert

end AvroDerive
