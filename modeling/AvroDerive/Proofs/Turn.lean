import AvroDerive.Proofs.ConverterState

/-! # The turns of a call

Whatever a converter is called for, it takes a list of schemas one after another. Which schemas have
their turn, and under which pointers, can be read off the document before anything is converted. -/
namespace AvroDerive.Convert

open Json Schema

/-- A schema that is converted as a definition. References can lead to it if it has a pointer. -/
structure Turn where
  name : String
  schema : Json
  pointer : Option String

/-- The key under which references to the schema are remembered. -/
def Turn.key (baseUri : String) (t : Turn) : Option String := t.pointer.map (pointerKey baseUri)

/-- The name and the namespace of the type that is registered in the turn. -/
def Turn.typeName (cfg : Setting) (t : Turn) : String × String :=
  (t.pointer.bind (typeName? cfg.rootNs)).getD (Name.ofText t.name, cfg.rootNs)

def Turn.fullName (cfg : Setting) (t : Turn) : String :=
  qualify (some (t.typeName cfg).2) (t.typeName cfg).1

mutual

/-- The turns of a member of a list of definitions: its own, or those of the group that it is. -/
def memberTurns (pointer name : String) : Json → List Turn
  | .obj members =>
    if isSchemaLike (.obj members) then [⟨name, .obj members, some pointer⟩]
    else listTurns pointer members
  | _ => []

def listTurns (pointer : String) : List (String × Json) → List Turn
  | [] => []
  | (name, schema) :: rest =>
    memberTurns (pointer ++ "/" ++ Pointer.escape name) name schema ++ listTurns pointer rest

end

/-- The turns of the items of a document that is an array. -/
def itemTurns (cfg : Setting) : Nat → List Json → List Turn
  | _, [] => []
  | index, item :: rest =>
    (match item with
      | .obj o => [⟨((Object.get? o "title").bind Json.asString?).getD
          (cfg.options.rootName ++ "_" ++ toString index), item, none⟩]
      | _ => []) ++ itemTurns cfg (index + 1) rest

/-- The turns of a document, or why there are none. -/
def documentTurns (cfg : Setting) (baseUri : String) (j : Json) : Except Failure (List Turn) :=
  match j with
  | .obj o =>
    if isSingleSchema o then .ok [⟨cfg.options.rootName, j, none⟩]
    else if Object.contains o "swagger" || Object.contains o "definitions" ||
        Object.contains o "$defs" then
      let group := if Object.contains o "definitions" then "definitions" else "$defs"
      match (Object.get? o group).bind Json.asObject? with
      | some (first :: rest) => .ok (listTurns ("/" ++ Pointer.escape group) (first :: rest))
      | _ => .error (.noSchema (baseUri ++ " (no definitions)"))
    else .error (.noSchema baseUri)
  | .arr items => .ok (itemTurns cfg 0 items)
  | _ => .error (.noSchema baseUri)

namespace Call

/-- The document that a call is about. -/
def subject : Call → Json
  | .document j _ | .definition j _ _ _ _ | .definitionList j _ _ _ => j

def baseUri : Call → String
  | .document _ baseUri | .definition _ baseUri _ _ _ | .definitionList _ baseUri _ _ => baseUri

def turns (cfg : Setting) : Call → Except Failure (List Turn)
  | .document j baseUri => documentTurns cfg baseUri j
  | .definition _ _ schemaName schema pointer => .ok [⟨schemaName, schema, pointer⟩]
  | .definitionList _ _ pointer members => .ok (listTurns pointer members)

end Call

/-- Converts the schemas of the turns in order. -/
def takeTurns (cfg : Setting) (d : Json) (baseUri : String) : List Turn → Run Unit
  | [] => return ()
  | t :: ts => do
    let _ ← definition cfg d baseUri t.name t.schema t.pointer
    takeTurns cfg d baseUri ts

section Taken

variable (cfg : Setting) (d : Json) (baseUri : String)

theorem take_turns_append (ts us : List Turn) : takeTurns cfg d baseUri (ts ++ us) =
    (do takeTurns cfg d baseUri ts; takeTurns cfg d baseUri us) := by
  induction ts with
  | nil => simp [takeTurns]
  | cons t ts ih => simp [takeTurns, ih]

mutual

theorem member_turns_taken (pointer name : String) (schema : Json) :
    definitionOrGroup cfg d baseUri pointer name schema =
      takeTurns cfg d baseUri (memberTurns pointer name schema) := by
  cases schema with
  | obj members =>
    rw [definitionOrGroup, memberTurns]
    split
    · rfl
    · exact list_turns_taken pointer members
  | _ =>
    rw [definitionOrGroup, memberTurns]
    · rfl
    · simp
    · simp

theorem list_turns_taken (pointer : String) (members : List (String × Json)) :
    definitionList cfg d baseUri pointer members =
      takeTurns cfg d baseUri (listTurns pointer members) := by
  cases members with
  | nil =>
    rw [definitionList, listTurns]
    rfl
  | cons m members =>
    obtain ⟨name, schema⟩ := m
    rw [definitionList, listTurns, take_turns_append, member_turns_taken _ name schema,
      list_turns_taken pointer members]

end

theorem item_turns_taken (index : Nat) (items : List Json) :
    definitionItems cfg d baseUri index items =
      takeTurns cfg d baseUri (itemTurns cfg index items) := by
  induction items generalizing index with
  | nil =>
    rw [definitionItems, itemTurns]
    rfl
  | cons item items ih =>
    cases item <;> rw [definitionItems, itemTurns, take_turns_append, ← ih] <;> simp [takeTurns]

/-- A call takes its turns, or fails for the want of them. -/
theorem call_turns_taken (call : Call) : call.run cfg = match call.turns cfg with
    | .ok ts => takeTurns cfg call.subject call.baseUri ts
    | .error e => Run.fail e := by
  cases call with
  | document j baseUri =>
    show document cfg j baseUri = match documentTurns cfg baseUri j with
      | .ok ts => takeTurns cfg j baseUri ts
      | .error e => Run.fail e
    unfold document documentTurns
    cases j with
    | obj o =>
      dsimp only
      by_cases hsingle : isSingleSchema o = true
      · rw [if_pos hsingle, if_pos hsingle]
        simp [takeTurns]
      · rw [if_neg hsingle, if_neg hsingle]
        by_cases hgroup : (Object.contains o "swagger" || Object.contains o "definitions" ||
            Object.contains o "$defs") = true
        · rw [if_pos hgroup, if_pos hgroup]
          rcases (Object.get? o (if Object.contains o "definitions" then "definitions"
            else "$defs")).bind asObject? with _ | (_ | ⟨first, rest⟩)
          · rfl
          · rfl
          · exact list_turns_taken cfg _ baseUri _ _
        · rw [if_neg hgroup, if_neg hgroup]
    | arr items => exact item_turns_taken cfg _ baseUri 0 items
    | _ => rfl
  | definition j baseUri schemaName schema pointer =>
    rfl
  | definitionList j baseUri pointer members => exact list_turns_taken cfg j baseUri pointer members

end Taken

/-- The turns of a document: its own if it is a schema, those of a group of definitions in it, or those of
its items. -/
inductive DocumentTurns (cfg : Setting) : Json → List Turn → Prop
  | single {o} : isSingleSchema o = true →
    DocumentTurns cfg (.obj o) [⟨cfg.options.rootName, .obj o, none⟩]
  | group {o group members} : isSingleSchema o = false → group ∈ definitionGroups →
    Object.get? o group = some (.obj members) →
    DocumentTurns cfg (.obj o) (listTurns ("/" ++ Pointer.escape group) members)
  | items {items} : DocumentTurns cfg (.arr items) (itemTurns cfg 0 items)

theorem document_turns_cases {cfg : Setting} {baseUri : String} {j : Json} {turns : List Turn}
    (h : documentTurns cfg baseUri j = .ok turns) : DocumentTurns cfg j turns := by
  unfold documentTurns at h
  split at h
  · next o =>
    split at h
    · next hsingle =>
      obtain rfl := Except.ok.inj h
      exact .single hsingle
    · next hsingle =>
      split at h
      · dsimp only at h
        split at h
        · next first rest hgroup =>
          obtain rfl := Except.ok.inj h
          obtain ⟨group, hget, hobject⟩ := Option.bind_eq_some_iff.mp hgroup
          cases group with
          | obj members =>
            obtain rfl := Option.some.inj hobject
            refine .group (Bool.not_eq_true _ ▸ hsingle) ?_ hget
            split <;> simp [definitionGroups]
          | _ => simp [asObject?] at hobject
        · simp at h
      · simp at h
  · obtain rfl := Except.ok.inj h
    exact .items
  · simp at h

section Inherited

variable {cfg : Setting} {inherited : Json → Prop}

/-- A property of values that their members and items inherit. -/
structure Inherits (inherited : Json → Prop) : Prop where
  members : ∀ {o : Object}, inherited (.obj o) → ∀ m ∈ o, inherited m.2
  items : ∀ {items : List Json}, inherited (.arr items) → ∀ item ∈ items, inherited item

theorem Inherits.pointer (hi : Inherits inherited) {j value : Json} {pointer : String}
    (hj : inherited j) (h : j.pointer? pointer = some value) : inherited value := by
  refine pointer_inherits (fun j child key hj hchild => ?_) hj h
  cases j with
  | obj members => exact hi.members hj _ (Object.mem_of_get? hchild)
  | arr items =>
    obtain ⟨i, -, hitem⟩ := Option.bind_eq_some_iff.mp hchild
    exact hi.items hj _ (List.mem_of_getElem? hitem)
  | _ => simp [child?] at hchild

mutual

theorem member_turns_inherit (hi : Inherits inherited) (pointer name : String) (schema : Json)
    (h : inherited schema) : ∀ t ∈ memberTurns pointer name schema, inherited t.schema := by
  cases schema with
  | obj members =>
    rw [memberTurns]
    split
    · rw [List.forall_mem_singleton]
      exact h
    · exact list_turns_inherit hi pointer members (hi.members h)
  | _ => simp [memberTurns]

theorem list_turns_inherit (hi : Inherits inherited) (pointer : String)
    (members : List (String × Json)) (h : ∀ m ∈ members, inherited m.2) :
    ∀ t ∈ listTurns pointer members, inherited t.schema := by
  cases members with
  | nil => simp [listTurns]
  | cons m members =>
    obtain ⟨name, schema⟩ := m
    rw [List.forall_mem_cons] at h
    rw [listTurns, List.forall_mem_append]
    exact ⟨member_turns_inherit hi _ name schema h.1, list_turns_inherit hi pointer members h.2⟩

end

theorem item_turns_inherit (index : Nat) (items : List Json) (h : ∀ item ∈ items, inherited item) :
    ∀ t ∈ itemTurns cfg index items, inherited t.schema := by
  induction items generalizing index with
  | nil => simp [itemTurns]
  | cons item items ih =>
    rw [List.forall_mem_cons] at h
    cases item with
    | obj o =>
      rw [itemTurns, List.forall_mem_append, List.forall_mem_singleton]
      exact ⟨h.1, ih (index + 1) h.2⟩
    | _ => simpa [itemTurns] using ih (index + 1) h.2

theorem document_turns_inherit (hi : Inherits inherited) {baseUri : String} {j : Json}
    {turns : List Turn} (h : inherited j) (hturns : documentTurns cfg baseUri j = .ok turns) :
    ∀ t ∈ turns, inherited t.schema := by
  cases document_turns_cases hturns with
  | single _ =>
    rw [List.forall_mem_singleton]
    exact h
  | group _ _ hget =>
    exact list_turns_inherit hi _ _ (hi.members (hi.members h _ (Object.mem_of_get? hget)))
  | items => exact item_turns_inherit 0 _ (hi.items h)

end Inherited

end AvroDerive.Convert
