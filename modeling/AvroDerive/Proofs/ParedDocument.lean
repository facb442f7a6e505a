import AvroDerive.Proofs.ConcurringTurn

/-! # Documents without conditional keywords

A document that is a schema is pared like any other. One that lists definitions is pared in its
definitions; the keys of a group of definitions are names. Documents that are the same then have the
same turns, of alike schemas. -/
namespace AvroDerive.Convert

open AvroType Json Schema

mutual

/-- A member of a list of definitions without the conditional keywords of its schemas. -/
def pareEntry : Json → Json
  | .obj members =>
    if isSchemaLike (.obj members) then (Json.obj members).pare .schema
    else .obj (pareEntries members)
  | j => j.pare .schema

def pareEntries : List (String × Json) → List (String × Json)
  | [] => []
  | (name, schema) :: rest => (name, pareEntry schema) :: pareEntries rest

end

/-- A list of definitions without the conditional keywords of its schemas. -/
def pareGroup : Json → Json
  | .obj members => .obj (pareEntries members)
  | j => j.pare .schema

/-- The value of a key of a document that is no schema. -/
def pareRoot (key : String) (value : Json) : Json :=
  if key ∈ definitionGroups then pareGroup value else value.pare (Role.schema.under key)

/-- A document without the conditional keywords of its schemas. -/
def pareDocument : Json → Json
  | .obj o =>
    if isSingleSchema o then (Json.obj o).pare .schema
    else .obj ((o.filter fun m => decide (m.1 ∉ conditionalKeywords)).map
      fun m => (m.1, pareRoot m.1 m.2))
  | j => j.pare .schema

section Turns

variable {cfg : Setting} {o o' : Object} {j j' : Json} {key : String}

theorem member_turns_leaf (pointer name : String) (h : isObject j = false) :
    memberTurns pointer name j = [] := by
  cases j <;> first | rw [memberTurns]; simp | simp [isObject] at h

theorem get_pare_entries (key : String) :
    Object.get? (pareEntries o) key = (Object.get? o key).map pareEntry := by
  induction o with
  | nil => rfl
  | cons m o ih =>
    obtain ⟨k, v⟩ := m
    rw [pareEntries, Object.get?_cons, Object.get?_cons, ih]
    split <;> rfl

/-- Whether a value is a schema does not depend on conditional keywords. -/
theorem schema_like_pare_entry (j : Json) : isSchemaLike (pareEntry j) = isSchemaLike j := by
  cases j with
  | obj o =>
    have like : ∀ p : Object, (∀ key, key ∉ conditionalKeywords →
        Object.contains p key = Object.contains o key) →
        isSchemaLike (.obj p) = isSchemaLike (.obj o) := by
      intro p h
      rw [isSchemaLike, isSchemaLike, hasComposition, hasComposition, h "type" (by decide),
        h "properties" (by decide), h "enum" (by decide), h "$ref" (by decide), h "allOf" (by decide),
        h "oneOf" (by decide), h "anyOf" (by decide)]
    rw [pareEntry]
    split
    · rw [pare_obj]
      refine like _ fun key hkey => ?_
      rw [Object.contains, get_pare_kept (Role.keeps hkey _), Option.isSome_map]
      rfl
    · refine like _ fun key _ => ?_
      rw [Object.contains, get_pare_entries, Option.isSome_map]
      rfl
  | _ => simp [pareEntry, isSchemaLike]

theorem is_object_pare_entry (j : Json) : isObject (pareEntry j) = isObject j := by
  cases j with
  | obj o =>
    rw [pareEntry]
    split
    · rw [pare_obj]
      rfl
    · rfl
  | _ => simp [pareEntry, isObject]

mutual

theorem member_turns_pair (pointer name : String) (j j' : Json) (h : pareEntry j = pareEntry j') :
    List.Forall₂ Turn.Pairs (memberTurns pointer name j) (memberTurns pointer name j') := by
  have like := congrArg isSchemaLike h
  have kind := congrArg isObject h
  rw [schema_like_pare_entry, schema_like_pare_entry] at like
  rw [is_object_pare_entry, is_object_pare_entry] at kind
  cases hj : isObject j with
  | false =>
    rw [member_turns_leaf _ _ hj, member_turns_leaf _ _ (kind ▸ hj)]
    exact .nil
  | true =>
    cases j with
    | obj o =>
      cases j' with
      | obj o' =>
        rw [pareEntry, pareEntry, ← like] at h
        rw [memberTurns, memberTurns, ← like]
        split
        · next hl =>
          rw [if_pos hl, if_pos hl] at h
          exact .cons ⟨rfl, rfl, h⟩ .nil
        · next hl =>
          rw [if_neg hl, if_neg hl] at h
          exact list_turns_pair pointer o o' (Json.obj.inj h)
      | _ => simp [isObject] at kind
    | _ => simp [isObject] at hj

theorem list_turns_pair (pointer : String) (ms ms' : List (String × Json))
    (h : pareEntries ms = pareEntries ms') :
    List.Forall₂ Turn.Pairs (listTurns pointer ms) (listTurns pointer ms') := by
  cases ms with
  | nil =>
    cases ms' with
    | nil =>
      rw [listTurns]
      exact .nil
    | cons m' ms' => simp [pareEntries] at h
  | cons m ms =>
    cases ms' with
    | nil => simp [pareEntries] at h
    | cons m' ms' =>
      obtain ⟨name, schema⟩ := m
      obtain ⟨name', schema'⟩ := m'
      rw [pareEntries, pareEntries] at h
      obtain ⟨hm, hrest⟩ := List.cons.inj h
      obtain ⟨rfl, hschema⟩ := Prod.mk.inj hm
      rw [listTurns, listTurns]
      exact List.rel_append (member_turns_pair _ name schema schema' hschema)
        (list_turns_pair pointer ms ms' hrest)

end

theorem item_turns_pair (index : Nat) {items items' : List Json}
    (h : List.Forall₂ (fun i i' => i.pare .schema = i'.pare .schema) items items') :
    List.Forall₂ Turn.Pairs (itemTurns cfg index items) (itemTurns cfg index items') := by
  induction h generalizing index with
  | nil => exact .nil
  | @cons item item' items items' h _ ih =>
    rcases (alike_of_pare h).cases with ⟨o, o', rfl, rfl, ho⟩ | ⟨hobject, hobject', -⟩
    · rw [itemTurns, itemTurns, ← ho.text (show "title" ∉ conditionalKeywords by decide)]
      exact List.rel_append (.cons ⟨rfl, rfl, h⟩ .nil) (ih (index + 1))
    · have skipped : ∀ {item : Json} (rest : List Json), isObject item = false →
          itemTurns cfg index (item :: rest) = itemTurns cfg (index + 1) rest := by
        intro item rest hi
        cases item <;> first | rfl | simp [isObject] at hi
      rw [skipped _ hobject, skipped _ hobject']
      exact ih (index + 1)

/-- The turns of two documents pair up, or there are none for the same reason. -/
def TurnsPair : Except Failure (List Turn) → Except Failure (List Turn) → Prop
  | .ok ts, .ok ts' => List.Forall₂ Turn.Pairs ts ts'
  | .error e, .error e' => e = e'
  | _, _ => False

theorem group_turns_pair {v v' : Option Json} (h : v.map pareGroup = v'.map pareGroup)
    (pointer : String) (e : Failure) :
    TurnsPair
      (match v.bind asObject? with
        | some (first :: rest) => .ok (listTurns pointer (first :: rest))
        | _ => .error e)
      (match v'.bind asObject? with
        | some (first :: rest) => .ok (listTurns pointer (first :: rest))
        | _ => .error e) := by
  have kind : ∀ w : Json, isObject (pareGroup w) = isObject w := by
    intro w
    cases w <;> simp [pareGroup, isObject]
  have none : ∀ {w : Json}, isObject w = false → w.asObject? = none := by
    intro w hw
    cases w <;> first | rfl | simp [isObject] at hw
  cases v with
  | none =>
    rw [Option.map_none, eq_comm, Option.map_eq_none_iff] at h
    rw [h]
    rfl
  | some w =>
    rw [Option.map_some, eq_comm, Option.map_eq_some_iff] at h
    obtain ⟨w', rfl, hw⟩ := h
    have kinds := congrArg isObject hw
    rw [kind, kind] at kinds
    rw [Option.bind_some, Option.bind_some]
    cases hobject : isObject w with
    | false =>
      rw [none hobject, none (kinds.trans hobject)]
      rfl
    | true =>
      cases w with
      | obj ms =>
        cases w' with
        | obj ms' =>
          have entries : pareEntries ms' = pareEntries ms := Json.obj.inj hw
          cases ms with
          | nil =>
            cases ms' with
            | nil => rfl
            | cons m' ms' => simp [pareEntries] at entries
          | cons m ms =>
            cases ms' with
            | nil => simp [pareEntries] at entries
            | cons m' ms' => exact list_turns_pair pointer _ _ entries.symm
        | _ => simp [isObject] at kinds
      | _ => simp [isObject] at hobject

/-- A pared document has the keys of the document, but for conditional keywords. -/
theorem get_pare_document {p : Object} (h : pareDocument (.obj o) = .obj p)
    (hkey : key ∉ conditionalKeywords) : Object.get? p key = (Object.get? o key).map
      (if isSingleSchema o then pare (Role.schema.under key) else pareRoot key) := by
  have root : ∀ o : Object, Object.get? ((o.filter fun m => decide (m.1 ∉ conditionalKeywords)).map
      fun m => (m.1, pareRoot m.1 m.2)) key = (Object.get? o key).map (pareRoot key) := by
    intro o
    induction o with
    | nil => rfl
    | cons m o ih =>
      obtain ⟨k, v⟩ := m
      rw [Object.get?_cons]
      by_cases hk : k ∈ conditionalKeywords
      · have hne : key ≠ k := fun he => hkey (he ▸ hk)
        rw [List.filter_cons_of_neg (by simp [hk]), ih, if_neg hne]
      · rw [List.filter_cons_of_pos (by simp [hk]), List.map_cons, Object.get?_cons, ih]
        split
        · next he => rw [he, Option.map_some]
        · rfl
  rw [pareDocument] at h
  split at h
  · next hs =>
    rw [pare_obj] at h
    rw [← Json.obj.inj h, get_pare_kept (Role.keeps hkey _), if_pos hs]
  · next hs => rw [← Json.obj.inj h, root, if_neg hs]

theorem contains_pare_document {p : Object} (h : pareDocument (.obj o) = .obj p)
    (hkey : key ∉ conditionalKeywords) : Object.contains o key = Object.contains p key := by
  rw [Object.contains, Object.contains, get_pare_document h hkey, Option.isSome_map]

/-- The keys that decide which schemas have their turn are no conditional keywords. -/
theorem object_turns_pair (baseUri : String) (h : pareDocument (.obj o) = pareDocument (.obj o')) :
    TurnsPair (documentTurns cfg baseUri (.obj o)) (documentTurns cfg baseUri (.obj o')) := by
  obtain ⟨p, hp⟩ : ∃ p, pareDocument (.obj o) = .obj p := by
    rw [pareDocument]
    split
    · exact ⟨_, pare_obj o⟩
    · exact ⟨_, rfl⟩
  have hp' : pareDocument (.obj o') = .obj p := h ▸ hp
  have same : ∀ key, key ∉ conditionalKeywords → Object.contains o key = Object.contains o' key :=
    fun key hkey => (contains_pare_document hp hkey).trans (contains_pare_document hp' hkey).symm
  have single : isSingleSchema o = isSingleSchema o' := by
    rw [isSingleSchema, isSingleSchema, hasComposition, hasComposition, same "type" (by decide),
      same "properties" (by decide), same "allOf" (by decide), same "oneOf" (by decide),
      same "anyOf" (by decide)]
  unfold documentTurns
  dsimp only
  rw [← single, ← same "swagger" (by decide), ← same "definitions" (by decide),
    ← same "$defs" (by decide)]
  split
  · next hs =>
    rw [pareDocument, pareDocument, ← single, if_pos hs, if_pos hs] at h
    exact .cons ⟨rfl, rfl, h⟩ .nil
  · next hs =>
    have group : ∀ key, key ∉ conditionalKeywords → key ∈ definitionGroups →
        (Object.get? o key).map pareGroup = (Object.get? o' key).map pareGroup := by
      intro key hkey hgroup
      have root : pareRoot key = pareGroup := by
        funext v
        rw [pareRoot, if_pos hgroup]
      have get := get_pare_document hp hkey
      have get' := get_pare_document hp' hkey
      rw [if_neg hs, root] at get
      rw [← single, if_neg hs, root] at get'
      exact get.symm.trans get'
    split
    · refine group_turns_pair (group _ ?_ ?_) _ _
      · split <;> decide
      · split <;> decide
    · rfl

theorem document_turns_pair (baseUri : String) (h : pareDocument j = pareDocument j') :
    TurnsPair (documentTurns cfg baseUri j) (documentTurns cfg baseUri j') := by
  have kind : ∀ j : Json, isObject (pareDocument j) = isObject j := by
    intro j
    cases j with
    | obj o =>
      rw [pareDocument]
      split
      · rw [pare_obj]
        rfl
      · rfl
    | _ => simp [pareDocument, isObject]
  have leaf : ∀ {j : Json}, isObject j = false → pareDocument j = j.pare .schema := by
    intro j hj
    cases j <;> first | rfl | simp [isObject] at hj
  have kinds := congrArg isObject h
  rw [kind, kind] at kinds
  cases hobject : isObject j with
  | false =>
    rw [leaf hobject, leaf (kinds ▸ hobject)] at h
    rcases pare_eq_cases h with ⟨o, o', rfl, rfl, -⟩ | ⟨items, items', rfl, rfl, hi⟩ | ⟨rfl, -, hlist⟩
    · simp [isObject] at hobject
    · exact item_turns_pair 0 hi
    · cases j with
      | obj o => simp [isObject] at hobject
      | arr items => simp [Schema.isList] at hlist
      | _ => rfl
  | true =>
    cases j with
    | obj o =>
      cases j' with
      | obj o' => exact object_turns_pair baseUri h
      | _ => simp [isObject] at kinds
    | _ => simp [isObject] at hobject

end Turns

end AvroDerive.Convert
