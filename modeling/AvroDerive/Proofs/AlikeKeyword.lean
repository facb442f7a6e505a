import AvroDerive.Proofs.AlikeComposition

/-! # What alike schemas say

The keywords of alike schemas are the same, and so are the types that they name by themselves. -/
namespace AvroDerive

open Json Schema

/-- Two lists have the same texts at the same places. -/
def SameTexts (values values' : Option (List Json)) : Prop :=
  values.map (·.map asString?) = values'.map (·.map asString?)

section Alike

variable {o o' : Object} {j j' : Json} {items items' : List Json} {values values' : Option (List Json)}

theorem text_of_pare {r : Role} (h : j.pare r = j'.pare r) : j.asString? = j'.asString? := by
  rw [← as_string_pare j, h, as_string_pare]

theorem texts_of_pare {r : Role} (h : List.Forall₂ (fun i i' => i.pare r = i'.pare r) items items') :
    items.map asString? = items'.map asString? := by
  induction h with
  | nil => rfl
  | cons h _ ih => rw [List.map_cons, List.map_cons, ih, text_of_pare h]

theorem AlikeObject.composition (h : AlikeObject o o') : hasComposition o = hasComposition o' := by
  rw [hasComposition, hasComposition, h.contains (show "allOf" ∉ conditionalKeywords by decide),
    h.contains (show "oneOf" ∉ conditionalKeywords by decide),
    h.contains (show "anyOf" ∉ conditionalKeywords by decide)]

theorem AlikeObject.type_includes (h : AlikeObject o o') (name : String) :
    typeIncludes o name = typeIncludes o' name := by
  have listed : ∀ items : List Json, (items.any fun t => t.asString? == some name) =
      (items.map asString?).any (· == some name) := fun items => by rw [List.any_map]; rfl
  unfold typeIncludes
  rcases h.values (show "type" ∉ conditionalKeywords by decide) with
    ⟨hv, hv'⟩ | ⟨v, v', hv, hv', hsame⟩
  · rw [hv, hv']
  · rw [hv, hv']
    rcases pare_eq_cases hsame with ⟨p, p', rfl, rfl, -⟩ | ⟨items, items', rfl, rfl, hi⟩ | ⟨rfl, -⟩
    · rfl
    · show (items.any fun t => t.asString? == some name) = items'.any _
      rw [listed, listed, texts_of_pare hi]
    · rfl

theorem Alike.standalone (h : Alike j j') : isStandalone j = isStandalone j' := by
  rcases h.cases with ⟨o, o', rfl, rfl, ho⟩ | ⟨hobject, hobject', -⟩
  · have one : ((Object.get? o "oneOf").bind asArray?).any (·.length ≤ 1) =
        ((Object.get? o' "oneOf").bind asArray?).any (·.length ≤ 1) := by
      rcases ho.values (show "oneOf" ∉ conditionalKeywords by decide) with
        ⟨hv, hv'⟩ | ⟨v, v', hv, hv', hsame⟩
      · rw [hv, hv']
      · rw [hv, hv']
        rcases pare_eq_cases hsame with ⟨p, p', rfl, rfl, -⟩ | ⟨is, is', rfl, rfl, hi⟩ | ⟨rfl, -⟩
        · rfl
        · simp [asArray?, hi.length_eq]
        · rfl
    rw [isStandalone, isStandalone, ho.text (show "type" ∉ conditionalKeywords by decide),
      ho.contains (show "properties" ∉ conditionalKeywords by decide),
      ho.contains (show "enum" ∉ conditionalKeywords by decide),
      ho.contains (show "allOf" ∉ conditionalKeywords by decide),
      ho.contains (show "anyOf" ∉ conditionalKeywords by decide), one]
  · have dependent : ∀ {j : Json}, isObject j = false → isStandalone j = false := by
      intro j hj
      cases j <;> first | rfl | simp [isObject] at hj
    rw [dependent hobject, dependent hobject']

/-- Listed values have their texts at the same places. -/
theorem AlikeObject.same_texts (h : AlikeObject o o') {key : String}
    (hkey : key ∉ conditionalKeywords) :
    SameTexts ((Object.get? o key).bind asArray?) ((Object.get? o' key).bind asArray?) := by
  rcases h.values hkey with ⟨hv, hv'⟩ | ⟨v, v', hv, hv', hsame⟩
  · rw [hv, hv']
    rfl
  · rw [hv, hv']
    rcases pare_eq_cases hsame with ⟨p, p', rfl, rfl, -⟩ | ⟨items, items', rfl, rfl, hi⟩ | ⟨rfl, -⟩
    · rfl
    · exact congrArg some (texts_of_pare hi)
    · rfl

theorem SameTexts.is_some (h : SameTexts values values') : values.isSome = values'.isSome := by
  have somes := congrArg Option.isSome h
  rwa [Option.isSome_map, Option.isSome_map] at somes

end Alike

section Primitive

variable {field : String} {format : Option String} {values values' : Option (List Json)}

theorem values_type_texts (h : SameTexts values values') (t : AvroType) :
    valuesType field values t = valuesType field values' t := by
  have listed : ∀ items : List Json,
      (items.any fun v => v.asString?.isSome) = (items.map asString?).any Option.isSome := by
    intro items
    rw [List.any_map]
    rfl
  have symbols : ∀ items : List Json, enumSymbols items =
      distinct ((((items.map asString?).filterMap id).filter (· ≠ "")).map Name.ofText) := by
    intro items
    rw [List.filterMap_map]
    rfl
  cases values with
  | none =>
    cases values' with
    | none => rfl
    | some items' => simp [SameTexts] at h
  | some items =>
    cases values' with
    | none => simp [SameTexts] at h
    | some items' =>
      have texts : items.map asString? = items'.map asString? := Option.some.inj h
      simp only [valuesType, listed, symbols, texts]

theorem single_type_texts (h : SameTexts values values') (name : String) :
    singleType field format values name = singleType field format values' name := by
  unfold singleType
  split
  · rfl
  · dsimp only
    rw [values_type_texts h]

theorem text_pared (o : Object) {key : String} (hkey : key ∉ conditionalKeywords) :
    (Object.get? (pareMembers .schema o) key).bind asString? =
      (Object.get? o key).bind asString? := by
  rw [get_pare_kept (Role.keeps hkey _)]
  cases Object.get? o key with
  | none => rfl
  | some v => exact as_string_pare v

theorem texts_pared (o : Object) {key : String} (hkey : key ∉ conditionalKeywords) :
    SameTexts ((Object.get? o key).bind asArray?)
      ((Object.get? (pareMembers .schema o) key).bind asArray?) := by
  rw [get_pare_kept (Role.keeps hkey _)]
  cases Object.get? o key with
  | none => rfl
  | some v =>
    rw [Option.map_some, Option.bind_some, Option.bind_some, as_array_pare, SameTexts,
      Option.map_map]
    congr 1
    funext items
    simp [as_string_pare]

mutual

/-- The primitive type of a value does not depend on conditional keywords. -/
theorem primitive_type_pare (field : String) (format : Option String)
    {values values' : Option (List Json)} (h : SameTexts values values') : ∀ j : Json,
    primitiveType field format values j = primitiveType field format values' (j.pare .schema)
  | .arr items => by
    rw [pare, primitiveType, primitiveType, alternative_types_pare field format h items []]
  | .str name => by rw [pare_str, primitiveType, primitiveType, single_type_texts h]
  | .obj o => by rw [pare_obj, primitiveType, primitiveType] <;> simp
  | .null => by rw [pare_null, primitiveType, primitiveType] <;> simp
  | .bool _ => by rw [pare_bool, primitiveType, primitiveType] <;> simp
  | .num _ => by rw [pare_num, primitiveType, primitiveType] <;> simp

theorem alternative_types_pare (field : String) (format : Option String)
    {values values' : Option (List Json)} (h : SameTexts values values') :
    ∀ (items : List Json) (types : List AvroType),
    alternativeTypes field format values items types =
      alternativeTypes field format values' (pareItems .schema items) types
  | [], types => by rw [pareItems, alternativeTypes, alternativeTypes]
  | item :: items, types => by
    have rest := alternative_types_pare field format h items
    have own := primitive_type_pare field format h item
    rw [pareItems]
    cases item with
    | obj o =>
      -- The member is read with a format and values of its own.
      have member := member_type_pare field ((Object.get? o "format").bind asString?)
        (texts_pared o (show "enum" ∉ conditionalKeywords by decide)) o
      rw [pare_obj, alternativeTypes, alternativeTypes,
        text_pared o (show "format" ∉ conditionalKeywords by decide), ← member]
      dsimp only
      split
      · rw [rest]
      · exact rest types
    | _ =>
      simp only [pare_arr, pare_str, pare_bool, pare_num, pare_null] at own ⊢
      rw [alternativeTypes, alternativeTypes, own]
      · dsimp only
        rw [rest]
      all_goals simp

theorem member_type_pare (field : String) (format : Option String)
    {values values' : Option (List Json)} (h : SameTexts values values') :
    ∀ members : List (String × Json), memberType field format values members =
      memberType field format values' (pareMembers .schema members)
  | [] => by rw [pareMembers, memberType, memberType]
  | (key, value) :: members => by
    have rest := member_type_pare field format h members
    have own := primitive_type_pare field format h value
    rw [pareMembers, memberType]
    by_cases htype : key = "type"
    · subst htype
      rw [if_pos rfl, if_neg (by decide), memberType, if_pos rfl, own]
      rfl
    · rw [if_neg htype]
      split
      · exact rest
      · rw [memberType, if_neg htype]
        exact rest

end

end Primitive

section Convert

open AvroDerive.Convert

variable {o o' : Object} {v v' : Json}

theorem AlikeObject.description (h : AlikeObject o o') : description? o = description? o' :=
  h.text (by decide)

theorem documented_alike (h : v.pare .schema = v'.pare .schema) :
    v.asObject?.bind description? = v'.asObject?.bind description? := by
  rcases pare_eq_cases h with ⟨o, o', rfl, rfl, -⟩ | ⟨items, items', rfl, rfl, -⟩ | ⟨rfl, -⟩
  · exact AlikeObject.description (alike_of_pare h)
  · rfl
  · rfl

theorem constant_type_alike (h : v.pare .schema = v'.pare .schema) (scope : Scope) :
    constantType scope v = constantType scope v' := by
  rcases pare_eq_cases h with ⟨o, o', rfl, rfl, -⟩ | ⟨items, items', rfl, rfl, -⟩ | ⟨rfl, -⟩
  · rfl
  · rfl
  · rfl

theorem refers_elsewhere_alike (h : Alike v v') : refersElsewhere v = refersElsewhere v' := by
  rcases h.cases with ⟨o, o', rfl, rfl, ho⟩ | ⟨hobject, hobject', -⟩
  · exact ho.contains (by decide)
  · have dependent : ∀ {v : Json}, isObject v = false → refersElsewhere v = false := by
      intro v hv
      cases v <;> first | rfl | simp [isObject] at hv
    rw [dependent hobject, dependent hobject']

/-- The type gets its documentation and its name from the same keywords. -/
theorem name_type_alike (h : AlikeObject o o') (scope : Scope) (t : AvroType) :
    nameType o scope t = nameType o' scope t := by
  unfold nameType
  rw [h.description]

theorem conditional_dropped (h : (Object.keys o).Nodup) {key : String}
    (hkey : key ∈ conditionalKeywords) : Object.get? (Convert.unconditional o) key = none := by
  have erased : ∀ (keys : List String) (o : Object), (Object.keys o).Nodup →
      (key ∈ keys ∨ Object.get? o key = none) → Object.get? (eraseAll o keys) key = none := by
    intro keys
    induction keys with
    | nil => exact fun o _ h => h.resolve_left (List.not_mem_nil)
    | cons k keys ih =>
      intro o ho h
      refine ih _ (Object.erase_spec ho _).1 ?_
      by_cases hk : key = k
      · exact Or.inr (hk ▸ Object.get_erase_self ho key)
      · refine h.imp (fun hm => (List.mem_cons.mp hm).resolve_left hk) fun hnone => ?_
        rw [Object.get_erase ho hk, hnone]
  unfold Convert.unconditional withoutConditionals?
  split
  · exact erased _ o h (Or.inl hkey)
  · next hnone =>
    rw [Bool.not_eq_true, List.any_eq_false] at hnone
    simpa [Object.contains] using hnone key hkey

theorem AlikeObject.unconditional (h : AlikeObject o o') (ho : KeyedObject o)
    (ho' : KeyedObject o') :
    AlikeObject (Convert.unconditional o) (Convert.unconditional o') := by
  refine .of_get fun key hkey => ?_
  rw [get_unconditional ho.1 hkey, get_unconditional ho'.1 hkey]
  exact h.get hkey

theorem AlikeObject.plain (h : AlikeObject o o') (ho : KeyedObject o) (ho' : KeyedObject o') :
    AlikeObject (Spot.plainObject o) (Spot.plainObject o') := by
  have plain := h.unconditional ho ho'
  unfold Spot.plainObject withObjectType
  rw [plain.contains (show "properties" ∉ conditionalKeywords by decide),
    plain.contains (show "type" ∉ conditionalKeywords by decide)]
  split
  · exact plain.insert "type" rfl
  · exact plain

/-- Once conditional keywords are dropped, alike objects have the same keys. -/
theorem AlikeObject.plain_keys (h : AlikeObject o o') (ho : KeyedObject o) (ho' : KeyedObject o')
    (key : String) :
    key ∈ Object.keys (Spot.plainObject o) ↔ key ∈ Object.keys (Spot.plainObject o') := by
  have plain := h.plain ho ho'
  rw [← not_iff_not, ← Object.get_none_iff, ← Object.get_none_iff]
  by_cases hkey : key ∈ conditionalKeywords
  · have dropped : ∀ {o : Object}, KeyedObject o → Object.get? (Spot.plainObject o) key = none := by
      intro o ho
      have absent := conditional_dropped ho.1 hkey
      unfold Spot.plainObject withObjectType
      split
      · rw [Object.get?_insert, if_neg, absent]
        rintro rfl
        exact absurd hkey (by decide)
      · exact absent
    rw [dropped ho, dropped ho']
  · have same := plain.contains hkey
    rw [Object.contains, Object.contains, Bool.eq_iff_iff, Option.isSome_iff_ne_none,
      Option.isSome_iff_ne_none, not_iff_not] at same
    exact same

theorem AlikeObject.bare (h : AlikeObject o o') (ho : KeyedObject o) (ho' : KeyedObject o') :
    isBareReference (Spot.plainObject o) = isBareReference (Spot.plainObject o') := by
  rw [isBareReference, isBareReference, Bool.eq_iff_iff, List.all_eq_true, List.all_eq_true]
  simp only [h.plain_keys ho ho']

theorem AlikeObject.record_schema (h : AlikeObject o o') : isRecordSchema o = isRecordSchema o' := by
  rw [isRecordSchema, isRecordSchema, h.contains (show "properties" ∉ conditionalKeywords by decide),
    h.type_includes, h.type_includes, h.composition]

end Convert

end AvroDerive
