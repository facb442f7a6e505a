import AvroDerive.Proofs.AlikeSchema

/-! # What merged schemas keep

Schemas that must hold together are merged without a loss. Whatever one of them says is found in the
result: where it stood, or among the items of a list that it came into when it met another value. Only
keys whose first value stays are taken from a single schema. -/
namespace AvroDerive

open Json

namespace Json

mutual

/-- A value with distinct keys is the same as itself. -/
theorem same_refl : ∀ j : Json, j.keyed = true → j.same j = true
  | .null, _ => rfl
  | .bool b, _ => beq_self_eq_true b
  | .num (.int n), _ => beq_self_eq_true n
  | .num (.float bits), _ => by simp [same, Number.same]
  | .str text, _ => beq_self_eq_true text
  | .arr items, h => by
    rw [same]
    exact same_items_refl items (keyed_arr.mp h)
  | .obj o, h => by
    obtain ⟨hnodup, hvalues⟩ := keyed_obj.mp h
    have own := same_values_refl o hvalues
    exact same_obj_iff.mpr ⟨rfl, fun m hm => ⟨m.2, (Object.get_iff_mem hnodup).mpr hm, own m hm⟩⟩

theorem same_items_refl : ∀ items : List Json, (∀ item ∈ items, item.keyed = true) →
    sameItems items items = true
  | [], _ => rfl
  | item :: items, h => by
    rw [List.forall_mem_cons] at h
    rw [sameItems, same_refl item h.1, same_items_refl items h.2, Bool.and_self]

theorem same_values_refl : ∀ ms : List (String × Json), (∀ m ∈ ms, m.2.keyed = true) →
    ∀ m ∈ ms, m.2.same m.2 = true
  | [], _ => by simp
  | (_, value) :: ms, h => by
    rw [List.forall_mem_cons] at h ⊢
    exact ⟨same_refl value h.1, same_values_refl ms h.2⟩

end

end Json

namespace Schema

/-- A value is kept in another one: as itself, member by member, item by item, or as one of its items.
Members under keys whose first value stays are not asked for. -/
inductive Kept : Json → Json → Prop
  | equal {v m} : m.same v = true → Kept v m
  | object {o t : Object} :
    (∀ key v, isSettled key = false → Object.get? o key = some v → Object.contains t key = true) →
    (∀ key v m, isSettled key = false → Object.get? o key = some v → Object.get? t key = some m →
      Kept v m) → Kept (.obj o) (.obj t)
  | array {vs ms : List Json} : (∀ v ∈ vs, v.elem ms = true) → Kept (.arr vs) (.arr ms)
  | item {v m : Json} {ms : List Json} : isList v = false → m ∈ ms → Kept v m → Kept v (.arr ms)

section Kept

variable {v m : Json} {o t : Object} {ms more : List Json} {key : String}

/-- An object is kept member by member, also where it is kept as itself. -/
theorem kept_object_iff (ht : (Object.keys t).Nodup) : Kept (.obj o) (.obj t) ↔
    ∀ key v, isSettled key = false → Object.get? o key = some v →
      ∃ m, Object.get? t key = some m ∧ Kept v m := by
  constructor
  · intro h key v hkey hv
    cases h with
    | equal hsame =>
      have known : key ∈ Object.keys t := by
        apply (keys_perm_of_same ht hsame).mem_iff.mpr
        exact List.mem_map_of_mem (f := Prod.fst) (Object.mem_of_get? hv)
      obtain ⟨m, hm⟩ := Option.isSome_iff_exists.mp (Object.contains_iff_mem.mpr known)
      obtain ⟨v', hv', hequal⟩ := (same_obj_iff.mp hsame).2 _ (Object.mem_of_get? hm)
      obtain rfl := Option.some.inj (hv'.symm.trans hv)
      exact ⟨m, hm, .equal hequal⟩
    | object hcontains hkept =>
      obtain ⟨m, hm⟩ := Option.isSome_iff_exists.mp (hcontains key v hkey hv)
      exact ⟨m, hm, hkept key v m hkey hv hm⟩
  · intro h
    refine .object ?_ ?_
    · intro key v hkey hv
      obtain ⟨m, hm, -⟩ := h key v hkey hv
      exact Option.isSome_iff_exists.mpr ⟨m, hm⟩
    · intro key v m hkey hv hm
      obtain ⟨m', hm', hkept⟩ := h key v hkey hv
      obtain rfl := Option.some.inj (hm'.symm.trans hm)
      exact hkept

theorem Kept.is_object (h : Kept v (.obj t)) : ∃ o, v = .obj o := by
  cases h with
  | equal hsame => cases v <;> simp_all [same]
  | object => exact ⟨_, rfl⟩

/-- Where there is no list, no list is kept. -/
theorem Kept.not_list (h : Kept v m) (hm : isList m = false) : isList v = false := by
  cases h with
  | equal hsame => exact (same_kind hsame).2 ▸ hm
  | object => rfl
  | array => simp [isList] at hm
  | item => simp [isList] at hm

theorem elem_mono (hsub : ms ⊆ more) (h : v.elem ms = true) : v.elem more = true := by
  obtain ⟨item, hitem, hsame⟩ := List.any_eq_true.mp h
  exact List.any_eq_true.mpr ⟨item, hsub hitem, hsame⟩

/-- What is kept in a list is kept when the list grows. -/
theorem Kept.grow (h : Kept v (.arr ms)) (hsub : ms ⊆ more) : Kept v (.arr more) := by
  cases h with
  | equal hsame =>
    cases v with
    | arr vs =>
      rw [same] at hsame
      exact .array fun v hv => elem_mono hsub (elem_of_same_items hsame v hv)
    | _ => simp [same] at hsame
  | array hall => exact .array fun v hv => elem_mono hsub (hall v hv)
  | item hlist hm hkept => exact .item hlist (hsub hm) hkept

theorem add_values_cons (items more : List Json) (v : Json) : addValues items (v :: more) =
    addValues (if v.elem items then items else items ++ [v]) more :=
  rfl

theorem subset_add_values (items more : List Json) : items ⊆ addValues items more := by
  induction more generalizing items with
  | nil => exact List.Subset.refl items
  | cons v more ih =>
    rw [add_values_cons]
    refine List.Subset.trans ?_ (ih _)
    split
    · exact List.Subset.refl items
    · exact List.subset_append_left items [v]

theorem elem_add_values (items : List Json) {more : List Json} (hmore : ∀ v ∈ more, v.keyed = true)
    (hv : v ∈ more) : v.elem (addValues items more) = true := by
  induction more generalizing items with
  | nil => simp at hv
  | cons w more ih =>
    rw [List.forall_mem_cons] at hmore
    rw [add_values_cons]
    rcases List.mem_cons.mp hv with rfl | hv
    · refine elem_mono (subset_add_values _ more) ?_
      by_cases h : v.elem items = true
      · rwa [if_pos h]
      · rw [if_neg h]
        exact List.any_eq_true.mpr ⟨v, by simp, same_refl v hmore.1⟩
    · exact ih _ hmore.2 hv

/-- Of two values that meet under a key both are kept, with all that the first one keeps. -/
theorem kept_combine {key : String} (hkey : isSettled key = false) {v existing value : Json}
    (he : existing.keyed = true) (hvalue : value.keyed = true) (h : Kept v existing ∨ v = value) :
    Kept v (combine key existing value) := by
  by_cases hsame : existing.same value = true
  · rw [combine, if_pos hsame]
    rcases h with h | rfl
    · exact h
    · exact .equal hsame
  have differ : existing.same value = false := Bool.eq_false_of_not_eq_true hsame
  cases hobjects : isObject existing && isObject value with
  | true =>
    rw [Bool.and_eq_true] at hobjects
    obtain ⟨target, rfl⟩ := exists_object hobjects.1
    obtain ⟨source, rfl⟩ := exists_object hobjects.2
    have ht := keyed_obj.mp he
    have hs := keyed_obj.mp hvalue
    obtain ⟨o, ho⟩ : ∃ o, v = .obj o := h.elim Kept.is_object fun h => ⟨source, h⟩
    rw [combine_objects hkey ht.1 hs.1, ho, kept_object_iff (nodup_merge_members ht.1 source)]
    intro k w hk hw
    have smaller : sizeOf w < sizeOf v := by
      have := List.sizeOf_lt_of_mem (Object.mem_of_get? hw)
      simp only [ho, Json.obj.sizeOf_spec, Prod.mk.sizeOf_spec] at this ⊢
      omega
    -- the member is kept in the target, or is a member of the source
    have member : (∃ m, Object.get? target k = some m ∧ Kept w m) ∨ Object.get? source k = some w := by
      rcases h with h | h
      · rw [ho] at h
        exact Or.inl ((kept_object_iff ht.1).mp h k w hk hw)
      · rw [ho] at h
        exact Or.inr (Json.obj.inj h ▸ hw)
    rw [get_merge_members hs.1]
    cases hm : Object.get? target k with
    | none =>
      have hw' := member.resolve_left (by simp [hm])
      rw [hw']
      exact ⟨w, rfl, .equal (same_refl w (hs.get hw'))⟩
    | some m =>
      cases hsource : Object.get? source k with
      | none =>
        obtain ⟨m', hm', hkept⟩ := member.resolve_right (by simp [hsource])
        exact ⟨m, rfl, Option.some.inj (hm'.symm.trans hm) ▸ hkept⟩
      | some x =>
        refine ⟨_, rfl, kept_combine hk (ht.get hm) (hs.get hsource) ?_⟩
        rcases member with ⟨m', hm', hkept⟩ | hx
        · exact Or.inl (Option.some.inj (hm'.symm.trans hm) ▸ hkept)
        · exact Or.inr (Option.some.inj (hx.symm.trans hsource))
  | false =>
    rw [combine_lists hkey hobjects (Or.inl differ)]
    have items := subset_add_values (listed existing) (listed value)
    have incoming : ∀ w ∈ listed value, w.elem (addValues (listed existing) (listed value)) = true :=
      fun w hw => elem_add_values _ (listed_keyed hvalue) hw
    rcases h with h | rfl
    · cases existing with
      | arr ms => exact h.grow items
      | _ => exact .item (h.not_list rfl) (items (List.mem_singleton_self _)) h
    · cases v with
      | arr vs => exact .array incoming
      | _ =>
        obtain ⟨m, hm, hequal⟩ := List.any_eq_true.mp (incoming _ (List.mem_singleton_self _))
        exact .item rfl hm (.equal hequal)
termination_by sizeOf v

end Kept

/-- The object with others merged into it, one after another. -/
def mergedOnto (t : Object) (os : List Object) : Object :=
  os.foldl (fun t o => (mergeMembers t o).1) t

/-- The values that objects have under a key. -/
def valuesAt (key : String) (os : List Object) : List Json := os.filterMap (Object.get? · key)

section Merge

variable {t o : Object} {os : List Object} {v : Json} {key : String}

theorem merge_all_onto (schemas : List Json) :
    (mergeAll schemas).1 = mergedOnto [] (schemas.filterMap asObject?) :=
  merge_all_eq schemas

theorem merge_members_keeps (ht : KeyedObject t) (ho : KeyedObject o)
    (h : Kept v (.obj t) ∨ v = .obj o) : Kept v (.obj (mergeMembers t o).1) := by
  have unsettled : isSettled "allOf" = false := by decide
  rw [← combine_objects unsettled ht.1 ho.1]
  exact kept_combine unsettled ht.json ho.json h

theorem merged_onto_keeps (ht : KeyedObject t) (hos : ∀ o ∈ os, KeyedObject o) :
    (∀ v, Kept v (.obj t) → Kept v (.obj (mergedOnto t os))) ∧
      ∀ o ∈ os, Kept (.obj o) (.obj (mergedOnto t os)) := by
  induction os generalizing t with
  | nil => exact ⟨fun _ h => h, by simp⟩
  | cons o os ih =>
    rw [List.forall_mem_cons] at hos ⊢
    obtain ⟨still, rest⟩ := ih (merge_members_keyed ht hos.1.2) hos.2
    refine ⟨fun v h => ?_, ?_, rest⟩
    · exact still v (merge_members_keeps ht hos.1 (Or.inl h))
    · exact still _ (merge_members_keeps ht hos.1 (Or.inr rfl))

theorem keys_merged (t o : Object) :
    Object.keys (mergeMembers t o).1 = addAll (Object.keys t) (Object.keys o) := by
  induction o generalizing t with
  | nil => rfl
  | cons m o ih =>
    obtain ⟨key, value⟩ := m
    have cons : Object.keys ((key, value) :: o) = key :: Object.keys o := rfl
    rw [mergeMembers, cons, addAll_cons, addNew]
    by_cases hkey : key ∈ Object.keys t
    · obtain ⟨existing, he⟩ := Option.isSome_iff_exists.mp (Object.contains_iff_mem.mpr hkey)
      rw [if_pos hkey, he]
      dsimp only
      split
      · exact ih t
      · dsimp only
        rw [ih, Object.keys_insert, if_pos hkey]
    · rw [if_neg hkey, Object.get_none_iff.mpr hkey]
      dsimp only
      rw [ih, Object.keys_insert, if_neg hkey]

theorem keys_merged_onto (t : Object) (os : List Object) :
    Object.keys (mergedOnto t os) = addAll (Object.keys t) (os.flatMap Object.keys) := by
  induction os generalizing t with
  | nil => rfl
  | cons o os ih =>
    rw [mergedOnto, List.foldl_cons, ← mergedOnto, ih, keys_merged, List.flatMap_cons]
    simp only [addAll, List.foldl_append]

theorem values_at_cons (key : String) (o : Object) (os : List Object) :
    valuesAt key (o :: os) = (Object.get? o key).toList ++ valuesAt key os := by
  rw [valuesAt, List.filterMap_cons]
  cases Object.get? o key <;> rfl

/-- Under a key whose first value stays, the first object that has it decides. -/
theorem merged_onto_settled (hkey : isSettled key = true) (hos : ∀ o ∈ os, KeyedObject o)
    (t : Object) : Object.get? (mergedOnto t os) key =
      (Object.get? t key).or (valuesAt key os).head? := by
  induction os generalizing t with
  | nil => simp [mergedOnto, valuesAt]
  | cons o os ih =>
    rw [List.forall_mem_cons] at hos
    rw [mergedOnto, List.foldl_cons, ← mergedOnto, ih hos.2, get_merge_members hos.1.1,
      values_at_cons]
    cases Object.get? t key with
    | none => cases Object.get? o key <;> rfl
    | some existing =>
      cases Object.get? o key with
      | none => rfl
      | some value =>
        rw [combined, combine_settled hkey]
        rfl

theorem merge_members_nil (ho : KeyedObject o) : (mergeMembers [] o).1 = o := by
  refine Object.ext_of_keys (nodup_merge_members keyed_object_nil.1 o) ?_ fun key => ?_
  · rw [keys_merge_members ho.1]
    simp [Object.keys]
  · rw [get_merge_members ho.1]
    rfl

/-- Under any other key, objects that meet are merged in turn. -/
theorem merged_onto_objects (hkey : isSettled key = false) (hos : ∀ o ∈ os, KeyedObject o)
    (hvalues : ∀ v ∈ valuesAt key os, isObject v = true) {p : Object} (ht : KeyedObject t)
    (hp : Object.get? t key = some (.obj p)) : Object.get? (mergedOnto t os) key =
      some (.obj (mergedOnto p ((valuesAt key os).filterMap asObject?))) := by
  induction os generalizing t p with
  | nil => exact hp
  | cons o os ih =>
    rw [List.forall_mem_cons] at hos
    rw [values_at_cons, List.forall_mem_append] at hvalues
    rw [mergedOnto, List.foldl_cons, ← mergedOnto, values_at_cons]
    have merged := get_merge_members hos.1.1 t key
    rw [hp] at merged
    cases ho : Object.get? o key with
    | none =>
      rw [ho] at merged
      exact ih hos.2 hvalues.2 (merge_members_keyed ht hos.1.2) merged
    | some value =>
      rw [ho] at merged hvalues
      obtain ⟨q, rfl⟩ := exists_object (hvalues.1 value (List.mem_singleton_self value))
      rw [combined, combine_objects hkey (keyed_obj.mp (ht.get hp)).1
        (keyed_obj.mp (hos.1.get ho)).1] at merged
      exact ih hos.2 hvalues.2 (merge_members_keyed ht hos.1.2) merged

theorem merged_onto_first (hkey : isSettled key = false) (hos : ∀ o ∈ os, KeyedObject o)
    (hvalues : ∀ v ∈ valuesAt key os, isObject v = true) (hsome : valuesAt key os ≠ [])
    (ht : KeyedObject t) (hnew : Object.get? t key = none) : Object.get? (mergedOnto t os) key =
      some (.obj (mergedOnto [] ((valuesAt key os).filterMap asObject?))) := by
  induction os generalizing t with
  | nil => exact absurd rfl hsome
  | cons o os ih =>
    rw [List.forall_mem_cons] at hos
    rw [values_at_cons] at hvalues hsome
    rw [mergedOnto, List.foldl_cons, ← mergedOnto, values_at_cons]
    have merged := get_merge_members hos.1.1 t key
    have keyed := merge_members_keyed ht hos.1.2
    rw [hnew] at merged
    cases ho : Object.get? o key with
    | none =>
      rw [ho] at merged hsome hvalues
      exact ih hos.2 hvalues hsome keyed merged
    | some value =>
      rw [ho] at merged hvalues
      rw [List.forall_mem_append] at hvalues
      obtain ⟨q, rfl⟩ := exists_object (hvalues.1 value (List.mem_singleton_self value))
      rw [merged_onto_objects hkey hos.2 hvalues.2 keyed merged]
      have first := merge_members_nil (keyed_obj.mp (hos.1.get ho))
      simp only [Option.toList_some, List.singleton_append, List.filterMap_cons, asObject?,
        mergedOnto, List.foldl_cons, first]

/-- Of several schemas that must hold together, the first one that has such a key decides. -/
theorem merge_all_settled {schemas : List Json} (h : ∀ j ∈ schemas, j.keyed = true)
    (hkey : isSettled key = true) : Object.get? (mergeAll schemas).1 key =
      (valuesAt key (schemas.filterMap asObject?)).head? := by
  rw [merge_all_onto, merged_onto_settled hkey (keyed_objects h)]
  rfl

theorem merge_all_objects {schemas : List Json} (h : ∀ j ∈ schemas, j.keyed = true)
    (hkey : isSettled key = false) (hsome : valuesAt key (schemas.filterMap asObject?) ≠ [])
    (hvalues : ∀ v ∈ valuesAt key (schemas.filterMap asObject?), isObject v = true) :
    Object.get? (mergeAll schemas).1 key =
      some (.obj (mergeAll (valuesAt key (schemas.filterMap asObject?))).1) := by
  rw [merge_all_onto, merge_all_onto]
  exact merged_onto_first hkey (keyed_objects h) hvalues hsome keyed_object_nil rfl

/-- Merging schemas that must hold together loses nothing. The result has the keys of all of them in the
order of their first occurrence, and keeps every one of them. Under a key whose first value stays it has
the value of the first that has one; under any other, objects that meet are merged in the same way. -/
theorem merging_keeps {schemas : List Json} (h : ∀ j ∈ schemas, j.keyed = true) :
    Object.keys (mergeAll schemas).1 =
      distinct ((schemas.filterMap asObject?).flatMap Object.keys) ∧
    (∀ o ∈ schemas.filterMap asObject?, Kept (.obj o) (.obj (mergeAll schemas).1)) ∧
    (∀ key, isSettled key = true → Object.get? (mergeAll schemas).1 key =
      (valuesAt key (schemas.filterMap asObject?)).head?) ∧
    ∀ key, isSettled key = false → valuesAt key (schemas.filterMap asObject?) ≠ [] →
      (∀ v ∈ valuesAt key (schemas.filterMap asObject?), isObject v = true) →
      Object.get? (mergeAll schemas).1 key =
        some (.obj (mergeAll (valuesAt key (schemas.filterMap asObject?))).1) := by
  refine ⟨?_, ?_, fun key hkey => merge_all_settled h hkey,
    fun key hkey hsome hvalues => merge_all_objects h hkey hsome hvalues⟩
  · rw [merge_all_onto, keys_merged_onto]
    rfl
  · rw [merge_all_onto]
    exact (merged_onto_keeps keyed_object_nil (keyed_objects h)).2

end Merge

/-- An object schema with a title and a property of the given type. -/
def titled (title : String) (type : Json) : Json := .obj [("title", .str title), ("type", type),
  ("properties", .obj [("x", .obj [("title", .str title), ("type", type)])])]

theorem titled_kept :
    (∀ j ∈ [titled "A" (.str "string"), .null, titled "B" (.str "integer")], j.keyed = true) ∧
    Kept (titled "B" (.str "integer"))
      (.obj (mergeAll [titled "A" (.str "string"), .null, titled "B" (.str "integer")]).1) ∧
    Object.get? (mergeAll [titled "A" (.str "string"), .null, titled "B" (.str "integer")]).1 "title" =
      some (.str "A") := by
  have keyed : ∀ j ∈ [titled "A" (.str "string"), .null, titled "B" (.str "integer")],
      j.keyed = true := by decide
  exact ⟨keyed, (merging_keeps keyed).2.1 _ (by simp [titled, asObject?]),
    (merging_keeps keyed).2.2.1 "title" (by decide)⟩

section Property

variable {s₁ s₂ p₁ p₂ a b : Object} {name : String}

theorem values_at_pair {key : String} {u v : Json} {o₁ o₂ : Object}
    (hu : Object.get? o₁ key = some u) (hv : Object.get? o₂ key = some v) :
    valuesAt key ([Json.obj o₁, .obj o₂].filterMap asObject?) = [u, v] := by
  simp [valuesAt, asObject?, hu, hv]

/-- What two schemas say of a key is merged if they are objects, and the first of them stays if its
first value does. -/
theorem merge_pair {key : String} {o₁ o₂ u v : Object} (h₁ : KeyedObject o₁) (h₂ : KeyedObject o₂)
    (hu : Object.get? o₁ key = some (.obj u)) (hv : Object.get? o₂ key = some (.obj v)) :
    Object.get? (mergeAll [.obj o₁, .obj o₂]).1 key =
      some (.obj (if isSettled key then u else (mergeAll [.obj u, .obj v]).1)) := by
  have keyed : ∀ j ∈ [Json.obj o₁, .obj o₂], j.keyed = true := by simp [h₁.json, h₂.json]
  have values := values_at_pair hu hv
  cases hkey : isSettled key with
  | true =>
    rw [merge_all_settled keyed hkey, values, if_pos rfl]
    rfl
  | false =>
    have objects : ∀ w ∈ [Json.obj u, .obj v], isObject w = true := by simp [isObject]
    rw [← values] at objects
    rw [merge_all_objects keyed hkey (by simp [values]) objects, values, if_neg Bool.false_ne_true]

/-- The schemas that two object schemas have for a property are merged, unless the name of the property
is a key whose first value stays: then the second one is lost. -/
theorem same_named_properties_merged (h₁ : (Json.obj s₁).keyed = true)
    (h₂ : (Json.obj s₂).keyed = true) (hp₁ : Object.get? s₁ "properties" = some (.obj p₁))
    (hp₂ : Object.get? s₂ "properties" = some (.obj p₂))
    (ha : Object.get? p₁ name = some (.obj a)) (hb : Object.get? p₂ name = some (.obj b)) :
    (Object.get? (mergeAll [.obj s₁, .obj s₂]).1 "properties").bind (·.get? name) =
      some (.obj (if isSettled name then a else (mergeAll [.obj a, .obj b]).1)) := by
  have keyed₁ := keyed_obj.mp h₁
  have keyed₂ := keyed_obj.mp h₂
  have unsettled : isSettled "properties" = false := by decide
  rw [merge_pair keyed₁ keyed₂ hp₁ hp₂, unsettled, if_neg Bool.false_ne_true]
  exact merge_pair (keyed_obj.mp (keyed₁.get hp₁)) (keyed_obj.mp (keyed₂.get hp₂)) ha hb

end Property

/-- A schema with one property of the given type. -/
def oneProperty (name type : String) : Object :=
  [("properties", .obj [(name, .obj [("type", .str type)])])]

theorem size_properties_merged :
    (Json.obj (oneProperty "size" "string")).keyed = true ∧
    (Object.get? (mergeAll [.obj (oneProperty "size" "string"),
        .obj (oneProperty "size" "integer")]).1 "properties").bind (·.get? "size") =
      some (.obj [("type", .arr [.str "string", .str "integer"])]) := by
  have text : (Json.obj (oneProperty "size" "string")).keyed = true := by decide
  have number : (Json.obj (oneProperty "size" "integer")).keyed = true := by decide
  have own : Object.get? [("size", .obj [("type", .str "string")])] "size" =
      some (.obj [("type", .str "string")]) := rfl
  have other : Object.get? [("size", .obj [("type", .str "integer")])] "size" =
      some (.obj [("type", .str "integer")]) := rfl
  exact ⟨text, same_named_properties_merged text number rfl rfl own other⟩

/-- Of two properties called `title` the second one is lost. -/
theorem title_properties_not_merged :
    (Object.get? (mergeAll [.obj (oneProperty "title" "string"),
        .obj (oneProperty "title" "integer")]).1 "properties").bind (·.get? "title") ≠
      some (.obj (mergeAll [.obj [("type", .str "string")], .obj [("type", .str "integer")]]).1) := by
  have first : (Object.get? (mergeAll [.obj (oneProperty "title" "string"),
      .obj (oneProperty "title" "integer")]).1 "properties").bind (·.get? "title") =
        some (.obj [("type", .str "string")]) := rfl
  have both : (mergeAll [.obj [("type", .str "string")], .obj [("type", .str "integer")]]).1 =
      [("type", .arr [.str "string", .str "integer"])] := rfl
  rw [first, both]
  simp

end Schema

end AvroDerive
