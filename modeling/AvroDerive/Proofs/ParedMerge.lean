import AvroDerive.Proofs.KeyedSchema

/-! # Merging without conditional keywords

Merging two schemas and dropping the conditional keywords comes to the same in either order, as long as
no two items of the lists that are joined differ in nothing but conditional keywords: joining keeps them
both, where one of them would do without. -/
namespace AvroDerive

open Json Schema

theorem Object.get_none_iff {o : Object} {key : String} : get? o key = none ↔ key ∉ keys o := by
  rw [← contains_iff_mem, contains, Bool.not_eq_true, Option.isSome_eq_false_iff,
    Option.isNone_iff_eq_none]

/-- An object is given by its keys in their order and by their values. -/
theorem Object.ext_of_keys {o o' : Object} (h : (keys o).Nodup) (hkeys : keys o = keys o')
    (hget : ∀ key, get? o key = get? o' key) : o = o' := by
  induction o generalizing o' with
  | nil =>
    exact (List.map_eq_nil_iff.mp hkeys.symm).symm
  | cons m o ih =>
    obtain ⟨k, v⟩ := m
    cases o' with
    | nil => simp [keys] at hkeys
    | cons m' o' =>
      obtain ⟨k', v'⟩ := m'
      obtain ⟨rfl, hrest⟩ := List.cons.inj hkeys
      obtain ⟨hk, hnodup⟩ := List.nodup_cons.mp h
      have absent : ∀ {p : Object}, keys p = keys o → get? p k = none :=
        fun hp => get_none_iff.mpr (hp ▸ hk)
      have first := hget k
      rw [get?_cons, get?_cons, if_pos rfl, if_pos rfl] at first
      obtain rfl := Option.some.inj first
      have rest : o = o' := by
        refine ih hnodup hrest fun key => ?_
        by_cases hkey : key = k
        · rw [hkey, absent rfl, absent hrest.symm]
        · have other := hget key
          rwa [get?_cons, get?_cons, if_neg hkey, if_neg hkey] at other
      rw [rest]

namespace Schema

section Combine

variable {target source : Object} {key : String}

/-- The value of a key that both schemas have. -/
def combine (key : String) (existing value : Json) : Json :=
  if existing.same value then existing else (mergeValue key existing value).1

/-- The value that merging gives a key. -/
def combined (key : String) : Option Json → Option Json → Option Json
  | some existing, some value => some (combine key existing value)
  | some existing, none => some existing
  | none, value => value

theorem get_merge_members (hs : (Object.keys source).Nodup) (target : Object) (key : String) :
    Object.get? (mergeMembers target source).1 key =
      combined key (Object.get? target key) (Object.get? source key) := by
  induction source generalizing target with
  | nil =>
    rw [mergeMembers, Object.get?_nil]
    cases Object.get? target key <;> rfl
  | cons m source ih =>
    obtain ⟨k, value⟩ := m
    obtain ⟨hk, hnodup⟩ := List.nodup_cons.mp hs
    have absent : Object.get? source k = none := Object.get_none_iff.mpr hk
    rw [mergeMembers, Object.get?_cons]
    by_cases hkey : key = k
    · subst hkey
      rw [if_pos rfl]
      cases hg : Object.get? target key with
      | none =>
        dsimp only
        rw [ih hnodup, Object.get?_insert, if_pos rfl, absent]
        rfl
      | some existing =>
        dsimp only
        rw [combined, combine]
        split
        · rw [ih hnodup, hg, absent]
          rfl
        · dsimp only
          rw [ih hnodup, Object.get?_insert, if_pos rfl, absent]
          rfl
    · rw [if_neg hkey]
      split
      · rw [ih hnodup, Object.get?_insert, if_neg hkey]
      · split
        · rw [ih hnodup]
        · dsimp only
          rw [ih hnodup, Object.get?_insert, if_neg hkey]

theorem keys_merge_members (hs : (Object.keys source).Nodup) (target : Object) :
    Object.keys (mergeMembers target source).1 =
      Object.keys target ++ (Object.keys source).filter (· ∉ Object.keys target) := by
  induction source generalizing target with
  | nil => rw [mergeMembers, Object.keys, Object.keys, List.map_nil, List.filter_nil, List.append_nil]
  | cons m source ih =>
    obtain ⟨k, value⟩ := m
    obtain ⟨hk, hnodup⟩ := List.nodup_cons.mp hs
    have cons : Object.keys ((k, value) :: source) = k :: Object.keys source := rfl
    rw [mergeMembers, cons]
    cases hg : Object.get? target k with
    | none =>
      have hnew : k ∉ Object.keys target := Object.get_none_iff.mp hg
      dsimp only
      rw [ih hnodup, Object.keys_insert, if_neg hnew, List.filter_cons_of_pos (by simp [hnew]),
        List.append_assoc, List.singleton_append]
      congr 2
      refine List.filter_congr fun other ho => ?_
      have hne : other ≠ k := fun he => hk (he ▸ ho)
      simp [hne]
    | some existing =>
      have hold : k ∈ Object.keys target := by
        by_contra hnew
        simp [Object.get_none_iff.mpr hnew] at hg
      rw [List.filter_cons_of_neg (by simp [hold])]
      dsimp only
      split
      · exact ih hnodup _
      · dsimp only
        rw [ih hnodup, Object.keys_insert, if_pos hold]

/-- Keys whose first value stays. -/
def isSettled (key : String) : Bool := decide (key ∈ firstWinsKeys ∨ key = "$ref")

theorem merge_settled (h : isSettled key = true) (existing value : Json) :
    (mergeValue key existing value).1 = existing := by
  rcases (of_decide_eq_true h : key ∈ firstWinsKeys ∨ key = "$ref") with hfirst | rfl
  · cases value <;> simp [mergeValue, hfirst]
  · exact merge_value_reference existing value

theorem combine_settled (h : isSettled key = true) (existing value : Json) :
    combine key existing value = existing := by
  rw [combine, merge_settled h, ite_self]

/-- Merging an object with one that is the same changes nothing. -/
theorem merge_members_same (ht : (Object.keys target).Nodup) (hs : (Object.keys source).Nodup)
    (h : (Json.obj target).same (.obj source) = true) : (mergeMembers target source).1 = target := by
  have perm := keys_perm_of_same ht h
  refine (Object.ext_of_keys ht ?_ fun key => ?_).symm
  · have known : (Object.keys source).filter (· ∉ Object.keys target) = [] := by
      rw [List.filter_eq_nil_iff]
      intro key hkey
      simp [perm.mem_iff.mpr hkey]
    rw [keys_merge_members hs, known, List.append_nil]
  · rw [get_merge_members hs]
    cases hg : Object.get? target key with
    | none =>
      rw [Object.get_none_iff, perm.mem_iff, ← Object.get_none_iff] at hg
      rw [hg]
      rfl
    | some existing =>
      obtain ⟨v, hv, hsame⟩ := (same_obj_iff.mp h).2 _ (Object.mem_of_get? hg)
      rw [show Object.get? source key = some v from hv, combined, combine,
        if_pos (show existing.same v = true from hsame)]

/-- Two objects are merged member by member. -/
theorem combine_objects (h : isSettled key = false) (ht : (Object.keys target).Nodup)
    (hs : (Object.keys source).Nodup) :
    combine key (.obj target) (.obj source) = .obj (mergeMembers target source).1 := by
  have hkey : ¬(key ∈ firstWinsKeys ∨ key = "$ref") := of_decide_eq_false h
  rw [not_or] at hkey
  rw [combine]
  split
  · next hsame => rw [merge_members_same ht hs hsame]
  · rw [mergeValue, if_neg hkey.1, if_neg hkey.2]

theorem add_values_same {items more : List Json} (h : ∀ v ∈ more, v.elem items = true) :
    addValues items more = items := by
  induction more with
  | nil => rfl
  | cons v more ih =>
    rw [List.forall_mem_cons] at h
    rw [addValues, List.foldl_cons, if_pos h.1]
    exact ih h.2

theorem elem_of_same_items {items more : List Json} (h : sameItems items more = true) :
    ∀ v ∈ more, v.elem items = true := by
  induction items generalizing more with
  | nil => cases more <;> simp_all [sameItems]
  | cons item items ih =>
    cases more with
    | nil => simp
    | cons v more =>
      rw [sameItems, Bool.and_eq_true] at h
      rw [List.forall_mem_cons]
      refine ⟨?_, fun w hw => ?_⟩
      · rw [Json.elem, List.any_cons, h.1, Bool.true_or]
      · have found : w.elem items = true := ih h.2 w hw
        rw [Json.elem, List.any_cons, ← Json.elem, found, Bool.or_true]

def isObject : Json → Bool
  | .obj _ => true
  | _ => false

def isList : Json → Bool
  | .arr _ => true
  | _ => false

theorem exists_object {v : Json} (h : isObject v = true) : ∃ o, v = .obj o := by
  cases v with
  | obj o => exact ⟨o, rfl⟩
  | _ => simp [isObject] at h

/-- Values that are no two objects are merged as lists, unless they are the same. -/
theorem combine_lists (h : isSettled key = false) {existing value : Json}
    (hkind : (isObject existing && isObject value) = false)
    (hdiffer : existing.same value = false ∨ (isList existing && isList value) = true) :
    combine key existing value = .arr (addValues (listed existing) (listed value)) := by
  have hkey : ¬(key ∈ firstWinsKeys ∨ key = "$ref") := of_decide_eq_false h
  rw [not_or] at hkey
  rw [combine]
  split
  · next hsame =>
    obtain ⟨items, more, rfl, rfl⟩ : ∃ items more, existing = .arr items ∧ value = .arr more := by
      have lists := hdiffer.resolve_left (by simp [hsame])
      cases existing <;> cases value <;> simp_all [isList]
    rw [same] at hsame
    rw [listed, listed, add_values_same (elem_of_same_items hsame)]
  · cases value with
    | obj source =>
      cases existing <;> simp_all [isObject, mergeValue, listed]
    | _ => simp [mergeValue, hkey.1, hkey.2]

end Combine

/-- Two lists that merging joins, and how the keys in them are read. -/
structure Join where
  role : Role
  items : List Json
  more : List Json

/-- Items that are compared are the same if they are without their conditional keywords. -/
def Join.Discerns (j : Join) : Prop :=
  ∀ a ∈ j.items ++ j.more, ∀ b ∈ j.more, (a.pare j.role).same (b.pare j.role) = true →
    a.same b = true

mutual

/-- The lists that are joined when a value is merged into a different one. -/
def valueJoins (r : Role) (existing : Json) : Json → List Join
  | .obj source =>
    match existing with
    | .obj target => memberJoins r target source
    | existing => [⟨r, listed existing, [.obj source]⟩]
  | value => [⟨r, listed existing, listed value⟩]

/-- The lists that are joined when members are merged into an object, but for those in conditional
keywords. -/
def memberJoins (r : Role) (target : Object) : List (String × Json) → List Join
  | [] => []
  | (key, value) :: rest =>
    (match Object.get? target key with
      | some existing =>
        if r.drops key || isSettled key || existing.same value then []
        else valueJoins (r.under key) existing value
      | none => []) ++ memberJoins r target rest

end

section Pare

variable {r : Role} {key : String}

theorem listed_pare (v : Json) : listed (v.pare r) = (listed v).map (pare r) := by
  cases v <;> simp [listed]

theorem is_object_pare (v : Json) : isObject (v.pare r) = isObject v := by
  cases v <;> simp [isObject]

theorem is_list_pare (v : Json) : isList (v.pare r) = isList v := by
  cases v <;> simp [isList]

/-- Values that are neither objects nor lists are their own pared forms. -/
theorem pare_leaf {v : Json} (ho : isObject v = false) (hl : isList v = false) : v.pare r = v := by
  cases v <;> simp_all [isObject, isList]

theorem same_kind {v w : Json} (h : v.same w = true) :
    isObject v = isObject w ∧ isList v = isList w := by
  cases v <;> cases w <;> simp_all [same, isObject, isList]

/-- The same items are added with the conditional keywords and without. -/
theorem pare_add_values {items more : List Json}
    (hitems : ∀ a ∈ items, a.keyed = true) (hmore : ∀ b ∈ more, b.keyed = true)
    (h : ∀ a ∈ items ++ more, ∀ b ∈ more, (a.pare r).same (b.pare r) = true → a.same b = true) :
    (addValues items more).map (pare r) = addValues (items.map (pare r)) (more.map (pare r)) := by
  induction more generalizing items with
  | nil => rfl
  | cons v more ih =>
    rw [List.forall_mem_cons] at hmore
    have elem : (v.pare r).elem (items.map (pare r)) = v.elem items := by
      rw [Bool.eq_iff_iff]
      simp only [Json.elem, List.any_map, List.any_eq_true, Function.comp_apply]
      refine exists_congr fun a => and_congr_right fun ha => ?_
      exact ⟨h a (List.mem_append_left _ ha) v List.mem_cons_self, same_pare r a v (hitems a ha)⟩
    have step : addValues items (v :: more) =
        addValues (if v.elem items then items else items ++ [v]) more := rfl
    have step' : addValues (items.map (pare r)) ((v :: more).map (pare r)) =
        addValues (if (v.pare r).elem (items.map (pare r)) then items.map (pare r)
          else items.map (pare r) ++ [v.pare r]) (more.map (pare r)) := rfl
    rw [step, step', elem]
    split
    · refine ih hitems hmore.2 fun a ha b hb => h a ?_ b (List.mem_cons_of_mem _ hb)
      exact (List.mem_append.mp ha).elim (List.mem_append_left _)
        fun ha => List.mem_append_right _ (List.mem_cons_of_mem _ ha)
    · rw [ih _ hmore.2, List.map_append, List.map_singleton]
      · intro a ha b hb
        refine h a ?_ b (List.mem_cons_of_mem _ hb)
        rwa [List.append_assoc, List.singleton_append] at ha
      · intro a ha
        rcases List.mem_append.mp ha with ha | ha
        · exact hitems a ha
        · obtain rfl := List.mem_singleton.mp ha
          exact hmore.1

/-- Merging members commutes with paring, if merging the values does. -/
theorem pare_merge_members_of {target source : Object} (ht : KeyedObject target)
    (hs : KeyedObject source) (h : ∀ m ∈ source, r.drops m.1 = false → ∀ existing,
      Object.get? target m.1 = some existing → (combine m.1 existing m.2).pare (r.under m.1) =
        combine m.1 (existing.pare (r.under m.1)) (m.2.pare (r.under m.1))) :
    pareMembers r (mergeMembers target source).1 =
      (mergeMembers (pareMembers r target) (pareMembers r source)).1 := by
  refine Object.ext_of_keys (nodup_pare (nodup_merge_members ht.1 source)) ?_ fun key => ?_
  · rw [keys_pare, keys_merge_members hs.1, keys_merge_members (nodup_pare hs.1), keys_pare,
      keys_pare, List.filter_append, List.filter_filter, List.filter_filter]
    congr 1
    refine List.filter_congr fun key _ => ?_
    cases hd : r.drops key <;> simp [hd]
  · rw [get_merge_members (nodup_pare hs.1), get_pare, get_pare, get_pare]
    split
    · rfl
    · next hd =>
      rw [get_merge_members hs.1]
      cases he : Object.get? target key with
      | none => rfl
      | some existing =>
        cases hv : Object.get? source key with
        | none => rfl
        | some value =>
          exact congrArg some (h _ (Object.mem_of_get? hv) (Bool.eq_false_of_not_eq_true hd) _ he)

/-- The lists that are joined when a key has two values. -/
def combineJoins (r : Role) (key : String) (existing value : Json) : List Join :=
  if isSettled key || existing.same value then [] else valueJoins r existing value

theorem mem_member_joins {target source : Object} (m : String × Json) (hm : m ∈ source)
    (hd : r.drops m.1 = false) {existing : Json} (he : Object.get? target m.1 = some existing) :
    combineJoins (r.under m.1) m.1 existing m.2 ⊆ memberJoins r target source := by
  induction source with
  | nil => simp at hm
  | cons e source ih =>
    obtain ⟨k, value⟩ := e
    rw [memberJoins]
    rcases List.mem_cons.mp hm with rfl | hm
    · rw [he]
      dsimp only at hd ⊢
      rw [hd, Bool.false_or, ← combineJoins]
      exact List.subset_append_left _ _
    · exact fun j hj => List.mem_append_right _ (ih hm hj)

/-- Merging two values commutes with paring, where items of lists are not told apart by conditional
keywords. -/
theorem pare_combine (r : Role) (key : String) (existing value : Json)
    (he : existing.keyed = true) (hv : value.keyed = true)
    (h : ∀ j ∈ combineJoins r key existing value, j.Discerns) :
    (combine key existing value).pare r = combine key (existing.pare r) (value.pare r) := by
  by_cases hsame : existing.same value = true
  · rw [combine, if_pos hsame, combine, if_pos (same_pare r existing value he hsame)]
  have differ : existing.same value = false := Bool.eq_false_of_not_eq_true hsame
  cases hkey : isSettled key with
  | true => rw [combine_settled hkey, combine_settled hkey]
  | false =>
    rw [combineJoins, hkey, differ, Bool.or_false, if_neg Bool.false_ne_true] at h
    cases hobjects : isObject existing && isObject value with
    | true =>
      obtain ⟨target, source, rfl, hsource⟩ :
          ∃ target source, existing = .obj target ∧ value = .obj source := by
        cases existing <;> cases value <;> simp_all [isObject]
      rw [hsource] at hv h ⊢
      have ht := keyed_obj.mp he
      have hs := keyed_obj.mp hv
      rw [valueJoins] at h
      rw [combine_objects hkey ht.1 hs.1, pare_obj, pare_obj, pare_obj,
        combine_objects hkey (nodup_pare ht.1) (nodup_pare hs.1)]
      refine congrArg Json.obj (pare_merge_members_of ht hs fun m hm hd existing hg => ?_)
      have smaller : sizeOf m.2 < sizeOf value := by
        have := List.sizeOf_lt_of_mem hm
        cases m
        simp only [hsource, Json.obj.sizeOf_spec, Prod.mk.sizeOf_spec] at this ⊢
        omega
      exact pare_combine _ _ _ _ (ht.get hg) (hs.2 m hm) fun j hj =>
        h j (mem_member_joins m hm hd hg hj)
    | false =>
      have joined : ∀ j ∈ [Join.mk r (listed existing) (listed value)], j.Discerns := by
        cases value with
        | obj source => cases existing <;> simp_all [isObject, valueJoins, listed]
        | _ => simpa [valueJoins] using h
      rw [List.forall_mem_singleton] at joined
      have pared : (existing.pare r).same (value.pare r) = false ∨
          (isList (existing.pare r) && isList (value.pare r)) = true := by
        rw [is_list_pare, is_list_pare]
        by_contra hnot
        rw [not_or, Bool.not_eq_false, Bool.not_eq_true] at hnot
        obtain ⟨ho, hl⟩ := same_kind hnot.1
        rw [is_object_pare, is_object_pare] at ho
        rw [is_list_pare, is_list_pare] at hl
        rw [← ho, Bool.and_self] at hobjects
        rw [← hl, Bool.and_self] at hnot
        rw [pare_leaf hobjects hnot.2, pare_leaf (ho ▸ hobjects) (hl ▸ hnot.2), differ] at hnot
        exact Bool.false_ne_true hnot.1
      rw [combine_lists hkey hobjects (Or.inl differ), combine_lists hkey _ pared, pare_arr,
        listed_pare, listed_pare,
        pare_add_values (listed_keyed he) (listed_keyed hv) joined]
      rw [is_object_pare, is_object_pare, hobjects]
termination_by sizeOf value

/-- Merging members commutes with paring. -/
theorem pare_merge_members {target source : Object} (ht : KeyedObject target)
    (hs : KeyedObject source) (h : ∀ j ∈ memberJoins r target source, j.Discerns) :
    pareMembers r (mergeMembers target source).1 =
      (mergeMembers (pareMembers r target) (pareMembers r source)).1 :=
  pare_merge_members_of ht hs fun m hm hd _ hg =>
    pare_combine _ _ _ _ (ht.get hg) (hs.2 m hm) fun j hj => h j (mem_member_joins m hm hd hg hj)

end Pare

end Schema

end AvroDerive
