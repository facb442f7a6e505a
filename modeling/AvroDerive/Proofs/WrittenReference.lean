import AvroDerive.Proofs.SchemaText

/-! # The references that are written in a schema

Merging and composition make no references: each one in their result is one of a schema that went in. -/
namespace AvroDerive

namespace Json

mutual

/-- The references at any depth of a value: the texts under `$ref`. -/
def references : Json → List String
  | .arr items => itemReferences items
  | .obj members => memberReferences members
  | _ => []

def itemReferences : List Json → List String
  | [] => []
  | item :: items => item.references ++ itemReferences items

def memberReferences : List (String × Json) → List String
  | [] => []
  | (key, value) :: members =>
    (if key = "$ref" then value.asString?.toList else []) ++ value.references ++
      memberReferences members

end

/-- Every reference in the value satisfies a condition. -/
def RefersIn (w : String → Prop) (j : Json) : Prop := ∀ r ∈ j.references, w r

/-- Every reference in the member does, and so does the member if it is one. -/
def MemberRefersIn (w : String → Prop) (key : String) (v : Json) : Prop :=
  (∀ text, key = "$ref" → v = .str text → w text) ∧ RefersIn w v

section RefersIn

variable {w : String → Prop}

theorem refers_in_arr {items : List Json} :
    RefersIn w (.arr items) ↔ ∀ item ∈ items, RefersIn w item := by
  simp only [RefersIn, references]
  induction items with
  | nil => simp [itemReferences]
  | cons item items ih =>
    rw [itemReferences, List.forall_mem_append, ih, List.forall_mem_cons]

theorem refers_in_obj {members : Object} :
    RefersIn w (.obj members) ↔ ∀ m ∈ members, MemberRefersIn w m.1 m.2 := by
  simp only [RefersIn, references]
  induction members with
  | nil => simp [memberReferences]
  | cons m members ih =>
    obtain ⟨key, value⟩ := m
    rw [memberReferences, List.forall_mem_append, List.forall_mem_append, ih, List.forall_mem_cons]
    refine and_congr_left fun _ => and_congr_left fun _ => ?_
    cases value <;> by_cases hk : key = "$ref" <;> simp [hk, asString?]

theorem refers_in_leaf {j : Json} (h : j.references = []) : RefersIn w j := by simp [RefersIn, h]

theorem refers_in_str (text : String) : RefersIn w (.str text) := refers_in_leaf rfl

/-- A member under another key only has to hold such references. -/
theorem RefersIn.member {key : String} (hk : key ≠ "$ref") {v : Json} (h : RefersIn w v) :
    MemberRefersIn w key v :=
  ⟨fun _ he => absurd he hk, h⟩

theorem RefersIn.child {j child : Json} {key : String} (hj : RefersIn w j)
    (h : j.child? key = some child) : RefersIn w child := by
  cases j with
  | obj members => exact (refers_in_obj.mp hj _ (Object.mem_of_get? h)).2
  | arr items =>
    obtain ⟨i, -, hi⟩ := Option.bind_eq_some_iff.mp h
    exact refers_in_arr.mp hj _ (List.mem_of_getElem? hi)
  | _ => simp [child?] at h

theorem RefersIn.pointer {j value : Json} {pointer : String} (hj : RefersIn w j)
    (h : j.pointer? pointer = some value) : RefersIn w value :=
  pointer_inherits (fun _ _ _ => RefersIn.child) hj h

end RefersIn

end Json

namespace Schema

open Json

section Merge

variable {w : String → Prop} {o : Object}

/-- Every reference of the object's members satisfies a condition. -/
def ObjectRefersIn (w : String → Prop) (o : Object) : Prop := ∀ m ∈ o, MemberRefersIn w m.1 m.2

theorem ObjectRefersIn.json (h : ObjectRefersIn w o) : RefersIn w (.obj o) := refers_in_obj.mpr h

theorem ObjectRefersIn.get (ho : ObjectRefersIn w o) {key : String} {v : Json}
    (h : Object.get? o key = some v) : RefersIn w v :=
  (ho _ (Object.mem_of_get? h)).2

theorem ObjectRefersIn.insert (ho : ObjectRefersIn w o) {key : String} {v : Json}
    (hv : MemberRefersIn w key v) : ObjectRefersIn w (Object.insert o key v) := by
  intro m hm
  rcases Object.mem_insert hm with rfl | hm
  · exact hv
  · exact ho m hm

theorem ObjectRefersIn.erase (ho : ObjectRefersIn w o) (key : String) :
    ObjectRefersIn w (Object.erase o key) :=
  fun m hm => ho m (Object.mem_erase hm)

theorem ObjectRefersIn.eraseAll (ho : ObjectRefersIn w o) (keys : List String) :
    ObjectRefersIn w (eraseAll o keys) := by
  induction keys generalizing o with
  | nil => exact ho
  | cons key keys ih => exact ih (ho.erase key)

/-- Members that are laid over others. -/
theorem ObjectRefersIn.insert_all (ho : ObjectRefersIn w o) {members : List (String × Json)}
    (hm : ObjectRefersIn w members) :
    ObjectRefersIn w (members.foldl (fun o m => Object.insert o m.1 m.2) o) := by
  induction members generalizing o with
  | nil => exact ho
  | cons m members ih =>
    rw [ObjectRefersIn, List.forall_mem_cons] at hm
    exact ih (ho.insert hm.1) hm.2

theorem listed_refers {v : Json} (h : RefersIn w v) : ∀ item ∈ listed v, RefersIn w item := by
  cases v with
  | arr items => exact refers_in_arr.mp h
  | _ => simpa only [listed, List.forall_mem_singleton] using h

/-- Under `$ref` the first value stays. -/
theorem merge_value_reference (existing value : Json) :
    (mergeValue "$ref" existing value).1 = existing := by
  have first : "$ref" ∉ firstWinsKeys := by decide
  cases value <;> simp [mergeValue, first]

theorem merge_value_refers (key : String) {existing : Json} (he : MemberRefersIn w key existing)
    (value : Json) (hv : MemberRefersIn w key value) :
    MemberRefersIn w key (mergeValue key existing value).1 := by
  by_cases hk : key = "$ref"
  · subst hk
    rw [merge_value_reference]
    exact he
  rcases merge_value_cases key existing value with h | ⟨target, source, rfl, hsource, h⟩ | h
  · rw [h]
    exact he
  · rw [h]
    rw [hsource] at hv
    refine RefersIn.member hk (refers_in_obj.mpr ?_)
    refine merge_members_all source ?_ (refers_in_obj.mp he.2) (refers_in_obj.mp hv.2)
    intro e hm existing hx
    have smaller : sizeOf e.2 < sizeOf value := by
      have := List.sizeOf_lt_of_mem hm
      cases e
      simp only [hsource, Json.obj.sizeOf_spec, Prod.mk.sizeOf_spec] at this ⊢
      omega
    exact merge_value_refers e.1 hx e.2 (refers_in_obj.mp hv.2 e hm)
  · rw [h]
    refine RefersIn.member hk (refers_in_arr.mpr fun item hi => ?_)
    rcases mem_add_values hi with hi | hi
    · exact listed_refers he.2 item hi
    · exact listed_refers hv.2 item hi
termination_by sizeOf value

theorem merge_members_refers {target source : Object} (ht : ObjectRefersIn w target)
    (hs : ObjectRefersIn w source) : ObjectRefersIn w (mergeMembers target source).1 :=
  merge_members_all source (fun e hm _ hx => merge_value_refers e.1 hx e.2 (hs e hm)) ht hs

theorem object_refers_nil : ObjectRefersIn w [] := by simp [ObjectRefersIn]

theorem merge_all_refers {schemas : List Json} (h : ∀ j ∈ schemas, RefersIn w j) :
    ObjectRefersIn w (mergeAll schemas).1 := by
  refine fold_warned _ ?_ object_refers_nil []
  intro o ho source hs
  obtain ⟨j, hj, hsource⟩ := List.mem_filterMap.mp hs
  cases j with
  | obj members =>
    obtain rfl := Option.some.inj hsource
    exact merge_members_refers ho (refers_in_obj.mp (h _ hj))
  | _ => simp [asObject?] at hsource

theorem overlay_refers {base : Object} {properties : Json} (hb : ObjectRefersIn w base)
    (hp : RefersIn w properties) : ObjectRefersIn w (overlayProperties base properties) := by
  have existing : RefersIn w ((Object.get? base "properties").getD (.obj [])) := by
    cases hg : Object.get? base "properties" with
    | none => exact refers_in_leaf rfl
    | some v => exact hb.get hg
  unfold overlayProperties
  refine hb.insert (RefersIn.member (by decide) ?_)
  split
  · next target source he =>
    rw [he] at existing
    have laid : ObjectRefersIn w target := refers_in_obj.mp existing
    exact (laid.insert_all (refers_in_obj.mp hp)).json
  · exact existing

theorem merge_alternative_refers {base : Object} {members : List (String × Json)}
    (hb : ObjectRefersIn w base) (hm : ObjectRefersIn w members) :
    ObjectRefersIn w (mergeAlternative base members).1 := by
  induction members generalizing base with
  | nil => exact hb
  | cons e members ih =>
    obtain ⟨key, value⟩ := e
    obtain ⟨hv, hrest⟩ := List.forall_mem_cons.mp hm
    simp only [mergeAlternative]
    split
    · exact ih hb hrest
    · split
      · exact ih (overlay_refers hb hv.2) hrest
      · exact ih (merge_members_refers hb (by simpa [ObjectRefersIn] using hv)) hrest

theorem merge_any_refers {base : Object} {branches : List Json} (hb : ObjectRefersIn w base)
    (h : ∀ b ∈ branches, RefersIn w b) : ObjectRefersIn w (mergeAny base branches).1 := by
  have step : ∀ o, ObjectRefersIn w o → ∀ source ∈ branches.filterMap Json.asObject?,
      ObjectRefersIn w (mergeAlternative o source).1 := by
    intro o ho source hs
    obtain ⟨j, hj, hsource⟩ := List.mem_filterMap.mp hs
    cases j with
    | obj members =>
      obtain rfl := Option.some.inj hsource
      exact merge_alternative_refers ho (refers_in_obj.mp (h _ hj))
    | _ => simp [asObject?] at hsource
  have merged := fold_warned _ step hb []
  simp only [mergeAny]
  split
  · exact merged.erase _
  · refine merged.insert (RefersIn.member (by decide) ?_)
    rw [ofStrings, refers_in_arr]
    intro item hi
    obtain ⟨name, -, rfl⟩ := List.mem_map.mp hi
    exact refers_in_str name

theorem merge_one_refers {base : Object} {option : Json} (hb : ObjectRefersIn w base)
    (ho : RefersIn w option) : RefersIn w (mergeOne base option) := by
  have typed : RefersIn w (if base.isEmpty then option else .obj (Object.insert base "type" option)) := by
    split
    · exact ho
    · exact (hb.insert (RefersIn.member (by decide) ho)).json
  cases option with
  | obj members => exact (hb.insert_all (refers_in_obj.mp ho)).json
  | _ => exact typed

end Merge

section Expand

variable {w : String → Prop} {document : Json} {o : Object}

theorem dereference_refers (hd : RefersIn w document) {schema : Json} (hs : RefersIn w schema) :
    RefersIn w (dereference document schema).1 := by
  cases schema with
  | obj o =>
    simp only [dereference]
    split
    · split
      · next fragment hf =>
        refine (merge_all_refers ?_).json
        rw [List.forall_mem_cons, List.forall_mem_singleton]
        obtain ⟨part, -, hp⟩ := Option.bind_eq_some_iff.mp hf
        have beside : ObjectRefersIn w o := refers_in_obj.mp hs
        exact ⟨hd.pointer hp, (beside.erase _).json⟩
      · exact hs
    · exact hs
  | _ => exact hs

theorem dereference_all_refers (hd : RefersIn w document) {schemas : List Json}
    (hs : ∀ j ∈ schemas, RefersIn w j) :
    ∀ j ∈ (dereferenceAll document schemas).1, RefersIn w j := by
  intro j hj
  simp only [dereferenceAll, List.map_map, List.mem_map] at hj
  obtain ⟨schema, hm, rfl⟩ := hj
  exact dereference_refers hd (hs schema hm)

theorem bases_refer {base : Object} (hb : ObjectRefersIn w base) {candidates : List Json}
    (hc : ∀ c ∈ candidates, RefersIn w c) : ∀ b ∈ bases base candidates, ObjectRefersIn w b := by
  cases candidates with
  | nil => simpa [bases] using hb
  | cons c cs =>
    intro b hm
    obtain ⟨d, hd, rfl⟩ := List.mem_map.mp hm
    have hin := hc d hd
    cases d with
    | obj o => exact refers_in_obj.mp hin
    | _ =>
      simp only [ObjectRefersIn, List.forall_mem_singleton]
      exact RefersIn.member (by decide) hin

theorem list_refers (ho : ObjectRefersIn w o) {key : String} {members : List Json}
    (h : Object.get? o key = some (.arr members)) : ∀ j ∈ members, RefersIn w j :=
  refers_in_arr.mp (ho.get h)

theorem after_all_refers (hd : RefersIn w document) {base : Object} (hb : ObjectRefersIn w base)
    (ho : ObjectRefersIn w o) : ∀ c ∈ (afterAll document base o).1, RefersIn w c := by
  unfold afterAll
  split
  · next members hg =>
    simp only [expandAll, List.forall_mem_singleton]
    refine (merge_all_refers ?_).json
    rw [List.forall_mem_cons]
    exact ⟨hb.json, dereference_all_refers hd (list_refers ho hg)⟩
  · simp

theorem after_one_refers {base : Object} (hb : ObjectRefersIn w base) (ho : ObjectRefersIn w o)
    {candidates : List Json} (hc : ∀ c ∈ candidates, RefersIn w c) :
    ∀ c ∈ afterOne base o candidates, RefersIn w c := by
  unfold afterOne
  split
  · next options hg =>
    intro c hm
    obtain ⟨option, hoption, hmap⟩ := List.mem_flatMap.mp hm
    obtain ⟨b, hbase, rfl⟩ := List.mem_map.mp hmap
    exact merge_one_refers (bases_refer hb hc b hbase) (list_refers ho hg option hoption)
  · exact hc

/-- The candidates of a schema hold references of the schema and of the document only. -/
theorem expand_refers (hd : RefersIn w document) (ho : ObjectRefersIn w o) :
    ∀ c ∈ (expand document o).1, RefersIn w c := by
  have base : ObjectRefersIn w (eraseAll o compositionKeywords) := ho.eraseAll _
  have one := after_one_refers base ho (after_all_refers hd base ho)
  simp only [expand]
  split
  · next branches hg =>
    simp only [expandAny]
    intro c hm
    obtain ⟨merged, hmerged, rfl⟩ := List.mem_map.mp hm
    obtain ⟨b, hb, rfl⟩ := List.mem_map.mp hmerged
    exact (merge_any_refers (bases_refer base one b hb)
      (dereference_all_refers hd (list_refers ho hg))).json
  · exact one

end Expand

end Schema

end AvroDerive
