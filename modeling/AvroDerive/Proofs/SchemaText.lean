import AvroDerive.Convert.Node
import AvroDerive.Proofs.MergedMention

/-! # The texts of schemas

Composition takes schemas apart and puts them together again. What it makes holds no texts but those
of the schemas that went in, and the type name `object`, which stands beside listed properties. So a
name that is no primitive type is one that a document holds. -/
namespace AvroDerive

namespace Json

mutual

/-- The texts in a value, without the keys of its objects. -/
def texts : Json → List String
  | .str text => [text]
  | .arr items => itemTexts items
  | .obj members => memberTexts members
  | _ => []

def itemTexts : List Json → List String
  | [] => []
  | item :: items => item.texts ++ itemTexts items

def memberTexts : List (String × Json) → List String
  | [] => []
  | (_, value) :: members => value.texts ++ memberTexts members

end

/-- Every text in the value satisfies a condition. -/
def TextsIn (w : String → Prop) (j : Json) : Prop := ∀ text ∈ j.texts, w text

section TextsIn

variable {w : String → Prop}

@[simp] theorem texts_in_str {text : String} : TextsIn w (.str text) ↔ w text := by
  simp [TextsIn, texts]

@[simp] theorem texts_in_null : TextsIn w .null := by simp [TextsIn, texts]

@[simp] theorem texts_in_bool {value : Bool} : TextsIn w (.bool value) := by
  simp [TextsIn, texts]

@[simp] theorem texts_in_num {value : Number} : TextsIn w (.num value) := by
  simp [TextsIn, texts]

@[simp] theorem texts_in_arr {items : List Json} :
    TextsIn w (.arr items) ↔ ∀ item ∈ items, TextsIn w item := by
  simp only [TextsIn, texts]
  induction items with
  | nil => simp [itemTexts]
  | cons item items ih =>
    rw [itemTexts, List.forall_mem_append, ih, List.forall_mem_cons]

@[simp] theorem texts_in_obj {members : Object} :
    TextsIn w (.obj members) ↔ ∀ m ∈ members, TextsIn w m.2 := by
  simp only [TextsIn, texts]
  induction members with
  | nil => simp [memberTexts]
  | cons m members ih =>
    rw [memberTexts, List.forall_mem_append, ih, List.forall_mem_cons]

end TextsIn

end Json

open Json

namespace Object

theorem mem_of_get? {o : Object} {key : String} {v : Json} (h : get? o key = some v) :
    (key, v) ∈ o := by
  induction o with
  | nil => simp at h
  | cons m o ih =>
    obtain ⟨k, v'⟩ := m
    rw [get?_cons] at h
    split at h
    · next hk =>
      obtain rfl := Option.some.inj h
      rw [hk]
      exact List.mem_cons_self ..
    · exact List.mem_cons_of_mem _ (ih h)

theorem mem_insert {o : Object} {key : String} {v : Json} {m : String × Json}
    (h : m ∈ insert o key v) : m = (key, v) ∨ m ∈ o := by
  induction o with
  | nil => exact Or.inl (by simpa [insert] using h)
  | cons e o ih =>
    obtain ⟨k, v'⟩ := e
    simp only [insert] at h
    split at h
    · next hk =>
      rw [hk, List.mem_cons] at h
      exact h.imp_right (List.mem_cons_of_mem _)
    · rcases List.mem_cons.mp h with rfl | h
      · exact Or.inr (List.mem_cons_self ..)
      · exact (ih h).imp_right (List.mem_cons_of_mem _)

theorem mem_erase {o : Object} {key : String} {m : String × Json} (h : m ∈ erase o key) :
    m ∈ o := by
  unfold erase at h
  split at h
  · simp at h
  · next last hl =>
    split at h
    · split at h
      · exact List.dropLast_subset _ h
      · obtain ⟨e, he, rfl⟩ := List.mem_map.mp h
        split
        · exact List.mem_of_getLast? hl
        · exact List.dropLast_subset _ he
    · exact h

end Object

namespace Json

variable {w : String → Prop}

theorem child_texts {j child : Json} {key : String} (hj : TextsIn w j)
    (h : j.child? key = some child) : TextsIn w child := by
  cases j with
  | obj members => exact texts_in_obj.mp hj _ (Object.mem_of_get? h)
  | arr items =>
    obtain ⟨i, -, hi⟩ := Option.bind_eq_some_iff.mp h
    exact texts_in_arr.mp hj _ (List.mem_of_getElem? hi)
  | _ => simp [child?] at h

/-- What is inherited by the members and the items of a value holds of all that pointers lead to. -/
theorem pointer_inherits {inherited : Json → Prop}
    (step : ∀ j child key, inherited j → j.child? key = some child → inherited child)
    {j value : Json} {pointer : String} (hj : inherited j)
    (h : j.pointer? pointer = some value) : inherited value := by
  have descend : ∀ (keys : List String) (j : Json), inherited j →
      j.descend? keys = some value → inherited value := by
    intro keys
    induction keys with
    | nil =>
      intro j hj h
      obtain rfl : j = value := by simpa [descend?] using h
      exact hj
    | cons key keys ih =>
      intro j hj h
      rw [descend?, List.foldlM_cons] at h
      obtain ⟨child, hc, h⟩ := Option.bind_eq_some_iff.mp h
      exact ih child (step j child key hj hc) h
  unfold pointer? at h
  split at h
  · exact Option.some.inj h ▸ hj
  · split at h
    · exact descend _ j hj h
    · simp at h

theorem pointer_texts {j value : Json} {pointer : String} (hj : TextsIn w j)
    (h : j.pointer? pointer = some value) : TextsIn w value :=
  pointer_inherits (fun _ _ _ => child_texts) hj h

end Json

namespace Schema

section Merge

variable {w : String → Prop}

theorem mem_add_values {items more : List Json} {v : Json} (h : v ∈ addValues items more) :
    v ∈ items ∨ v ∈ more := by
  induction more generalizing items with
  | nil => exact Or.inl h
  | cons u more ih =>
    rw [List.mem_cons]
    rcases ih h with h | h
    · have : v ∈ items ++ [u] := by
        by_cases hu : u.elem items = true
        · simp only [if_pos hu] at h
          exact List.mem_append_left _ h
        · simpa only [if_neg hu] using h
      rcases List.mem_append.mp this with h | h
      · exact Or.inl h
      · exact Or.inr (Or.inl (List.mem_singleton.mp h))
    · exact Or.inr (Or.inr h)

theorem listed_texts {v : Json} (h : TextsIn w v) : ∀ item ∈ listed v, TextsIn w item := by
  cases v with
  | arr items => exact texts_in_arr.mp h
  | _ => simpa only [listed, List.forall_mem_singleton] using h

/-- Merging members keeps a condition on members that the merged values of a key satisfy. -/
theorem merge_members_all {m : String → Json → Prop} (source : List (String × Json))
    (hm : ∀ e ∈ source, ∀ existing, m e.1 existing → m e.1 (mergeValue e.1 existing e.2).1)
    {target : Object} (ht : ∀ e ∈ target, m e.1 e.2) (hs : ∀ e ∈ source, m e.1 e.2) :
    ∀ e ∈ (mergeMembers target source).1, m e.1 e.2 := by
  have inserted : ∀ {o : Object} {key : String} {v : Json}, (∀ e ∈ o, m e.1 e.2) → m key v →
      ∀ e ∈ Object.insert o key v, m e.1 e.2 := by
    intro o key v ho hv e he
    rcases Object.mem_insert he with rfl | he
    · exact hv
    · exact ho e he
  induction source generalizing target with
  | nil =>
    rw [mergeMembers]
    exact ht
  | cons e source ih =>
    obtain ⟨key, value⟩ := e
    rw [List.forall_mem_cons] at hs hm
    rw [mergeMembers]
    split
    · exact ih hm.2 (inserted ht hs.1) hs.2
    · next existing hg =>
      split
      · exact ih hm.2 ht hs.2
      · exact ih hm.2 (inserted ht (hm.1 existing (ht _ (Object.mem_of_get? hg)))) hs.2

/-- Two values under a key: the first of them stays, two objects are merged, and all else becomes a
list of both. -/
theorem merge_value_cases (key : String) (existing value : Json) :
    (mergeValue key existing value).1 = existing ∨
      (∃ target source, existing = .obj target ∧ value = .obj source ∧
        (mergeValue key existing value).1 = .obj (mergeMembers target source).1) ∨
      (mergeValue key existing value).1 = .arr (addValues (listed existing) (listed value)) := by
  cases value with
  | obj source =>
    cases existing with
    | obj target =>
      rw [mergeValue]
      split
      · exact Or.inl rfl
      · split
        · exact Or.inl rfl
        · exact Or.inr (Or.inl ⟨target, source, rfl, rfl, rfl⟩)
    | _ =>
      simp only [mergeValue]
      split
      · exact Or.inl rfl
      · split
        · exact Or.inl rfl
        · exact Or.inr (Or.inr rfl)
  | _ =>
    simp only [mergeValue]
    split
    · exact Or.inl rfl
    · split
      · exact Or.inl rfl
      · exact Or.inr (Or.inr rfl)

theorem merge_value_texts (key : String) {existing : Json} (he : TextsIn w existing)
    (value : Json) (hv : TextsIn w value) : TextsIn w (mergeValue key existing value).1 := by
  rcases merge_value_cases key existing value with h | ⟨target, source, rfl, hsource, h⟩ | h
  · rw [h]
    exact he
  · rw [hsource] at hv
    rw [h]
    rw [texts_in_obj] at he hv ⊢
    refine merge_members_all (m := fun _ v => TextsIn w v) source ?_ he hv
    intro e hm existing hx
    have : sizeOf e.2 < sizeOf value := by
      have := List.sizeOf_lt_of_mem hm
      cases e
      simp only [hsource, Json.obj.sizeOf_spec, Prod.mk.sizeOf_spec] at this ⊢
      omega
    exact merge_value_texts e.1 hx e.2 (hv e hm)
  · rw [h, texts_in_arr]
    intro item hi
    rcases mem_add_values hi with hi | hi
    · exact listed_texts he item hi
    · exact listed_texts hv item hi
termination_by sizeOf value

/-- A member of a schema holds texts that satisfy the condition; the type name `object` may stand
under `type` besides. -/
def MemberIn (w : String → Prop) (key : String) (v : Json) : Prop :=
  TextsIn w v ∨ key = "type" ∧ ∀ item ∈ listed v, item = .str "object" ∨ TextsIn w item

def ObjectIn (w : String → Prop) (o : Object) : Prop := ∀ m ∈ o, MemberIn w m.1 m.2

/-- A schema that holds texts that satisfy the condition, up to the type name `object`. -/
def SchemaIn (w : String → Prop) : Json → Prop
  | .obj o => ObjectIn w o
  | j => TextsIn w j

theorem schema_in {j : Json} (h : TextsIn w j) : SchemaIn w j := by
  cases j with
  | obj o => exact fun m hm => Or.inl (texts_in_obj.mp h m hm)
  | _ => exact h

theorem object_in_nil : ObjectIn w [] := by simp [ObjectIn]

theorem ObjectIn.insert {o : Object} {key : String} {v : Json} (ho : ObjectIn w o)
    (hv : MemberIn w key v) : ObjectIn w (Object.insert o key v) := by
  intro m hm
  rcases Object.mem_insert hm with rfl | hm
  · exact hv
  · exact ho m hm

theorem ObjectIn.erase {o : Object} (ho : ObjectIn w o) (key : String) :
    ObjectIn w (Object.erase o key) :=
  fun m hm => ho m (Object.mem_erase hm)

theorem ObjectIn.eraseAll {o : Object} (ho : ObjectIn w o) (keys : List String) :
    ObjectIn w (eraseAll o keys) := by
  induction keys generalizing o with
  | nil => exact ho
  | cons key keys ih => exact ih (ho.erase key)

/-- Except under `type`, the values of a schema hold no texts but those that satisfy the
condition. -/
theorem ObjectIn.get {o : Object} (ho : ObjectIn w o) {key : String} (hk : key ≠ "type")
    {v : Json} (h : Object.get? o key = some v) : TextsIn w v :=
  (ho _ (Object.mem_of_get? h)).resolve_right fun ht => hk ht.1

theorem ObjectIn.get_type {o : Object} (ho : ObjectIn w o) {v : Json}
    (h : Object.get? o "type" = some v) :
    ∀ item ∈ listed v, item = .str "object" ∨ TextsIn w item := by
  rcases ho _ (Object.mem_of_get? h) with h | h
  · exact fun item hi => Or.inr (listed_texts h item hi)
  · exact h.2

theorem member_texts {key : String} {v : Json} (hv : MemberIn w key v)
    (h : key ≠ "type" ∨ ∃ o, v = .obj o) : TextsIn w v := by
  rcases hv with hv | ⟨hk, hv⟩
  · exact hv
  · rcases h with h | ⟨o, rfl⟩
    · exact absurd hk h
    · simpa [listed] using hv

theorem merge_members_in {target source : Object} (ht : ObjectIn w target)
    (hs : ObjectIn w source) : ObjectIn w (mergeMembers target source).1 := by
  refine merge_members_all source ?_ ht hs
  intro e hm existing hx
  have hv := hs e hm
  rcases merge_value_cases e.1 existing e.2 with h | ⟨o, p, rfl, hp, h⟩ | h
  · rw [h]
    exact hx
  · left
    exact merge_value_texts e.1 (member_texts hx (Or.inr ⟨o, rfl⟩)) e.2
      (member_texts hv (Or.inr ⟨p, hp⟩))
  · by_cases hk : e.1 = "type"
    · right
      refine ⟨hk, ?_⟩
      rw [h]
      intro item hi
      have either : ∀ {v : Json}, MemberIn w e.1 v → ∀ item ∈ listed v,
          item = .str "object" ∨ TextsIn w item := by
        intro v hv item hi
        rcases hv with hv | hv
        · exact Or.inr (listed_texts hv item hi)
        · exact hv.2 item hi
      rcases mem_add_values hi with hi | hi
      · exact either hx item hi
      · exact either hv item hi
    · left
      exact merge_value_texts e.1 (member_texts hx (Or.inl hk)) e.2 (member_texts hv (Or.inl hk))

/-- A fold that collects warnings beside its result. -/
theorem fold_warned {α : Type} {f : Object → α → Object × List Warning} {inv : Object → Prop}
    (xs : List α) (hf : ∀ o, inv o → ∀ x ∈ xs, inv (f o x).1) {o : Object} (ho : inv o)
    (warnings : List Warning) :
    inv (xs.foldl (fun (o, warnings) x =>
      let (o, more) := f o x
      (o, warnings ++ more)) (o, warnings)).1 := by
  induction xs generalizing o warnings with
  | nil => exact ho
  | cons x xs ih =>
    rw [List.foldl_cons]
    exact ih (fun o ho y hy => hf o ho y (List.mem_cons_of_mem _ hy))
      (hf o ho x (List.mem_cons_self ..)) _

theorem merge_all_in {schemas : List Json} (h : ∀ j ∈ schemas, SchemaIn w j) :
    ObjectIn w (mergeAll schemas).1 := by
  refine fold_warned _ ?_ object_in_nil []
  intro o ho source hs
  obtain ⟨j, hj, hsource⟩ := List.mem_filterMap.mp hs
  have hin := h j hj
  cases j with
  | obj members =>
    obtain rfl := Option.some.inj hsource
    exact merge_members_in ho hin
  | _ => simp [asObject?] at hsource

theorem overlay_in {base : Object} {properties : Json} (hb : ObjectIn w base)
    (hp : TextsIn w properties) : ObjectIn w (overlayProperties base properties) := by
  have existing : TextsIn w ((Object.get? base "properties").getD (.obj [])) := by
    cases hg : Object.get? base "properties" with
    | none => simp
    | some v => exact hb.get (by decide) hg
  unfold overlayProperties
  refine hb.insert (Or.inl ?_)
  split
  · next target source he =>
    rw [he] at existing
    rw [texts_in_obj] at existing hp ⊢
    have laid : ∀ (ms : List (String × Json)) (o : Object), (∀ m ∈ o, TextsIn w m.2) →
        (∀ m ∈ ms, TextsIn w m.2) →
        ∀ m ∈ ms.foldl (fun o m => Object.insert o m.1 m.2) o, TextsIn w m.2 := by
      intro ms
      induction ms with
      | nil => exact fun o ho _ => ho
      | cons e ms ih =>
        intro o ho hms
        rw [List.forall_mem_cons] at hms
        refine ih _ ?_ hms.2
        intro m hm
        rcases Object.mem_insert hm with rfl | hm
        · exact hms.1
        · exact ho m hm
    exact laid source target existing hp
  · exact existing

theorem merge_alternative_in {base : Object} {members : List (String × Json)}
    (hb : ObjectIn w base) (hm : ObjectIn w members) :
    ObjectIn w (mergeAlternative base members).1 := by
  induction members generalizing base with
  | nil => exact hb
  | cons e members ih =>
    obtain ⟨key, value⟩ := e
    obtain ⟨hv, hrest⟩ := List.forall_mem_cons.mp hm
    simp only [mergeAlternative]
    split
    · exact ih hb hrest
    · split
      · next hk =>
        exact ih (overlay_in hb (member_texts hv (Or.inl (by simp [hk])))) hrest
      · exact ih (merge_members_in hb (by simpa [ObjectIn] using hv)) hrest

theorem required_in {o : Object} (ho : ObjectIn w o) : ∀ name ∈ required o, w name := by
  intro name hn
  obtain ⟨v, hv, hname⟩ := List.mem_filterMap.mp hn
  cases hg : Object.get? o "required" with
  | none => simp [hg] at hv
  | some r =>
    have hr := ho.get (by decide) hg
    cases r with
    | arr items =>
      rw [hg] at hv
      have := texts_in_arr.mp hr v (by simpa [asArray?] using hv)
      cases v with
      | str text =>
        obtain rfl := Option.some.inj hname
        exact texts_in_str.mp this
      | _ => simp [asString?] at hname
    | _ => simp [hg, asArray?] at hv

theorem common_required_in {branches : List Json} (h : ∀ b ∈ branches, SchemaIn w b) :
    ∀ name ∈ commonRequired branches, w name := by
  cases branches with
  | nil => simp [commonRequired]
  | cons branch rest =>
    have first : ∀ name ∈ branchRequired branch, w name := by
      have hb := h branch (List.mem_cons_self ..)
      cases branch with
      | obj o => exact required_in hb
      | _ => simp [branchRequired, asObject?]
    have kept : ∀ (bs : List Json) (names : List String), (∀ name ∈ names, w name) →
        ∀ name ∈ bs.foldl (fun common b => common.filter (· ∈ branchRequired b)) names,
          w name := by
      intro bs
      induction bs with
      | nil => exact fun names hn => hn
      | cons b bs ih =>
        exact fun names hn => ih _ fun name hm => hn name (List.mem_filter.mp hm).1
    exact kept rest _ first

theorem merge_any_in {base : Object} {branches : List Json} (hb : ObjectIn w base)
    (h : ∀ b ∈ branches, SchemaIn w b) : ObjectIn w (mergeAny base branches).1 := by
  have merged : ObjectIn w ((branches.filterMap Json.asObject?).foldl
      (fun (merged, warnings) source =>
        let (merged, more) := mergeAlternative merged source
        (merged, warnings ++ more))
      (base, [])).1 := by
    refine fold_warned _ ?_ hb []
    intro o ho source hs
    obtain ⟨j, hj, hsource⟩ := List.mem_filterMap.mp hs
    have hin := h j hj
    cases j with
    | obj members =>
      obtain rfl := Option.some.inj hsource
      exact merge_alternative_in ho hin
    | _ => simp [asObject?] at hsource
  simp only [mergeAny]
  split
  · exact merged.erase _
  · refine merged.insert (Or.inl ?_)
    rw [ofStrings, texts_in_arr]
    intro item hi
    obtain ⟨name, hn, rfl⟩ := List.mem_map.mp hi
    rw [texts_in_str]
    rcases mem_addAll.mp hn with hn | hn
    · exact required_in hb name hn
    · exact common_required_in h name hn

theorem merge_one_in {base : Object} {option : Json} (hb : ObjectIn w base)
    (ho : TextsIn w option) : SchemaIn w (mergeOne base option) := by
  have typed : ∀ option, TextsIn w option → SchemaIn w
      (if base.isEmpty then option else .obj (Object.insert base "type" option)) := by
    intro option ho
    split
    · exact schema_in ho
    · exact hb.insert (Or.inl ho)
  cases option with
  | obj members =>
    have laid : ∀ (ms : List (String × Json)) (o : Object), ObjectIn w o →
        (∀ m ∈ ms, TextsIn w m.2) →
        ObjectIn w (ms.foldl (fun o m => Object.insert o m.1 m.2) o) := by
      intro ms
      induction ms with
      | nil => exact fun o ho _ => ho
      | cons e ms ih =>
        intro o ho hms
        rw [List.forall_mem_cons] at hms
        exact ih _ (ho.insert (Or.inl hms.1)) hms.2
    exact laid members base hb (texts_in_obj.mp ho)
  | _ => exact typed _ ho

end Merge

section Expand

variable {w : String → Prop} {document : Json}

theorem local_fragment_texts (hd : TextsIn w document) {reference : String} {fragment : Json}
    (h : localFragment? document reference = some fragment) : TextsIn w fragment := by
  obtain ⟨part, -, hp⟩ := Option.bind_eq_some_iff.mp h
  exact pointer_texts hd hp

theorem dereference_in (hd : TextsIn w document) {schema : Json} (hs : SchemaIn w schema) :
    SchemaIn w (dereference document schema).1 := by
  cases schema with
  | obj o =>
    simp only [dereference]
    split
    · split
      · next fragment hf =>
        refine merge_all_in ?_
        rw [List.forall_mem_cons, List.forall_mem_singleton]
        have hin : SchemaIn w (.obj o) := hs
        exact ⟨schema_in (local_fragment_texts hd hf), hin.erase _⟩
      · exact hs
    · exact hs
  | _ => exact hs

theorem dereference_all_in (hd : TextsIn w document) {schemas : List Json}
    (hs : ∀ j ∈ schemas, SchemaIn w j) : ∀ j ∈ (dereferenceAll document schemas).1, SchemaIn w j := by
  intro j hj
  simp only [dereferenceAll, List.map_map, List.mem_map] at hj
  obtain ⟨schema, hm, rfl⟩ := hj
  exact dereference_in hd (hs schema hm)

theorem bases_in {base : Object} (hb : ObjectIn w base) {candidates : List Json}
    (hc : ∀ c ∈ candidates, SchemaIn w c) : ∀ b ∈ bases base candidates, ObjectIn w b := by
  cases candidates with
  | nil => simpa [bases] using hb
  | cons c cs =>
    intro b hm
    obtain ⟨d, hd, rfl⟩ := List.mem_map.mp hm
    have hin := hc d hd
    cases d with
    | obj o => exact hin
    | _ =>
      simp only [ObjectIn, List.forall_mem_singleton]
      exact Or.inl hin

/-- The members of a list under a key other than `type`. -/
theorem list_texts {o : Object} (ho : ObjectIn w o) {key : String} (hk : key ≠ "type")
    {members : List Json} (h : Object.get? o key = some (.arr members)) :
    ∀ j ∈ members, TextsIn w j :=
  texts_in_arr.mp (ho.get hk h)

theorem after_all_in (hd : TextsIn w document) {base o : Object} (hb : ObjectIn w base)
    (ho : ObjectIn w o) : ∀ c ∈ (afterAll document base o).1, SchemaIn w c := by
  unfold afterAll
  split
  · next members hg =>
    simp only [expandAll, List.forall_mem_singleton]
    refine merge_all_in ?_
    rw [List.forall_mem_cons]
    exact ⟨hb, dereference_all_in hd fun j hj => schema_in (list_texts ho (by decide) hg j hj)⟩
  · simp

theorem after_one_in {base o : Object} (hb : ObjectIn w base) (ho : ObjectIn w o)
    {candidates : List Json} (hc : ∀ c ∈ candidates, SchemaIn w c) :
    ∀ c ∈ afterOne base o candidates, SchemaIn w c := by
  unfold afterOne
  split
  · next options hg =>
    intro c hm
    obtain ⟨option, ho', hmap⟩ := List.mem_flatMap.mp hm
    obtain ⟨b, hbase, rfl⟩ := List.mem_map.mp hmap
    exact merge_one_in (bases_in hb hc b hbase) (list_texts ho (by decide) hg option ho')
  · exact hc

/-- The candidates of a schema hold texts of the schema and of the document only. -/
theorem expand_in (hd : TextsIn w document) {o : Object} (ho : ObjectIn w o) :
    ∀ c ∈ (expand document o).1, SchemaIn w c := by
  have base : ObjectIn w (eraseAll o compositionKeywords) := ho.eraseAll _
  have one := after_one_in base ho (after_all_in hd base ho)
  simp only [expand]
  split
  · next branches hg =>
    simp only [expandAny]
    intro c hm
    obtain ⟨merged, hmerged, rfl⟩ := List.mem_map.mp hm
    obtain ⟨b, hb, rfl⟩ := List.mem_map.mp hmerged
    refine merge_any_in (bases_in base one b hb) ?_
    exact dereference_all_in hd fun j hj => schema_in (list_texts ho (by decide) hg j hj)
  · exact one

theorem without_conditionals_in {o rest : Object} (ho : ObjectIn w o)
    (h : withoutConditionals? o = some rest) : ObjectIn w rest := by
  unfold withoutConditionals? at h
  split at h
  · exact Option.some.inj h ▸ ho.eraseAll _
  · simp at h

end Expand

end Schema

end AvroDerive
