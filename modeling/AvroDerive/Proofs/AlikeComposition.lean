import AvroDerive.Proofs.AlikeSchema

/-! # Compositions that differ in conditional keywords

Alike compositions have alike candidates, in one order. That takes three things: their local references
lead to alike schemas, no items of the lists that are joined are told apart by conditional keywords, and
no option that is no object is laid over a schema that consists of such keywords. -/
namespace AvroDerive.Schema

open Json

/-- The reference that a member of a composition is. -/
def memberReference? : Json → Option String
  | .obj o => (Object.get? o "$ref").bind asString?
  | _ => none

/-- Within both documents the reference leads to the same schema, but for conditional keywords, or to
nothing. -/
def SameTarget (d d' : Json) (reference : String) : Prop :=
  (localFragment? d reference).map (pare .schema) = (localFragment? d' reference).map (pare .schema)

/-- The lists that are joined when a member is replaced by what it refers to. -/
def dereferenceJoins (d : Json) : Json → List Join
  | .obj o =>
    match ((Object.get? o "$ref").bind asString?).bind (localFragment? d) with
    | some (.obj fragment) =>
      merging.allJoins [] [.obj fragment, .obj (Object.erase o "$ref")]
    | _ => []
  | _ => []

def listAt (o : Object) (key : String) : List Json :=
  ((Object.get? o key).bind asArray?).getD []

/-- The schema of a composition itself, without the keywords that compose it. -/
def ownSchema (o : Object) : Object := eraseAll o compositionKeywords

/-- The lists that are joined when a schema is put together. -/
def expandJoins (d : Json) (o : Object) : List Join :=
  (if ((Object.get? o "allOf").bind asArray?).isSome then
    (listAt o "allOf").flatMap (dereferenceJoins d) ++
      merging.allJoins [] (.obj (ownSchema o) :: (dereferenceAll d (listAt o "allOf")).1)
    else []) ++
  if ((Object.get? o "anyOf").bind asArray?).isSome then
    (listAt o "anyOf").flatMap (dereferenceJoins d) ++
      (bases (ownSchema o) (afterOne (ownSchema o) o (afterAll d (ownSchema o) o).1)).flatMap
        fun b => widening.allJoins b (dereferenceAll d (listAt o "anyOf")).1
    else []

/-- The local references that are looked up when a schema is put together. -/
def expandReferences (o : Object) : List String :=
  (listAt o "allOf" ++ listAt o "anyOf").filterMap memberReference?

/-- Conditional keywords do not show in the way in which a schema is put together. -/
structure ComposesPlainly (d : Json) (o : Object) : Prop where
  joins : ∀ j ∈ expandJoins d o, j.Discerns
  options : ∀ b ∈ bases (ownSchema o) (afterAll d (ownSchema o) o).1, ∀ option ∈ listAt o "oneOf",
    isObject option = false → IsGrounded b

section Alike

variable {d d' j j' : Json} {o o' b b' : Object} {members members' candidates candidates' : List Json}

theorem alike_dereference (h : Alike j j') (kd : d.keyed = true) (kd' : d'.keyed = true)
    (k : j.keyed = true) (k' : j'.keyed = true)
    (ht : ∀ r, memberReference? j = some r → SameTarget d d' r)
    (hj : ∀ i ∈ dereferenceJoins d j, i.Discerns) (hj' : ∀ i ∈ dereferenceJoins d' j', i.Discerns) :
    Alike (dereference d j).1 (dereference d' j').1 := by
  rcases h.cases with ⟨o, o', rfl, rfl, ho⟩ | ⟨hobject, hobject', -⟩
  · have ko := keyed_obj.mp k
    have ko' := keyed_obj.mp k'
    have text := ho.text (show "$ref" ∉ conditionalKeywords by decide)
    simp only [dereferenceJoins, ← text] at hj hj'
    simp only [dereference, ← text]
    cases hr : (Object.get? o "$ref").bind asString? with
    | none => exact h
    | some reference =>
      have target := ht reference hr
      rw [hr, Option.bind_some] at hj hj'
      dsimp only
      rw [SameTarget] at target
      cases hf : localFragment? d reference with
      | none =>
        rw [hf, Option.map_none, eq_comm, Option.map_eq_none_iff] at target
        rw [target]
        exact h
      | some fragment =>
        rw [hf, Option.map_some, eq_comm, Option.map_eq_some_iff] at target
        obtain ⟨fragment', hf', hsame⟩ := target
        rw [hf] at hj
        rw [hf'] at hj' ⊢
        rcases pare_eq_cases hsame with ⟨p, p', rfl, rfl, hpared⟩ | hother
        · dsimp only at hj hj' ⊢
          have erased := ho.erase ko.1 ko'.1 "$ref"
          refine alike_merge_all (.cons ?_ (.cons erased .nil)) ?_ ?_ hj hj'
          · exact (alike_of_pare hsame.symm)
          · rw [List.forall_mem_cons, List.forall_mem_singleton]
            exact ⟨keyed_local kd hf, (ko.erase _).json⟩
          · rw [List.forall_mem_cons, List.forall_mem_singleton]
            exact ⟨keyed_local kd' hf', (ko'.erase _).json⟩
        · rcases hother with ⟨items, items', rfl, rfl, -⟩ | ⟨rfl, hleaf, -⟩
          · exact h
          · cases fragment' <;> first | exact h | simp [isObject] at hleaf
  · have stays : ∀ {d j : Json}, isObject j = false → (dereference d j).1 = j := by
      intro d j hj
      cases j <;> first | rfl | simp [isObject] at hj
    rwa [stays hobject, stays hobject']

theorem alike_dereference_all (h : List.Forall₂ Alike members members') (kd : d.keyed = true)
    (kd' : d'.keyed = true) (k : ∀ j ∈ members, j.keyed = true) (k' : ∀ j ∈ members', j.keyed = true)
    (ht : ∀ r ∈ members.filterMap memberReference?, SameTarget d d' r)
    (hj : ∀ i ∈ members.flatMap (dereferenceJoins d), i.Discerns)
    (hj' : ∀ i ∈ members'.flatMap (dereferenceJoins d'), i.Discerns) :
    List.Forall₂ Alike (dereferenceAll d members).1 (dereferenceAll d' members').1 := by
  simp only [dereferenceAll, List.map_map]
  rw [List.forall₂_map_left_iff, List.forall₂_map_right_iff]
  refine forall₂_of_mem h fun j hm j' hm' hjj => ?_
  exact alike_dereference hjj kd kd' (k j hm) (k' j' hm')
    (fun r hr => ht r (List.mem_filterMap.mpr ⟨j, hm, hr⟩))
    (fun i hi => hj i (List.mem_flatMap.mpr ⟨j, hm, hi⟩))
    fun i hi => hj' i (List.mem_flatMap.mpr ⟨j', hm', hi⟩)

/-- Alike candidates give alike bases. -/
theorem alike_bases (hb : AlikeObject b b') (h : List.Forall₂ Alike candidates candidates') :
    List.Forall₂ AlikeObject (bases b candidates) (bases b' candidates') := by
  have each : List.Forall₂ AlikeObject
      (candidates.map fun c => match c with
        | .obj o => o
        | value => [("type", value)])
      (candidates'.map fun c => match c with
        | .obj o => o
        | value => [("type", value)]) := by
    rw [List.forall₂_map_left_iff, List.forall₂_map_right_iff]
    refine h.imp fun c c' hc => ?_
    rcases hc.cases with ⟨o, o', rfl, rfl, ho⟩ | ⟨hobject, hobject', hsame⟩
    · exact ho
    · have typed : ∀ {c : Json}, isObject c = false → (match c with
          | .obj o => o
          | value => [("type", value)]) = ([("type", c)] : Object) := by
        intro c hc
        cases c <;> first | rfl | simp [isObject] at hc
      rw [typed hobject, typed hobject']
      have empty : AlikeObject [] [] := fun _ => rfl
      exact empty.insert "type" hsame
  cases h with
  | nil => exact .cons hb .nil
  | cons h hrest => exact each

theorem alike_list (h : AlikeObject o o') (key : String) (hkey : key ∉ conditionalKeywords)
    (hunder : Role.schema.under key = .schema) :
    List.Forall₂ Alike (listAt o key) (listAt o' key) ∧
      ((Object.get? o key).bind asArray?).isSome = ((Object.get? o' key).bind asArray?).isSome := by
  rcases h.values hkey with ⟨hv, hv'⟩ | ⟨v, v', hv, hv', hsame⟩
  · rw [listAt, listAt, hv, hv']
    exact ⟨.nil, rfl⟩
  · rw [hunder] at hsame
    rw [listAt, listAt, hv, hv']
    rcases pare_eq_cases hsame with ⟨p, p', rfl, rfl, -⟩ | ⟨items, items', rfl, rfl, hitems⟩ | ⟨rfl, -⟩
    · exact ⟨.nil, rfl⟩
    · exact ⟨hitems.imp fun _ _ => alike_of_pare, rfl⟩
    · exact ⟨List.forall₂_same.mpr fun _ _ => .refl _, rfl⟩

/-- A keyword takes effect if it has a list. -/
theorem list_cases (o : Object) (key : String) :
    (∃ items, Object.get? o key = some (.arr items) ∧ listAt o key = items ∧
      ((Object.get? o key).bind asArray?).isSome = true) ∨
    (∀ items, Object.get? o key ≠ some (.arr items)) ∧
      ((Object.get? o key).bind asArray?).isSome = false := by
  unfold listAt
  cases Object.get? o key with
  | none => exact Or.inr ⟨by simp, rfl⟩
  | some v =>
    cases v with
    | arr items => exact Or.inl ⟨items, rfl, rfl, rfl⟩
    | _ => exact Or.inr ⟨by simp, rfl⟩

theorem after_all_eq (d : Json) (base o : Object) : (afterAll d base o).1 =
    if ((Object.get? o "allOf").bind asArray?).isSome then
      [.obj (mergeAll (.obj base :: (dereferenceAll d (listAt o "allOf")).1)).1]
    else [] := by
  unfold afterAll
  rcases list_cases o "allOf" with ⟨items, hg, hlist, hsome⟩ | ⟨hg, hnone⟩
  · rw [hg, hlist]
    rfl
  · rw [hnone]
    split
    · next items h => exact absurd h (hg items)
    · rfl

theorem after_one_eq (base o : Object) (candidates : List Json) : afterOne base o candidates =
    if ((Object.get? o "oneOf").bind asArray?).isSome then
      expandOne base (listAt o "oneOf") candidates
    else candidates := by
  unfold afterOne
  rcases list_cases o "oneOf" with ⟨items, hg, hlist, hsome⟩ | ⟨hg, hnone⟩
  · rw [hg, hlist]
    rfl
  · rw [hnone]
    split
    · next items h => exact absurd h (hg items)
    · rfl

theorem expand_eq (d : Json) (o : Object) : (expand d o).1 =
    if ((Object.get? o "anyOf").bind asArray?).isSome then
      (bases (ownSchema o) (afterOne (ownSchema o) o (afterAll d (ownSchema o) o).1)).map
        fun b => .obj (mergeAny b (dereferenceAll d (listAt o "anyOf")).1).1
    else afterOne (ownSchema o) o (afterAll d (ownSchema o) o).1 := by
  unfold expand
  dsimp only
  rcases list_cases o "anyOf" with ⟨items, hg, hlist, hsome⟩ | ⟨hg, hnone⟩
  · rw [hg, hlist]
    simp only [expandAny, List.map_map]
    rfl
  · rw [hnone]
    split
    · next items h => exact absurd h (hg items)
    · rfl

/-- Each option is laid over each base, in the order of the options. -/
theorem alike_expand_one {options options' : List Json} (hb : AlikeObject b b')
    (ho : List.Forall₂ Alike options options') (k : ∀ j ∈ options, j.keyed = true)
    (k' : ∀ j ∈ options', j.keyed = true) (hc : List.Forall₂ Alike candidates candidates')
    (hg : ∀ c ∈ bases b candidates, ∀ option ∈ options, isObject option = false → IsGrounded c)
    (hg' : ∀ c ∈ bases b' candidates', ∀ option ∈ options', isObject option = false →
      IsGrounded c) :
    List.Forall₂ Alike (expandOne b options candidates) (expandOne b' options' candidates') := by
  have paired := alike_bases hb hc
  unfold expandOne
  induction ho with
  | nil => exact .nil
  | @cons option option' options options' h _ ih =>
    rw [List.forall_mem_cons] at k k'
    rw [List.flatMap_cons, List.flatMap_cons]
    refine List.rel_append ?_ (ih k.2 k'.2
      (fun c hm o ho => hg c hm o (List.mem_cons_of_mem _ ho))
      fun c hm o ho => hg' c hm o (List.mem_cons_of_mem _ ho))
    rw [List.forall₂_map_left_iff, List.forall₂_map_right_iff]
    exact forall₂_of_mem paired fun c hm c' hm' hcc => alike_merge_one hcc h k.1 k'.1
      (hg c hm option List.mem_cons_self) (hg' c' hm' option' List.mem_cons_self)

theorem list_keyed (ho : KeyedObject o) (key : String) : ∀ j ∈ listAt o key, j.keyed = true := by
  rcases list_cases o key with ⟨items, hg, hlist, -⟩ | ⟨hg, hnone⟩
  · rw [hlist]
    exact keyed_list ho hg
  · rw [Option.isSome_eq_false_iff, Option.isNone_iff_eq_none] at hnone
    simp [listAt, hnone]

/-- The bases that the branches of `anyOf` are merged into. -/
theorem wide_bases_keyed (hd : d.keyed = true) (ho : KeyedObject o) :
    ∀ b ∈ bases (ownSchema o) (afterOne (ownSchema o) o (afterAll d (ownSchema o) o).1),
      KeyedObject b := by
  have own : KeyedObject (ownSchema o) := ho.eraseAll _
  exact bases_keyed own (after_one_keyed own ho (after_all_keyed hd own ho))

/-- Two compositions in their documents that differ in conditional keywords, and do not show them. -/
structure AlikeComposition (d d' : Json) (o o' : Object) : Prop where
  alike : AlikeObject o o'
  keyed : KeyedObject o
  keyed' : KeyedObject o'
  document : d.keyed = true
  document' : d'.keyed = true
  targets : ∀ r ∈ expandReferences o, SameTarget d d' r
  plain : ComposesPlainly d o
  plain' : ComposesPlainly d' o'

namespace AlikeComposition

variable (h : AlikeComposition d d' o o')

include h

theorem own : AlikeObject (ownSchema o) (ownSchema o') := h.alike.eraseAll h.keyed h.keyed' _

theorem dereferenced (key : String) (hkey : key ∉ conditionalKeywords)
    (hunder : Role.schema.under key = .schema)
    (ht : ∀ r ∈ (listAt o key).filterMap memberReference?, SameTarget d d' r)
    (hj : ∀ i ∈ (listAt o key).flatMap (dereferenceJoins d), i.Discerns)
    (hj' : ∀ i ∈ (listAt o' key).flatMap (dereferenceJoins d'), i.Discerns) :
    List.Forall₂ Alike (dereferenceAll d (listAt o key)).1 (dereferenceAll d' (listAt o' key)).1 :=
  alike_dereference_all (alike_list h.alike key hkey hunder).1 h.document h.document'
    (list_keyed h.keyed key) (list_keyed h.keyed' key) ht hj hj'

theorem after_all :
    List.Forall₂ Alike (afterAll d (ownSchema o) o).1 (afterAll d' (ownSchema o') o').1 := by
  have joins := (List.forall_mem_append.mp h.plain.joins).1
  have joins' := (List.forall_mem_append.mp h.plain'.joins).1
  have targets := h.targets
  rw [expandReferences, List.filterMap_append, List.forall_mem_append] at targets
  have lists := (alike_list h.alike "allOf" (by decide) (by decide)).2
  rw [after_all_eq, after_all_eq, ← lists]
  rw [← lists] at joins'
  split
  · next hsome =>
    rw [if_pos hsome, List.forall_mem_append] at joins joins'
    have members := h.dereferenced "allOf" (by decide) (by decide) targets.1 joins.1 joins'.1
    refine .cons (alike_merge_all (.cons h.own members) ?_ ?_ joins.2 joins'.2) .nil
    · rw [List.forall_mem_cons]
      exact ⟨(h.keyed.eraseAll _).json, dereference_all_keyed h.document (list_keyed h.keyed _)⟩
    · rw [List.forall_mem_cons]
      exact ⟨(h.keyed'.eraseAll _).json, dereference_all_keyed h.document' (list_keyed h.keyed' _)⟩
  · exact .nil

theorem after_one : List.Forall₂ Alike (afterOne (ownSchema o) o (afterAll d (ownSchema o) o).1)
    (afterOne (ownSchema o') o' (afterAll d' (ownSchema o') o').1) := by
  obtain ⟨options, some⟩ := alike_list h.alike "oneOf" (by decide) (by decide)
  rw [after_one_eq, after_one_eq, ← some]
  split
  · exact alike_expand_one h.own options (list_keyed h.keyed _) (list_keyed h.keyed' _) h.after_all
      h.plain.options h.plain'.options
  · exact h.after_all

/-- The candidates are alike, one by one. -/
theorem expanded : List.Forall₂ Alike (expand d o).1 (expand d' o').1 := by
  have joins := (List.forall_mem_append.mp h.plain.joins).2
  have joins' := (List.forall_mem_append.mp h.plain'.joins).2
  have targets := h.targets
  rw [expandReferences, List.filterMap_append, List.forall_mem_append] at targets
  have lists := (alike_list h.alike "anyOf" (by decide) (by decide)).2
  rw [expand_eq, expand_eq, ← lists]
  rw [← lists] at joins'
  split
  · next hsome =>
    rw [if_pos hsome, List.forall_mem_append] at joins joins'
    have branches := h.dereferenced "anyOf" (by decide) (by decide) targets.2 joins.1
      joins'.1
    have kbases := wide_bases_keyed h.document h.keyed
    have kbases' := wide_bases_keyed h.document' h.keyed'
    have paired := alike_bases h.own h.after_one
    have kbranches := dereference_all_keyed h.document (list_keyed h.keyed "anyOf")
    have kbranches' := dereference_all_keyed h.document' (list_keyed h.keyed' "anyOf")
    rw [List.forall₂_map_left_iff, List.forall₂_map_right_iff]
    refine forall₂_of_mem paired fun b hb b' hb' hbb => ?_
    exact alike_merge_any branches kbranches kbranches' hbb (kbases b hb) (kbases' b' hb')
      (fun j hj => joins.2 j (List.mem_flatMap.mpr ⟨b, hb, hj⟩))
      fun j hj => joins'.2 j (List.mem_flatMap.mpr ⟨b', hb', hj⟩)
  · exact h.after_one

end AlikeComposition

end Alike

end AvroDerive.Schema
