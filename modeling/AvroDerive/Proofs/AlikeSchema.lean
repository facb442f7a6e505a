import AvroDerive.Proofs.ParedMerge

/-! # Schemas that differ in conditional keywords

Schemas are alike if they say the same without their conditional keywords, whatever the order of their
other keys. Merging keeps them alike, unless items of joined lists are told apart by conditional
keywords, or an option is laid over a schema that consists of them. -/
namespace AvroDerive

open Json Schema

/-- Objects that say the same as schemas without their conditional keywords, in any order of the keys. -/
def AlikeObject (o o' : Object) : Prop :=
  ∀ key, Object.get? (pareMembers .schema o) key = Object.get? (pareMembers .schema o') key

/-- Nodes that say the same without their conditional keywords. -/
def Alike : Json → Json → Prop
  | .obj o, .obj o' => AlikeObject o o'
  | j, j' => j.pare .schema = j'.pare .schema

/-- Related lists are related by members of both. -/
theorem forall₂_of_mem {α β : Type} {R S : α → β → Prop} {xs : List α} {ys : List β}
    (h : List.Forall₂ R xs ys) (hs : ∀ x ∈ xs, ∀ y ∈ ys, R x y → S x y) : List.Forall₂ S xs ys := by
  induction h with
  | nil => exact .nil
  | cons hxy _ ih =>
    refine .cons (hs _ List.mem_cons_self _ List.mem_cons_self hxy) (ih fun x hx y hy => ?_)
    exact hs x (List.mem_cons_of_mem _ hx) y (List.mem_cons_of_mem _ hy)

namespace Object

variable {o : Object} {key : String}

theorem get_erase_self (h : (keys o).Nodup) (key : String) : get? (erase o key) key = none := by
  obtain ⟨hnodup, hmem⟩ := erase_spec h key
  rw [get_none_iff]
  intro hk
  obtain ⟨m, hm, he⟩ := List.mem_map.mp hk
  exact ((hmem m).mp hm).2 he

/-- What is laid over an object comes first. -/
theorem get_insert_all {members : List (String × Json)} (h : (keys members).Nodup) (o : Object)
    (key : String) : get? (members.foldl (fun o m => insert o m.1 m.2) o) key =
      (get? members key).or (get? o key) := by
  induction members generalizing o with
  | nil => simp
  | cons m members ih =>
    obtain ⟨k, v⟩ := m
    obtain ⟨hk, hnodup⟩ := List.nodup_cons.mp h
    rw [List.foldl_cons, ih hnodup, get?_insert, get?_cons]
    by_cases hkey : key = k
    · rw [if_pos hkey, if_pos hkey, hkey, get_none_iff.mpr hk]
      rfl
    · rw [if_neg hkey, if_neg hkey]

end Object

section Alike

variable {o o' p p' : Object} {key : String} {j j' : Json}

theorem alike_of_pare (h : j.pare .schema = j'.pare .schema) : Alike j j' := by
  cases j <;> cases j' <;> first | exact h | skip
  next o o' =>
    rw [pare_obj, pare_obj] at h
    intro key
    rw [Json.obj.inj h]

theorem Alike.refl (j : Json) : Alike j j := alike_of_pare rfl

theorem Alike.kind (h : Alike j j') : isObject j = isObject j' := by
  cases j <;> cases j' <;> first | rfl | (simp [Alike] at h)

/-- Nodes that are alike are both objects, or the same without their conditional keywords. -/
theorem Alike.cases (h : Alike j j') : (∃ o o', j = .obj o ∧ j' = .obj o' ∧ AlikeObject o o') ∨
    isObject j = false ∧ isObject j' = false ∧ j.pare .schema = j'.pare .schema := by
  have kind := h.kind
  cases j with
  | obj o =>
    cases j' with
    | obj o' => exact Or.inl ⟨o, o', rfl, rfl, h⟩
    | _ => simp [isObject] at kind
  | _ =>
    refine Or.inr ⟨rfl, kind.symm, ?_⟩
    cases j' <;> exact h

/-- Values under a key that is no conditional keyword are the same without such keywords. -/
theorem AlikeObject.get (h : AlikeObject o o') (hkey : key ∉ conditionalKeywords) :
    (Object.get? o key).map (pare (Role.schema.under key)) =
      (Object.get? o' key).map (pare (Role.schema.under key)) := by
  have at_key := h key
  rwa [get_pare_kept (Role.keeps hkey _), get_pare_kept (Role.keeps hkey _)] at at_key

theorem AlikeObject.of_get (h : ∀ key, key ∉ conditionalKeywords →
    (Object.get? o key).map (pare (Role.schema.under key)) =
      (Object.get? o' key).map (pare (Role.schema.under key))) : AlikeObject o o' := by
  intro key
  rw [get_pare, get_pare]
  split
  · rfl
  · next hd => exact h key fun hkey => hd (decide_eq_true hkey)

theorem items_of_pare {r : Role} {items items' : List Json}
    (h : items.map (pare r) = items'.map (pare r)) :
    List.Forall₂ (fun i i' => i.pare r = i'.pare r) items items' := by
  have pared : List.Forall₂ (· = ·) (items.map (pare r)) (items'.map (pare r)) := by
    rw [h]
    exact List.forall₂_refl _
  rwa [List.forall₂_map_left_iff, List.forall₂_map_right_iff] at pared

/-- Two values that are the same without conditional keywords are of one kind. -/
theorem pare_eq_cases {r : Role} (h : j.pare r = j'.pare r) :
    (∃ o o', j = .obj o ∧ j' = .obj o' ∧ pareMembers r o = pareMembers r o') ∨
    (∃ items items', j = .arr items ∧ j' = .arr items' ∧
      List.Forall₂ (fun i i' => i.pare r = i'.pare r) items items') ∨
    j = j' ∧ isObject j = false ∧ isList j = false := by
  cases j <;> cases j' <;> simp at h
  all_goals first
    | exact Or.inr (Or.inr ⟨rfl, rfl, rfl⟩)
    | exact Or.inr (Or.inr ⟨congrArg _ h, rfl, rfl⟩)
    | exact Or.inl ⟨_, _, rfl, rfl, h⟩
    | exact Or.inr (Or.inl ⟨_, _, rfl, rfl, items_of_pare h⟩)

theorem AlikeObject.values (h : AlikeObject o o') (hkey : key ∉ conditionalKeywords) :
    (Object.get? o key = none ∧ Object.get? o' key = none) ∨
    ∃ v v', Object.get? o key = some v ∧ Object.get? o' key = some v' ∧
      v.pare (Role.schema.under key) = v'.pare (Role.schema.under key) := by
  have values := h.get hkey
  cases hv : Object.get? o key with
  | none =>
    rw [hv, Option.map_none, eq_comm, Option.map_eq_none_iff] at values
    exact Or.inl ⟨rfl, values⟩
  | some v =>
    rw [hv, Option.map_some, eq_comm, Option.map_eq_some_iff] at values
    obtain ⟨v', hv', hsame⟩ := values
    exact Or.inr ⟨v, v', rfl, hv', hsame.symm⟩

theorem AlikeObject.text (h : AlikeObject o o') (hkey : key ∉ conditionalKeywords) :
    (Object.get? o key).bind asString? = (Object.get? o' key).bind asString? := by
  rcases h.values hkey with ⟨hv, hv'⟩ | ⟨v, v', hv, hv', hsame⟩
  · rw [hv, hv']
  · rw [hv, hv', Option.bind_some, Option.bind_some, ← as_string_pare v, hsame, as_string_pare]

theorem AlikeObject.contains (h : AlikeObject o o') (hkey : key ∉ conditionalKeywords) :
    Object.contains o key = Object.contains o' key := by
  have values := congrArg Option.isSome (h.get hkey)
  rwa [Option.isSome_map, Option.isSome_map] at values

theorem AlikeObject.insert (h : AlikeObject o o') (key : String) {v v' : Json}
    (hv : v.pare (Role.schema.under key) = v'.pare (Role.schema.under key)) :
    AlikeObject (Object.insert o key v) (Object.insert o' key v') := by
  refine .of_get fun other hother => ?_
  rw [Object.get?_insert, Object.get?_insert]
  split
  · next he => rw [he, Option.map_some, Option.map_some, hv]
  · exact h.get hother

theorem AlikeObject.erase (h : AlikeObject o o') (ho : (Object.keys o).Nodup)
    (ho' : (Object.keys o').Nodup) (key : String) :
    AlikeObject (Object.erase o key) (Object.erase o' key) := by
  refine .of_get fun other hother => ?_
  by_cases he : other = key
  · rw [he, Object.get_erase_self ho, Object.get_erase_self ho']
  · rw [Object.get_erase ho he, Object.get_erase ho' he]
    exact h.get hother

theorem AlikeObject.eraseAll (h : AlikeObject o o') (ho : KeyedObject o) (ho' : KeyedObject o')
    (keys : List String) : AlikeObject (eraseAll o keys) (eraseAll o' keys) := by
  induction keys generalizing o o' with
  | nil => exact h
  | cons key keys ih => exact ih (h.erase ho.1 ho'.1 key) (ho.erase key) (ho'.erase key)

theorem AlikeObject.insert_all (h : AlikeObject o o') (hp : AlikeObject p p')
    (hkeys : (Object.keys p).Nodup) (hkeys' : (Object.keys p').Nodup) :
    AlikeObject (p.foldl (fun o m => Object.insert o m.1 m.2) o)
      (p'.foldl (fun o m => Object.insert o m.1 m.2) o') := by
  refine .of_get fun key hkey => ?_
  have laid := hp.get hkey
  rw [Object.get_insert_all hkeys, Object.get_insert_all hkeys']
  cases hv : Object.get? p key with
  | none =>
    rw [hv, Option.map_none, eq_comm, Option.map_eq_none_iff] at laid
    rw [laid]
    exact h.get hkey
  | some v =>
    rw [hv] at laid
    cases hv' : Object.get? p' key with
    | none => simp [hv'] at laid
    | some v' => rwa [hv'] at laid

end Alike

namespace Schema

section Merge

variable {o o' t t' s s' : Object} {schemas schemas' : List Json}

theorem alike_merge_members (ht : AlikeObject t t') (hs : AlikeObject s s') (kt : KeyedObject t)
    (kt' : KeyedObject t') (ks : KeyedObject s) (ks' : KeyedObject s')
    (h : ∀ j ∈ memberJoins .schema t s, j.Discerns)
    (h' : ∀ j ∈ memberJoins .schema t' s', j.Discerns) :
    AlikeObject (mergeMembers t s).1 (mergeMembers t' s').1 := by
  intro key
  rw [pare_merge_members kt ks h, pare_merge_members kt' ks' h', get_merge_members (nodup_pare ks.1),
    get_merge_members (nodup_pare ks'.1), ht key, hs key]

/-- Of a fold that adds warnings, the first part. -/
theorem fold_fst {α : Type} (f : Object → α → Object × List Warning) (xs : List α) (o : Object)
    (warnings : List Warning) :
    (xs.foldl (fun (o, warnings) x =>
      let (o, more) := f o x
      (o, warnings ++ more)) (o, warnings)).1 = xs.foldl (fun o x => (f o x).1) o := by
  induction xs generalizing o warnings with
  | nil => rfl
  | cons x xs ih => exact ih _ _

/-- A way to take one object into another, with the lists that it joins. -/
structure Intake where
  take : Object → Object → Object × List Warning
  joins : Object → Object → List Join
  keyed : ∀ {t s}, KeyedObject t → KeyedObject s → KeyedObject (take t s).1
  alike : ∀ {t t' s s'}, AlikeObject t t' → AlikeObject s s' → KeyedObject t → KeyedObject t' →
    KeyedObject s → KeyedObject s' → (∀ j ∈ joins t s, j.Discerns) →
    (∀ j ∈ joins t' s', j.Discerns) → AlikeObject (take t s).1 (take t' s').1

namespace Intake

variable (k : Intake)

/-- The objects of a list are taken in one after another. -/
def all (target : Object) (schemas : List Json) : Object :=
  (schemas.filterMap Json.asObject?).foldl (fun o source => (k.take o source).1) target

/-- The lists that are joined then. -/
def allJoins (target : Object) : List Json → List Join
  | [] => []
  | .obj source :: rest => k.joins target source ++ allJoins (k.take target source).1 rest
  | _ :: rest => allJoins target rest

variable {k}

theorem all_keyed (ht : KeyedObject t) (hk : ∀ j ∈ schemas, j.keyed = true) :
    KeyedObject (k.all t schemas) := by
  rw [all, ← fold_fst k.take _ _ []]
  exact fold_warned _ (fun o ho source hs => k.keyed ho (keyed_objects hk source hs)) ht []

theorem all_skip {j : Json} (h : isObject j = false) (t : Object) (schemas : List Json) :
    k.all t (j :: schemas) = k.all t schemas ∧
      k.allJoins t (j :: schemas) = k.allJoins t schemas := by
  cases j <;> first | exact ⟨rfl, rfl⟩ | simp [isObject] at h

theorem alike_all (h : List.Forall₂ Alike schemas schemas')
    (hk : ∀ j ∈ schemas, j.keyed = true) (hk' : ∀ j ∈ schemas', j.keyed = true)
    (ht : AlikeObject t t') (kt : KeyedObject t) (kt' : KeyedObject t')
    (hj : ∀ j ∈ k.allJoins t schemas, j.Discerns)
    (hj' : ∀ j ∈ k.allJoins t' schemas', j.Discerns) :
    AlikeObject (k.all t schemas) (k.all t' schemas') := by
  induction h generalizing t t' with
  | nil => exact ht
  | cons h _ ih =>
    rw [List.forall_mem_cons] at hk hk'
    rcases h.cases with ⟨s, s', rfl, rfl, hs⟩ | ⟨hobject, hobject', -⟩
    · rw [allJoins, List.forall_mem_append] at hj hj'
      have ks := keyed_obj.mp hk.1
      have ks' := keyed_obj.mp hk'.1
      exact ih hk.2 hk'.2 (k.alike ht hs kt kt' ks ks' hj.1 hj'.1) (k.keyed kt ks) (k.keyed kt' ks')
        hj.2 hj'.2
    · rw [(all_skip hobject _ _).2] at hj
      rw [(all_skip hobject' _ _).2] at hj'
      rw [(all_skip hobject _ _).1, (all_skip hobject' _ _).1]
      exact ih hk.2 hk'.2 ht kt kt' hj hj'

end Intake

/-- Schemas that must hold together are merged one into another. -/
def merging : Intake where
  take := mergeMembers
  joins := memberJoins .schema
  keyed ht hs := merge_members_keyed ht hs.2
  alike := alike_merge_members

theorem merge_all_eq (schemas : List Json) : (mergeAll schemas).1 = merging.all [] schemas :=
  fold_fst mergeMembers _ _ _

theorem alike_merge_all (h : List.Forall₂ Alike schemas schemas')
    (hk : ∀ j ∈ schemas, j.keyed = true) (hk' : ∀ j ∈ schemas', j.keyed = true)
    (hj : ∀ j ∈ merging.allJoins [] schemas, j.Discerns)
    (hj' : ∀ j ∈ merging.allJoins [] schemas', j.Discerns) :
    AlikeObject (mergeAll schemas).1 (mergeAll schemas').1 := by
  rw [merge_all_eq, merge_all_eq]
  exact Intake.alike_all h hk hk' (fun _ => rfl) keyed_object_nil keyed_object_nil hj hj'

end Merge

section Alternative

variable {b b' s s' : Object} {key : String}

/-- The properties of a base when those of an alternative are laid over them. -/
def overlaid (existing properties : Json) : Json :=
  match existing, properties with
  | .obj target, .obj source => .obj (source.foldl (fun o m => Object.insert o m.1 m.2) target)
  | existing, _ => existing

theorem overlay_eq (base : Object) (properties : Json) : overlayProperties base properties =
    Object.insert base "properties"
      (overlaid ((Object.get? base "properties").getD (.obj [])) properties) :=
  rfl

/-- The value of a key when an alternative is merged into a base. -/
def laid (key : String) (existing value : Option Json) : Option Json :=
  if key = "required" then existing
  else if key = "properties" then (value.map (overlaid (existing.getD (.obj [])))).or existing
  else combined key existing value

theorem laid_none (key : String) (existing : Option Json) : laid key existing none = existing := by
  unfold laid
  split
  · rfl
  · split
    · rfl
    · cases existing <;> rfl

theorem merge_alternative_cons (b : Object) (m : String × Json) (s : List (String × Json)) :
    (mergeAlternative b (m :: s)).1 = (mergeAlternative (mergeAlternative b [m]).1 s).1 := by
  obtain ⟨k, v⟩ := m
  rw [mergeAlternative, mergeAlternative]
  split
  · rfl
  · split <;> rfl

theorem get_merge_single (b : Object) (k key : String) (v : Json) :
    Object.get? (mergeAlternative b [(k, v)]).1 key =
      laid key (Object.get? b key) (if key = k then some v else none) := by
  rw [mergeAlternative]
  split
  · next hrequired =>
    show Object.get? b key = _
    split
    · next hkey => rw [laid, if_pos (hkey.trans hrequired)]
    · rw [laid_none]
  · next hrequired =>
    split
    · next hproperties =>
      rw [mergeAlternative, overlay_eq, Object.get?_insert, ← hproperties]
      split
      · next hkey =>
        have named : key ≠ "required" := fun h => hrequired (hkey.symm.trans h)
        rw [laid, if_neg named, if_pos (hkey.trans hproperties), hkey]
        rfl
      · rw [laid_none]
    · next hproperties =>
      have single : (Object.keys [(k, v)]).Nodup := List.nodup_singleton _
      show Object.get? (mergeMembers b [(k, v)]).1 key = _
      rw [get_merge_members single, Object.get?_cons, Object.get?_nil]
      split
      · next hkey =>
        have named : key ≠ "required" := fun h => hrequired (hkey.symm.trans h)
        have other : key ≠ "properties" := fun h => hproperties (hkey.symm.trans h)
        rw [laid, if_neg named, if_neg other]
      · rw [laid_none]
        cases Object.get? b key <;> rfl

theorem get_merge_alternative (hs : (Object.keys s).Nodup) (b : Object) (key : String) :
    Object.get? (mergeAlternative b s).1 key =
      laid key (Object.get? b key) (Object.get? s key) := by
  induction s generalizing b with
  | nil =>
    rw [Object.get?_nil, laid_none]
    rfl
  | cons m s ih =>
    obtain ⟨k, v⟩ := m
    obtain ⟨hk, hnodup⟩ := List.nodup_cons.mp hs
    rw [merge_alternative_cons, ih hnodup, get_merge_single, Object.get?_cons]
    split
    · next hkey => rw [hkey, Object.get_none_iff.mpr hk, laid_none]
    · rw [laid_none]

/-- The lists that are joined when an alternative is merged into a base. -/
def alternativeJoins (base : Object) (members : List (String × Json)) : List Join :=
  memberJoins .schema base (members.filter fun m => decide (m.1 ≠ "required" ∧ m.1 ≠ "properties"))

theorem names_pare_insert_all (target source : Object) :
    pareMembers .names (source.foldl (fun o m => Object.insert o m.1 m.2) target) =
      (pareMembers .names source).foldl (fun o m => Object.insert o m.1 m.2)
        (pareMembers .names target) := by
  have insert : ∀ (o : Object) (k : String) (v : Json), pareMembers .names (Object.insert o k v) =
      Object.insert (pareMembers .names o) k (v.pare .schema) := by
    intro o k v
    induction o with
    | nil => simp [Object.insert, names_pare]
    | cons m o ih =>
      obtain ⟨k', v'⟩ := m
      rw [names_pare] at ih ⊢
      rw [names_pare] at ih ⊢
      rw [Object.insert, List.map_cons, Object.insert]
      split
      · rfl
      · rw [List.map_cons, ih]
  induction source generalizing target with
  | nil => rfl
  | cons m source ih =>
    rw [List.foldl_cons, ih, insert, names_pare (m :: source), List.map_cons, List.foldl_cons,
      ← names_pare]

theorem overlaid_pare (existing properties : Json) : (overlaid existing properties).pare .names =
    overlaid (existing.pare .names) (properties.pare .names) := by
  cases existing <;> cases properties <;> simp [overlaid, names_pare_insert_all]

theorem alike_merge_alternative (hb : AlikeObject b b') (hs : AlikeObject s s') (kb : KeyedObject b)
    (kb' : KeyedObject b') (ks : KeyedObject s) (ks' : KeyedObject s')
    (h : ∀ j ∈ alternativeJoins b s, j.Discerns) (h' : ∀ j ∈ alternativeJoins b' s', j.Discerns) :
    AlikeObject (mergeAlternative b s).1 (mergeAlternative b' s').1 := by
  have pared : ∀ {b s : Object}, KeyedObject b → KeyedObject s →
      (∀ j ∈ alternativeJoins b s, j.Discerns) → ∀ key, key ∉ conditionalKeywords →
      (Object.get? (mergeAlternative b s).1 key).map (pare (Role.schema.under key)) =
        laid key ((Object.get? b key).map (pare (Role.schema.under key)))
          ((Object.get? s key).map (pare (Role.schema.under key))) := by
    intro b s kb ks h key hkey
    rw [get_merge_alternative ks.1, laid, laid]
    split
    · rfl
    · next hrequired =>
      split
      · next hproperties =>
        subst hproperties
        cases Object.get? s "properties" with
        | none => rfl
        | some v =>
          have start : (((Object.get? b "properties").map (pare .names)).getD (.obj [])) =
              ((Object.get? b "properties").getD (.obj [])).pare .names := by
            cases Object.get? b "properties" <;> simp [pareMembers]
          refine congrArg some ((overlaid_pare _ v).trans ?_)
          rw [← start]
          rfl
      · next hproperties =>
        cases hg : Object.get? b key with
        | none => rfl
        | some existing =>
          cases hv : Object.get? s key with
          | none => rfl
          | some value =>
            refine congrArg some (pare_combine _ key existing value (kb.get hg) (ks.get hv) ?_)
            have kept : (key, value) ∈ s.filter fun m =>
                decide (m.1 ≠ "required" ∧ m.1 ≠ "properties") :=
              List.mem_filter.mpr ⟨Object.mem_of_get? hv, decide_eq_true ⟨hrequired, hproperties⟩⟩
            exact fun j hj => h j (mem_member_joins _ kept (Role.keeps hkey _) hg hj)
  refine .of_get fun key hkey => ?_
  rw [pared kb ks h key hkey, pared kb' ks' h' key hkey, hb.get hkey, hs.get hkey]

end Alternative

section Any

variable {b b' : Object} {branches branches' : List Json}

/-- The texts of a list do not depend on conditional keywords. -/
theorem texts_pare (r : Role) (items : List Json) :
    (items.map (pare r)).filterMap asString? = items.filterMap asString? := by
  rw [List.filterMap_map]
  exact List.filterMap_congr fun item _ => as_string_pare item

theorem required_alike (h : AlikeObject b b') : required b = required b' := by
  have texts : ∀ o : Object, required o = ((((Object.get? o "required").map
      (pare (Role.schema.under "required"))).bind asArray?).getD []).filterMap asString? := by
    intro o
    rw [required]
    cases Object.get? o "required" with
    | none => rfl
    | some v =>
      rw [Option.map_some, Option.bind_some, Option.bind_some, as_array_pare]
      cases v.asArray? with
      | none => rfl
      | some items => exact (texts_pare _ items).symm
  rw [texts, texts, h.get (by decide)]

theorem branch_required_alike {j j' : Json} (h : Alike j j') :
    branchRequired j = branchRequired j' := by
  rcases h.cases with ⟨o, o', rfl, rfl, ho⟩ | ⟨hj, hj', -⟩
  · exact required_alike ho
  · have none : ∀ {j : Json}, isObject j = false → branchRequired j = [] := by
      intro j hj
      cases j <;> first | rfl | simp [isObject] at hj
    rw [none hj, none hj']

theorem common_required_alike (h : List.Forall₂ Alike branches branches') :
    commonRequired branches = commonRequired branches' := by
  cases h with
  | nil => rfl
  | cons h hrest =>
    rw [commonRequired, commonRequired, branch_required_alike h]
    generalize branchRequired _ = common
    induction hrest generalizing common with
    | nil => rfl
    | cons h _ ih =>
      rw [List.foldl_cons, List.foldl_cons, branch_required_alike h]
      exact ih _

/-- Alternatives are merged one after another into a base, but for what they require. -/
def widening : Intake where
  take := mergeAlternative
  joins := alternativeJoins
  keyed hb hs := merge_alternative_keyed hb hs.2
  alike := alike_merge_alternative

theorem merge_any_eq (base : Object) (branches : List Json) : (mergeAny base branches).1 =
    if (addAll (required base) (commonRequired branches)).isEmpty then
      Object.erase (widening.all base branches) "required"
    else Object.insert (widening.all base branches) "required"
      (.ofStrings (addAll (required base) (commonRequired branches))) := by
  have merged : widening.all base branches = _ := (fold_fst mergeAlternative _ _ []).symm
  rw [merged]
  rfl

theorem alike_merge_any (h : List.Forall₂ Alike branches branches')
    (hk : ∀ j ∈ branches, j.keyed = true) (hk' : ∀ j ∈ branches', j.keyed = true)
    (hb : AlikeObject b b') (kb : KeyedObject b) (kb' : KeyedObject b')
    (hj : ∀ j ∈ widening.allJoins b branches, j.Discerns)
    (hj' : ∀ j ∈ widening.allJoins b' branches', j.Discerns) :
    AlikeObject (mergeAny b branches).1 (mergeAny b' branches').1 := by
  have merged := Intake.alike_all h hk hk' hb kb kb' hj hj'
  rw [merge_any_eq, merge_any_eq, required_alike hb, common_required_alike h]
  split
  · exact merged.erase (Intake.all_keyed kb hk).1 (Intake.all_keyed kb' hk').1 _
  · exact merged.insert _ rfl

end Any

section One

variable {b b' : Object} {option option' : Json}

/-- The object does not consist of conditional keywords only. -/
def IsGrounded (o : Object) : Prop := o.isEmpty = (pareMembers .schema o).isEmpty

theorem is_empty_alike (h : AlikeObject b b') (hb : IsGrounded b) (hb' : IsGrounded b') :
    b.isEmpty = b'.isEmpty := by
  have empty : ∀ {o o' : Object}, AlikeObject o o' → (pareMembers .schema o).isEmpty = true →
      (pareMembers .schema o').isEmpty = true := by
    intro o o' h ho
    rw [List.isEmpty_iff] at ho
    cases hp : pareMembers .schema o' with
    | nil => rfl
    | cons m rest =>
      have value := h m.1
      rw [ho, hp, Object.get?_nil, Object.get?_cons, if_pos rfl] at value
      simp at value
  rw [hb, hb', Bool.eq_iff_iff]
  exact ⟨empty h, empty fun key => (h key).symm⟩

/-- Alike options lie over alike bases. -/
theorem alike_merge_one (hb : AlikeObject b b') (ho : Alike option option')
    (hk : option.keyed = true) (hk' : option'.keyed = true)
    (hg : isObject option = false → IsGrounded b) (hg' : isObject option' = false → IsGrounded b') :
    Alike (mergeOne b option) (mergeOne b' option') := by
  rcases ho.cases with ⟨s, s', rfl, rfl, hs⟩ | ⟨hobject, hobject', hsame⟩
  · exact hb.insert_all hs (keyed_obj.mp hk).1 (keyed_obj.mp hk').1
  · have typed : ∀ {b : Object} {option : Json}, isObject option = false → mergeOne b option =
        if b.isEmpty then option else .obj (Object.insert b "type" option) := by
      intro b option h
      cases option <;> first | rfl | simp [isObject] at h
    rw [typed hobject, typed hobject', is_empty_alike hb (hg hobject) (hg' hobject')]
    split
    · exact ho
    · exact hb.insert _ hsame

end One

end Schema

end AvroDerive
