import AvroDerive.Proofs.AlikeSchema

/-! # Alternatives merged into a base

Of alternatives that are merged into one schema, the result requires what the base does or all of them
do, and it has the last schema that is given for a property. -/
namespace AvroDerive

open Json AvroDerive.Convert

namespace Schema

/-- The schema that a value has for a property. -/
def propertyIn (name : String) (j : Json) : Option Json :=
  j.asObject?.bind fun o => Object.get? (propertiesOf o) name

/-- The object has no properties, or an object of them. -/
def HasProperties (o : Object) : Prop := ∀ v, Object.get? o "properties" = some v → isObject v = true

section Required

variable {base : Object} {branches : List Json} {name : String}

theorem mem_branch_required {b : Json} :
    name ∈ branchRequired b ↔ ∃ o, b = .obj o ∧ name ∈ required o := by
  constructor
  · intro h
    cases b with
    | obj o => exact ⟨o, rfl, h⟩
    | _ => simp [branchRequired, asObject?] at h
  · rintro ⟨o, rfl, h⟩
    exact h

/-- A name is common to the branches if there are some and all of them require it. -/
theorem mem_common_required : name ∈ commonRequired branches ↔
    branches ≠ [] ∧ ∀ b ∈ branches, name ∈ branchRequired b := by
  cases branches with
  | nil => simp [commonRequired]
  | cons first rest =>
    rw [commonRequired, List.forall_mem_cons]
    have kept : ∀ common : List String,
        name ∈ rest.foldl (fun common b => common.filter (· ∈ branchRequired b)) common ↔
          name ∈ common ∧ ∀ b ∈ rest, name ∈ branchRequired b := by
      induction rest with
      | nil => simp
      | cons b rest ih =>
        intro common
        rw [List.foldl_cons, ih, List.mem_filter, List.forall_mem_cons, decide_eq_true_eq, and_assoc]
    rw [kept]
    simp

theorem required_strings (o : Object) (names : List String) :
    required (Object.insert o "required" (.ofStrings names)) = names := by
  have texts : (names.map Json.str).filterMap asString? = names := by
    induction names with
    | nil => rfl
    | cons name names ih => simp [asString?, ih]
  rw [required, Object.get?_insert, if_pos rfl, ofStrings, Option.bind_some, asArray?,
    Option.getD_some, texts]

/-- The fields that the merged schema requires, and its key for them. -/
theorem required_merged (hb : KeyedObject base) (hk : ∀ b ∈ branches, b.keyed = true) :
    required (mergeAny base branches).1 = addAll (required base) (commonRequired branches) ∧
      (Object.contains (mergeAny base branches).1 "required" = true ↔
        addAll (required base) (commonRequired branches) ≠ []) := by
  rw [merge_any_eq]
  by_cases hnames : addAll (required base) (commonRequired branches) = []
  · have keyed : KeyedObject (widening.all base branches) := Intake.all_keyed hb hk
    have absent : Object.get? (Object.erase (widening.all base branches) "required") "required" =
        none := Object.get_erase_self keyed.1 "required"
    rw [if_pos (List.isEmpty_iff.mpr hnames), hnames, required, Object.contains, absent]
    simp
  · rw [if_neg fun h => hnames (List.isEmpty_iff.mp h)]
    refine ⟨required_strings _ _, ?_⟩
    rw [Object.contains, Object.get?_insert, if_pos rfl]
    exact ⟨fun _ => hnames, fun _ => rfl⟩

theorem mem_required_merged (hb : KeyedObject base) (hk : ∀ b ∈ branches, b.keyed = true) :
    name ∈ required (mergeAny base branches).1 ↔ name ∈ required base ∨
      branches ≠ [] ∧ ∀ b ∈ branches, ∃ o, b = .obj o ∧ name ∈ required o := by
  rw [(required_merged hb hk).1, mem_addAll, mem_common_required]
  simp only [mem_branch_required]

end Required

section Properties

variable {base o : Object} {name : String}

/-- The properties of an alternative are laid over those of the base. -/
theorem laid_properties (hbase : HasProperties base) (ho : KeyedObject o) :
    HasProperties (mergeAlternative base o).1 ∧
      Object.get? (propertiesOf (mergeAlternative base o).1) name =
        (Object.get? (propertiesOf o) name).or (Object.get? (propertiesOf base) name) := by
  have merged := get_merge_alternative ho.1 base "properties"
  rw [laid, if_neg (by decide), if_pos rfl] at merged
  unfold HasProperties
  rw [propertiesOf, propertiesOf, merged]
  cases hp : Object.get? o "properties" with
  | none => exact ⟨hbase, rfl⟩
  | some properties =>
    have existing : ∃ target, (Object.get? base "properties").getD (.obj []) = .obj target ∧
        target = propertiesOf base := by
      unfold propertiesOf
      cases hg : Object.get? base "properties" with
      | none => exact ⟨[], rfl, rfl⟩
      | some v =>
        have hv := hbase v hg
        cases v with
        | obj target => exact ⟨target, rfl, rfl⟩
        | _ => simp [isObject] at hv
    obtain ⟨target, htarget, rfl⟩ := existing
    rw [Option.map_some, Option.some_or, htarget]
    cases properties with
    | obj source =>
      have hs : (Object.keys source).Nodup := (keyed_obj.mp (ho.get hp)).1
      refine ⟨fun v hv => Option.some.inj hv ▸ rfl, ?_⟩
      exact Object.get_insert_all hs _ name
    | _ => exact ⟨fun v hv => Option.some.inj hv ▸ rfl, rfl⟩

/-- The schema that is given last for a property counts. -/
theorem widened_properties (hbase : HasProperties base) {branches : List Json}
    (hk : ∀ b ∈ branches, b.keyed = true) :
    Object.get? (propertiesOf (widening.all base branches)) name =
      (branches.filterMap (propertyIn name)).getLast?.or (Object.get? (propertiesOf base) name) := by
  induction branches generalizing base with
  | nil => rfl
  | cons b branches ih =>
    rw [List.forall_mem_cons] at hk
    cases hb : isObject b with
    | false =>
      have given : propertyIn name b = none := by cases b <;> simp_all [propertyIn, isObject, asObject?]
      rw [(Intake.all_skip hb base branches).1, ih hbase hk.2, List.filterMap_cons_none given]
    | true =>
      obtain ⟨o, rfl⟩ := exists_object hb
      have step : widening.all base (.obj o :: branches) =
          widening.all (mergeAlternative base o).1 branches := rfl
      obtain ⟨hproperties, hget⟩ := laid_properties hbase (keyed_obj.mp hk.1)
      rw [step, ih hproperties hk.2, hget]
      have given : propertyIn name (.obj o) = Object.get? (propertiesOf o) name := rfl
      cases hname : Object.get? (propertiesOf o) name with
      | none => rw [List.filterMap_cons_none (given.trans hname), Option.none_or]
      | some v =>
        rw [List.filterMap_cons_some (given.trans hname), List.getLast?_cons, Option.some_or]
        cases (branches.filterMap (propertyIn name)).getLast? <;> rfl

end Properties

/-- Alternatives are merged into a base. The result requires a name if the base does, or if there are
alternatives and all of them are objects that do, in whatever order they come; it has the key `required`
if it requires anything. And its schema for a property is the last one that is given for it. -/
theorem alternatives_merged {base : Object} {branches : List Json}
    (hb : (Json.obj base).keyed = true) (hk : ∀ b ∈ branches, b.keyed = true)
    (hbase : HasProperties base) :
    (∀ name, name ∈ required (mergeAny base branches).1 ↔ name ∈ required base ∨
      branches ≠ [] ∧ ∀ b ∈ branches, ∃ o, b = .obj o ∧ name ∈ required o) ∧
    (∀ branches', branches.Perm branches' → ∀ name,
      name ∈ required (mergeAny base branches').1 ↔ name ∈ required (mergeAny base branches).1) ∧
    (Object.contains (mergeAny base branches).1 "required" = true ↔
      ∃ name, name ∈ required (mergeAny base branches).1) ∧
    ∀ name, Object.get? (propertiesOf (mergeAny base branches).1) name =
      (branches.filterMap (propertyIn name)).getLast?.or (Object.get? (propertiesOf base) name) := by
  have keyed := keyed_obj.mp hb
  refine ⟨fun name => mem_required_merged keyed hk, fun branches' hperm name => ?_, ?_, fun name => ?_⟩
  · have hk' : ∀ b ∈ branches', b.keyed = true := fun b h => hk b (hperm.mem_iff.mpr h)
    have empty : branches' = [] ↔ branches = [] := by
      rw [← List.length_eq_zero_iff, ← List.length_eq_zero_iff, hperm.length_eq]
    rw [mem_required_merged keyed hk, mem_required_merged keyed hk', ne_eq, ne_eq, empty]
    simp only [hperm.mem_iff]
  · obtain ⟨names, contains⟩ := required_merged keyed hk
    rw [contains, names, ne_eq, List.eq_nil_iff_forall_not_mem, not_forall_not]
  · rw [← widened_properties hbase hk, merge_any_eq]
    have kept : (Object.keys (widening.all base branches)).Nodup := (Intake.all_keyed keyed hk).1
    unfold propertiesOf
    split
    · rw [Object.get_erase kept (by decide)]
    · rw [Object.get?_insert, if_neg (by decide)]

/-- An alternative that requires some fields and lists one property of the given type. -/
def demanding (names : List String) (type : String) : Json := .obj [("required", .ofStrings names),
  ("properties", .obj [("x", .obj [("type", .str type)])])]

/-- A base that requires `a`. -/
def demandingBase : Object := [("required", .ofStrings ["a"])]

def demandingBranches : List Json := [demanding ["b", "c", "b"] "string", demanding ["c", "b"] "integer"]

theorem demanding_merged : HasProperties demandingBase ∧
    ("b" ∈ required (mergeAny demandingBase demandingBranches).1 ∧
      "b" ∈ required (mergeAny demandingBase demandingBranches.reverse).1) ∧
    Object.get? (propertiesOf (mergeAny demandingBase demandingBranches).1) "x" =
      some (.obj [("type", .str "integer")]) := by
  have base : (Json.obj demandingBase).keyed = true := by decide
  have branches : ∀ b ∈ demandingBranches, b.keyed = true := by decide
  have none : Object.get? demandingBase "properties" = none := rfl
  have properties : HasProperties demandingBase := fun v hv => by simp [none] at hv
  obtain ⟨names, order, -, last⟩ := alternatives_merged base branches properties
  have demanded : "b" ∈ required (mergeAny demandingBase demandingBranches).1 := by
    refine (names "b").mpr (Or.inr ⟨by simp [demandingBranches], ?_⟩)
    rw [demandingBranches, List.forall_mem_cons, List.forall_mem_singleton]
    exact ⟨⟨_, rfl, by decide⟩, _, rfl, by decide⟩
  exact ⟨properties, ⟨demanded, (order _ (List.reverse_perm _).symm "b").mpr demanded⟩, last "x"⟩

end Schema

end AvroDerive
