import AvroDerive.Schema.Composition

/-! # Composition keywords in sequence

A node with composition keywords stands for its own keys merged with the members of `allOf`, once for each
option of `oneOf` that is laid over them, with the branches of `anyOf` merged into each. A list of options
that is empty is the exception: behind it `anyOf` starts over from the node's own keys. -/
namespace AvroDerive.Schema

/-- The node's own keys, merged with the members of `allOf`. -/
def mergedBase (document : Json) (o : Object) : Object :=
  match Object.get? o "allOf" with
  | some (.arr members) =>
    (mergeAll (.obj (eraseAll o compositionKeywords) ::
      members.map fun m => (dereference document m).1)).1
  | _ => eraseAll o compositionKeywords

/-- A candidate as an object; one that is none is the `type` of it. -/
def candidateObject : Json → Object
  | .obj o => o
  | value => [("type", value)]

/-- A candidate with the branches of `anyOf` merged into it. -/
def widened (document : Json) (o : Object) (candidate : Json) : Json :=
  match Object.get? o "anyOf" with
  | some (.arr branches) =>
    .obj (mergeAny (candidateObject candidate) (branches.map fun b => (dereference document b).1)).1
  | _ => candidate

/-- The node has composition keywords, and all of them are lists. -/
structure Composes (o : Object) : Prop where
  lists : ∀ key ∈ compositionKeywords, ∀ v, Object.get? o key = some v → ∃ items, v = .arr items
  some : ∃ key ∈ compositionKeywords, Object.get? o key ≠ none

section Stages

variable {document : Json} {base o : Object} {members options branches candidates : List Json}

theorem composes_of_lists (hall : Object.get? o "allOf" = some (.arr members))
    (hone : Object.get? o "oneOf" = some (.arr options))
    (hany : Object.get? o "anyOf" = some (.arr branches)) : Composes o where
  lists key hkey v hv := by
    rw [compositionKeywords, List.mem_cons, List.mem_cons, List.mem_singleton] at hkey
    rcases hkey with rfl | rfl | rfl
    · exact ⟨members, Option.some.inj (hv.symm.trans hall)⟩
    · exact ⟨options, Option.some.inj (hv.symm.trans hone)⟩
    · exact ⟨branches, Option.some.inj (hv.symm.trans hany)⟩
  some := ⟨"allOf", List.mem_cons_self, hall ▸ Option.some_ne_none _⟩

theorem dereference_all_fst (document : Json) (schemas : List Json) :
    (dereferenceAll document schemas).1 = schemas.map fun s => (dereference document s).1 := by
  rw [dereferenceAll, List.map_map]
  rfl

theorem bases_candidates (h : candidates ≠ []) : bases base candidates = candidates.map candidateObject := by
  cases candidates with
  | nil => exact absurd rfl h
  | cons c cs => rfl

theorem expand_all_fst (members : List Json) : (expandAll document base members).1 =
    [.obj (mergeAll (.obj base :: members.map fun m => (dereference document m).1)).1] := by
  rw [← dereference_all_fst]
  rfl

/-- The members of `allOf` give one candidate, the merged base, which is the own keys without them. -/
theorem after_all_cases (document : Json) (o : Object) :
    ((∃ members, Object.get? o "allOf" = some (.arr members)) ∧
      (afterAll document (eraseAll o compositionKeywords) o).1 = [.obj (mergedBase document o)]) ∨
    (∀ members, Object.get? o "allOf" ≠ some (.arr members)) ∧
      (afterAll document (eraseAll o compositionKeywords) o).1 = [] ∧
      mergedBase document o = eraseAll o compositionKeywords := by
  unfold afterAll
  split
  · next members h =>
    rw [expand_all_fst, mergedBase, h]
    exact Or.inl ⟨⟨members, rfl⟩, rfl⟩
  · next h =>
    refine Or.inr ⟨h, rfl, ?_⟩
    unfold mergedBase
    split
    · next members hmembers => exact absurd hmembers (h members)
    · rfl

/-- After `allOf` the one base is the merged one, also without that keyword. -/
theorem bases_after_all (document : Json) (o : Object) : bases (eraseAll o compositionKeywords)
    (afterAll document (eraseAll o compositionKeywords) o).1 = [mergedBase document o] := by
  rcases after_all_cases document o with ⟨-, he⟩ | ⟨-, he, hbase⟩
  · rw [he]
    rfl
  · rw [he, hbase]
    rfl

/-- Each option gives one candidate. -/
theorem after_options (h : Object.get? o "oneOf" = some (.arr options)) :
    afterOne (eraseAll o compositionKeywords) o
        (afterAll document (eraseAll o compositionKeywords) o).1 =
      options.map (mergeOne (mergedBase document o)) := by
  unfold afterOne
  rw [h]
  dsimp only
  rw [expandOne, bases_after_all]
  exact List.map_eq_flatMap.symm

theorem expand_any_fst (branches candidates : List Json) :
    (expandAny document base branches candidates).1 = (bases base candidates).map fun b =>
      .obj (mergeAny b (branches.map fun b => (dereference document b).1)).1 := by
  rw [expandAny, ← dereference_all_fst]
  dsimp only
  rw [List.map_map]
  rfl

/-- The last stage merges the branches into the bases that are left, if there are branches. -/
theorem expand_cases (document : Json) (o : Object) :
    (∃ branches, Object.get? o "anyOf" = some (.arr branches) ∧
      (expand document o).1 = (bases (eraseAll o compositionKeywords)
          (afterOne (eraseAll o compositionKeywords) o
            (afterAll document (eraseAll o compositionKeywords) o).1)).map fun b =>
        .obj (mergeAny b (branches.map fun b => (dereference document b).1)).1) ∨
    (∀ branches, Object.get? o "anyOf" ≠ some (.arr branches)) ∧
      (expand document o).1 = afterOne (eraseAll o compositionKeywords) o
        (afterAll document (eraseAll o compositionKeywords) o).1 := by
  unfold expand
  dsimp only
  split
  · next branches h => exact Or.inl ⟨branches, h, expand_any_fst _ _⟩
  · next h => exact Or.inr ⟨h, rfl⟩

/-- Options, if there are some, give the candidates in turn. -/
theorem expand_options (h : Object.get? o "oneOf" = some (.arr options))
    (hsome : options = [] → Object.get? o "anyOf" = none) : (expand document o).1 =
      options.map fun option => widened document o (mergeOne (mergedBase document o) option) := by
  rcases expand_cases document o with ⟨branches, hany, he⟩ | ⟨hany, he⟩
  · have some : options.map (mergeOne (mergedBase document o)) ≠ [] := by
      rw [ne_eq, List.map_eq_nil_iff]
      intro hnil
      simp [hsome hnil] at hany
    rw [he, after_options h, bases_candidates some, List.map_map, List.map_map]
    refine List.map_congr_left fun option _ => ?_
    rw [Function.comp_apply, Function.comp_apply, widened, hany]
  · rw [he, after_options h]
    refine List.map_congr_left fun option _ => ?_
    unfold widened
    split
    · next branches hbranches => exact absurd hbranches (hany branches)
    · rfl

/-- A node without options has one candidate. -/
theorem expand_single (ho : Composes o) (h : Object.get? o "oneOf" = none) :
    (expand document o).1 = [widened document o (.obj (mergedBase document o))] := by
  have skipped : ∀ candidates, afterOne (eraseAll o compositionKeywords) o candidates = candidates := by
    intro candidates
    unfold afterOne
    rw [h]
  rcases expand_cases document o with ⟨branches, hany, he⟩ | ⟨hany, he⟩
  · rw [he, skipped, bases_after_all, List.map_singleton, widened, hany]
    rfl
  · have members : ∃ members, Object.get? o "allOf" = some (.arr members) := by
      obtain ⟨key, hkey, hsome⟩ := ho.some
      obtain ⟨v, hv⟩ := Option.ne_none_iff_exists'.mp hsome
      obtain ⟨items, rfl⟩ := ho.lists key hkey v hv
      rw [compositionKeywords, List.mem_cons, List.mem_cons, List.mem_singleton] at hkey
      rcases hkey with rfl | rfl | rfl
      · exact ⟨items, hv⟩
      · simp [h] at hv
      · exact absurd hv (hany items)
    obtain ⟨members, hmembers⟩ := members
    have single : widened document o (.obj (mergedBase document o)) =
        .obj (mergedBase document o) := by
      unfold widened
      split
      · next branches hbranches => exact absurd hbranches (hany branches)
      · rfl
    rw [he, skipped, single]
    rcases after_all_cases document o with ⟨-, hall⟩ | ⟨hnone, -⟩
    · exact hall
    · exact absurd hmembers (hnone members)

/-- Behind an empty list of options the branches are merged into the node's own keys, whatever `allOf`
says. -/
theorem expand_no_options (hone : Object.get? o "oneOf" = some (.arr []))
    (hany : Object.get? o "anyOf" = some (.arr branches)) : (expand document o).1 =
      [.obj (mergeAny (eraseAll o compositionKeywords)
        (branches.map fun b => (dereference document b).1)).1] := by
  rcases expand_cases document o with ⟨branches', hany', he⟩ | ⟨hnone, -⟩
  · obtain rfl := Json.arr.inj (Option.some.inj (hany.symm.trans hany'))
    rw [he, after_options hone]
    rfl
  · exact absurd hany (hnone branches)

end Stages

/-- A node whose composition keywords are lists has a candidate for each option, or just one if there is
no list of options: the merged base with the option laid over it, widened by the branches. A list of
options that is empty must not stand beside branches. -/
theorem candidates_in_sequence {o : Object} (document : Json) (ho : Composes o)
    (hoptions : Object.get? o "oneOf" = some (.arr []) → Object.get? o "anyOf" = none) :
    (∀ options : List Json, Object.get? o "oneOf" = some (.arr options) →
      (expand document o).1.length = options.length ∧
      ∀ (i : Nat) option, options[i]? = some option → (expand document o).1[i]? =
        some (widened document o (mergeOne (mergedBase document o) option))) ∧
    (Object.get? o "oneOf" = none →
      (expand document o).1 = [widened document o (.obj (mergedBase document o))]) := by
  refine ⟨fun options h => ?_, expand_single ho⟩
  have expanded : (expand document o).1 = options.map fun option =>
      widened document o (mergeOne (mergedBase document o) option) :=
    expand_options h fun hnil => hoptions (hnil ▸ h)
  rw [expanded, List.length_map]
  refine ⟨rfl, fun i option hi => ?_⟩
  rw [List.getElem?_map, hi, Option.map_some]

/-- All three keywords: a member, two options of which one is no object, and a branch. -/
def composed : Object :=
  [("description", .str "both"), ("allOf", .arr [.obj [("required", .arr [.str "id"])]]),
    ("oneOf", .arr [.obj [("title", .str "first")], .str "string"]),
    ("anyOf", .arr [.obj [("required", .arr [.str "name"])]])]

theorem composed_in_sequence : Composes composed ∧
    (expand .null composed).1.length = 2 ∧ (expand .null composed).1[1]? =
      some (widened .null composed (mergeOne (mergedBase .null composed) (.str "string"))) := by
  have composes : Composes composed := composes_of_lists rfl rfl rfl
  obtain ⟨options, -⟩ := candidates_in_sequence .null composes
    fun h => nomatch Json.arr.inj (Option.some.inj h)
  obtain ⟨length, each⟩ := options _ rfl
  exact ⟨composes, length, each 1 _ rfl⟩

/-- A member, no options and a branch. -/
def optionless : Object :=
  [("allOf", .arr [.obj [("required", .arr [.str "id"])]]), ("oneOf", .arr []),
    ("anyOf", .arr [.obj [("title", .str "branch")]])]

/-- No option gives no candidate, but there is one, and it does not require what the member does. -/
theorem optionless_candidate : Composes optionless ∧
    Object.get? optionless "oneOf" = some (.arr []) ∧
    (expand .null optionless).1.length ≠ 0 ∧
    (expand .null optionless).1 = [.obj [("title", .str "branch")]] := by
  have candidate : (expand .null optionless).1 = [.obj [("title", .str "branch")]] :=
    (expand_no_options rfl rfl).trans rfl
  refine ⟨composes_of_lists rfl rfl rfl, rfl, ?_, candidate⟩
  rw [candidate]
  decide

end AvroDerive.Schema
