import AvroDerive.Proofs.ConverterState
import AvroDerive.Proofs.DefinitionTurn

/-! # Definitions in any order

A document of definitions is converted definition by definition, in their order. If a plan fits them,
the types that are registered are the same in every order. -/
namespace AvroDerive.Convert

open AvroType Json Schema

/-- The result of a document of definitions, converted from the start, and the state that is left. -/
def afterDefinitions (cfg : Setting) (baseUri : String) (members : Object) :
    Except Failure Unit × State :=
  (document cfg (definitionsOf members) baseUri).run.run {}

section Lists

variable {cfg : Setting} {baseUri : String} {members : Object} {plan : Plan} {stage : Stage}
  {m : String × Json} {d : Json}

theorem definition_or_group_runs_to (h : plan.Fits cfg baseUri members) (hm : m ∈ members)
    (hturn : m ∉ stage.passed) (hpending : stage.pending = []) (hframes : stage.frames = [])
    (hd : Holds members d) :
    RunsTo (definitionOrGroup cfg d baseUri (definitionPointer m.1) m.1 m.2)
      (Progress cfg baseUri members plan stage) fun _ s =>
      Progress cfg baseUri members plan (stage.after m
        (recorded? cfg baseUri members (plan.meaning cfg baseUri members) m)) s := by
  have run := definition_runs_to h hm hturn hpending hframes hd
  have hschema := (h.each m hm).schema
  obtain ⟨key, schema⟩ := m
  cases schema with
  | obj o =>
    rw [definitionOrGroup, if_pos hschema]
    exact .bind run (fun _ _ _ _ => .pure _) fun _ _ => .pure fun _ hs => hs
  | _ => simp [isSchemaLike] at hschema

theorem definition_list_runs_to (h : plan.Fits cfg baseUri members) (hd : Holds members d)
    (rest : Object) (hsub : rest ⊆ members) (honce : rest.Nodup) (stage : Stage)
    (hturn : ∀ m ∈ rest, m ∉ stage.passed) (hpending : stage.pending = [])
    (hframes : stage.frames = []) :
    RunsTo (definitionList cfg d baseUri "/definitions" rest)
      (Progress cfg baseUri members plan stage) fun _ s =>
      ∃ stage', Progress cfg baseUri members plan stage' s ∧ stage.kept ⊆ stage'.kept ∧
        ∀ m ∈ rest, ∀ t, recorded? cfg baseUri members (plan.meaning cfg baseUri members) m =
          some t → t ∈ stage'.kept := by
  induction rest generalizing stage with
  | nil =>
    rw [definitionList]
    exact .pure fun s hs => ⟨stage, hs, List.Subset.refl _, by simp⟩
  | cons m rest ih =>
    rw [List.nodup_cons] at honce
    rw [List.cons_subset] at hsub
    rw [List.forall_mem_cons] at hturn
    have turned : ∀ p ∈ rest, p ∉ (stage.after m (recorded? cfg baseUri members
        (plan.meaning cfg baseUri members) m)).passed := by
      intro p hp hpassed
      rcases List.mem_cons.mp hpassed with rfl | hpassed
      · exact honce.1 hp
      · exact hturn.2 p hp hpassed
    have others := ih hsub.2 honce.2 _ turned rfl hframes
    rw [definitionList]
    refine .bind (definition_or_group_runs_to h hsub.1 hturn.1 hpending hframes hd)
      (fun _ _ _ _ => others.logs) fun _ _ => others.imp ?_
    rintro _ s ⟨stage', hp, hkept, hrest⟩
    rw [Stage.after, List.append_subset] at hkept
    refine ⟨stage', hp, hkept.2, List.forall_mem_cons.mpr ⟨fun t ht => ?_, hrest⟩⟩
    exact hkept.1 (Option.mem_toList.mpr ht)

theorem document_definitions {members : Object} (hsome : members ≠ []) :
    document cfg (definitionsOf members) baseUri =
      definitionList cfg (definitionsOf members) baseUri "/definitions" members := by
  have hescape : "/" ++ Pointer.escape "definitions" = "/definitions" := by decide +kernel
  cases members with
  | nil => exact absurd rfl hsome
  | cons m members =>
    rw [← hescape]
    rfl

/-- Nothing is remembered or registered at the start. -/
theorem progress_start : Progress cfg baseUri members plan {} {} where
  imports _ _ i hi := by simp [Imports.get?] at hi
  registry := by simp
  named _ _ name hi := by simp [Imports.get?] at hi
  pending := by simp
  remembered _ _ _ hname := by simp at hname
  passed _ _ _ hname := by simp at hname
  kept := List.nil_subset _
  frames := rfl

/-- A document of definitions comes out well, with the types of the plan and no others. -/
theorem after_definitions (h : plan.Fits cfg baseUri members) {members' : Object}
    (hperm : members.Perm members') (hsome : members' ≠ [])
    (hs : (afterDefinitions cfg baseUri members').2.Shallow) :
    (afterDefinitions cfg baseUri members').1 = .ok () ∧
      ∀ t, t ∈ (afterDefinitions cfg baseUri members').2.registry.map clearDependencies ↔
        ∃ m ∈ members, recorded? cfg baseUri members (plan.meaning cfg baseUri members) m =
          some t := by
  have hkeys : (members'.map Prod.fst).Nodup := (hperm.map _).nodup_iff.mp h.keys
  have runs := definition_list_runs_to h (holds_definitions hkeys hperm.subset) members'
    hperm.symm.subset hkeys.of_map {} (by simp) rfl rfl
  rw [afterDefinitions, document_definitions hsome] at hs ⊢
  obtain ⟨⟨⟩, s, hyields, stage, hp, -, hkept⟩ := runs.ends {} progress_start hs
  rw [show _ = (Except.ok (), s) from hyields]
  refine ⟨rfl, fun t => ⟨fun ht => ?_, ?_⟩⟩
  · obtain ⟨u, hu, rfl⟩ := List.mem_map.mp ht
    exact hp.registry u hu
  · rintro ⟨m, hm, hrecorded⟩
    exact hp.kept (hkept m (hperm.subset hm) t hrecorded)

/-- If a plan fits the definitions of a document, and no node is given up for its depth, another
order of the definitions comes out as well and the same types are registered, up to the names that
are gathered in records. -/
theorem definitions_in_any_order (h : plan.Fits cfg baseUri members) {members' : Object}
    (hperm : members.Perm members') (hs : (afterDefinitions cfg baseUri members).2.Shallow)
    (hs' : (afterDefinitions cfg baseUri members').2.Shallow) :
    (afterDefinitions cfg baseUri members).1.isOk = (afterDefinitions cfg baseUri members').1.isOk ∧
      ((afterDefinitions cfg baseUri members).1.isOk = true →
        ∀ t, t ∈ (afterDefinitions cfg baseUri members).2.registry.map clearDependencies ↔
          t ∈ (afterDefinitions cfg baseUri members').2.registry.map clearDependencies) := by
  by_cases hsome : members = []
  · subst hsome
    rw [List.nil_perm.mp hperm]
    exact ⟨rfl, fun _ _ => Iff.rfl⟩
  · have hsome' : members' ≠ [] := fun hnil => hsome (List.perm_nil.mp (hnil ▸ hperm))
    obtain ⟨hok, hregistered⟩ := after_definitions h (.refl _) hsome hs
    obtain ⟨hok', hregistered'⟩ := after_definitions h hperm hsome' hs'
    exact ⟨by rw [hok, hok'], fun _ t => (hregistered t).trans (hregistered' t).symm⟩

end Lists

/-- A definition for texts, one for records with a field for such a text and a field for the other
record, which has a record inside, and another name for the former. -/
def accounts : Object := [
  ("Id", .obj [("type", .str "string"), ("format", .str "uuid")]),
  ("Account", objectSchema [("id", definitionRef "Id"), ("owner", definitionRef "Person")]),
  ("Person", objectSchema [("id", definitionRef "Id"),
    ("name", objectSchema [("first", .obj [("type", .str "string")])])]),
  ("Client", definitionRef "Account")]

def accountPlan : Plan where
  rank name := if name = "Id" then 0 else if name = "Person" then 1 else
    if name = "Account" then 2 else 3
  height := 4
  targets name := if name = "Account" then ["Id", "Person"] else if name = "Person" then ["Id"] else
    if name = "Client" then ["Account"] else []
  records name := if name = "Account" then ["Account"] else if name = "Person" then
    ["Person", "name"] else []
  around name := if name = "Person" then ["Account"] else
    if name = "Id" then ["Account", "Person", "name"] else []

theorem accounts_in_any_order :
    accountPlan.Fits offline "" accounts ∧ accounts.Perm accounts.reverse ∧
      (afterDefinitions offline "" accounts).2.Shallow ∧
      (afterDefinitions offline "" accounts.reverse).2.Shallow ∧
      (afterDefinitions offline "" accounts).1.isOk = true ∧
      ∀ t, t ∈ (afterDefinitions offline "" accounts).2.registry.map clearDependencies ↔
        t ∈ (afterDefinitions offline "" accounts.reverse).2.registry.map clearDependencies := by
  have fits : accountPlan.Fits offline "" accounts := by decide +kernel
  have hperm : accounts.Perm accounts.reverse := (List.reverse_perm accounts).symm
  have hs := shallow_of_silent (s := (afterDefinitions offline "" accounts).2)
    (by decide +kernel)
  have hs' := shallow_of_silent (s := (afterDefinitions offline "" accounts.reverse).2)
    (by decide +kernel)
  have hok : (afterDefinitions offline "" accounts).1.isOk = true := by decide +kernel
  exact ⟨fits, hperm, hs, hs', hok, (definitions_in_any_order fits hperm hs hs').2 hok⟩

/-- An enumeration of numbers, and a record with a field for one of them. -/
def numbered : Object := [
  ("Level", .obj [("type", .str "integer"), ("enum", .arr [.num (.int 1), .num (.int 2)])]),
  ("Entry", objectSchema [("level", definitionRef "Level")])]

/-- The field of the record is a reference to the record that holds a level, or a level itself. -/
theorem integer_enumeration_differs :
    numbered.Perm numbered.reverse ∧ (numbered.map fun m => Name.ofText m.1).Nodup ∧
      (afterDefinitions offline "" numbered).2.warnings.isEmpty = true ∧
      (afterDefinitions offline "" numbered.reverse).2.warnings.isEmpty = true ∧
      (afterDefinitions offline "" numbered).1.isOk = true ∧
      (afterDefinitions offline "" numbered.reverse).1.isOk = true ∧
      ∃ t ∈ (afterDefinitions offline "" numbered).2.registry.map clearDependencies,
        t ∉ (afterDefinitions offline "" numbered.reverse).2.registry.map clearDependencies :=
  ⟨(List.reverse_perm numbered).symm, by decide +kernel⟩

end AvroDerive.Convert
