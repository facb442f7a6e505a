import AvroDerive.Proofs.DepthAgreement
import AvroDerive.Proofs.OutputReference

/-! # The depth limit only limits

A conversion that gives up no node for its depth is the same under every wider limit: the depth of a
scope is asked for nowhere but at the limit. -/
namespace AvroDerive

/-- The setting with another depth limit. -/
def Setting.withLimit (cfg : Setting) (limit : Nat) : Setting :=
  { cfg with options := { cfg.options with maxDepth := limit } }

namespace Convert

open AvroType Json Schema

section Setting

variable (cfg : Setting) (limit : Nat)

/-- Documents are read from the same source. -/
theorem fetch_with_limit : fetchDocument (cfg.withLimit limit) = fetchDocument cfg := by
  have source : (cfg.withLimit limit).source = cfg.source := rfl
  funext url
  unfold fetchDocument
  rw [source]

theorem locate_with_limit : locate (cfg.withLimit limit) = locate cfg := by
  funext reference scope
  unfold locate
  rw [fetch_with_limit]

theorem name_with_limit : referenceName (cfg.withLimit limit) = referenceName cfg := by
  have root : (cfg.withLimit limit).rootNs = cfg.rootNs := rfl
  have name : (cfg.withLimit limit).options.rootName = cfg.options.rootName := rfl
  funext reference located scope
  unfold referenceName
  rw [root, name]

theorem import_with_limit (node : NodeConverter) :
    importFragment (cfg.withLimit limit) node = importFragment cfg node := by
  funext key reference located scope
  unfold importFragment
  rw [name_with_limit]

theorem reference_with_limit (node : NodeConverter) :
    referenceType (cfg.withLimit limit) node = referenceType cfg node := by
  funext o scope
  unfold referenceType
  rw [locate_with_limit, import_with_limit]

/-- The limit counts only for the choice whether a node is converted. -/
theorem step_with_limit (node : NodeConverter) : step (cfg.withLimit limit) node = step cfg node := by
  funext schema scope
  cases schema with
  | obj o =>
    show objectNode (cfg.withLimit limit) node o scope = objectNode cfg node o scope
    unfold objectNode
    rw [reference_with_limit]
  | bool b => cases b <;> rfl
  | _ => rfl

end Setting

section Levels

variable {cfg : Setting} {limit : Nat}

/-- A node within the limit is within a wider one, and as many levels are left there. -/
theorem node_within_agrees (hlimit : cfg.options.maxDepth ≤ limit) {levels levels' : Nat}
    (hlevels : levels ≤ levels') :
    NodesAgree (nodeWithin cfg levels) (nodeWithin (cfg.withLimit limit) levels') := by
  induction levels generalizing levels' with
  | zero => exact fun schema scope => too_deep_agrees cfg scope _
  | succ levels ih =>
    obtain ⟨more, rfl⟩ : ∃ more, levels' = more + 1 := ⟨levels' - 1, by omega⟩
    intro schema scope
    rw [nodeWithin, nodeWithin]
    dsimp only
    by_cases hdepth : cfg.options.maxDepth < scope.depth
    · rw [if_pos hdepth]
      exact too_deep_agrees cfg scope _
    · have wider : ¬(cfg.withLimit limit).options.maxDepth < scope.depth := by
        have : (cfg.withLimit limit).options.maxDepth = limit := rfl
        omega
      rw [if_neg hdepth, if_neg wider, step_with_limit]
      exact step_agrees (ih (by omega)) scope schema

theorem node_agrees (hlimit : cfg.options.maxDepth ≤ limit) :
    NodesAgree (node cfg) (node (cfg.withLimit limit)) :=
  node_within_agrees hlimit (Nat.add_le_add_right hlimit 1)

end Levels

section Document

variable {cfg : Setting} {limit : Nat} (hlimit : cfg.options.maxDepth ≤ limit)

include hlimit

theorem definition_type_agrees (schema : Json) (scope : Scope) :
    Agrees (definitionType cfg schema scope) (definitionType (cfg.withLimit limit) schema scope) := by
  unfold definitionType
  split
  · split
    · exact .bind (object_record_agrees (node_agrees hlimit) _ cfg _ _ _) fun t => .pure _
    · exact .apart (node_agrees hlimit _ _)
  · exact .apart (node_agrees hlimit _ _)

theorem definition_agrees (d : Json) (baseUri schemaName : String) (schema : Json)
    (pointer : Option String) : Agrees (definition cfg d baseUri schemaName schema pointer)
      (definition (cfg.withLimit limit) d baseUri schemaName schema pointer) := by
  unfold definition
  refine .bind (.of_neutral (neutral_is_imported _)) fun imported => ?_
  split
  · exact .pure _
  · refine .bind (definition_type_agrees hlimit _ _) fun r => ?_
    exact .of_neutral (neutral_keep_definition _ _ _ _ _ _ _)

theorem take_turns_agree (d : Json) (baseUri : String) (turns : List Turn) :
    Agrees (takeTurns cfg d baseUri turns) (takeTurns (cfg.withLimit limit) d baseUri turns) := by
  induction turns with
  | nil => exact .pure ()
  | cons t turns ih =>
    rw [takeTurns, takeTurns]
    exact .bind (definition_agrees hlimit _ _ _ _ _) fun _ => ih

/-- A call takes the same turns under both limits. -/
theorem call_agrees (call : Call) :
    Agrees (call.run cfg) (call.run (cfg.withLimit limit)) := by
  have same : call.turns (cfg.withLimit limit) = call.turns cfg := by
    have items : ∀ (items : List Json) (n : Nat),
        itemTurns (cfg.withLimit limit) n items = itemTurns cfg n items := by
      intro items
      induction items with
      | nil => exact fun _ => rfl
      | cons item items ih =>
        intro n
        cases item with
        | obj o => exact congrArg (List.cons _) (ih (n + 1))
        | _ => exact ih (n + 1)
    cases call with
    | document j baseUri =>
      cases j with
      | arr elements => exact congrArg Except.ok (items elements 0)
      | _ => rfl
    | _ => rfl
  rw [call_turns_taken, call_turns_taken, same]
  split
  · exact take_turns_agree hlimit _ _ _
  · exact fail_agrees _

theorem document_output_agrees (j : Json) (baseUri : String) :
    Agrees (documentOutput cfg j baseUri) (documentOutput (cfg.withLimit limit) j baseUri) := by
  have call : Agrees (document cfg j baseUri) (document (cfg.withLimit limit) j baseUri) :=
    call_agrees hlimit (.document j baseUri)
  unfold documentOutput
  refine .bind call fun _ => ?_
  refine .bind (.refl Run.logs_get) fun s => ?_
  split
  · exact fail_agrees _
  · exact .bind (.of_neutral neutral_ordered_types) fun ts => .pure _

theorem fragment_output_agrees (j : Json) (baseUri fragment : String) :
    Agrees (fragmentOutput cfg j baseUri fragment)
      (fragmentOutput (cfg.withLimit limit) j baseUri fragment) := by
  unfold fragmentOutput
  dsimp only
  split
  · exact fail_agrees _
  · refine .bind (definition_agrees hlimit _ _ _ _ _) fun registered => ?_
    split
    · exact fail_agrees _
    · refine .bind (.of_neutral neutral_ordered_types) fun ts => ?_
      split
      · exact .pure _
      · exact fail_agrees _

theorem output_agrees (j : Json) (location : String) :
    Agrees (output cfg j location) (output (cfg.withLimit limit) j location) := by
  have directory : (cfg.withLimit limit).workingDirectory = cfg.workingDirectory := rfl
  unfold output
  rw [directory]
  dsimp only
  split
  · exact fragment_output_agrees hlimit _ _ _
  · exact document_output_agrees hlimit _ _

end Document

/-- A conversion that gives up no node for its depth has the same result and the same warnings under
every wider limit. -/
theorem limit_only_limits (cfg : Setting) (j : Json) (location : String) (limit : Nat)
    (hlimit : cfg.options.maxDepth ≤ limit)
    (hshallow : ∀ depth record, .tooDeep depth record ∉ (convert cfg j location).2) :
    convert (cfg.withLimit limit) j location = convert cfg j location := by
  have same : (output (cfg.withLimit limit) j location).run.run {} =
      (output cfg j location).run.run {} := (output_agrees hlimit j location).same {} hshallow
  unfold convert
  rw [same]

theorem referring_same_deeper :
    (convert (offline.withLimit 6) referring "").2 = [] ∧
      convert ((offline.withLimit 6).withLimit 50) referring "" =
        convert (offline.withLimit 6) referring "" := by
  have silent : (convert (offline.withLimit 6) referring "").2 = [] := by decide +kernel
  have hlimit : (offline.withLimit 6).options.maxDepth ≤ 50 := by decide
  refine ⟨silent, limit_only_limits (offline.withLimit 6) referring "" 50 hlimit ?_⟩
  intro depth record
  rw [silent]
  exact List.not_mem_nil

end Convert

end AvroDerive
