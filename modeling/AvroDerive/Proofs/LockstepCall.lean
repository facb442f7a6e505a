import AvroDerive.Proofs.ConversionCall
import AvroDerive.Proofs.DefinitionOrigin
import AvroDerive.Proofs.LockstepNode

/-! # Conversions with a given converter

All that a conversion does with the converter of nodes is done in the turns of its call. With the
converter left open, conversions with two converters are compared turn by turn. -/
namespace AvroDerive.Convert

open AvroType Json Schema

section Given

variable (cfg : Setting) (node : NodeConverter)

/-- As `definitionType`, by the converter. -/
def definitionTypeWith (schema : Json) (scope : Scope) : Run (Option AvroType × List String) := do
  match schema with
  | .obj o =>
    if isRecordSchema o then return (← objectRecord node scope.record scope.ns o scope, [])
    else Build.apart (node schema scope)
  | schema => Build.apart (node schema scope)

/-- As `definition`, by the converter, for the schema of a turn. -/
def takeTurnWith (d : Json) (baseUri : String) (t : Turn) : Run (Option String) := do
  if ← isImported (t.key baseUri) then return none
  else
    let r ← definitionTypeWith node t.schema (t.scope cfg d baseUri)
    keepDefinition (t.key baseUri) t.name t.schema (t.typeName cfg).1 (t.typeName cfg).2 r.1 r.2

def takeTurnsWith (d : Json) (baseUri : String) : List Turn → Run Unit
  | [] => return ()
  | t :: ts => do
    let _ ← takeTurnWith cfg node d baseUri t
    takeTurnsWith d baseUri ts

/-- A call, by the converter. -/
def Call.runWith (call : Call) : Run Unit :=
  match call.turns cfg with
  | .ok ts => takeTurnsWith cfg node call.subject call.baseUri ts
  | .error e => Run.fail e

/-- What is given for a document when its schemas have had their turns. -/
def registeredTypes (baseUri : String) : Run Output := do
  if (← get).registry.isEmpty then Run.fail (.noSchema baseUri)
  else
    let types ← orderedTypes
    return .types (evict types)

/-- What is given for a fragment when it has had its turn. -/
def registeredType (baseUri fragment : String) (registered : Option String) : Run Output := do
  match registered with
  | none => Run.fail (.noSchema (baseUri ++ "#" ++ fragment))
  | some registered =>
    let types ← orderedTypes
    match lookup? types registered with
    | some root => return .fragment (inline types root)
    | none => Run.fail (.noSchema registered)

/-- The turn of the schema at a fragment. -/
def fragmentTurn (fragment : String) (schema : Json) : Turn :=
  ⟨((typeName? cfg.rootNs (fragmentPointer fragment)).map Prod.fst).getD cfg.options.rootName, schema,
    some (fragmentPointer fragment)⟩

def fragmentOutputWith (j : Json) (baseUri fragment : String) : Run Output :=
  match j.pointer? (fragmentPointer fragment) with
  | none => Run.fail (.unresolved ("#" ++ fragment) baseUri)
  | some schema => takeTurnWith cfg node j baseUri (fragmentTurn cfg fragment schema) >>=
      registeredType baseUri fragment

def outputWith (j : Json) (location : String) : Run Output :=
  match addressed cfg location with
  | (uri, some (c :: rest)) =>
    fragmentOutputWith cfg node j (String.ofList uri) (String.ofList (c :: rest))
  | (uri, _) => (Call.document j (String.ofList uri)).runWith cfg node >>= fun _ =>
      registeredTypes (String.ofList uri)

/-- The result and the warnings of a conversion by the converter. -/
def convertWith (j : Json) (location : String) : Except Failure Output × List Warning :=
  (((outputWith cfg node j location).run.run {}).1,
    ((outputWith cfg node j location).run.run {}).2.warnings)

end Given

section Converter

variable (cfg : Setting) (j : Json)

theorem turn_with_node (d : Json) (baseUri : String) (t : Turn) :
    takeTurnWith cfg (node cfg) d baseUri t =
      definition cfg d baseUri t.name t.schema t.pointer :=
  rfl

theorem turns_with_node (d : Json) (baseUri : String) (ts : List Turn) :
    takeTurnsWith cfg (node cfg) d baseUri ts = takeTurns cfg d baseUri ts := by
  induction ts with
  | nil => rfl
  | cons t ts ih => rw [takeTurnsWith, takeTurns, ih, turn_with_node]

theorem call_with_node (call : Call) : call.runWith cfg (node cfg) = call.run cfg := by
  rw [call_turns_taken, Call.runWith]
  cases call.turns cfg with
  | ok ts => exact turns_with_node cfg _ _ ts
  | error e => rfl

theorem fragment_output_with_node (baseUri fragment : String) :
    fragmentOutputWith cfg (node cfg) j baseUri fragment = fragmentOutput cfg j baseUri fragment := by
  unfold fragmentOutputWith fragmentOutput
  dsimp only
  cases j.pointer? (fragmentPointer fragment) with
  | none => rfl
  | some schema =>
    dsimp only
    rw [turn_with_node]
    rfl

theorem document_output_with_node (baseUri : String) :
    (Call.document j baseUri).runWith cfg (node cfg) >>= (fun _ => registeredTypes baseUri) =
      documentOutput cfg j baseUri := by
  rw [call_with_node]
  rfl

theorem output_with_node (location : String) :
    outputWith cfg (node cfg) j location = output cfg j location := by
  rcases haddress : addressed cfg location with ⟨uri, fragment⟩
  have addressed := haddress
  unfold Convert.addressed at addressed
  unfold outputWith output
  dsimp only
  rw [haddress, addressed]
  match fragment with
  | none => exact document_output_with_node cfg j _
  | some [] => exact document_output_with_node cfg j _
  | some (c :: rest) => exact fragment_output_with_node cfg j _ _

/-- By the converter that is built from the steps, a conversion is what it is. -/
theorem convert_with_node (location : String) :
    convertWith cfg (node cfg) j location = convert cfg j location := by
  rw [convertWith, output_with_node]
  rfl

end Converter

/-- Whether the schema of a turn is converted as a record from the start. -/
def Turn.isRecord (t : Turn) : Bool :=
  match t.schema with
  | .obj o => isRecordSchema o
  | _ => false

/-- The record that is under construction while the fields of a turn's schema are converted. -/
def Turn.frame? (cfg : Setting) (t : Turn) : Option Frame :=
  match t.schema with
  | .obj o => recordFrame? (t.typeName cfg).1 (t.typeName cfg).2 o
  | _ => none

/-- The nodes inside the schema of a turn. -/
def Turn.inner (cfg : Setting) (call : Call) (t : Turn) : List Spot :=
  match t.schema with
  | .obj o => recordSpots (t.spot cfg call).scope (t.typeName cfg).1 (t.typeName cfg).2 o
  | _ => []

namespace Lockstep

variable {cfg : Setting} {L : Lockstep cfg} {f g : NodeConverter} {call : Call} {t : Turn}

/-- A comparison holds of a turn if it holds of the conversion of its schema, or of those of the nodes
inside if the schema is converted as a record. -/
theorem turn (hnode : t.isRecord = false → L.nodes [] [] f g (t.spot cfg call))
    (hrecord : t.isRecord = true → ∀ q ∈ t.inner cfg call,
      L.nodes (t.frame? cfg).toList (t.frame? cfg).toList f g q) :
    L.same [] [] (takeTurnWith cfg f call.subject call.baseUri t)
      (takeTurnWith cfg g call.subject call.baseUri t) := by
  have type : L.same [] [] (definitionTypeWith f t.schema (t.spot cfg call).scope)
      (definitionTypeWith g t.schema (t.spot cfg call).scope) := by
    unfold definitionTypeWith
    split
    · next o ho =>
      simp only [Turn.isRecord, Turn.inner, Turn.frame?, ho] at hnode hrecord
      split
      · next hr =>
        have spots := hrecord hr
        rw [← List.append_nil (Option.toList _)] at spots
        exact L.bind (object_record (fun _ _ => rfl) spots) fun r => pure _
      · next hr =>
        exact apart (hnode (Bool.eq_false_of_not_eq_true hr))
    · next ho =>
      refine apart (hnode ?_)
      unfold Turn.isRecord
      split
      · next o h => exact absurd h (ho o)
      · rfl
  unfold takeTurnWith
  refine L.bind (L.neutral (neutral_is_imported _)) fun imported => ?_
  split
  · exact pure _
  · exact L.bind type fun r => L.neutral (neutral_keep_definition _ _ _ _ _ _ _)

theorem turns (d : Json) (baseUri : String) {ts : List Turn}
    (h : ∀ t ∈ ts, L.same [] [] (takeTurnWith cfg f d baseUri t) (takeTurnWith cfg g d baseUri t)) :
    L.same [] [] (takeTurnsWith cfg f d baseUri ts) (takeTurnsWith cfg g d baseUri ts) := by
  induction ts with
  | nil => exact pure _
  | cons t ts ih =>
    rw [List.forall_mem_cons] at h
    rw [takeTurnsWith, takeTurnsWith]
    exact L.bind h.1 fun _ => ih h.2

end Lockstep

section Congruence

variable {cfg : Setting} {f g : NodeConverter} {j : Json} {location : String}

theorem run_bind_congr {α β : Type} {x y : Run α} {k : α → Run β} {s : State}
    (h : y.run.run s = x.run.run s) : (y >>= k).run.run s = (x >>= k).run.run s := by
  rw [Run.run_bind, Run.run_bind, h]

/-- A comparison under which computations do the same from the start shows that two conversions do, if
it holds of all turns. -/
theorem convert_with_congr (L : Lockstep cfg)
    (hsame : ∀ {α : Type} {x y : Run α}, L.same [] [] x y → y.run.run {} = x.run.run {})
    (h : ∀ call, conversionCall? cfg j location = some call → ∀ t, call.Takes cfg t →
      L.same [] [] (takeTurnWith cfg f call.subject call.baseUri t)
        (takeTurnWith cfg g call.subject call.baseUri t)) :
    convertWith cfg g j location = convertWith cfg f j location := by
  have document : ∀ baseUri, conversionCall? cfg j location = some (.document j baseUri) →
      ((Call.document j baseUri).runWith cfg g >>= fun _ => registeredTypes baseUri).run.run {} =
        ((Call.document j baseUri).runWith cfg f >>= fun _ => registeredTypes baseUri).run.run {} := by
    intro baseUri hcall
    refine run_bind_congr ?_
    unfold Call.runWith
    split
    · next ts hts => exact hsame (L.turns _ _ fun t ht => h _ hcall t ⟨ts, hts, ht⟩)
    · rfl
  have fragment : ∀ baseUri fragment, (∀ schema, j.pointer? (fragmentPointer fragment) = some schema →
      conversionCall? cfg j location = some (fragmentCall cfg j baseUri fragment schema)) →
      (fragmentOutputWith cfg g j baseUri fragment).run.run {} =
        (fragmentOutputWith cfg f j baseUri fragment).run.run {} := by
    intro baseUri fragment hcall
    unfold fragmentOutputWith
    split
    · rfl
    · next schema hschema =>
      refine run_bind_congr (hsame (h _ (hcall schema hschema) _ ?_))
      exact ⟨_, rfl, List.mem_singleton_self _⟩
  have output : (outputWith cfg g j location).run.run {} =
      (outputWith cfg f j location).run.run {} := by
    rcases haddress : addressed cfg location with ⟨uri, part⟩
    unfold conversionCall? at document fragment
    unfold outputWith
    rw [haddress] at document fragment ⊢
    match part with
    | none => exact document _ rfl
    | some [] => exact document _ rfl
    | some (c :: rest) =>
      refine fragment _ _ fun schema hschema => ?_
      dsimp only
      rw [hschema, Option.map_some]
  rw [convertWith, convertWith, output]

end Congruence

end AvroDerive.Convert
