import AvroDerive.Proofs.LockstepNode

/-! # Runs under a wider limit

Two computations are run from the same state, and the second may go deeper. Unless the first gives up
a node for its depth, the second does exactly the same, whether that succeeds or fails. -/
namespace AvroDerive.Convert

open AvroType Json Schema

/-- Where the first computation gives up no node for its depth, the second does the same. -/
structure Agrees {α : Type} (x y : Run α) : Prop where
  logs : x.Logs
  same : ∀ s, (x.run.run s).2.Shallow → y.run.run s = x.run.run s

/-- As `Agrees`, whatever names were gathered before. -/
def BuildsAgree {α : Type} (x y : Build α) : Prop := ∀ names, Agrees (x.run names) (y.run names)

/-- The converters agree on every node at every scope. -/
def NodesAgree (node node' : NodeConverter) : Prop :=
  ∀ schema scope, BuildsAgree (node schema scope) (node' schema scope)

section Agrees

variable {α β : Type}

theorem Agrees.refl {x : Run α} (h : x.Logs) : Agrees x x := ⟨h, fun _ _ => rfl⟩

theorem Agrees.pure (a : α) : Agrees (pure a) (pure a) := .refl (.pure a)

theorem Agrees.bind {x y : Run α} {f g : α → Run β} (hx : Agrees x y)
    (hf : ∀ a, Agrees (f a) (g a)) : Agrees (x >>= f) (y >>= g) where
  logs := hx.logs.bind fun _ a _ _ => (hf a).logs
  same s hs := by
    rw [Run.run_bind] at hs ⊢
    rw [Run.run_bind]
    rcases h : x.run.run s with ⟨r, t⟩
    rw [h] at hs
    have first : y.run.run s = (r, t) := by
      rw [← h]
      apply hx.same
      rw [h]
      cases r with
      | error e => exact hs
      | ok a => exact shallow_before ((hf a).logs t) hs
    rw [first]
    cases r with
    | error e => rfl
    | ok a => exact (hf a).same t hs

theorem Agrees.within {x y : Run α} (h : Agrees x y) (f : Frame) :
    Agrees (Run.within f x) (Run.within f y) where
  logs s := h.logs { s with frames := f :: s.frames }
  same s hs := by
    have inner := h.same { s with frames := f :: s.frames } hs
    simp only [ExceptT.run, StateT.run] at inner
    simp only [Run.within, ExceptT.run, StateT.run, inner]

theorem Agrees.apart {x y : Build α} (h : BuildsAgree x y) :
    Agrees (Build.apart x) (Build.apart y) := h []

theorem Agrees.of_neutral {x : Run α} (h : x.Neutral) : Agrees x x := .refl h.logs

/-- A node that is given up agrees with anything. -/
theorem too_deep_agrees (cfg : Setting) (scope : Scope) (y : Build (Option AvroType)) :
    BuildsAgree (tooDeep cfg scope) y := by
  intro names
  refine ⟨Build.Logs.bind (.lift (Run.logs_warn _)) (fun _ => .pure _) names, fun s hs => ?_⟩
  refine absurd ?_ (hs cfg.options.maxDepth scope.record)
  exact List.mem_append_right s.warnings (List.mem_singleton_self _)

end Agrees

section Step

variable {cfg : Setting}

theorem fail_agrees {α : Type} (f : Failure) : Agrees (Run.fail f : Run α) (Run.fail f) :=
  .refl fun _ => List.prefix_refl _

theorem fetch_document_agrees (url : Url) : Agrees (fetchDocument cfg url) (fetchDocument cfg url) := by
  refine .refl fun s => ?_
  rw [fetch_document_run]
  cases s.documents.lookup url.text with
  | some d => exact List.prefix_refl _
  | none =>
    cases download cfg url with
    | error e => exact List.prefix_refl _
    | ok d => exact List.prefix_refl _

theorem locate_agrees (reference : String) (scope : Scope) :
    Agrees (locate cfg reference scope) (locate cfg reference scope) := by
  unfold locate
  split
  · split
    · exact .pure _
    · exact fail_agrees _
  · split
    · exact fail_agrees _
    · refine .bind (fetch_document_agrees _) fun document => ?_
      split
      · exact .pure _
      · exact fail_agrees _

/-- The operations of a conversion keep agreement, whatever records are under construction. -/
def agreement (cfg : Setting) : Lockstep cfg where
  same _ _ _ x y := Agrees x y
  looks _ _ := True
  leads _ _ _ := True
  neutral h := .of_neutral h
  bind hx hf := hx.bind hf
  within f h := h.within f
  find _ _ h := .bind (.refl Run.logs_get) fun s => h s s rfl
  locate _ h := .bind (locate_agrees _ _) fun located => h located trivial

variable {node node' : NodeConverter} (h : NodesAgree node node') (scope : Scope)

include h

theorem object_record_agrees (cfg : Setting) (name ns : String) (o : Object) :
    Agrees (objectRecord node name ns o scope) (objectRecord node' name ns o scope) := by
  have same : (agreement cfg).same [] [] (objectRecord node name ns o scope)
      (objectRecord node' name ns o scope) :=
    Lockstep.object_record (fun _ _ => rfl) fun q _ => h q.schema q.scope
  exact same

theorem step_agrees (schema : Json) :
    BuildsAgree (step cfg node schema scope) (step cfg node' schema scope) := by
  have same : (agreement cfg).nodes [] [] (step cfg node) (step cfg node') ⟨schema, scope⟩ :=
    Lockstep.step (fun _ _ => rfl) (fun q _ => h q.schema q.scope)
      fun _ _ => ⟨trivial, fun _ _ => h _ _⟩
  exact same

end Step

end AvroDerive.Convert
