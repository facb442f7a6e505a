import AvroDerive.Proofs.LockstepNode

/-! # Conversions only add to the state

A conversion, whether it succeeds or fails, keeps what is registered and what references stand for, and
ends with the records under construction that it began with. -/
namespace AvroDerive.Convert

open AvroType Json Schema

/-- However the computation ends, it has only added to the state and has ended the records it began. -/
def Growing {α : Type} (x : Run α) : Prop := ∀ s, Grows s (x.run.run s).2

section Growing

variable {cfg : Setting} {α β : Type}

theorem Growing.bind {x : Run α} {f : α → Run β} (hx : Growing x) (hf : ∀ a, Growing (f a)) :
    Growing (x >>= f) := by
  intro s
  have first := hx s
  rw [Run.run_bind]
  rcases h : x.run.run s with ⟨r, t⟩
  rw [h] at first
  cases r with
  | ok a => exact first.trans (hf a t)
  | error e => exact first

theorem Growing.of_neutral {x : Run α} (h : x.Neutral) : Growing x := by
  intro s
  obtain ⟨a, t, ht⟩ := h s
  rw [show x.run.run s = (.ok a, t) from ht.yields]
  exact ht.grows

/-- A record that is begun is ended. -/
theorem Growing.within {x : Run α} (h : Growing x) (f : Frame) : Growing (Run.within f x) := by
  intro s
  have inner := h { s with frames := f :: s.frames }
  exact ⟨⟨inner.registry, inner.imports⟩, congrArg List.tail inner.frames⟩

theorem fail_growing (f : Failure) : Growing (Run.fail f : Run α) := fun s => .refl s

theorem fetch_document_growing (url : Url) : Growing (fetchDocument cfg url) := by
  intro s
  rw [fetch_document_run]
  cases s.documents.lookup url.text with
  | some d => exact .refl s
  | none =>
    cases download cfg url with
    | ok d => exact ⟨⟨List.prefix_refl _, List.suffix_refl _⟩, rfl⟩
    | error e => exact .refl s

theorem locate_growing (reference : String) (scope : Scope) : Growing (locate cfg reference scope) := by
  unfold locate
  split
  · split
    · exact .of_neutral (.pure _)
    · exact fail_growing _
  · split
    · exact fail_growing _
    · refine .bind (fetch_document_growing _) fun document => ?_
      split
      · exact .of_neutral (.pure _)
      · exact fail_growing _

/-- Of a computation compared with itself, that it only adds to the state. -/
def growth (cfg : Setting) : Lockstep cfg where
  same _ _ _ x _ := Growing x
  looks _ _ := True
  leads _ _ _ := True
  neutral := .of_neutral
  bind := .bind
  within f h := h.within f
  find _ _ h s := h s s rfl s
  locate _ h := .bind (locate_growing _ _) fun located => h located trivial

theorem node_within_growing (levels : Nat) (schema : Json) (scope : Scope) (names : List String) :
    Growing ((nodeWithin cfg levels schema scope).run names) := by
  have deep : ∀ scope names, Growing ((tooDeep cfg scope).run names) := fun _ names =>
    .of_neutral (Build.Neutral.bind (.lift (Run.neutral_warn _)) (fun _ => .pure _) names)
  induction levels generalizing schema scope names with
  | zero => exact deep scope names
  | succ levels ih =>
    rw [nodeWithin]
    dsimp only
    split
    · exact deep scope names
    · have grown : (growth cfg).nodes [] [] (step cfg (nodeWithin cfg levels))
          (step cfg (nodeWithin cfg levels)) ⟨schema, scope⟩ :=
        Lockstep.step (fun _ _ => rfl) (fun q _ => ih q.schema q.scope)
          fun _ _ => ⟨trivial, fun _ _ => ih _ _⟩
      exact grown names

theorem object_record_growing (name ns : String) (o : Object) (scope : Scope) :
    Growing (objectRecord (node cfg) name ns o scope) := by
  have grown : (growth cfg).same [] [] (objectRecord (node cfg) name ns o scope)
      (objectRecord (node cfg) name ns o scope) :=
    Lockstep.object_record (fun _ _ => rfl) fun q _ => node_within_growing _ q.schema q.scope
  exact grown

end Growing

end AvroDerive.Convert
