import AvroDerive.Proofs.ParallelRun
import AvroDerive.Proofs.Promise

/-! # Neutral computations

Most computations convert no node and fetch no document. Such a computation succeeds from every state,
only adds to what the state holds, and takes no notice of the records under construction or of earlier
warnings. -/
namespace AvroDerive

open AvroDerive.Convert (Extends Grows)

/-- The run from the first state goes to the second one in the same way inside any records and after
any warnings. -/
structure Run.Passes {α : Type} (x : Run α) (s : State) (a : α) (t : State) : Prop where
  logs : s.warnings <+: t.warnings
  grows : Grows s t
  documents : t.documents = s.documents
  unaware : ∀ frames, x.Yields { s with frames } a { t with frames }
  unwarned : ∀ before, ∃ after,
    x.Yields { s with warnings := before } a { t with warnings := after }

def Run.Neutral {α : Type} (x : Run α) : Prop := ∀ s, ∃ a t, x.Passes s a t

def Build.Neutral {α : Type} (x : Build α) : Prop := ∀ names, (x.run names).Neutral

namespace Run

variable {α β : Type} {x : Run α}

theorem Passes.yields {s t : State} {a : α} (h : x.Passes s a t) : x.Yields s a t := by
  have run : x.Yields s a { t with frames := s.frames } := h.unaware s.frames
  rwa [← h.grows.frames] at run

theorem Neutral.succeeds (h : x.Neutral) (s : State) : ∃ a t, x.Yields s a t := by
  obtain ⟨a, t, ht⟩ := h s
  exact ⟨a, t, ht.yields⟩

theorem Neutral.logs (h : x.Neutral) : x.Logs := by
  intro s
  obtain ⟨a, t, ht⟩ := h s
  rw [show x.run.run s = (.ok a, t) from ht.yields]
  exact ht.logs

theorem Neutral.pure (a : α) : (Pure.pure a : Run α).Neutral :=
  fun s => ⟨a, s, List.prefix_refl _, .refl s, rfl, fun _ => rfl, fun before => ⟨before, rfl⟩⟩

theorem Neutral.bind {f : α → Run β} (hx : x.Neutral) (hf : ∀ a, (f a).Neutral) :
    (x >>= f).Neutral := by
  intro s
  obtain ⟨a, t, ht⟩ := hx s
  obtain ⟨b, u, hu⟩ := hf a t
  refine ⟨b, u, ht.logs.trans hu.logs, ht.grows.trans hu.grows, hu.documents.trans ht.documents,
    fun frames => yields_bind.mpr ⟨a, _, ht.unaware frames, hu.unaware frames⟩, fun before => ?_⟩
  obtain ⟨between, first⟩ := ht.unwarned before
  obtain ⟨after, second⟩ := hu.unwarned between
  exact ⟨after, yields_bind.mpr ⟨a, _, first, second⟩⟩

/-- An update that has nothing to do with records, documents or warnings is neutral. -/
theorem neutral_modify {g : State → State} (hlogs : ∀ s, s.warnings <+: (g s).warnings)
    (hextends : ∀ s, Extends s (g s)) (hdocuments : ∀ s, (g s).documents = s.documents)
    (hframes : ∀ s frames, g { s with frames } = { g s with frames })
    (hwarnings : ∀ s before, ∃ after,
      g { s with warnings := before } = { g s with warnings := after }) :
    (modify g : Run PUnit).Neutral := by
  intro s
  have frames : (g s).frames = s.frames := (congrArg State.frames (hframes s s.frames) :)
  refine ⟨⟨⟩, g s, hlogs s, ⟨hextends s, frames⟩, hdocuments s,
    fun other => yields_modify.mpr (hframes s other).symm, fun before => ?_⟩
  obtain ⟨after, h⟩ := hwarnings s before
  exact ⟨after, yields_modify.mpr h.symm⟩

theorem neutral_warn_all (ws : List Warning) : (warnAll ws).Neutral :=
  neutral_modify (fun _ => List.prefix_append _ _)
    (fun _ => ⟨List.prefix_refl _, List.suffix_refl _⟩) (fun _ => rfl) (fun _ _ => rfl)
    fun _ _ => ⟨_, rfl⟩

theorem neutral_warn (w : Warning) : (warn w).Neutral := neutral_warn_all [w]

/-- What a reference stands for is remembered before what it stood for earlier. -/
theorem neutral_import (key : String) (i : Option Imported) :
    (modify fun s => { s with imports := (key, i) :: s.imports } : Run PUnit).Neutral :=
  neutral_modify (fun _ => List.prefix_refl _)
    (fun _ => ⟨List.prefix_refl _, List.suffix_cons _ _⟩) (fun _ => rfl) (fun _ _ => rfl)
    fun _ _ => ⟨_, rfl⟩

theorem neutral_remember (key : String) (i : Imported) : (remember key i).Neutral :=
  neutral_import key (some i)

theorem neutral_forget (key : String) : (forget key).Neutral := neutral_import key none

/-- What follows may depend on the state, but for the records under construction and the warnings. -/
theorem Neutral.get {f : State → Run α} (h : ∀ s, (f s).Neutral)
    (hframes : ∀ s frames, f { s with frames } = f s)
    (hwarnings : ∀ s before, f { s with warnings := before } = f s) :
    (MonadState.get >>= f : Run α).Neutral := by
  intro s
  obtain ⟨a, t, ht⟩ := h s s
  refine ⟨a, t, ht.logs, ht.grows, ht.documents, fun frames => ?_, fun before => ?_⟩
  · have run := ht.unaware frames
    rw [← hframes s frames] at run
    exact yields_bind.mpr ⟨_, _, yields_get.mpr ⟨rfl, rfl⟩, run⟩
  · obtain ⟨after, run⟩ := ht.unwarned before
    rw [← hwarnings s before] at run
    exact ⟨after, yields_bind.mpr ⟨_, _, yields_get.mpr ⟨rfl, rfl⟩, run⟩⟩

theorem neutral_imported (key : String) : (imported? key).Neutral :=
  .get (fun _ => .pure _) (fun _ _ => rfl) fun _ _ => rfl

theorem neutral_register (t : AvroType) (names : List String) : (register t names).Neutral :=
  fun s => ⟨(Registry.register s.registry t names).1,
    { s with registry := (Registry.register s.registry t names).2 }, List.prefix_refl _,
    ⟨⟨Convert.register_extends _ _, List.suffix_refl _⟩, rfl⟩, rfl, fun _ => rfl,
    fun before => ⟨before, rfl⟩⟩

end Run

namespace Build

variable {α β : Type} {x : Build α}

theorem Neutral.logs (h : x.Neutral) : x.Logs := fun names => (h names).logs

theorem Neutral.pure (a : α) : (Pure.pure a : Build α).Neutral := fun names => .pure (a, names)

theorem Neutral.bind {f : α → Build β} (hx : x.Neutral) (hf : ∀ a, (f a).Neutral) :
    (x >>= f).Neutral := by
  intro names
  rw [StateT.run_bind]
  exact (hx names).bind fun r => hf r.1 r.2

theorem Neutral.lift {y : Run α} (h : y.Neutral) : (liftM y : Build α).Neutral :=
  fun names => Run.Neutral.bind (f := fun a => Pure.pure (a, names)) h fun _ => .pure _

/-- Gathering names touches nothing else. -/
theorem Neutral.gather (g : List String → List String) : (modify g : Build PUnit).Neutral :=
  fun names => .pure (PUnit.unit, g names)

theorem Neutral.get {f : State → Build α} (h : ∀ s, (f s).Neutral)
    (hframes : ∀ s frames, f { s with frames } = f s)
    (hwarnings : ∀ s before, f { s with warnings := before } = f s) :
    (getThe State >>= f : Build α).Neutral :=
  fun names => Run.Neutral.get (f := fun s => (f s).run names) (fun s => h s names)
    (fun s frames => congrArg (StateT.run · names) (hframes s frames))
    fun s before => congrArg (StateT.run · names) (hwarnings s before)

end Build

namespace Convert

open AvroType Json Schema

theorem neutral_primitive (scope : Scope) (format : Option String) (values : Option (List Json))
    (type : Json) : (primitive scope format values type).Neutral :=
  .bind (.gather _) fun _ => .pure _

theorem neutral_reuse_imported (i : Imported) : (reuseImported i).Neutral := by
  cases i with
  | named name => exact .bind (.gather _) fun _ => .pure _
  | inline t => exact .pure t

theorem neutral_settle (key reference expected : String) (scope : Scope) (t : Option AvroType)
    (names : List String) : (settle key reference expected scope t names).Neutral := by
  have depend : ∀ u : AvroType, Build.Neutral (do Build.dependAll names; return u) :=
    fun u => .bind (.gather _) fun _ => .pure u
  unfold settle
  split
  · split
    · split
      · refine .bind (.lift (Run.neutral_register _ _)) fun name => ?_
        refine .bind (.lift (Run.neutral_remember _ _)) fun _ => ?_
        exact .bind (.gather _) fun _ => .pure _
      · exact .bind (.lift (Run.neutral_forget _)) fun _ => depend _
    · split
      · exact .bind (.lift (Run.neutral_remember _ _)) fun _ => depend _
      · exact .bind (.lift (Run.neutral_remember _ _)) fun _ => depend _
  · refine .bind (.lift (Run.neutral_forget _)) fun _ => ?_
    exact .bind (.lift (Run.neutral_warn _)) fun _ => .pure _

theorem neutral_reuse_registered (t : AvroType) : (reuseRegistered t).Neutral := by
  unfold reuseRegistered
  split
  · refine .get (fun s => ?_) (fun _ _ => rfl) fun _ _ => rfl
    split
    · exact .bind (.gather _) fun _ => .pure _
    · exact .pure _
  · exact .pure _

theorem neutral_is_imported (key : Option String) : (isImported key).Neutral := by
  unfold isImported
  split
  · refine .bind (Run.neutral_imported _) fun i => ?_
    split
    · exact .pure _
    · exact .pure _
  · exact .pure _

theorem neutral_register_definition (key : Option String) (schema : Json) (name ns : String)
    (t : AvroType) (names : List String) :
    (registerDefinition key schema name ns t names).Neutral := by
  unfold registerDefinition
  refine .bind (Run.neutral_register _ _) fun registered => ?_
  split
  · split
    · exact .bind (Run.neutral_remember _ _) fun _ => .pure _
    · exact .pure _
  · exact .pure _

theorem neutral_keep_definition (key : Option String) (schemaName : String) (schema : Json)
    (name ns : String) (t : Option AvroType) (names : List String) :
    (keepDefinition key schemaName schema name ns t names).Neutral := by
  have registered : ∀ t, Run.Neutral (do
      return some (← registerDefinition key schema name ns t names)) :=
    fun t => .bind (neutral_register_definition _ _ _ _ _ _) fun _ => .pure _
  unfold keepDefinition
  split
  · exact .bind (Run.neutral_warn _) fun _ => .pure _
  · split
    · exact registered _
    · refine .get (fun s => ?_) (fun _ _ => rfl) fun _ _ => rfl
      split
      · split
        · exact .bind (Run.neutral_remember _ _) fun _ => .pure _
        · exact .pure _
      · exact registered _

theorem neutral_ordered_types : orderedTypes.Neutral :=
  .get (fun _ => .bind (Run.neutral_warn_all _) fun _ => .pure _) (fun _ _ => rfl) fun _ _ => rfl

end Convert

end AvroDerive
