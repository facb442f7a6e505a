import AvroDerive.Proofs.Outcome

/-! # Parallel runs

Two computations are compared step by step. Begun in related states the first takes the second along:
it succeeds with a related value, unless one of its nodes is given up for its depth. Of a single
computation it is said in the same way what it succeeds with. -/
namespace AvroDerive

/-- No node was given up for its depth. -/
def State.Shallow (s : State) : Prop := ∀ limit record, .tooDeep limit record ∉ s.warnings

/-- Warnings are only added, also if the computation fails. -/
def Run.Logs {α : Type} (x : Run α) : Prop := ∀ s, s.warnings <+: (x.run.run s).2.warnings

def Build.Logs {α : Type} (x : Build α) : Prop := ∀ names, Run.Logs (x.run names)

section Logs

variable {α β : Type}

theorem shallow_before {s s' : State} (h : s.warnings <+: s'.warnings) (hs : s'.Shallow) :
    s.Shallow :=
  fun limit record hm => hs limit record (h.subset hm)

theorem shallow_of_silent {s : State} (h : s.warnings.isEmpty = true) : s.Shallow := by
  rw [List.isEmpty_iff] at h
  simp [State.Shallow, h]

theorem Run.Logs.pure (a : α) : (pure a : Run α).Logs := fun _ => List.prefix_refl _

theorem Run.Logs.bind {x : Run α} {f : α → Run β} (hx : x.Logs)
    (hf : ∀ s a t, x.Yields s a t → (f a).Logs) : (x >>= f).Logs := by
  intro s
  have first := hx s
  rw [Run.run_bind]
  rcases h : x.run.run s with ⟨r, t⟩
  rw [h] at first
  cases r with
  | ok a => exact first.trans (hf s a t h t)
  | error e => exact first

theorem Run.logs_get : (get : Run State).Logs := fun _ => List.prefix_refl _

theorem Run.logs_warn_all (ws : List Warning) : (Run.warnAll ws).Logs :=
  fun _ => List.prefix_append _ _

theorem Run.logs_warn (w : Warning) : (Run.warn w).Logs := fun _ => List.prefix_append _ _

theorem Run.logs_imported (key : String) : (Run.imported? key).Logs :=
  fun _ => List.prefix_refl _

theorem Run.logs_remember (key : String) (i : Imported) : (Run.remember key i).Logs :=
  fun _ => List.prefix_refl _

theorem Run.logs_register (t : AvroType) (names : List String) : (Run.register t names).Logs :=
  fun _ => List.prefix_refl _

theorem Build.Logs.pure (a : α) : (pure a : Build α).Logs := fun _ => Run.Logs.pure _

theorem Build.Logs.bind {x : Build α} {f : α → Build β} (hx : x.Logs) (hf : ∀ a, (f a).Logs) :
    (x >>= f).Logs := by
  intro names
  rw [StateT.run_bind]
  exact .bind (hx names) fun _ p _ _ => hf p.1 p.2

theorem Build.Logs.lift {x : Run α} (hx : x.Logs) : (liftM x : Build α).Logs :=
  fun names => Run.Logs.bind hx fun _ a _ _ => Run.Logs.pure (a, names)

theorem Build.logs_modify (g : List String → List String) : (modify g : Build PUnit).Logs :=
  fun _ _ => List.prefix_refl _

end Logs

/-- From a state with the first condition the computation succeeds with what satisfies the second,
unless one of its nodes is given up for its depth. -/
structure RunsTo {α : Type} (x : Run α) (pre : State → Prop) (post : α → State → Prop) : Prop where
  logs : x.Logs
  ends : ∀ s, pre s → (x.run.run s).2.Shallow → ∃ a t, x.Yields s a t ∧ post a t

section RunsTo

variable {α β : Type} {x : Run α} {pre : State → Prop}

theorem RunsTo.pure {a : α} {post : α → State → Prop} (h : ∀ s, pre s → post a s) :
    RunsTo (pure a) pre post where
  logs := .pure a
  ends s hs _ := ⟨a, s, Run.yields_pure.mpr ⟨rfl, rfl⟩, h s hs⟩

theorem RunsTo.imp {post post' : α → State → Prop} (h : RunsTo x pre post)
    (hp : ∀ a t, post a t → post' a t) : RunsTo x pre post' where
  logs := h.logs
  ends s hs hshallow := by
    obtain ⟨a, t, hy, hpost⟩ := h.ends s hs hshallow
    exact ⟨a, t, hy, hp a t hpost⟩

theorem RunsTo.bind {m : α → State → Prop} {f : α → Run β} {post : β → State → Prop}
    (hx : RunsTo x pre m) (hlogs : ∀ s a t, x.Yields s a t → (f a).Logs)
    (hf : ∀ a, (∃ t, m a t) → RunsTo (f a) (m a) post) : RunsTo (x >>= f) pre post where
  logs := .bind hx.logs hlogs
  ends s hs hshallow := by
    have first : (x.run.run s).2.Shallow := by
      refine shallow_before ?_ hshallow
      rw [Run.run_bind]
      rcases h : x.run.run s with ⟨r, t⟩
      cases r with
      | ok a => exact hlogs s a t h t
      | error e => exact List.prefix_refl _
    obtain ⟨a, t, hxt, hm⟩ := hx.ends s hs first
    rw [Run.run_bind, show x.run.run s = (.ok a, t) from hxt] at hshallow
    obtain ⟨b, u, hb, hpost⟩ := (hf a ⟨t, hm⟩).ends t hm hshallow
    exact ⟨b, u, Run.yields_bind.mpr ⟨a, t, hxt, hb⟩, hpost⟩

theorem RunsTo.register {t : AvroType} {names : List String} {post : String → State → Prop}
    (h : ∀ s, pre s → post (t.qualifiedName?.getD "")
      { s with registry := (Registry.register s.registry t names).2 }) :
    RunsTo (Run.register t names) pre post where
  logs := Run.logs_register t names
  ends s hs _ := ⟨_, _, Run.yields_register.mpr ⟨rfl, rfl⟩, h s hs⟩

theorem RunsTo.remember {key : String} {i : Imported} {post : Unit → State → Prop}
    (h : ∀ s, pre s → post () { s with imports := Imports.insert s.imports key i }) :
    RunsTo (Run.remember key i) pre post where
  logs := Run.logs_remember key i
  ends s hs _ := ⟨(), _, Run.yields_remember.mpr rfl, h s hs⟩

theorem RunsTo.imported {key : String} {post : Option Imported → State → Prop}
    (h : ∀ s, pre s → post (Imports.get? s.imports key) s) :
    RunsTo (Run.imported? key) pre post where
  logs := Run.logs_imported key
  ends s hs _ := ⟨_, s, Run.yields_imported.mpr ⟨rfl, rfl⟩, h s hs⟩

theorem RunsTo.warn {w : Warning} {post : Unit → State → Prop}
    (h : ∀ s, pre s → post () { s with warnings := s.warnings ++ [w] }) :
    RunsTo (Run.warn w) pre post where
  logs := Run.logs_warn w
  ends s hs _ := ⟨(), _, Run.yields_warn.mpr rfl, h s hs⟩

theorem RunsTo.get {post : State → State → Prop} (h : ∀ s, pre s → post s s) :
    RunsTo (get : Run State) pre post where
  logs := Run.logs_get
  ends s hs _ := ⟨s, s, Run.yields_get.mpr ⟨rfl, rfl⟩, h s hs⟩

theorem RunsTo.of_pre {pre' : State → Prop} {post : α → State → Prop} (h : RunsTo x pre' post)
    (hp : ∀ s, pre s → pre' s) : RunsTo x pre post where
  logs := h.logs
  ends s hs := h.ends s (hp s hs)

end RunsTo

/-- As `RunsTo`, whatever names were gathered before. -/
def BuildsTo {α : Type} (x : Build α) (pre : State → Prop) (post : α → State → Prop) : Prop :=
  ∀ names, RunsTo (x.run names) pre fun a t => post a.1 t

section BuildsTo

variable {α β : Type} {x : Build α} {pre : State → Prop}

theorem BuildsTo.logs {post : α → State → Prop} (h : BuildsTo x pre post) : x.Logs :=
  fun names => (h names).logs

theorem BuildsTo.pure {a : α} {post : α → State → Prop} (h : ∀ s, pre s → post a s) :
    BuildsTo (pure a) pre post :=
  fun _ => .pure h

theorem BuildsTo.bind {m : α → State → Prop} {f : α → Build β} {post : β → State → Prop}
    (hx : BuildsTo x pre m) (hlogs : ∀ names s a names' t, x.Yields names s a names' t → (f a).Logs)
    (hf : ∀ a, (∃ t, m a t) → BuildsTo (f a) (m a) post) : BuildsTo (x >>= f) pre post := by
  intro names
  rw [StateT.run_bind]
  have second : ∀ a : α × List String, (∃ t, m a.1 t) →
      RunsTo ((f a.1).run a.2) (m a.1) fun b t => post b.1 t := fun a ha => hf a.1 ha a.2
  exact (hx names).bind (fun s a t hy => hlogs names s a.1 a.2 t hy a.2) second

theorem BuildsTo.lift {x : Run α} {post : α → State → Prop} (h : RunsTo x pre post) :
    BuildsTo (liftM x) pre post :=
  fun _ => h.bind (fun _ _ _ _ => .pure _) fun _ _ => .pure fun _ hs => hs

theorem BuildsTo.imp {post post' : α → State → Prop} (h : BuildsTo x pre post)
    (hp : ∀ a t, post a t → post' a t) : BuildsTo x pre post' :=
  fun names => (h names).imp fun a t => hp a.1 t

theorem BuildsTo.of_pre {pre' : State → Prop} {post : α → State → Prop} (h : BuildsTo x pre' post)
    (hp : ∀ s, pre s → pre' s) : BuildsTo x pre post :=
  fun names => (h names).of_pre hp

theorem RunsTo.apart {post : α → State → Prop} (h : BuildsTo x pre post) :
    RunsTo (Build.apart x) pre fun a t => post a.1 t :=
  h []

/-- The names that are gathered do not count. -/
theorem BuildsTo.modify (g : List String → List String) :
    BuildsTo (modify g : Build PUnit) pre fun _ s => pre s :=
  fun names => ⟨Build.logs_modify g names, fun s hs _ => ⟨(⟨⟩, g names), s, rfl, hs⟩⟩

end BuildsTo

namespace Convert

/-- How the states of two runs are related, given the records that the second has under
construction. The nodes of exact runs are equally deep. -/
structure Comparison where
  related : Frames → State → State → Prop
  exact : Bool
  /-- The names that references to types may have after the first run. -/
  known : State → String → Prop
  /-- The documents that the first run may be in. -/
  reads : Json → Prop

/-- Whether a run that ends in the state counts. -/
def Comparison.Counts (c : Comparison) (s : State) : Prop := c.exact = true ∨ s.Shallow

/-- The first computation takes the second along. Of runs that may be given up it is known that they
only add warnings. -/
structure RunsAlike {α β : Type} (c : Comparison) (frames : Frames) (x : Run α) (y : Run β)
    (post : α → β → State → Prop) : Prop where
  logs : c.exact = false → x.Logs
  along : ∀ s s', c.related frames s s' → c.Counts (x.run.run s).2 → ∃ a b t t',
    x.Yields s a t ∧ y.Yields s' b t' ∧ c.related frames t t' ∧ post a b t

/-- As `RunsAlike`, whatever names were gathered before. -/
def BuildsAlike {α β : Type} (c : Comparison) (frames : Frames) (x : Build α) (y : Build β)
    (post : α → β → State → Prop) : Prop :=
  ∀ names names', RunsAlike c frames (x.run names) (y.run names') fun a b t => post a.1 b.1 t

theorem Comparison.counts_of_prefix {c : Comparison} {s s' : State}
    (h : c.exact = false → s.warnings <+: s'.warnings) (hs : c.Counts s') : c.Counts s := by
  cases he : c.exact with
  | true => exact Or.inl he
  | false => exact Or.inr (shallow_before (h he) (hs.resolve_left (by simp [he])))

section Runs

variable {α β γ δ : Type} {c : Comparison} {frames : Frames} {x : Run α} {y : Run β}

theorem RunsAlike.pure {a : α} {b : β} {post : α → β → State → Prop} (h : ∀ t, post a b t) :
    RunsAlike c frames (pure a) (pure b) post where
  logs _ := .pure a
  along s s' hr _ :=
    ⟨a, b, s, s', Run.yields_pure.mpr ⟨rfl, rfl⟩, Run.yields_pure.mpr ⟨rfl, rfl⟩, hr, h s⟩

theorem RunsAlike.imp {post post' : α → β → State → Prop} (h : RunsAlike c frames x y post)
    (hp : ∀ a b t, post a b t → post' a b t) : RunsAlike c frames x y post' where
  logs := h.logs
  along s s' hr hc := by
    obtain ⟨a, b, t, t', hx, hy, hr', hab⟩ := h.along s s' hr hc
    exact ⟨a, b, t, t', hx, hy, hr', hp a b t hab⟩

theorem RunsAlike.bind {m : α → β → Prop} {f : α → Run γ} {g : β → Run δ}
    {post : γ → δ → State → Prop} (hx : RunsAlike c frames x y fun a b _ => m a b)
    (hlogs : c.exact = false → ∀ s a t, x.Yields s a t → (f a).Logs)
    (hf : ∀ a b, m a b → RunsAlike c frames (f a) (g b) post) :
    RunsAlike c frames (x >>= f) (y >>= g) post where
  logs he := .bind (hx.logs he) (hlogs he)
  along s s' hr hc := by
    have first : c.Counts (x.run.run s).2 := by
      refine c.counts_of_prefix (fun he => ?_) hc
      rw [Run.run_bind]
      rcases h : x.run.run s with ⟨r, t⟩
      cases r with
      | ok a => exact hlogs he s a t h t
      | error e => exact List.prefix_refl _
    obtain ⟨a, b, t, t', hxt, hyt, hrt, hab⟩ := hx.along s s' hr first
    have second : c.Counts ((f a).run.run t).2 := by
      rw [Run.run_bind, show x.run.run s = (.ok a, t) from hxt] at hc
      exact hc
    obtain ⟨u, v, t₁, t₁', hu, hv, hr₁, hpost⟩ := (hf a b hab).along t t' hrt second
    exact ⟨u, v, t₁, t₁', Run.yields_bind.mpr ⟨a, t, hxt, hu⟩,
      Run.yields_bind.mpr ⟨b, t', hyt, hv⟩, hr₁, hpost⟩

/-- Values that are equal are passed on. -/
theorem RunsAlike.bind_same {y : Run α} {f : α → Run γ} {g : α → Run δ}
    {post : γ → δ → State → Prop} (hx : RunsAlike c frames x y fun a b _ => a = b)
    (hf : ∀ a, RunsAlike c frames (f a) (g a) post) :
    RunsAlike c frames (x >>= f) (y >>= g) post := by
  refine hx.bind (fun he _ a _ _ => (hf a).logs he) ?_
  rintro a _ rfl
  exact hf a

end Runs

section Builds

variable {α β γ δ : Type} {c : Comparison} {frames : Frames} {x : Build α} {y : Build β}

theorem BuildsAlike.logs {post : α → β → State → Prop} (h : BuildsAlike c frames x y post)
    (he : c.exact = false) : x.Logs :=
  fun names => (h names []).logs he

theorem BuildsAlike.pure {a : α} {b : β} {post : α → β → State → Prop} (h : ∀ t, post a b t) :
    BuildsAlike c frames (pure a) (pure b) post :=
  fun _ _ => .pure h

theorem BuildsAlike.imp {post post' : α → β → State → Prop} (h : BuildsAlike c frames x y post)
    (hp : ∀ a b t, post a b t → post' a b t) : BuildsAlike c frames x y post' :=
  fun names names' => (h names names').imp fun a b t => hp a.1 b.1 t

theorem BuildsAlike.bind {m : α → β → Prop} {f : α → Build γ} {g : β → Build δ}
    {post : γ → δ → State → Prop} (hx : BuildsAlike c frames x y fun a b _ => m a b)
    (hlogs : c.exact = false → ∀ names s a names' t, x.Yields names s a names' t → (f a).Logs)
    (hf : ∀ a b, m a b → BuildsAlike c frames (f a) (g b) post) :
    BuildsAlike c frames (x >>= f) (y >>= g) post := by
  intro names names'
  rw [StateT.run_bind, StateT.run_bind]
  have second : ∀ a b : _ × List String, m a.1 b.1 → RunsAlike c frames ((f a.1).run a.2)
      ((g b.1).run b.2) fun a b t => post a.1 b.1 t :=
    fun a b hab => hf a.1 b.1 hab a.2 b.2
  exact (hx names names').bind (fun he s a t hy => hlogs he names s a.1 a.2 t hy a.2) second

theorem BuildsAlike.bind_same {y : Build α} {f : α → Build γ} {g : α → Build δ}
    {post : γ → δ → State → Prop} (hx : BuildsAlike c frames x y fun a b _ => a = b)
    (hf : ∀ a, BuildsAlike c frames (f a) (g a) post) :
    BuildsAlike c frames (x >>= f) (y >>= g) post := by
  refine hx.bind (fun he _ _ a _ _ _ => (hf a).logs he) ?_
  rintro a _ rfl
  exact hf a

theorem BuildsAlike.lift {x : Run α} {y : Run β} {post : α → β → State → Prop}
    (h : RunsAlike c frames x y post) : BuildsAlike c frames (liftM x) (liftM y) post := by
  intro names names'
  refine ⟨fun he => Build.Logs.lift (h.logs he) names, fun s s' hr hc => ?_⟩
  have first : c.Counts (x.run.run s).2 := by
    refine c.counts_of_prefix (fun _ => ?_) hc
    show _ <+: ((x >>= fun a => (Pure.pure (a, names) : Run (α × List String))).run.run s).2.warnings
    rw [Run.run_bind]
    rcases h : x.run.run s with ⟨r, t⟩
    cases r with
    | ok a => exact List.prefix_refl _
    | error e => exact List.prefix_refl _
  obtain ⟨a, b, t, t', hx, hy, hr', hab⟩ := h.along s s' hr first
  exact ⟨(a, names), (b, names'), t, t', Build.yields_lift.mpr ⟨hx, rfl⟩,
    Build.yields_lift.mpr ⟨hy, rfl⟩, hr', hab⟩

theorem RunsAlike.apart {post : α → β → State → Prop} (h : BuildsAlike c frames x y post) :
    RunsAlike c frames (Build.apart x) (Build.apart y) fun a b t => post a.1 b.1 t :=
  h [] []

/-- The names that are gathered apart may differ. -/
theorem RunsAlike.bind_apart {y : Build α} {f : α × List String → Run γ}
    {g : α × List String → Run δ} {post : γ → δ → State → Prop}
    (hx : BuildsAlike c frames x y fun a b _ => a = b)
    (hf : ∀ a names names', RunsAlike c frames (f (a, names)) (g (a, names')) post) :
    RunsAlike c frames (Build.apart x >>= f) (Build.apart y >>= g) post := by
  refine .bind (RunsAlike.apart hx) (fun he _ a _ _ => (hf a.1 a.2 []).logs he) ?_
  rintro ⟨a, names⟩ ⟨_, names'⟩ rfl
  exact hf a names names'

/-- The names that are gathered do not count. -/
theorem BuildsAlike.modify (g h : List String → List String) :
    BuildsAlike c frames (modify g : Build PUnit) (modify h) fun a b _ => a = b :=
  fun names names' => ⟨fun _ => Build.logs_modify g names, fun s s' hr _ =>
    ⟨(⟨⟩, g names), (⟨⟩, h names'), s, s', rfl, rfl, hr, rfl⟩⟩

/-- The first of two computations that run alike, from a state that is related to a given one. -/
theorem BuildsAlike.builds_to {α β : Type} {c : Comparison} {frames : Frames} {x : Build α}
    {y : Build β} {post : α → β → State → Prop} (h : BuildsAlike c frames x y post)
    (he : c.exact = false) (s' : State) : BuildsTo x (fun s => c.related frames s s') fun a t =>
      ∃ p t', (Build.apart y).Yields s' p t' ∧ c.related frames t t' ∧ post a p.1 t :=
  fun names => ⟨(h names []).logs he, fun s hr hshallow => by
    obtain ⟨a, b, t, t', hx, hy, hr', hp⟩ := (h names []).along s s' hr (Or.inr hshallow)
    exact ⟨a, t, hx, b, t', hy, hr', hp⟩⟩

end Builds

end Convert

end AvroDerive
