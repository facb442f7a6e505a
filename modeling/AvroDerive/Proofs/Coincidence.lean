import AvroDerive.Proofs.Descent

/-! # Runs that coincide

Two computations coincide if they do the same, whether they succeed or fail, although different records
are under construction around them. -/
namespace AvroDerive.Convert

open AvroType Json Schema

/-- From a state with the first records, the second computation does the same with the second ones. -/
structure CoincideAt (cfg : Setting) {α : Type} (x y : Run α) (gs : Frames) (s : State) : Prop where
  frames : (x.run.run s).2.frames = s.frames
  stocked : Stocked cfg (x.run.run s).2
  same : y.run.run { s with frames := gs } =
    ((x.run.run s).1, { (x.run.run s).2 with frames := gs })

def Coincide (cfg : Setting) (fs gs : Frames) {α : Type} (x y : Run α) : Prop :=
  ∀ s, s.frames = fs → Stocked cfg s → CoincideAt cfg x y gs s

section Coincide

variable {cfg : Setting} {fs gs : Frames} {α β : Type} {x y : Run α}

theorem Coincide.of_neutral (h : x.Neutral) : Coincide cfg fs gs x x := by
  intro s hs hd
  obtain ⟨a, t, ht⟩ := h s
  have run : x.run.run s = (.ok a, t) := ht.yields
  refine ⟨?_, ?_, ?_⟩
  · rw [run]
    exact ht.grows.frames
  · rw [run]
    exact fun e he => hd e (ht.documents ▸ he)
  · rw [run]
    exact ht.unaware gs

theorem Coincide.fail (e : Failure) : Coincide cfg fs gs (Run.fail e : Run α) (Run.fail e) :=
  fun _ _ hd => ⟨rfl, hd, rfl⟩

theorem Coincide.bind_seen {f g : α → Run β} (hx : Coincide cfg fs gs x y)
    (hf : ∀ a, (∃ s t, Stocked cfg s ∧ x.Yields s a t) → Coincide cfg fs gs (f a) (g a)) :
    Coincide cfg fs gs (x >>= f) (y >>= g) := by
  intro s hs hd
  obtain ⟨hframes, hstocked, hsame⟩ := hx s hs hd
  rcases hr : x.run.run s with ⟨r, t⟩
  rw [hr] at hframes hstocked hsame
  cases r with
  | error e =>
    have run : (x >>= f).run.run s = (.error e, t) := by rw [Run.run_bind, hr]
    refine ⟨?_, ?_, ?_⟩
    · rwa [run]
    · rwa [run]
    · rw [run, Run.run_bind, hsame]
  | ok a =>
    have run : (x >>= f).run.run s = (f a).run.run t := by rw [Run.run_bind, hr]
    obtain ⟨hframes', hstocked', hsame'⟩ := hf a ⟨s, t, hd, hr⟩ t (hframes.trans hs) hstocked
    refine ⟨?_, ?_, ?_⟩
    · rw [run]
      exact hframes'.trans hframes
    · rwa [run]
    · rw [run, Run.run_bind, hsame]
      exact hsame'

theorem Coincide.bind {f g : α → Run β} (hx : Coincide cfg fs gs x y)
    (hf : ∀ a, Coincide cfg fs gs (f a) (g a)) : Coincide cfg fs gs (x >>= f) (y >>= g) :=
  hx.bind_seen fun a _ => hf a

theorem run_within (f : Frame) (x : Run α) (s : State) : (Run.within f x).run.run s =
    ((x.run.run { s with frames := f :: s.frames }).1,
      { (x.run.run { s with frames := f :: s.frames }).2 with
        frames := (x.run.run { s with frames := f :: s.frames }).2.frames.tail }) :=
  rfl

theorem Coincide.within (f : Frame) (h : Coincide cfg (f :: fs) (f :: gs) x y) :
    Coincide cfg fs gs (Run.within f x) (Run.within f y) := by
  intro s hs hd
  obtain ⟨hframes, hstocked, hsame⟩ := h { s with frames := f :: s.frames } (congrArg _ hs) hd
  refine ⟨?_, hstocked, ?_⟩
  · rw [run_within]
    exact congrArg List.tail hframes
  · rw [run_within, run_within]
    show Prod.mk (y.run.run { s with frames := f :: gs }).1 _ = _
    rw [hsame]
    rfl

/-- Where the same record of a name is found, what depends on no other coincides. -/
theorem Coincide.find {f g : State → Run α} (name : String)
    (hfind : Frames.find? fs name = Frames.find? gs name)
    (h : ∀ s t, Frames.find? s.frames name = Frames.find? t.frames name →
      Coincide cfg fs gs (f s) (g t)) : Coincide cfg fs gs (get >>= f) (get >>= g) := by
  intro s hs hd
  obtain ⟨hframes, hstocked, hsame⟩ := h s { s with frames := gs } (by rw [hs]; exact hfind) s hs hd
  exact ⟨hframes, hstocked, hsame⟩

theorem fetch_document_coincides (url : Url) :
    Coincide cfg fs gs (fetchDocument cfg url) (fetchDocument cfg url) := by
  intro s hs hd
  have retains := fetch_document_retains cfg url s
  refine ⟨retains.frames, retains.stocked hd, ?_⟩
  rw [fetch_document_run, fetch_document_run]
  cases s.documents.lookup url.text with
  | some d => rfl
  | none =>
    cases download cfg url with
    | ok d => rfl
    | error e => rfl

theorem locate_coincides (reference : String) (scope : Scope) :
    Coincide cfg fs gs (locate cfg reference scope) (locate cfg reference scope) := by
  unfold locate
  split
  · split
    · exact .of_neutral (.pure _)
    · exact .fail _
  · split
    · exact .fail _
    · refine .bind (fetch_document_coincides _) fun document => ?_
      split
      · exact .of_neutral (.pure _)
      · exact .fail _

/-- A reference leads to the same place whatever records are under construction. -/
def coincidence (cfg : Setting) : Lockstep cfg where
  same fs gs _ x y := Coincide cfg fs gs x y
  looks _ _ := True
  leads reference scope located := LeadsTo cfg reference scope located
  neutral h := .of_neutral h
  bind hx hf := hx.bind hf
  within f h := h.within f
  find name hfind h := .find name hfind h
  locate _ h := (locate_coincides _ _).bind_seen fun located ⟨_, _, hd, hy⟩ =>
    h located (locate_leads hd hy)

/-- What coincides when no record is under construction is the same for a new converter. -/
theorem Coincide.run_new (h : Coincide cfg [] [] x y) : y.run.run {} = x.run.run {} := by
  obtain ⟨hframes, -, hsame⟩ := h {} rfl (by simp [Stocked])
  rcases hr : x.run.run {} with ⟨r, t⟩
  rw [hr] at hframes hsame
  obtain ⟨imports, registry, frames, documents, warnings⟩ := t
  obtain rfl : frames = [] := hframes
  exact hsame

end Coincide

end AvroDerive.Convert
