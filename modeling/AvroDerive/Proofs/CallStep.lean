import AvroDerive.Proofs.NeutralRun
import AvroDerive.Proofs.NodeStep

/-! # Calls go from step to step

A call takes its turns one after another, each begun with no import and no record under way. What
every step keeps holds after any calls, whether they succeed or fail. -/
namespace AvroDerive.Convert

open AvroType Json Schema

section Turn

variable {cfg : Setting} {c : Corpus} {s s' : State}

/-- The scope of a definition in its turn. -/
def Turn.scope (cfg : Setting) (d : Json) (baseUri : String) (t : Turn) : Scope :=
  .root (t.typeName cfg).1 (t.typeName cfg).2 d baseUri

theorem definition_type_traced (hc : c.Closed cfg) {schema : Json} {scope : Scope}
    (ht : TextsIn c.written schema) (hs : Furnished cfg s)
    (hscope : c.stands scope.baseUri scope.document) :
    Traced cfg c (definitionType cfg schema scope) [] s fun _ _ => True := by
  have hnode : NodeTraced cfg c (node cfg) := node_within_traced hc _
  have converted : Traced cfg c (Build.apart (node cfg schema scope)) [] s fun _ _ => True :=
    (Traced.apart (hnode _ _ _ _ _ hs hscope (schema_in ht))).imp fun _ _ _ _ => trivial
  unfold definitionType
  split
  · split
    · refine .bind (object_record_traced hnode _ _ (schema_in ht) hs hscope) ?_
      intro t s₁ hs₁ _ _
      exact .pure hs₁ trivial
    · exact converted
  · exact converted

theorem is_imported_yields {key : Option String} {b : Bool}
    (h : (isImported key).Yields s b s') : s' = s ∧ (b = true →
      ∃ k name, key = some k ∧ Imports.get? s.imports k = some (.named name)) := by
  unfold isImported at h
  split at h
  · next k =>
    obtain ⟨i, s₁, hi, hrest⟩ := Run.yields_bind.mp h
    obtain ⟨rfl, rfl⟩ := Run.yields_imported.mp hi
    split at hrest
    · next name hname =>
      obtain ⟨rfl, rfl⟩ := Run.yields_pure.mp hrest
      exact ⟨rfl, fun _ => ⟨k, name, rfl, hname⟩⟩
    · obtain ⟨rfl, rfl⟩ := Run.yields_pure.mp hrest
      exact ⟨rfl, by simp⟩
  · obtain ⟨rfl, rfl⟩ := Run.yields_pure.mp h
    exact ⟨rfl, by simp⟩

/-- How a turn goes that succeeds: a reference has led to the schema before and it is passed over, or it
is converted and kept. -/
theorem definition_yields {d : Json} {baseUri : String} {t : Turn} {n : Option String}
    (h : (definition cfg d baseUri t.name t.schema t.pointer).Yields s n s') :
    (n = none ∧ s' = s ∧ ∃ key name, t.key baseUri = some key ∧
      Imports.get? s.imports key = some (.named name)) ∨
    ∃ r names s₁, (definitionType cfg t.schema (t.scope cfg d baseUri)).Yields s (r, names) s₁ ∧
      Keeps (t.key baseUri) t.schema (t.typeName cfg) r n s₁ s' := by
  unfold definition at h
  obtain ⟨b, s₀, hb, hrest⟩ := Run.yields_bind.mp h
  obtain ⟨rfl, hname⟩ := is_imported_yields hb
  split at hrest
  · next himported =>
    obtain ⟨rfl, rfl⟩ := Run.yields_pure.mp hrest
    exact Or.inl ⟨rfl, rfl, hname himported⟩
  · obtain ⟨⟨r, names⟩, s₁, ht, hkeep⟩ := Run.yields_bind.mp hrest
    exact Or.inr ⟨r, names, s₁, ht, keep_definition_keeps hkeep⟩

theorem definition_traced (hc : c.Closed cfg) {d : Json} {baseUri : String} {t : Turn}
    (hd : c.stands baseUri d) (ht : c.turns baseUri t) (hs : Furnished cfg s)
    (htop : s.frames = []) :
    Traced cfg c (definition cfg d baseUri t.name t.schema t.pointer) [] s fun _ _ => True := by
  have imported : Traced cfg c (isImported (t.key baseUri)) [] s fun _ s' => s' = s := by
    unfold isImported
    split
    · refine .bind (.imported hs _) ?_
      rintro i _ - - ⟨-, rfl⟩
      split
      · exact .pure hs rfl
      · exact .pure hs rfl
    · exact .pure hs rfl
  unfold definition
  refine .bind imported ?_
  rintro b _ - - rfl
  split
  · exact .pure hs trivial
  · refine Traced.bind_run (definition_type_traced hc (hc.schemas ht) hs hd) ?_
    rintro ⟨r, names⟩ s₁ hy hs₁ - -
    obtain ⟨n, s', hkeep⟩ := (neutral_keep_definition (t.key baseUri) t.name t.schema
      (t.typeName cfg).1 (t.typeName cfg).2 r names).succeeds s₁
    have keeps := keep_definition_keeps hkeep
    exact .of_step hkeep (hs₁.kept keeps) (.turn hd ht htop hy keeps) trivial

end Turn

section Turns

variable {cfg : Setting} {c : Corpus} {s s' : State} {d : Json} {baseUri : String}

/-- A state between turns. -/
structure Between (cfg : Setting) (s : State) : Prop where
  furnished : Furnished cfg s
  orderly : Orderly s
  top : s.frames = []

theorem between_start : Between cfg {} := ⟨⟨by simp, by simp⟩, orderly_start, rfl⟩

/-- After a turn the state is between turns again, and went from step to step if it succeeded. -/
theorem definition_between (hc : c.Closed cfg) {t : Turn} (hd : c.stands baseUri d)
    (ht : c.turns baseUri t) (hs : Between cfg s) {n : Option String}
    (hy : (definition cfg d baseUri t.name t.schema t.pointer).Yields s n s') :
    Between cfg s' ∧ Steps cfg c ([], s) ([], s') := by
  have run : (definition cfg d baseUri t.name t.schema t.pointer).run.run s = (.ok n, s') := hy
  have traced := definition_traced hc hd ht hs.furnished hs.top
  have orderly : StaysOrderly (definition cfg d baseUri t.name t.schema t.pointer) s
    fun _ _ => True := definition_orderly _ _ _ _ _ hs.orderly hs.top
  unfold StaysOrderly at orderly
  obtain ⟨furnished, done, -⟩ := traced
  rw [run] at furnished done orderly
  exact ⟨⟨furnished, orderly.1, orderly.2.1.frames.trans hs.top⟩, (done n rfl).1⟩

theorem take_turns_traced (hc : c.Closed cfg) (hd : c.stands baseUri d) (ts : List Turn)
    (ht : ∀ t ∈ ts, c.turns baseUri t) (hs : Between cfg s) :
    Traced cfg c (takeTurns cfg d baseUri ts) [] s fun _ _ => True := by
  induction ts generalizing s with
  | nil =>
    rw [takeTurns]
    exact .pure hs.furnished trivial
  | cons t ts ih =>
    rw [List.forall_mem_cons] at ht
    rw [takeTurns]
    refine Traced.bind_run (definition_traced hc hd ht.1 hs.furnished hs.top) ?_
    intro n s₁ hy _ _ _
    exact ih ht.2 (definition_between hc hd ht.1 hs hy).1

end Turns

/-- What calls on a converter can come across. -/
def corpusOf (cfg : Setting) (calls : List Call) : Corpus where
  stands baseUri d :=
    (∃ call ∈ calls, call.baseUri = baseUri ∧ call.subject = d) ∨ Fetched cfg baseUri d
  written text :=
    (∃ call ∈ calls, text ∈ call.subject.texts) ∨ (∃ url d, Fetched cfg url d ∧ text ∈ d.texts) ∨
      ∃ call ∈ calls, ∃ ts, call.turns cfg = .ok ts ∧ ∃ t ∈ ts, text ∈ t.schema.texts
  turns baseUri t :=
    ∃ call ∈ calls, call.baseUri = baseUri ∧ ∃ ts, call.turns cfg = .ok ts ∧ t ∈ ts

/-- The state after calls on a new converter, whether they succeed or fail. -/
def reached (cfg : Setting) (calls : List Call) : State :=
  calls.foldl (fun s call => call.after cfg s) {}

section Calls

variable {cfg : Setting} {c : Corpus} {calls : List Call} {call : Call} {s : State}

theorem corpus_closed (cfg : Setting) (calls : List Call) : (corpusOf cfg calls).Closed cfg where
  fetched := Or.inr
  texts := by
    rintro baseUri d (⟨call, hmem, rfl, rfl⟩ | hfetched) text ht
    · exact Or.inl ⟨call, hmem, ht⟩
    · exact Or.inr (Or.inl ⟨baseUri, d, hfetched, ht⟩)
  schemas := by
    rintro baseUri t ⟨call, hmem, rfl, ts, hts, ht⟩ text htext
    exact Or.inr (Or.inr ⟨call, hmem, ts, hts, t, ht, htext⟩)

/-- The call is about a document and schemas of the corpus. -/
structure Covers (cfg : Setting) (c : Corpus) (call : Call) : Prop where
  subject : c.stands call.baseUri call.subject
  turns : ∀ ts, call.turns cfg = .ok ts → ∀ t ∈ ts, c.turns call.baseUri t

theorem corpus_covers (h : call ∈ calls) : Covers cfg (corpusOf cfg calls) call where
  subject := Or.inl ⟨call, h, rfl, rfl⟩
  turns ts hts _ ht := ⟨call, h, rfl, ts, hts, ht⟩

theorem call_traced (hc : c.Closed cfg) (h : Covers cfg c call) (hs : Between cfg s) :
    Traced cfg c (call.run cfg) [] s fun _ _ => True := by
  rw [call_turns_taken]
  cases hts : call.turns cfg with
  | error e => exact .fail hs.furnished
  | ok ts => exact take_turns_traced hc h.subject ts (h.turns ts hts) hs

/-- A call leads from a state between turns to another one, by steps that may leave imports begun. -/
theorem call_between (hc : c.Closed cfg) (h : Covers cfg c call) (hs : Between cfg s) :
    Between cfg (call.after cfg s) ∧ ∃ begun, Steps cfg c ([], s) (begun, call.after cfg s) := by
  obtain ⟨furnished, done, failed⟩ := call_traced hc h hs
  have hcall : Orderly (call.after cfg s) ∧ Grows s (call.after cfg s) :=
    call_orderly call hs.orderly hs.top
  obtain ⟨horderly, hg⟩ := hcall
  refine ⟨⟨furnished, horderly, hg.frames.trans hs.top⟩, ?_⟩
  cases hr : ((call.run cfg).run.run s).1 with
  | ok a => exact ⟨[], (done a hr).1⟩
  | error e =>
    obtain ⟨more, -, hsteps⟩ := failed e hr
    exact ⟨more ++ [], hsteps⟩

theorem steps_keep {keeps : State → Prop}
    (hstep : ∀ a b, Step cfg c a b → keeps a.2 → keeps b.2) {a b : List Import × State}
    (h : Steps cfg c a b) (ha : keeps a.2) : keeps b.2 := by
  induction h with
  | refl => exact ha
  | tail _ hlast ih => exact hstep _ _ hlast ih

/-- What holds at the start and is kept by every step holds after all calls. -/
theorem reached_keeps {keeps : State → Prop} (hstart : keeps {})
    (hstep : ∀ a b, Step cfg (corpusOf cfg calls) a b → keeps a.2 → keeps b.2) :
    Between cfg (reached cfg calls) ∧ keeps (reached cfg calls) := by
  have hc := corpus_closed cfg calls
  have run : ∀ more : List Call, more ⊆ calls → ∀ s, Between cfg s → keeps s →
      Between cfg (more.foldl (fun s call => call.after cfg s) s) ∧
        keeps (more.foldl (fun s call => call.after cfg s) s) := by
    intro more
    induction more with
    | nil => exact fun _ s hs hk => ⟨hs, hk⟩
    | cons call more ih =>
      intro hsub s hs hk
      rw [List.cons_subset] at hsub
      obtain ⟨hs', begun, hsteps⟩ := call_between hc (corpus_covers hsub.1) hs
      exact ih hsub.2 _ hs' (steps_keep hstep hsteps hk)
  exact run calls (List.Subset.refl _) {} between_start hstart

end Calls

end AvroDerive.Convert
