import AvroDerive.Proofs.NodeRepeated
import AvroDerive.Proofs.RememberedName

/-! # What a failed call leaves behind

A call that fails leaves the imports begun that it was in the middle of. Their promises are the only
new names that nothing accounts for. Made again, the call fails again for the same cause, unless it
comes to know a reference, or a definition, that fails for that cause wherever it is converted. -/
namespace AvroDerive.Convert

open AvroType Json Schema

section Turn

variable {cfg : Setting} {c : Corpus} {final s s' t t' : State} {is : List Import}

theorem definition_type_repeats (hc : c.Closed cfg) (hgiven : GivesUpAlone cfg c final)
    {schema : Json} {scope : Scope} (htexts : TextsIn c.written schema)
    (hscope : c.stands scope.baseUri scope.document) :
    Repeats cfg c final is unseen (definitionType cfg schema scope)
      (definitionType cfg schema scope) := by
  have hnode : NodeRepeats cfg c final (node cfg) := node_within_repeats hc hgiven _
  have converted : Repeats cfg c final is unseen (Build.apart (node cfg schema scope))
      (Build.apart (node cfg schema scope)) :=
    Repeats.apart (hnode _ _ _ hscope (schema_in htexts))
  unfold definitionType
  split
  · split
    · refine .bind (object_record_repeats hnode _ _ (schema_in htexts) hscope) ?_
      intro r r' _
      exact .pure rfl
    · exact converted
  · exact converted

/-- What is remembered by a name in addition hides nothing. -/
theorem Retains.named {key : Option String} {name : String}
    (hi : t.imports = (key.map (·, some (.named name))).toList ++ s.imports)
    (hf : t.frames = s.frames) (hd : t.documents = s.documents) : Retains cfg s t := by
  cases key with
  | none => exact .of_same hi hf hd
  | some key =>
    have get : ∀ other, Imports.get? t.imports other =
        if other = key then some (.named name) else Imports.get? s.imports other := by
      intro other
      rw [hi]
      split
      · next h => exact h ▸ get_cons_self _ _ _
      · next h => exact get_cons_ne _ h
    refine ⟨hi ▸ List.suffix_append _ _, fun other h => ?_, fun other h => ?_, hf, ?_, ?_⟩
    · rw [Remembers, get]
      split
      · simp
      · exact h
    · rw [RemembersName, get]
      split
      · exact ⟨name, rfl⟩
      · exact h
    · rw [hd]
      exact fun _ _ => id
    · rw [Stocked, Stocked, hd]
      exact id

theorem Keeps.retains {key : Option String} {schema : Json} {name : String × String}
    {r : Option AvroType} {n : Option String} (h : Keeps key schema name r n s t) :
    Retains cfg s t := by
  cases h with
  | registered hu => exact .named rfl rfl rfl
  | passed hc => exact .named rfl rfl rfl
  | empty => exact .of_same rfl rfl rfl

theorem Keeps.documents {key : Option String} {schema : Json} {name : String × String}
    {r : Option AvroType} {n : Option String} (h : Keeps key schema name r n s t) :
    t.documents = s.documents := by
  cases h <;> rfl

/-- Where no import is under way, both runs may go on apart from each other. -/
theorem Along.both_on (h : Along cfg c final [] s s') (hr : Retains cfg s t)
    (hr' : Retains cfg s' t') (hd : t'.documents = s'.documents) : Along cfg c final [] t t' where
  first := hr.stocked h.first
  second := hr'.stocked h.second
  frames := by rw [hr.frames, hr'.frames, h.frames]
  documents := hd.trans h.documents
  remembers key hk := hr'.remembers key (h.remembers key hk)
  names key hk := hr'.names key (h.names key hk)
  valid := by simp
  promised := by simp
  begun := by simp

theorem keep_definition_repeats (key : Option String) (schemaName : String) (schema : Json)
    (name ns : String) (r r' : Option AvroType) (names names' : List String) :
    Repeats cfg c final [] unseen (keepDefinition key schemaName schema name ns r names)
      (keepDefinition key schemaName schema name ns r' names') := by
  have kept : ∀ r names s, ∃ n t, (keepDefinition key schemaName schema name ns r names).Yields s n t ∧
      Keeps key schema (name, ns) r n s t := by
    intro r names s
    obtain ⟨n, t, hy⟩ := (neutral_keep_definition key schemaName schema name ns r names).succeeds s
    exact ⟨n, t, hy, keep_definition_keeps hy⟩
  have retains : ∀ r names s, Retains cfg s
      ((keepDefinition key schemaName schema name ns r names).run.run s).2 := by
    intro r names s
    obtain ⟨n, t, hy, hkeeps⟩ := kept r names s
    rw [show (keepDefinition key schemaName schema name ns r names).run.run s = (.ok n, t) from hy]
    exact hkeeps.retains
  refine ⟨fun s _ => retains r names s, fun s _ => retains r' names' s, fun s s' hs => ?_⟩
  obtain ⟨n, t, hy, hkeeps⟩ := kept r names s
  obtain ⟨n', t', hy', hkeeps'⟩ := kept r' names' s'
  refine ⟨fun a u hya _ => ?_, fun e u hfail => ?_⟩
  · obtain ⟨-, rfl⟩ := Prod.mk.inj (hy.symm.trans hya)
    exact ⟨n', t', hy', hs.both_on hkeeps.retains hkeeps'.retains hkeeps'.documents, rfl⟩
  · exact absurd (Prod.mk.inj (hy.symm.trans hfail)).1 (by simp)

/-- A reference has given the definition a name. -/
def PassedOver (key : Option String) (s : State) : Prop :=
  ∃ k, key = some k ∧ RemembersName s k

theorem is_imported_runs (key : Option String) (s : State) :
    ∃ b, (isImported key).Yields s b s ∧ (b = true ↔ PassedOver key s) := by
  unfold isImported PassedOver RemembersName
  cases key with
  | none => exact ⟨false, Run.yields_pure.mpr ⟨rfl, rfl⟩, by simp⟩
  | some k =>
    have imported : (Run.imported? k).Yields s (Imports.get? s.imports k) s :=
      Run.yields_imported.mpr ⟨rfl, rfl⟩
    rcases hi : Imports.get? s.imports k with _ | (name | u)
    · exact ⟨false, Run.yields_bind.mpr ⟨_, _, imported, by rw [hi]; exact Run.yields_pure.mpr ⟨rfl, rfl⟩⟩,
        by simp [hi]⟩
    · exact ⟨true, Run.yields_bind.mpr ⟨_, _, imported, by rw [hi]; exact Run.yields_pure.mpr ⟨rfl, rfl⟩⟩,
        by simp [hi]⟩
    · exact ⟨false, Run.yields_bind.mpr ⟨_, _, imported, by rw [hi]; exact Run.yields_pure.mpr ⟨rfl, rfl⟩⟩,
        by simp [hi]⟩

/-- A turn that is not passed over: the schema is converted and kept. -/
def convertTurn (cfg : Setting) (d : Json) (baseUri : String) (t : Turn) : Run (Option String) := do
  let r ← definitionType cfg t.schema (t.scope cfg d baseUri)
  keepDefinition (t.key baseUri) t.name t.schema (t.typeName cfg).1 (t.typeName cfg).2 r.1 r.2

theorem definition_run (cfg : Setting) (d : Json) (baseUri : String) (t : Turn) (s : State) :
    (PassedOver (t.key baseUri) s →
      (definition cfg d baseUri t.name t.schema t.pointer).Yields s none s) ∧
    (¬ PassedOver (t.key baseUri) s →
      (definition cfg d baseUri t.name t.schema t.pointer).run.run s =
        (convertTurn cfg d baseUri t).run.run s) := by
  obtain ⟨b, hb, hiff⟩ := is_imported_runs (t.key baseUri) s
  unfold definition
  refine ⟨fun h => ?_, fun h => ?_⟩
  · rw [hiff.mpr h] at hb
    exact Run.yields_bind.mpr ⟨true, s, hb, Run.yields_pure.mpr ⟨rfl, rfl⟩⟩
  · rw [← hiff, Bool.not_eq_true] at h
    rw [h] at hb
    rw [Run.run_bind, show (isImported (t.pointer.map (pointerKey baseUri))).run.run s =
      (.ok false, s) from hb]
    rfl

theorem convert_turn_repeats (hc : c.Closed cfg) (hgiven : GivesUpAlone cfg c final) {d : Json}
    {baseUri : String} {t : Turn} (hd : c.stands baseUri d) (ht : c.turns baseUri t) :
    Repeats cfg c final [] unseen (convertTurn cfg d baseUri t) (convertTurn cfg d baseUri t) := by
  unfold convertTurn
  refine .bind (definition_type_repeats hc hgiven (hc.schemas ht) hd) ?_
  intro r r' _
  exact keep_definition_repeats _ _ _ _ _ _ _ _ _

/-- A turn is passed over in the second run if it was in the first one. If the second run alone passes
it over, it may escape its failure. -/
theorem definition_repeats (hc : c.Closed cfg) (hgiven : GivesUpAlone cfg c final) {d : Json}
    {baseUri : String} {t : Turn} (hd : c.stands baseUri d) (ht : c.turns baseUri t) :
    Repeats cfg c final [] unseen (definition cfg d baseUri t.name t.schema t.pointer)
      (definition cfg d baseUri t.name t.schema t.pointer) := by
  have converted := convert_turn_repeats hc hgiven hd ht
  have retains : ∀ s, Stocked cfg s → Retains cfg s
      ((definition cfg d baseUri t.name t.schema t.pointer).run.run s).2 := by
    intro s hs
    obtain ⟨passed, runs⟩ := definition_run cfg d baseUri t s
    by_cases hp : PassedOver (t.key baseUri) s
    · rw [show (definition cfg d baseUri t.name t.schema t.pointer).run.run s = (.ok none, s) from
        passed hp]
      exact .refl s
    · rw [runs hp]
      exact converted.first s hs
  refine ⟨retains, retains, fun s s' hs => ?_⟩
  obtain ⟨passed, runs⟩ := definition_run cfg d baseUri t s
  obtain ⟨passed', runs'⟩ := definition_run cfg d baseUri t s'
  by_cases hp : PassedOver (t.key baseUri) s
  · refine ⟨fun a u hy hl => ?_, fun e u hfail => ?_⟩
    · obtain ⟨-, rfl⟩ := Prod.mk.inj ((passed hp).symm.trans hy)
      obtain ⟨key, hkey, hname⟩ := hp
      have hfinal : RemembersName final key := (hl.names key hname).resolve_right (by simp)
      exact ⟨none, s', passed' ⟨key, hkey, hs.names key hfinal⟩, hs, rfl⟩
    · exact absurd (Prod.mk.inj ((passed hp).symm.trans hfail)).1 (by simp)
  · by_cases hp' : PassedOver (t.key baseUri) s'
    · refine ⟨fun a u hy _ => ?_, fun e u hfail _ _ => Or.inr ?_⟩
      · exact ⟨none, s', passed' hp', hs.first_on (retains_yields (retains s hs.first) hy), rfl⟩
      · rw [show (definition cfg d baseUri t.name t.schema t.pointer).run.run s' = (.ok none, s') from
          passed' hp']
        obtain ⟨key, hkey, name, hname⟩ := hp'
        have hnew : ¬ RemembersName s key := fun h => hp ⟨key, hkey, h⟩
        refine ⟨key, .turn hd ht hkey hs.first hnew hfail, ?_, by simp⟩
        rw [Remembers, hname]
        simp
    · exact (converted.follows s s' hs).of_runs (runs hp) (runs' hp')

theorem take_turns_repeat (hc : c.Closed cfg) (hgiven : GivesUpAlone cfg c final) {d : Json}
    {baseUri : String} (hd : c.stands baseUri d) (ts : List Turn)
    (ht : ∀ t ∈ ts, c.turns baseUri t) :
    Repeats cfg c final [] unseen (takeTurns cfg d baseUri ts) (takeTurns cfg d baseUri ts) := by
  induction ts with
  | nil =>
    rw [takeTurns]
    exact .pure rfl
  | cons t ts ih =>
    rw [List.forall_mem_cons] at ht
    rw [takeTurns]
    refine .bind (definition_repeats hc hgiven hd ht.1) ?_
    intro n n' _
    exact ih ht.2

theorem call_repeats (hc : c.Closed cfg) (hgiven : GivesUpAlone cfg c final) {call : Call}
    (h : Covers cfg c call) :
    Repeats cfg c final [] unseen (call.run cfg) (call.run cfg) := by
  rw [call_turns_taken]
  cases hts : call.turns cfg with
  | error e => exact .fail e
  | ok ts => exact take_turns_repeat hc hgiven h.subject ts (h.turns ts hts)

end Turn

section Failed

variable {cfg : Setting} {calls : List Call} {call : Call} {e : Failure}

/-- The name was promised for a fragment whose conversion was stopped by the failure. -/
def HalfDone (cfg : Setting) (c : Corpus) (e : Failure) (name : String) : Prop :=
  ∃ i : Import, i.Valid cfg c ∧ i.Promises cfg name ∧ i.Stopped cfg e

theorem reached_append (cfg : Setting) (calls : List Call) (call : Call) :
    reached cfg (calls ++ [call]) = call.after cfg (reached cfg calls) := by
  rw [reached, List.foldl_append]
  rfl

/-- The names that a failed call leaves remembered are old, or accounted for, or promised for the
imports that it was in the middle of. -/
theorem failed_call_accounted {c : Corpus} {s : State} (hc : c.Closed cfg) (h : Covers cfg c call)
    (hs : Between cfg s) (hfail : ((call.run cfg).run.run s).1 = .error e) {key name : String}
    (hname : Resolved (call.after cfg s) key name) :
    (∃ old, Resolved s old name) ∨ Accounted cfg c [] (call.after cfg s) name ∨
      HalfDone cfg c e name := by
  obtain ⟨more, hstopped, hsteps⟩ := (call_traced hc h hs).failed e hfail
  have start : AllAccounted cfg c (fun name => ∃ old, Resolved s old name) ([], s) :=
    fun key name hm => Or.inl ⟨key, hm⟩
  refine (steps_accounted hsteps start key name hname).imp_right fun hacc => ?_
  cases hacc with
  | registered hm => exact Or.inl (.registered hm)
  | passed hp => exact Or.inl (.passed hp)
  | givenUp hg => exact Or.inl (.givenUp hg)
  | @promised i hm hp =>
    rw [List.append_nil] at hm
    obtain ⟨hvalid, hstop⟩ := hstopped i hm
    exact Or.inr ⟨i, hvalid, hp, hstop⟩

/-- A failed call that is made again fails for the same cause, or comes to know what fails for it. -/
theorem failed_call_repeats {c : Corpus} {s : State} (hc : c.Closed cfg) (h : Covers cfg c call)
    (hs : Between cfg s) (hfail : ((call.run cfg).run.run s).1 = .error e)
    (hgiven : GivesUpAlone cfg c (call.after cfg s)) :
    ((call.run cfg).run.run (call.after cfg s)).1 = .error e ∨
      ∃ key, StopsAt cfg c e key ∧ Remembers (call.after cfg (call.after cfg s)) key := by
  have repeats := call_repeats hc hgiven h
  have stocked : Stocked cfg s := hs.furnished.documents
  have retains : Retains cfg s (call.after cfg s) := repeats.first s stocked
  have along : Along cfg c (call.after cfg s) [] s (call.after cfg s) :=
    ⟨stocked, retains.stocked stocked, retains.frames, rfl, fun _ => id, fun _ => id, by simp,
      by simp, by simp⟩
  have run : (call.run cfg).run.run s = (.error e, call.after cfg s) := Prod.ext hfail rfl
  rcases (repeats.follows _ _ along).failed e _ run (.refl _) rfl with ⟨t, ht⟩ | ⟨key, hstops, hk, -⟩
  · rw [ht]
    exact Or.inl rfl
  · exact Or.inr ⟨key, hstops, hk⟩

/-- After any calls, a call that fails leaves no new name remembered that is not registered, passed on
or given up, except for imports that its failure has stopped. Made again it fails for the same cause,
except if it comes to know a reference or a definition that this cause stops; but a fragment that does
not stand alone must not have been given up. -/
theorem failed_call_leaves (hfail : ((call.run cfg).run.run (reached cfg calls)).1 = .error e) :
    (∀ key name, Resolved (reached cfg (calls ++ [call])) key name →
      (∃ old, Resolved (reached cfg calls) old name) ∨
      Accounted cfg (corpusOf cfg (calls ++ [call])) [] (reached cfg (calls ++ [call])) name ∨
      HalfDone cfg (corpusOf cfg (calls ++ [call])) e name) ∧
    (GivesUpAlone cfg (corpusOf cfg (calls ++ [call])) (reached cfg (calls ++ [call])) →
      ((call.run cfg).run.run (reached cfg (calls ++ [call]))).1 = .error e ∨
      ∃ key, StopsAt cfg (corpusOf cfg (calls ++ [call])) e key ∧
        Remembers (reached cfg (calls ++ [call] ++ [call])) key) := by
  have hc := corpus_closed cfg (calls ++ [call])
  have covers : Covers cfg (corpusOf cfg (calls ++ [call])) call := corpus_covers (by simp)
  have between : Between cfg (reached cfg calls) :=
    (@reached_keeps cfg calls (fun _ => True) trivial fun _ _ _ _ => trivial).1
  simp only [reached_append]
  exact ⟨fun key name => failed_call_accounted hc covers between hfail,
    failed_call_repeats hc covers between hfail⟩

end Failed

section Examples

/-- A record that refers to itself, and to a definition that does not exist. -/
def astray : Json := .obj [("definitions", .obj [
  ("A", objectSchema [("a", definitionRef "A"), ("c", definitionRef "C")])])]

theorem astray_gives_up_alone :
    GivesUpAlone offline (corpusOf offline [.document astray ""]) (reached offline [.document astray ""]) := by
  have turns : documentTurns offline "" astray = .ok [⟨"A", objectSchema [("a", definitionRef "A"),
    ("c", definitionRef "C")], some "/definitions/A"⟩] := by rfl
  have alone : ∀ r ∈ astray.texts ++ (objectSchema [("a", definitionRef "A"),
      ("c", definitionRef "C")]).texts, ∀ f ∈ localFragment? astray r, isStandalone f = true := by
    decide +kernel
  intro key _ f name h
  rcases offline_gives turns h with ⟨r, hr, -, hf, -⟩ | ⟨t, ht, -, hf, -⟩
  · rw [List.flatMap_singleton] at hr
    exact alone r hr f hf
  · obtain rfl := List.mem_singleton.mp ht
    rw [hf]
    rfl

/-- The reference of the record to itself is begun and given up in each call, and the call fails. -/
theorem astray_fails_again : ((Call.run offline (.document astray "")).run.run
    (reached offline [.document astray ""])).1 = .error (.unresolved "#/definitions/C" "") := by
  have fails : ((Call.run offline (.document astray "")).run.run (reached offline [])).1 =
    .error (.unresolved "#/definitions/C" "") := by decide +kernel
  have forgotten : ∀ e ∈ (reached offline [.document astray "", .document astray ""]).imports,
    Imports.get? (reached offline [.document astray "", .document astray ""]).imports e.1 = none := by
    decide +kernel
  rcases (failed_call_leaves fails).2 astray_gives_up_alone with h | ⟨key, -, hk⟩
  · exact h
  · obtain ⟨i, hi⟩ := Option.ne_none_iff_exists'.mp hk
    exact absurd (forgotten _ (mem_of_imported hi)) hk

/-- A record that refers to another one, which refers to a definition that does not exist. -/
def unfinished : Json := .obj [("definitions", .obj [
  ("A", objectSchema [("b", definitionRef "B")]),
  ("B", objectSchema [("c", definitionRef "C")])])]

/-- The failed call leaves the name of the second record remembered, and so the call succeeds when it
is made again, and registers a record that refers to nothing. -/
theorem unfinished_record_named :
    ((Call.run offline (.document unfinished "")).run.run (reached offline [])).1 =
      .error (.unresolved "#/definitions/C" "") ∧
    Resolved (reached offline [.document unfinished ""]) "#/definitions/B" "ns.B" ∧
    (reached offline [.document unfinished ""]).registry = [] ∧
    ((Call.run offline (.document unfinished "")).run.run
      (reached offline [.document unfinished ""])).1 = .ok () ∧
    definedNames (reached offline [.document unfinished "", .document unfinished ""]).registry =
      ["ns.A"] := by
  decide +kernel

end Examples

end AvroDerive.Convert
