import AvroDerive.Proofs.LawfulNode

/-! # Calls are lawful

A definition in its turn is converted and kept under its name, unless a reference has named it before.
So the law holds after every call. -/
namespace AvroDerive.Convert

open AvroType Json Schema

section Turn

variable {cfg : Setting} {L : Law cfg} {d : Json} {baseUri : String} {turn : Turn}

/-- A definition has a good type, or a record that is good but for its own origin. -/
theorem definition_type_lawful (hbegins : L.spot ⟨turn.schema, turn.scope cfg d baseUri⟩)
    (hrecord : ∀ o, turn.schema = .obj o → ∀ q ∈ recordSpots (turn.scope cfg d baseUri)
      (turn.typeName cfg).1 (turn.typeName cfg).2 o, L.spot q) :
    Lawful L (definitionType cfg turn.schema (turn.scope cfg d baseUri))
      fun r => ∀ t ∈ r.1, L.DraftRecord t ∨ L.Good t := by
  have converted : Lawful L (Build.apart (node cfg turn.schema (turn.scope cfg d baseUri)))
      fun r => ∀ t ∈ r.1, L.DraftRecord t ∨ L.Good t :=
    (Lawful.apart (node_lawful L _ _ hbegins)).imp fun _ h t ht => Or.inr (h t ht)
  unfold definitionType
  split
  · next o ho =>
    split
    · refine .bind (object_record_lawful (node_lawful L) (hrecord o ho)) ?_
      intro t ht
      exact .pure fun u hu => Or.inl (ht u hu)
    · exact converted
  · exact converted

theorem turn_name_legal (cfg : Setting) (t : Turn) : Name.isLegal (t.typeName cfg).1 = true := by
  unfold Turn.typeName
  cases hp : t.pointer.bind (typeName? cfg.rootNs) with
  | none => exact Name.isLegal_ofText _
  | some p =>
    obtain ⟨pointer, -, hp⟩ := Option.bind_eq_some_iff.mp hp
    rw [Option.getD_some, ← type_name_legal hp]
    exact Name.isLegal_ofText _

/-- What is registered in a turn is good if it is admitted that it was made there. -/
theorem entry_good {t : AvroType} (ht : L.DraftRecord t ∨ L.Good t)
    (horigin : L.origin (turn.entry cfg t)) : L.Good (turn.entry cfg t) := by
  have legal := turn_name_legal cfg turn
  have draft : L.Draft t := ht.elim And.right Law.Good.draft
  refine Law.good_iff.mpr ⟨?_, fun _ => horigin⟩
  unfold Turn.entry
  split
  · next hkind =>
    cases t with
    | record r => exact draft_record.mpr ⟨legal, (draft_record.mp draft).2⟩
    | enum e => exact ⟨⟨legal, draft.1.2⟩, draft.2⟩
    | _ => simp [isRecord, isEnum] at hkind
  · next hkind =>
    have good : L.Good t := by
      refine ht.resolve_left fun hrecord => hkind ?_
      rw [hrecord.1, Bool.true_or]
    have value : Name.isLegal "value" = true := by decide
    exact draft_record.mpr ⟨legal, good_fields_single value good⟩

theorem register_definition_lawful {key : Option String} (hk : ∀ k ∈ key, L.free k) {schema : Json}
    {name ns : String} {t : AvroType} {names : List String}
    (ht : L.Good ((t.withName name).withNs ns)) :
    Lawful L (registerDefinition key schema name ns t names) fun _ => True := by
  unfold registerDefinition
  refine .bind (.register ht names) ?_
  intro registered _
  split
  · next k =>
    split
    · refine .bind (.remember (hk k rfl) (by simp)) ?_
      intro _ _
      exact .pure trivial
    · exact .pure trivial
  · exact .pure trivial

theorem keep_definition_lawful (hk : ∀ k ∈ turn.key baseUri, L.free k) {t : Option AvroType}
    {names : List String} (ht : ∀ u ∈ t, L.Good (turn.entry cfg u)) :
    Lawful L (keepDefinition (turn.key baseUri) turn.name turn.schema (turn.typeName cfg).1
      (turn.typeName cfg).2 t names) fun _ => True := by
  unfold keepDefinition
  split
  · refine .bind (.warn _) ?_
    intro _ _
    exact .pure trivial
  · next t =>
    have good := ht t rfl
    unfold Turn.entry at good
    split
    · next hkind =>
      rw [if_pos hkind] at good
      refine .bind (register_definition_lawful hk good) ?_
      intro _ _
      exact .pure trivial
    · next hkind =>
      rw [if_neg hkind] at good
      refine .bind .get ?_
      intro s _
      split
      · split
        · next k hkey =>
          refine .bind (.remember (hk k hkey) (by simp)) ?_
          intro _ _
          exact .pure trivial
        · exact .pure trivial
      · refine .bind (register_definition_lawful hk good) ?_
        intro _ _
        exact .pure trivial

/-- A definition that no reference has named has a free key. -/
theorem is_imported_lawful (key : Option String) :
    Lawful L (isImported key) fun b => b = false → ∀ k ∈ key, L.free k := by
  unfold isImported
  split
  · next k =>
    refine .bind (.imported k) ?_
    intro i hi
    split
    · exact .pure (by simp)
    · next hnamed =>
      refine .pure fun _ k' hk' => ?_
      obtain rfl := Option.some.inj hk'
      exact hi.2 hnamed
  · exact .pure (by simp)

/-- A definition is kept lawfully if what is registered for its type is good. -/
theorem definition_lawful_of (htype : Lawful L
      (definitionType cfg turn.schema (turn.scope cfg d baseUri))
      fun r => ∀ t ∈ r.1, L.Good (turn.entry cfg t)) :
    Lawful L (definition cfg d baseUri turn.name turn.schema turn.pointer) fun _ => True := by
  unfold definition
  refine .bind (is_imported_lawful (turn.key baseUri)) ?_
  intro imported hk
  split
  · exact .pure trivial
  · next himported =>
    refine .bind htype ?_
    intro r hr
    exact keep_definition_lawful (hk (by simpa using himported)) hr

theorem definition_lawful (turn : Turn) (hturn : L.turn d baseUri turn) :
    Lawful L (definition cfg d baseUri turn.name turn.schema turn.pointer) fun _ => True := by
  have type := definition_type_lawful (L.begins hturn) fun o ho => L.beginsRecord hturn ho
  refine definition_lawful_of (type.seen.imp ?_)
  rintro ⟨t, names⟩ ⟨ht, s, s', hs, hy⟩ u rfl
  exact entry_good (ht u rfl) (L.registered hturn hs.held hy)

theorem take_turns_lawful {turns : List Turn} (hturns : ∀ t ∈ turns,
      Lawful L (definition cfg d baseUri t.name t.schema t.pointer) fun _ => True) :
    Lawful L (takeTurns cfg d baseUri turns) fun _ => True := by
  induction turns with
  | nil =>
    rw [takeTurns]
    exact .pure trivial
  | cons t turns ih =>
    rw [List.forall_mem_cons] at hturns
    rw [takeTurns]
    refine .bind hturns.1 ?_
    intro _ _
    exact ih hturns.2

theorem call_lawful_of {call : Call} (hturns : ∀ turns, call.turns cfg = .ok turns →
    ∀ t ∈ turns, Lawful L (definition cfg call.subject call.baseUri t.name t.schema t.pointer)
      fun _ => True) : Lawful L (call.run cfg) fun _ => True := by
  rw [call_turns_taken]
  split
  · next turns hts => exact take_turns_lawful (hturns turns hts)
  · exact .fail

/-- The law holds after a call whose turns it admits, whether the call succeeds or fails. -/
theorem call_lawful {call : Call} (hturns : ∀ turns, call.turns cfg = .ok turns →
    ∀ t ∈ turns, L.turn call.subject call.baseUri t) : Lawful L (call.run cfg) fun _ => True :=
  call_lawful_of fun turns hts t ht => definition_lawful t (hturns turns hts t ht)

end Turn

end AvroDerive.Convert
