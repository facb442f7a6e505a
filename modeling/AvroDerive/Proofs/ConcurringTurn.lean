import AvroDerive.Proofs.ConcurringNode
import AvroDerive.Proofs.RecordCycle

/-! # Turns of alike schemas

In two documents that differ in conditional keywords, the nodes that are met pair up. So the turns of
alike schemas concur, if no reference and no merging of schemas tells the documents apart. -/
namespace AvroDerive.Convert

open AvroType Json Schema

/-- The references that are looked up for a node: its own, or those of the members that it is composed
of. -/
def Spot.lookups (p : Spot) : List String :=
  match p.schema with
  | .obj o =>
    if hasComposition (unconditional o) then expandReferences (unconditional o)
    else p.reference?.toList
  | _ => []

/-- Conditional keywords do not show in the way in which the node is put together from others. -/
structure Spot.ReadsPlainly (cfg : Setting) (p : Spot) : Prop where
  composes : ∀ o, p.schema = .obj o → hasComposition (unconditional o) = true →
    ComposesPlainly p.scope.document (unconditional o)
  merges : ∀ o reference l, p.schema = .obj o → p.reference? = some reference →
    LeadsTo cfg reference p.scope l → isBareReference (Spot.plainObject o) = false →
    ∀ i ∈ merging.allJoins [] [.obj (Object.erase (Spot.plainObject o) "$ref"), l.fragment], i.Discerns

/-- Neither call can tell the documents apart. -/
structure Unnoticed (cfg : Setting) (call call' : Call) : Prop where
  plain : ∀ frames p, Met cfg call frames p → p.scope.depth ≤ cfg.options.maxDepth → p.ReadsPlainly cfg
  plain' : ∀ frames p, Met cfg call' frames p → p.scope.depth ≤ cfg.options.maxDepth →
    p.ReadsPlainly cfg
  targets : ∀ frames p, Met cfg call frames p → p.scope.depth ≤ cfg.options.maxDepth →
    p.scope.document = call.subject → ∀ r ∈ p.lookups, SameTarget call.subject call'.subject r

/-- Alike nodes at one place, in one document or in either of two. -/
structure Counterparts (j j' : Json) (p p' : Spot) : Prop where
  paired : p.Matches p'.scope.document p'
  document : p'.scope.document = p.scope.document ∨ p.scope.document = j ∧ p'.scope.document = j'
  keyed : p.Keyed
  keyed' : p'.Keyed
  within : p.scope.document.keyed = true
  within' : p'.scope.document.keyed = true

theorem reference_looked_up {p : Spot} {reference : String} (h : p.reference? = some reference) :
    reference ∈ p.lookups := by
  obtain ⟨schema, scope⟩ := p
  cases schema with
  | obj o =>
    simp only [Spot.lookups]
    split
    · next hc => simp [Spot.reference?, hc] at h
    · exact Option.mem_toList.mpr h
  | _ => simp [Spot.reference?] at h

section Counterparts

variable {cfg : Setting} {call call' : Call} {frames frames' : Frames} {j j' : Json} {p p' : Spot}

theorem Counterparts.reference (h : Counterparts j j' p p') : p'.reference? = p.reference? := by
  obtain ⟨schema, scope⟩ := p
  obtain ⟨schema', scope'⟩ := p'
  rcases h.paired.schema.cases with ⟨o, o', rfl, rfl, ho⟩ | ⟨hobject, hobject', -⟩
  · have ko := keyed_obj.mp h.keyed
    have ko' := keyed_obj.mp h.keyed'
    simp only [Spot.reference?]
    rw [(ho.unconditional ko ko').composition,
      (ho.plain ko ko').text (show "$ref" ∉ conditionalKeywords by decide)]
  · have none : ∀ {v : Json} {scope : Scope}, isObject v = false →
        (Spot.mk v scope).reference? = none := by
      intro v scope hv
      cases v <;> first | rfl | simp [isObject] at hv
    rw [none hobject, none hobject']

theorem Counterparts.depth (h : Counterparts j j' p p') : p'.scope.depth = p.scope.depth := by
  rw [h.paired.scope]
  rfl

theorem Counterparts.inner {q q' : Spot} (h : Counterparts j j' p p') (hq : q ∈ p.inner)
    (hq' : q' ∈ p'.inner) (hm : q.Matches p'.scope.document q') : Counterparts j j' q q' := by
  have stays := (inner_below hq).document
  have stays' := (inner_below hq').document
  exact {
    paired := by rwa [stays']
    document := by rw [stays, stays']; exact h.document
    keyed := inner_keyed h.within h.keyed q hq
    keyed' := inner_keyed h.within' h.keyed' q' hq'
    within := by rw [stays]; exact h.within
    within' := by rw [stays']; exact h.within' }

/-- What is converted for a reference pairs up where the reference leads to places that match. -/
theorem Counterparts.target {reference : String} {l l' : Located} (h : Counterparts j j' p p')
    (hplain : p.ReadsPlainly cfg) (hplain' : p'.ReadsPlainly cfg) (hr : p.reference? = some reference)
    (hl : LeadsTo cfg reference p.scope l) (hl' : LeadsTo cfg reference p'.scope l')
    (hm : l.Matches p.scope.document p'.scope.document l') :
    Counterparts j j' (p.target cfg reference l) (p'.target cfg reference l') := by
  have hr' : p'.reference? = some reference := h.reference.trans hr
  have stands : (p.target cfg reference l).scope.document = l.document := target_document hr
  have stands' : (p'.target cfg reference l').scope.document = l'.document := target_document hr'
  obtain ⟨kf, kd⟩ := leads_keyed h.within hl
  obtain ⟨kf', kd'⟩ := leads_keyed h.within' hl'
  refine ⟨?_, ?_, target_keyed h.keyed kf, target_keyed h.keyed' kf', stands ▸ kd, stands' ▸ kd'⟩
  · rw [stands']
    obtain ⟨schema, scope⟩ := p
    obtain ⟨schema', scope'⟩ := p'
    rcases h.paired.schema.cases with ⟨o, o', rfl, rfl, ho⟩ | ⟨hobject, -, -⟩
    · have ko := keyed_obj.mp h.keyed
      have ko' := keyed_obj.mp h.keyed'
      obtain ⟨d', rfl⟩ : ∃ d', scope' = scope.onto d' := ⟨_, h.paired.scope⟩
      simp only [Spot.target, referenceSpot]
      rw [← ho.bare ko ko']
      split
      · refine ⟨alike_of_pare hm.fragment, ?_⟩
        simp only [Import.inner, Import.typeName, hm.url, hm.baseUri, reference_name_onto]
        simp only [Scope.onto]
      · next hb =>
        have hb := Bool.eq_false_of_not_eq_true hb
        have erased := (ho.plain ko ko').erase (plain_object_keyed ko).1 (plain_object_keyed ko').1 "$ref"
        refine ⟨alike_merge_all (.cons erased (.cons (alike_of_pare hm.fragment) .nil)) ?_ ?_
          (hplain.merges o reference l rfl hr hl hb)
          (hplain'.merges o' reference l' rfl hr' hl' (ho.bare ko ko' ▸ hb)), ?_⟩
        · rw [List.forall_mem_cons, List.forall_mem_singleton]
          exact ⟨((plain_object_keyed ko).erase _).json, kf⟩
        · rw [List.forall_mem_cons, List.forall_mem_singleton]
          exact ⟨((plain_object_keyed ko').erase _).json, kf'⟩
        · rw [hm.baseUri]
          rfl
    · cases schema with
      | obj o => simp [isObject] at hobject
      | _ => simp [Spot.reference?] at hr
  · rw [stands, stands']
    rcases hm.document with ⟨hd, hd'⟩ | hsame
    · rw [hd, hd']
      exact h.document
    · exact Or.inl hsame

end Counterparts

section Node

variable {cfg : Setting} {call call' : Call} {frames frames' : Frames} {p p' : Spot}

/-- A reference that is looked up leads to alike schemas, or to nothing. -/
theorem Counterparts.same_target (h : Counterparts call.subject call'.subject p p')
    (hu : Unnoticed cfg call call') (hp : Met cfg call frames p)
    (hdepth : p.scope.depth ≤ cfg.options.maxDepth) :
    ∀ r ∈ p.lookups, SameTarget p.scope.document p'.scope.document r := by
  intro r hr
  rcases h.document with hsame | ⟨hd, hd'⟩
  · rw [hsame, SameTarget]
  · rw [hd, hd']
    exact hu.targets frames p hp hdepth hd r hr

/-- The candidates of a composition are alike, one by one. -/
theorem Counterparts.expanded (h : Counterparts call.subject call'.subject p p')
    (hu : Unnoticed cfg call call') (hp : Met cfg call frames p) (hp' : Met cfg call' frames' p')
    (hdepth : p.scope.depth ≤ cfg.options.maxDepth) (o o' : Object) (ho : p.schema = .obj o)
    (ho' : p'.schema = .obj o') (hc : hasComposition (unconditional o) = true) :
    List.Forall₂ Alike (expand p.scope.document (unconditional o)).1
      (expand p'.scope.document (unconditional o')).1 := by
  have alike := h.paired.schema
  have ko := h.keyed
  have ko' := h.keyed'
  rw [Spot.Keyed, ho, keyed_obj] at ko
  rw [Spot.Keyed, ho', keyed_obj] at ko'
  rw [ho, ho'] at alike
  have plain : AlikeObject (unconditional o) (unconditional o') := AlikeObject.unconditional alike ko ko'
  have targets := h.same_target hu hp hdepth
  rw [Spot.lookups, ho] at targets
  dsimp only at targets
  rw [if_pos hc] at targets
  have composed : AlikeComposition p.scope.document p'.scope.document (unconditional o)
      (unconditional o') :=
    { alike := plain
      keyed := unconditional_keyed ko
      keyed' := unconditional_keyed ko'
      document := h.within
      document' := h.within'
      targets := targets
      plain := (hu.plain frames p hp hdepth).composes o ho hc
      plain' := (hu.plain' frames' p' hp' (h.depth ▸ hdepth)).composes o' ho' (plain.composition ▸ hc) }
  exact composed.expanded

/-- By induction on the levels, nodes that pair up are converted in the same way. -/
theorem node_within_concurs (hu : Unnoticed cfg call call') (levels : Nat)
    (hp : Met cfg call frames p) (hp' : Met cfg call' frames' p')
    (h : Counterparts call.subject call'.subject p p') :
    NodesConcur cfg (nodeWithin cfg levels) p p' := by
  have deep : BuildsConcur cfg (tooDeep cfg p.scope) (tooDeep cfg p'.scope) := by
    rw [h.paired.scope]
    exact .of_neutral (.bind (.lift (Run.neutral_warn _)) fun _ => .pure _)
  induction levels generalizing frames frames' p p' with
  | zero => exact deep
  | succ levels ih =>
    have deeper : ∀ {frames frames' q q'}, Met cfg call frames q → Met cfg call' frames' q' →
        Counterparts call.subject call'.subject q q' → NodesConcur cfg (nodeWithin cfg levels) q q' := by
      intro frames frames' q q' hq hq' hpair
      refine ih hq hq' hpair ?_
      rw [hpair.paired.scope]
      exact .of_neutral (.bind (.lift (Run.neutral_warn _)) fun _ => .pure _)
    unfold NodesConcur
    rw [node_within_succ, node_within_succ]
    rw [h.depth]
    split
    · exact deep
    · next hlimit =>
      have hdepth := Nat.le_of_not_lt hlimit
      have hdepth' : p'.scope.depth ≤ cfg.options.maxDepth := h.depth ▸ hdepth
      refine step_concurs h.paired h.keyed h.keyed' (h.expanded hu hp hp' hdepth)
        (fun q hq q' hq' hm => ?_) fun reference hr => ⟨?_, fun l l' hl hl' hm => ?_⟩
      · exact deeper (.inner hp hdepth hq) (.inner hp' hdepth' hq') (h.inner hq hq' hm)
      · exact h.same_target hu hp hdepth reference (reference_looked_up hr)
      · refine deeper (.target hp hdepth hr hl) (.target hp' hdepth' (h.reference.trans hr) hl') ?_
        exact h.target (hu.plain _ p hp hdepth) (hu.plain' _ p' hp' hdepth') hr hl hl' hm

end Node

section Turn

variable {cfg : Setting} {call call' : Call} {t t' : Turn}

/-- Turns of alike schemas, under one name. -/
structure Turn.Pairs (t t' : Turn) : Prop where
  name : t'.name = t.name
  pointer : t'.pointer = t.pointer
  schema : t.schema.pare .schema = t'.schema.pare .schema

/-- Two calls about documents that differ in conditional keywords, and do not tell them apart. -/
structure AlikeCalls (cfg : Setting) (call call' : Call) : Prop where
  baseUri : call'.baseUri = call.baseUri
  subject : call.subject.keyed = true
  subject' : call'.subject.keyed = true
  schemas : ∀ t, call.Takes cfg t → t.schema.keyed = true
  schemas' : ∀ t, call'.Takes cfg t → t.schema.keyed = true
  unnoticed : Unnoticed cfg call call'

theorem Turn.Pairs.type_name (h : t.Pairs t') : t'.typeName cfg = t.typeName cfg := by
  rw [Turn.typeName, Turn.typeName, h.name, h.pointer]

theorem Turn.Pairs.scope (h : t.Pairs t') (hc : AlikeCalls cfg call call') :
    (t'.spot cfg call').scope = (t.spot cfg call).scope.onto call'.subject := by
  simp only [Turn.spot, Turn.scope, h.type_name, hc.baseUri]
  rfl

theorem Turn.Pairs.counterparts (h : t.Pairs t') (hc : AlikeCalls cfg call call')
    (ht : call.Takes cfg t) (ht' : call'.Takes cfg t') :
    Counterparts call.subject call'.subject (t.spot cfg call) (t'.spot cfg call') where
  paired := ⟨alike_of_pare h.schema, h.scope hc⟩
  document := Or.inr ⟨rfl, rfl⟩
  keyed := hc.schemas t ht
  keyed' := hc.schemas' t' ht'
  within := hc.subject
  within' := hc.subject'

/-- What is kept of a definition does not depend on conditional keywords. -/
theorem keep_definition_alike {schema schema' : Json} (h : schema.pare .schema = schema'.pare .schema)
    (key : Option String) (schemaName name ns : String) (t : Option AvroType) (names : List String) :
    keepDefinition key schemaName schema name ns t names =
      keepDefinition key schemaName schema' name ns t names := by
  have registered : ∀ t, registerDefinition key schema name ns t names =
      registerDefinition key schema' name ns t names := by
    intro t
    unfold registerDefinition
    rw [(alike_of_pare h).standalone]
  have value : ∀ t, valueRecord name ns schema t = valueRecord name ns schema' t := by
    intro t
    unfold valueRecord
    rw [documented_alike h]
  unfold keepDefinition
  simp only [registered, value]

/-- The nodes inside the schemas of two turns pair up. -/
theorem turn_inner_concurs (hc : AlikeCalls cfg call call') (ht : call.Takes cfg t)
    (ht' : call'.Takes cfg t') (hr : t.isRecord = true) (hr' : t'.isRecord = true) :
    SpotsConcur cfg (node cfg) call'.subject (t.inner cfg call) (t'.inner cfg call') := by
  intro q hq q' hq' hm
  refine node_within_concurs hc.unnoticed _ (.record ht hr hq) (.record ht' hr' hq') ?_
  have ks := hc.schemas t ht
  have ks' := hc.schemas' t' ht'
  unfold Turn.inner at hq hq'
  split at hq
  · next o ho =>
    split at hq'
    · next o' ho' =>
      rw [ho, keyed_obj] at ks
      rw [ho', keyed_obj] at ks'
      have stays : q.scope.document = call.subject := (record_spots_below _ _ hq).document
      have stays' : q'.scope.document = call'.subject := (record_spots_below _ _ hq').document
      exact {
        paired := by rwa [stays']
        document := Or.inr ⟨stays, stays'⟩
        keyed := record_spots_keyed _ _ ks q hq
        keyed' := record_spots_keyed _ _ ks' q' hq'
        within := by rw [stays]; exact hc.subject
        within' := by rw [stays']; exact hc.subject' }
    · simp at hq'
  · simp at hq

theorem definition_type_concurs (h : t.Pairs t') (hc : AlikeCalls cfg call call')
    (ht : call.Takes cfg t) (ht' : call'.Takes cfg t') :
    Concur cfg (definitionTypeWith (node cfg) t.schema (t.spot cfg call).scope)
      (definitionTypeWith (node cfg) t'.schema (t'.spot cfg call').scope) := by
  have whole : t.isRecord = false → t'.isRecord = false →
      Concur cfg (Build.apart (node cfg t.schema (t.spot cfg call).scope))
        (Build.apart (node cfg t'.schema (t'.spot cfg call').scope)) := fun hr hr' =>
    BuildsConcur.apart (node_within_concurs hc.unnoticed _ (.turn ht hr) (.turn ht' hr')
      (h.counterparts hc ht ht'))
  have inner := turn_inner_concurs hc ht ht'
  have ks := hc.schemas t ht
  have ks' := hc.schemas' t' ht'
  simp only [Turn.isRecord, Turn.inner, h.type_name, h.scope hc] at whole inner
  rw [h.scope hc]
  rcases (alike_of_pare h.schema).cases with ⟨o, o', hs, hs', ho⟩ | ⟨hobject, hobject', -⟩
  · simp only [hs, hs'] at whole inner ks ks' ⊢
    simp only [definitionTypeWith]
    rw [← ho.record_schema] at whole inner ⊢
    split
    · next hr =>
      refine Concur.bind (object_record_concurs _ _ ho (keyed_obj.mp ks) (keyed_obj.mp ks') ?_)
        fun r => .pure _
      exact inner hr hr
    · next hr => exact whole (Bool.eq_false_of_not_eq_true hr) (Bool.eq_false_of_not_eq_true hr)
  · have direct : ∀ {schema : Json} (scope : Scope), isObject schema = false →
        definitionTypeWith (node cfg) schema scope = Build.apart (node cfg schema scope) := by
      intro schema scope hs
      cases schema <;> first | rfl | simp [isObject] at hs
    have aside : ∀ {t : Turn}, isObject t.schema = false → t.isRecord = false := by
      rintro ⟨name, schema, pointer⟩ ht
      cases schema <;> first | rfl | simp [isObject] at ht
    rw [direct _ hobject, direct _ hobject']
    exact whole (aside hobject) (aside hobject')

/-- In the turns of alike schemas the same is kept. -/
theorem turn_concurs (h : t.Pairs t') (hc : AlikeCalls cfg call call') (ht : call.Takes cfg t)
    (ht' : call'.Takes cfg t') :
    Concur cfg (takeTurnWith cfg (node cfg) call.subject call.baseUri t)
      (takeTurnWith cfg (node cfg) call'.subject call'.baseUri t') := by
  have type := definition_type_concurs h hc ht ht'
  have key : t'.key call'.baseUri = t.key call.baseUri := by
    rw [Turn.key, Turn.key, h.pointer, hc.baseUri]
  unfold takeTurnWith
  rw [key, h.name, h.type_name]
  refine (Concur.of_neutral (neutral_is_imported _)).bind fun imported => ?_
  split
  · exact .pure _
  · refine type.bind fun r => ?_
    rw [keep_definition_alike h.schema]
    exact .of_neutral (neutral_keep_definition _ _ _ _ _ _ _)

theorem turns_concur (hc : AlikeCalls cfg call call') {ts ts' : List Turn}
    (h : List.Forall₂ Turn.Pairs ts ts') (ht : ∀ t ∈ ts, call.Takes cfg t)
    (ht' : ∀ t ∈ ts', call'.Takes cfg t) :
    Concur cfg (takeTurnsWith cfg (node cfg) call.subject call.baseUri ts)
      (takeTurnsWith cfg (node cfg) call'.subject call'.baseUri ts') := by
  induction h with
  | nil => exact .pure _
  | cons h _ ih =>
    rw [List.forall_mem_cons] at ht ht'
    rw [takeTurnsWith, takeTurnsWith]
    exact (turn_concurs h hc ht.1 ht'.1).bind fun _ => ih ht.2 ht'.2

end Turn

end AvroDerive.Convert
