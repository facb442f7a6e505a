import AvroDerive.Proofs.LawfulRecord

/-! # Nodes are lawful

The type that a node gets from its own keywords is good but for its own origin, and of a named type the
origin is that it was made there. The type of any other node is that of nodes for which it stands. The
induction is on the levels that are left. -/
namespace AvroDerive.Convert

open AvroType Json Schema

/-- If there is a type it is good but for its own origin. -/
def Law.MaybeDraft {cfg : Setting} (L : Law cfg) (t : Option AvroType) : Prop := ∀ u ∈ t, L.Draft u

/-- What is given for a node. If the node stands for other ones the type is theirs. -/
def Law.Given {cfg : Setting} (L : Law cfg) (p : Spot) (t : Option AvroType) : Prop :=
  L.MaybeDraft t ∧ (p.own = false → L.MaybeGood t)

section Reference

variable {cfg : Setting} {L : Law cfg} {node : NodeConverter} {scope : Scope} {o : Object}
  {t u : AvroType}

theorem Law.MaybeGood.draft {t : Option AvroType} (h : L.MaybeGood t) : L.MaybeDraft t :=
  fun u hu => (h u hu).draft

theorem maybe_good_some (h : L.Good t) : L.MaybeGood (some t) := by
  intro u hu
  obtain rfl := Option.some.inj hu
  exact h

theorem Law.MaybeGood.given {t : Option AvroType} (h : L.MaybeGood t) (p : Spot) : L.Given p t :=
  ⟨h.draft, fun _ => h⟩

theorem maybe_draft_some (h : L.Draft t) : L.MaybeDraft (some t) := by
  intro u hu
  obtain rfl := Option.some.inj hu
  exact h

theorem reuse_imported_lawful {key : String} {i : Imported} (hi : L.Known key (some i)) :
    BuildsLawful L (reuseImported i) L.Good := by
  cases i with
  | named name =>
    refine .bind (.gather _) ?_
    intro _ _
    exact .pure (Law.good_reference name)
  | inline t => exact .pure (hi.1 t rfl)

theorem fetch_document_lawful (url : Url) :
    Lawful L (fetchDocument cfg url) fun _ => True := by
  intro s hs
  refine ⟨?_, fun _ _ => trivial⟩
  rw [fetch_document_run]
  cases s.documents.lookup url.text with
  | some d => exact hs
  | none =>
    cases hload : download cfg url with
    | error e => exact hs
    | ok d =>
      exact ⟨hs.imports, L.fetched hs.documents (download_fetched hload), hs.registry, hs.inline⟩

theorem locate_lawful (reference : String) :
    Lawful L (locate cfg reference scope) fun _ => True := by
  unfold locate
  split
  · split
    · exact .pure trivial
    · exact .fail
  · split
    · exact .fail
    · refine .bind (fetch_document_lawful _) ?_
      intro document _
      split
      · exact .pure trivial
      · exact .fail

theorem settle_lawful {key reference expected : String} {t : Option AvroType}
    {names : List String} (hk : L.free key) (ht : L.MaybeGood t) :
    BuildsLawful L (settle key reference expected scope t names) L.Good := by
  unfold settle
  cases t with
  | none =>
    refine .bind (.lift (.forget hk)) fun _ _ => ?_
    refine .bind (.lift (.warn _)) fun _ _ => ?_
    exact .pure Law.good_generic
  | some t =>
    have good : L.Good t := ht t rfl
    have remembered : ∀ i : Imported, (∀ u, i = .inline u → L.Good u) → BuildsLawful L (do
        Run.remember key i
        Build.dependAll names
        return t) L.Good := by
      intro i hi
      refine .bind (.lift (.remember hk hi)) fun _ _ => ?_
      refine .bind (.gather _) fun _ _ => ?_
      exact .pure good
    dsimp only
    split
    · split
      · refine .bind (.lift (.register good names)) fun name _ => ?_
        refine .bind (.lift (.remember hk (by simp))) fun _ _ => ?_
        refine .bind (.gather _) fun _ _ => ?_
        exact .pure (Law.good_reference name)
      · refine .bind (.lift (.forget hk)) fun _ _ => ?_
        refine .bind (.gather _) fun _ _ => ?_
        exact .pure good
    · split
      · exact remembered _ (by simp)
      · refine remembered _ fun u hu => ?_
        obtain rfl := Imported.inline.inj hu
        exact good

theorem import_fragment_lawful (hnode : NodeLawful L node) {key reference : String}
    {located : Located} (hk : L.free key)
    (hspot : L.spot ⟨located.fragment, (Import.mk reference scope located).inner cfg⟩) :
    BuildsLawful L (importFragment cfg node key reference located scope) L.Good := by
  unfold importFragment
  dsimp only
  split
  · refine .bind (.lift (.remember hk (by simp))) fun _ _ => ?_
    refine .bind (.lift (.apart (hnode _ _ hspot))) ?_
    rintro ⟨t, names⟩ ht
    exact settle_lawful hk ht
  · refine .bind (.lift (.apart (hnode _ _ hspot))) ?_
    rintro ⟨t, names⟩ ht
    exact settle_lawful hk ht

/-- Where a reference of the object leads to, the law admits a node. -/
def Law.Leads (L : Law cfg) (o : Object) (scope : Scope) : Prop :=
  ∀ {reference located s s'}, (Object.get? o "$ref").bind Json.asString? = some reference →
    L.documents s.documents → (locate cfg reference scope).Yields s located s' →
    L.spot (referenceSpot cfg o scope reference located)

theorem reference_type_lawful (hnode : NodeLawful L node) (hleads : L.Leads o scope) :
    BuildsLawful L (referenceType cfg node o scope) L.MaybeGood := by
  unfold referenceType
  split
  · refine .bind (.lift (.warn _)) ?_
    intro _ _
    exact .pure (maybe_good_some Law.good_generic)
  · next reference href =>
    refine .bind (.lift (.imported _)) ?_
    intro i hi
    split
    · refine .bind (reuse_imported_lawful hi) ?_
      intro t ht
      exact .pure (maybe_good_some ht)
    · refine .bind (.lift (locate_lawful reference).seen) ?_
      rintro located ⟨-, s, s', hs, hlocated⟩
      have hspot := hleads href hs.documents hlocated
      unfold referenceSpot at hspot
      split
      · next hbare =>
        rw [if_pos hbare] at hspot
        refine .bind (import_fragment_lawful hnode (hi.2 (by simp)) hspot) ?_
        intro t ht
        exact .pure (maybe_good_some ht)
      · next hbare =>
        rw [if_neg hbare] at hspot
        dsimp only
        refine .bind (.lift (.warnAll _)) ?_
        intro _ _
        exact hnode _ _ hspot

end Reference

section Node

variable {cfg : Setting} {L : Law cfg} {node : NodeConverter} {scope : Scope} {o : Object}

theorem primitive_lawful (format : Option String) (values : Option (List Json)) (type : Json)
    (h : L.Draft (primitiveType scope.localName format values type).1) :
    BuildsLawful L (primitive scope format values type) L.Draft := by
  refine .bind (.gather _) ?_
  intro _ _
  exact .pure h

theorem alternative_types_lawful (hnode : NodeLawful L node) {candidates : List Json} {n : Nat}
    (hspot : ∀ q ∈ alternativeSpots scope n candidates, L.spot q) :
    BuildsLawful L (alternativeTypes node scope n candidates) fun ts => ∀ t ∈ ts, L.Good t := by
  induction candidates generalizing n with
  | nil =>
    rw [alternativeTypes]
    exact .pure (by simp)
  | cons candidate candidates ih =>
    rw [alternativeSpots, List.forall_mem_cons] at hspot
    rw [alternativeTypes]
    refine .bind (hnode _ _ hspot.1) ?_
    intro t ht
    refine .bind (ih hspot.2) ?_
    intro types htypes
    refine .pure (List.forall_mem_append.mpr ⟨fun u hu => ?_, htypes⟩)
    exact ht u (Option.filter_eq_some_iff.mp (Option.mem_toList.mp hu)).1

theorem candidates_type_lawful (hnode : NodeLawful L node) (keepEmpty : Bool)
    {candidates : List Json} (hspot : ∀ q ∈ candidateSpots scope candidates, L.spot q) :
    BuildsLawful L (candidatesType node keepEmpty scope candidates) L.MaybeGood := by
  unfold candidatesType
  split
  · rw [candidateSpots] at hspot
    refine .bind (hnode _ _ (List.forall_mem_singleton.mp hspot)) ?_
    intro t ht
    refine .pure ?_
    split
    · exact ht
    · exact maybe_good_some (Law.good_useful ht)
  · next hseveral =>
    rw [candidateSpots.eq_2 _ _ hseveral] at hspot
    refine .bind (alternative_types_lawful hnode hspot) ?_
    intro types htypes
    split
    · exact .pure (by simp [Law.MaybeGood])
    · next t => exact .pure (maybe_good_some (htypes t (List.mem_singleton_self t)))
    · refine .pure (maybe_good_some ?_)
      exact AllParts.union (Law.fine_mergeable.union _ (flat_flatten_with _))
        (flatten_parts Law.fine_mergeable htypes)

theorem listed_type_lawful (hnode : NodeLawful L node) {types : List Json}
    (hspot : types.any isStructured = true →
      ∀ q ∈ candidateSpots scope (listedCandidates types o), L.spot q)
    (hplain : types.any isStructured = false → L.Draft (primitiveType scope.localName
      ((Object.get? o "format").bind Json.asString?) ((Object.get? o "enum").bind Json.asArray?)
      (.arr types)).1) :
    BuildsLawful L (listedType node types o scope) L.MaybeDraft := by
  unfold listedType
  split
  · next hs =>
    have finish : ∀ t, L.MaybeGood t → BuildsLawful L (if types.any isNullName = true then
        pure (t.map fun t => AvroType.unionOf [.null, t]) else pure t) L.MaybeDraft := by
      intro t ht
      split
      · refine .pure fun u hu => ?_
        obtain ⟨t', rfl, rfl⟩ := Option.map_eq_some_iff.mp hu
        refine Law.Good.draft (union_of_parts Law.fine_mergeable ?_)
        rw [List.forall_mem_cons, List.forall_mem_singleton]
        exact ⟨Law.good_null, ht t' rfl⟩
      · exact .pure ht.draft
    have spots := hspot hs
    unfold listedCandidates at spots
    dsimp only
    split
    · next single hsingle =>
      rw [hsingle] at spots
      refine .bind (hnode _ _ (List.forall_mem_singleton.mp spots)) ?_
      exact finish
    · refine .bind (candidates_type_lawful hnode false spots) ?_
      exact finish
  · next hs =>
    refine .bind (primitive_lawful _ _ _ (hplain (Bool.not_eq_true _ ▸ hs))) ?_
    intro t ht
    exact .pure (maybe_draft_some ht)

theorem tuple_types_lawful (hnode : NodeLawful L node) {items : List Json}
    (hspot : ∀ item ∈ items, L.spot ⟨item, scope⟩) :
    BuildsLawful L (tupleTypes node scope items) fun ts => ∀ t ∈ ts, L.Good t := by
  induction items with
  | nil =>
    rw [tupleTypes]
    exact .pure (by simp)
  | cons item items ih =>
    rw [List.forall_mem_cons] at hspot
    rw [tupleTypes]
    refine .bind (hnode _ _ hspot.1) ?_
    intro t ht
    refine .bind (ih hspot.2) ?_
    intro types htypes
    refine .pure (List.forall_mem_append.mpr ⟨fun u hu => ?_, htypes⟩)
    exact ht u (Option.mem_toList.mp hu)

theorem array_type_lawful (hnode : NodeLawful L node)
    (hspot : ∀ q ∈ itemSpots scope o, L.spot q) :
    BuildsLawful L (arrayType node o scope) L.Good := by
  unfold itemSpots at hspot
  unfold arrayType
  cases hitems : Object.get? o "items" with
  | none => exact .pure Law.good_generic.array
  | some items =>
    simp only [hitems] at hspot
    have single : L.spot ⟨items, scope.deeper⟩ → BuildsLawful L
        (do return .array (orGeneric (← node items scope.deeper))) L.Good := by
      intro hitem
      refine .bind (hnode _ _ hitem) ?_
      intro t ht
      exact .pure (Law.good_or_generic ht).array
    cases items with
    | arr tuple =>
      refine .bind (tuple_types_lawful hnode (List.forall_mem_map.mp hspot)) ?_
      intro types htypes
      split
      · exact .pure Law.good_generic.array
      · have united : L.Good (unionOf types) := union_of_parts Law.fine_mergeable htypes
        exact .pure united.array
    | _ => exact single (List.forall_mem_singleton.mp hspot)

theorem inline_record_lawful (hnode : NodeLawful L node)
    (hspot : ∀ q ∈ recordSpots scope scope.localName scope.typeNs o, L.spot q) :
    BuildsLawful L (inlineRecord node o scope) L.MaybeDraft := by
  unfold inlineRecord
  refine .bind (.lift (object_record_lawful hnode hspot)) ?_
  intro t ht
  split
  · next t =>
    refine .bind (.gather _) ?_
    intro _ _
    refine .pure (maybe_draft_some ?_)
    obtain ⟨hrecord, hdraft⟩ := ht t rfl
    cases t with
    | record r =>
      obtain ⟨hname, hfields⟩ := draft_record.mp hdraft
      refine draft_record.mpr ⟨hname, ?_⟩
      dsimp only [Law.GoodFields]
      rw [clear_fields_eq]
      exact List.forall_mem_map.mpr fun f hf => ⟨(hfields f hf).1, (hfields f hf).2.clear⟩
    | _ => simp [isRecord] at hrecord
  · exact .pure (by simp [Law.MaybeDraft])

theorem keyword_type_lawful (hnode : NodeLawful L node)
    (hspot : ∀ q ∈ keywordSpots scope o, L.spot q)
    (hplain : ∀ t, plainKeyword? scope o = some t → L.Draft t) :
    BuildsLawful L (keywordType node o scope) L.MaybeDraft := by
  have some_draft : ∀ {x : Build AvroType}, BuildsLawful L x L.Draft →
      BuildsLawful L (do return some (← x)) L.MaybeDraft := by
    intro x hx
    refine .bind hx ?_
    intro t ht
    exact .pure (maybe_draft_some ht)
  obtain ⟨k, hk⟩ := said o
  rw [hk.type_eq]
  rw [hk.plain_eq] at hplain
  replace hspot : ∀ q ∈ k.spots scope o, L.spot q := fun q hq => hspot q (hk.spots_subset hq)
  cases k with
  | constant value => exact .pure (maybe_draft_some (hplain _ rfl))
  | listed types =>
    rw [Keyword.spots] at hspot
    rw [Keyword.plain?] at hplain
    refine listed_type_lawful hnode (fun hs => ?_) fun hs => ?_
    · rwa [if_pos hs] at hspot
    · rw [if_neg (by simp [hs])] at hplain
      exact hplain _ rfl
  | array => exact some_draft ((array_type_lawful hnode hspot).imp fun _ => Law.Good.draft)
  | object => exact inline_record_lawful hnode hspot
  | named type => exact some_draft (primitive_lawful _ _ _ (hplain _ rfl))
  | silent => exact .pure (by simp [Law.MaybeDraft])

theorem name_type_draft {t : AvroType} (h : L.Draft t) : L.Draft (nameType o scope t) :=
  ⟨name_type_regular o scope h.1, name_type_inside o scope h.2⟩

theorem reuse_registered_lawful {t : AvroType} (ht : L.Draft t) :
    BuildsLawful L (reuseRegistered t) L.Draft := by
  unfold reuseRegistered
  split
  · refine .bind .getThe ?_
    intro s _
    split
    · next registered _ =>
      refine .bind (.gather _) ?_
      intro _ _
      exact .pure (Law.good_reference registered).draft
    · exact .pure ht
  · exact .pure ht

theorem object_node_lawful (hnode : NodeLawful L node) (hspot : L.spot ⟨.obj o, scope⟩)
    (hplain : ∀ t, Spot.plain? ⟨.obj o, scope⟩ = some t → L.Draft t) :
    BuildsLawful L (objectNode cfg node o scope) (L.Given ⟨.obj o, scope⟩) := by
  have inner : ∀ q ∈ Spot.inner ⟨.obj o, scope⟩, L.spot q := fun q hq => L.inner hspot hq
  simp only [Spot.inner] at inner
  simp only [Spot.plain?] at hplain
  unfold objectNode
  refine .bind (.lift (without_conditionals_lawful o)) ?_
  rintro _ rfl
  split
  · next hc =>
    rw [if_pos hc] at inner
    dsimp only
    refine .bind (.lift (.warnAll _)) ?_
    intro _ _
    exact (candidates_type_lawful hnode _ inner).imp fun _ h => h.given _
  · next hc =>
    rw [Bool.not_eq_true] at hc
    simp only [hc, Bool.false_eq_true, if_false, Bool.false_or] at inner hplain
    dsimp only
    by_cases href : Object.contains (withObjectType (unconditional o)) "$ref" = true
    · rw [if_pos href]
      refine (reference_type_lawful hnode ?_).imp fun _ h => h.given _
      intro reference located s s' hr hd hl
      refine L.target hspot ?_ hd hl
      simp only [Spot.reference?, hc, Bool.false_eq_true, if_false]
      exact hr
    · have own : Spot.own ⟨.obj o, scope⟩ = true := by
        simp [Spot.own, Spot.isOwn, Spot.plainObject, hc, href]
      rw [if_neg href]
      simp only [Spot.plainObject, href] at inner hplain
      refine .bind (keyword_type_lawful hnode inner (by simpa using hplain)) ?_
      intro t ht
      split
      · next t =>
        refine .bind (reuse_registered_lawful (name_type_draft (ht t rfl))) ?_
        intro u hu
        exact .pure ⟨maybe_draft_some hu, by simp [own]⟩
      · exact .pure ⟨by simp [Law.MaybeDraft], by simp [own]⟩

/-- The type that a node has by itself is a draft, and good unless it is still to be named. -/
theorem plain_draft {p : Spot} (hspot : L.spot p) {t : AvroType} (ht : p.plain? = some t) :
    L.Draft t ∧ (p.own = false → L.Good t) := by
  have plain : AllParts Regular t ∧ t.isRecord = false := by
    rcases p.is_plain ht with ⟨constant, rfl⟩ | ⟨format, values, type, rfl⟩
    · refine ⟨constant_type_regular p.scope constant, ?_⟩
      cases constant with
      | num n => cases n <;> rfl
      | _ => rfl
    · exact ⟨primitive_type_regular format values type,
        OfKeyword.not_record (primitive_type_of_keyword format values type)⟩
  have good : (p.own = true → t.isNamed = false) → L.Good t := fun hbare u hu =>
    ⟨plain.1 u hu, fun hn => L.listed hspot ht hbare hu hn⟩
  refine ⟨?_, fun hown => good (by simp [hown])⟩
  cases hnamed : t.isNamed with
  | false => exact (good fun _ => hnamed).draft
  | true =>
    -- A named type that is no record holds no other types.
    refine ⟨plain.1.top, fun u hu => ?_⟩
    cases t with
    | record r => exact absurd plain.2 (by simp [isRecord])
    | enum e => simp [parts] at hu
    | fixed f => simp [parts] at hu
    | _ => simp [isNamed] at hnamed

theorem step_lawful (hnode : NodeLawful L node) {schema : Json} (hspot : L.spot ⟨schema, scope⟩) :
    BuildsLawful L (step cfg node schema scope) (L.Given ⟨schema, scope⟩) := by
  have alone : ∀ {type : Json}, Spot.own ⟨schema, scope⟩ = false → Spot.plain? ⟨schema, scope⟩ =
      some (primitiveType scope.localName none none type).1 →
      BuildsLawful L (do return some (← primitive scope none none type)) (L.Given ⟨schema, scope⟩) := by
    intro type hown ht
    have good := (plain_draft hspot ht).2 hown
    unfold primitive
    refine .bind (.bind (.gather _) fun _ _ => .pure good) ?_
    intro t ht
    exact .pure ((maybe_good_some ht).given _)
  have generic : L.MaybeGood (some .generic) := maybe_good_some Law.good_generic
  cases schema with
  | bool b =>
    cases b with
    | true => exact .pure (generic.given _)
    | false => exact .pure (Law.MaybeGood.given (by simp [Law.MaybeGood]) _)
  | str text => exact alone rfl rfl
  | arr items => exact alone rfl rfl
  | obj o => exact object_node_lawful hnode hspot fun t ht => (plain_draft hspot ht).1
  | _ =>
    refine .bind (.lift (.warn _)) ?_
    intro _ _
    exact .pure (generic.given _)

theorem too_deep_lawful : BuildsLawful L (tooDeep cfg scope) L.MaybeGood := by
  refine .bind (.lift (.warn _)) ?_
  intro _ _
  exact .pure (maybe_good_some Law.good_generic)

/-- Nodes are converted lawfully through any number of levels. -/
theorem node_within_lawful (levels : Nat) : NodeLawful L (nodeWithin cfg levels) := by
  induction levels with
  | zero => exact fun _ _ _ => too_deep_lawful
  | succ levels ih =>
    intro schema scope hspot
    rw [nodeWithin]
    dsimp only
    split
    · exact too_deep_lawful
    · intro names
      refine (step_lawful ih hspot names).seen.imp ?_
      rintro ⟨t, names'⟩ ⟨⟨hdraft, hgood⟩, s, s', hs, hy⟩ u hu
      obtain rfl : t = some u := hu
      cases hown : Spot.own ⟨schema, scope⟩ with
      | false => exact hgood hown u rfl
      | true => exact Law.good_iff.mpr ⟨hdraft u rfl, L.made hspot hown hs.held hy⟩

end Node

theorem node_lawful {cfg : Setting} (L : Law cfg) : NodeLawful L (node cfg) := node_within_lawful _

end AvroDerive.Convert
