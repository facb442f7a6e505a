import AvroDerive.Proofs.ConcurringRecord

/-! # Alike nodes

Alike nodes at one place of two documents are converted in the same way, if the nodes inside are that
match, and those that their references lead to. -/
namespace AvroDerive.Convert

open AvroType Json Schema

variable {cfg : Setting} {node : NodeConverter} {scope : Scope} {d' : Json} {o o' : Object}

section Keyword

variable {candidates candidates' types types' : List Json}

theorem alternative_types_concur (n : Nat) (h : List.Forall₂ Alike candidates candidates')
    (hc : SpotsConcur cfg node d' (alternativeSpots scope n candidates)
      (alternativeSpots (scope.onto d') n candidates')) :
    BuildsConcur cfg (alternativeTypes node scope n candidates)
      (alternativeTypes node (scope.onto d') n candidates') := by
  induction h generalizing n with
  | nil => exact .pure []
  | cons h _ ih =>
    rw [alternativeSpots, alternativeSpots, ← refers_elsewhere_alike h] at hc
    rw [alternativeTypes, alternativeTypes, ← refers_elsewhere_alike h]
    refine BuildsConcur.bind (hc _ List.mem_cons_self _ List.mem_cons_self ⟨h, rfl⟩) fun t => ?_
    have rest := ih (n + 1) (hc.mono (List.subset_cons_self _ _) (List.subset_cons_self _ _))
    exact rest.bind fun types => .pure _

theorem candidates_type_concurs (keepEmpty : Bool) (h : List.Forall₂ Alike candidates candidates')
    (hc : SpotsConcur cfg node d' (candidateSpots scope candidates)
      (candidateSpots (scope.onto d') candidates')) :
    BuildsConcur cfg (candidatesType node keepEmpty scope candidates)
      (candidatesType node keepEmpty (scope.onto d') candidates') := by
  cases h with
  | nil => exact .pure _
  | cons h hrest =>
    cases hrest with
    | nil =>
      have single := hc _ (List.mem_singleton_self _) _ (List.mem_singleton_self _) ⟨h, rfl⟩
      exact BuildsConcur.bind single fun t => .pure _
    | cons h' hrest =>
      refine (alternative_types_concur 0 (.cons h (.cons h' hrest)) hc).bind fun types => ?_
      split
      · exact .pure _
      · exact .pure _
      · exact .pure _

theorem primitive_onto (format : Option String) {values values' : Option (List Json)}
    {type type' : Json} (hv : SameTexts values values') (ht : type.pare .schema = type'.pare .schema) :
    primitive scope format values type = primitive (scope.onto d') format values' type' := by
  have same : primitiveType scope.localName format values type =
      primitiveType scope.localName format values' type' := by
    rw [primitive_type_pare _ _ hv, ht, ← primitive_type_pare _ _ (rfl : SameTexts values' values')]
  unfold primitive
  rw [same]
  rfl

theorem primitive_concurs (format : Option String) {values values' : Option (List Json)}
    {type type' : Json} (hv : SameTexts values values') (ht : type.pare .schema = type'.pare .schema) :
    BuildsConcur cfg (primitive scope format values type)
      (primitive (scope.onto d') format values' type') := by
  rw [← primitive_onto format hv ht]
  exact .of_neutral (neutral_primitive _ _ _ _)

/-- The types of a list, each in the place of the list. -/
theorem listed_candidates_alike (h : AlikeObject o o')
    (ht : List.Forall₂ (fun i i' => i.pare .schema = i'.pare .schema) types types') :
    List.Forall₂ Alike (listedCandidates types o) (listedCandidates types' o') := by
  unfold listedCandidates
  rw [List.forall₂_map_left_iff, List.forall₂_map_right_iff]
  refine (List.rel_filter (fun i i' hi => ?_) ht).imp fun i i' hi => ?_
  · have null : isNullName i = isNullName i' :=
      congrArg (fun text => decide (text = some "null")) (text_of_pare hi)
    show (!isNullName i) = true ↔ (!isNullName i') = true
    rw [null]
  · exact h.insert "type" hi

theorem sole_or_united_concurs (h : List.Forall₂ Alike candidates candidates')
    (hc : SpotsConcur cfg node d' (candidateSpots scope candidates)
      (candidateSpots (scope.onto d') candidates')) :
    BuildsConcur cfg (soleOrUnited node scope candidates)
      (soleOrUnited node (scope.onto d') candidates') := by
  cases h with
  | nil => exact candidates_type_concurs false .nil hc
  | cons h hrest =>
    cases hrest with
    | nil => exact hc _ (List.mem_singleton_self _) _ (List.mem_singleton_self _) ⟨h, rfl⟩
    | cons h' hrest => exact candidates_type_concurs false (.cons h (.cons h' hrest)) hc

/-- Whether a type of a certain name is listed does not depend on conditional keywords. -/
theorem any_text_alike (ht : (Json.arr types).pare .schema = (Json.arr types').pare .schema)
    (p : Option String → Bool) :
    (types.any fun t => p t.asString?) = types'.any fun t => p t.asString? := by
  have mapped : ∀ ts : List Json, (ts.any fun t => p t.asString?) = (ts.map asString?).any p :=
    fun ts => by rw [List.any_map]; rfl
  rw [pare_arr, pare_arr] at ht
  rw [mapped, mapped, texts_of_pare (items_of_pare (Json.arr.inj ht))]

theorem structured_alike (ht : (Json.arr types).pare .schema = (Json.arr types').pare .schema) :
    types.any isStructured = types'.any isStructured :=
  any_text_alike ht fun text => text = some "object" || text = some "array"

theorem listed_type_concurs (h : AlikeObject o o')
    (ht : (Json.arr types).pare .schema = (Json.arr types').pare .schema)
    (hc : types.any isStructured = true → SpotsConcur cfg node d'
      (candidateSpots scope (listedCandidates types o))
      (candidateSpots (scope.onto d') (listedCandidates types' o'))) :
    BuildsConcur cfg (listedType node types o scope) (listedType node types' o' (scope.onto d')) := by
  have items : List.Forall₂ (fun i i' => i.pare .schema = i'.pare .schema) types types' := by
    rw [pare_arr, pare_arr] at ht
    exact items_of_pare (Json.arr.inj ht)
  have structured := structured_alike ht
  have null : types.any isNullName = types'.any isNullName :=
    any_text_alike ht fun text => text = some "null"
  by_cases hs : types.any isStructured = true
  · rw [listed_type_eq _ _ _ hs, listed_type_eq _ _ _ (structured ▸ hs), null]
    refine (sole_or_united_concurs (listed_candidates_alike h items) (hc hs)).bind fun t => ?_
    split
    · exact .pure _
    · exact .pure _
  · unfold listedType
    rw [if_neg hs, if_neg (structured ▸ hs), h.text (show "format" ∉ conditionalKeywords by decide)]
    exact (primitive_concurs _ (h.same_texts (by decide)) ht).bind fun t => .pure _

theorem tuple_types_concur {items items' : List Json} (h : List.Forall₂ Alike items items')
    (hc : SpotsConcur cfg node d' (items.map fun item => ⟨item, scope⟩)
      (items'.map fun item => ⟨item, scope.onto d'⟩)) :
    BuildsConcur cfg (tupleTypes node scope items) (tupleTypes node (scope.onto d') items') := by
  induction h with
  | nil => exact .pure []
  | cons h _ ih =>
    rw [List.map_cons, List.map_cons] at hc
    rw [tupleTypes, tupleTypes]
    refine BuildsConcur.bind (hc _ List.mem_cons_self _ List.mem_cons_self ⟨h, rfl⟩) fun t => ?_
    have rest := ih (hc.mono (List.subset_cons_self _ _) (List.subset_cons_self _ _))
    exact rest.bind fun types => .pure _

theorem array_type_concurs (h : AlikeObject o o')
    (hc : SpotsConcur cfg node d' (itemSpots scope o) (itemSpots (scope.onto d') o')) :
    BuildsConcur cfg (arrayType node o scope) (arrayType node o' (scope.onto d')) := by
  have other : ∀ {o : Object} {v : Json} {scope : Scope}, Object.get? o "items" = some v →
      Schema.isList v = false → itemSpots scope o = [⟨v, scope.deeper⟩] ∧
        arrayType node o scope = (do return .array (orGeneric (← node v scope.deeper))) := by
    intro o v scope hv hlist
    unfold itemSpots arrayType
    rw [hv]
    cases v <;> first | exact ⟨rfl, rfl⟩ | simp [Schema.isList] at hlist
  rcases h.values (show "items" ∉ conditionalKeywords by decide) with
    ⟨hv, hv'⟩ | ⟨v, v', hv, hv', hsame⟩
  · unfold arrayType
    rw [hv, hv']
    exact .pure _
  · have single : Schema.isList v = false → Schema.isList v' = false →
        BuildsConcur cfg (arrayType node o scope) (arrayType node o' (scope.onto d')) := by
      intro hlist hlist'
      rw [(other hv hlist).1, (other hv' hlist').1] at hc
      rw [(other hv hlist).2, (other hv' hlist').2]
      have within := hc _ (List.mem_singleton_self _) _ (List.mem_singleton_self _)
        ⟨alike_of_pare hsame, rfl⟩
      exact BuildsConcur.bind within fun t => .pure _
    rcases pare_eq_cases hsame with ⟨p, p', rfl, rfl, -⟩ | ⟨items, items', rfl, rfl, hi⟩ | ⟨rfl, -, hlist⟩
    · exact single rfl rfl
    · unfold itemSpots at hc
      unfold arrayType
      rw [hv, hv'] at hc ⊢
      refine (tuple_types_concur (hi.imp fun _ _ => alike_of_pare) hc).bind fun types => ?_
      split
      · exact .pure _
      · exact .pure _
    · exact single hlist hlist

theorem inline_record_concurs (h : AlikeObject o o') (ho : KeyedObject o) (ho' : KeyedObject o')
    (hc : SpotsConcur cfg node d' (recordSpots scope scope.localName scope.typeNs o)
      (recordSpots (scope.onto d') scope.localName scope.typeNs o')) :
    BuildsConcur cfg (inlineRecord node o scope) (inlineRecord node o' (scope.onto d')) := by
  unfold inlineRecord
  refine (BuildsConcur.lift (object_record_concurs _ _ h ho ho' hc)).bind fun r => ?_
  split
  · exact .of_neutral (.bind (.gather _) fun _ => .pure _)
  · exact .pure _

theorem keyword_type_concurs (h : AlikeObject o o') (ho : KeyedObject o) (ho' : KeyedObject o')
    (hc : SpotsConcur cfg node d' (keywordSpots scope o) (keywordSpots (scope.onto d') o')) :
    BuildsConcur cfg (keywordType node o scope) (keywordType node o' (scope.onto d')) := by
  have listed := h.same_texts (show "enum" ∉ conditionalKeywords by decide)
  have some_primitive : ∀ format {values values' type type'}, SameTexts values values' →
      pare .schema type = pare .schema type' →
      BuildsConcur cfg (do return some (← primitive scope format values type))
        (do return some (← primitive (scope.onto d') format values' type')) :=
    fun _ _ _ _ _ hv ht => (primitive_concurs _ hv ht).bind fun _ => .pure _
  unfold keywordSpots at hc
  unfold keywordType
  dsimp only
  rw [h.text (show "format" ∉ conditionalKeywords by decide), ← listed.is_some,
    ← h.contains (show "items" ∉ conditionalKeywords by decide)]
  rcases h.values (show "const" ∉ conditionalKeywords by decide) with
    ⟨hconst, hconst'⟩ | ⟨v, v', hconst, hconst', hsame⟩
  · rw [hconst, hconst'] at hc ⊢
    rcases h.values (show "type" ∉ conditionalKeywords by decide) with
      ⟨htype, htype'⟩ | ⟨t, t', htype, htype', hsame⟩
    · rw [htype, htype'] at hc ⊢
      dsimp only at hc ⊢
      split
      · exact some_primitive _ listed rfl
      · split
        · exact (array_type_concurs h hc).bind fun t => .pure _
        · split
          · exact some_primitive _ rfl rfl
          · exact .pure _
    · rw [htype, htype'] at hc ⊢
      rcases pare_eq_cases hsame with
        ⟨p, p', rfl, rfl, -⟩ | ⟨types, types', rfl, rfl, -⟩ | ⟨rfl, hobject, hlist⟩
      · exact some_primitive _ listed hsame
      · refine listed_type_concurs h hsame fun hs => ?_
        dsimp only at hc
        rwa [← structured_alike hsame, if_pos hs, if_pos hs] at hc
      · cases t with
        | str type =>
          dsimp only at hc ⊢
          split
          · next harray =>
            rw [if_pos harray, if_pos harray] at hc
            exact (array_type_concurs h hc).bind fun t => .pure _
          · next harray =>
            rw [if_neg harray, if_neg harray] at hc
            split
            · next hobject =>
              rw [if_pos hobject, if_pos hobject] at hc
              exact inline_record_concurs h ho ho' hc
            · exact some_primitive _ listed rfl
        | arr items => simp [Schema.isList] at hlist
        | _ => exact some_primitive _ listed rfl
  · rw [hconst, hconst']
    dsimp only
    rw [constant_type_alike hsame]
    exact .pure _

end Keyword

section Reference

variable {reference : String} {l l' : Located}

theorem reference_name_onto (url : Option Url) (d : Json) :
    referenceName cfg reference url (scope.onto d) = referenceName cfg reference url scope := by
  unfold referenceName
  rw [show (scope.onto d).record = scope.record from rfl]

theorem import_fragment_concurs (key : String) (hm : l.Matches scope.document d' l')
    (hc : NodesConcur cfg node ⟨l.fragment, (Import.mk reference scope l).inner cfg⟩
      ⟨l'.fragment, (Import.mk reference (scope.onto d') l').inner cfg⟩) :
    BuildsConcur cfg (importFragment cfg node key reference l scope)
      (importFragment cfg node key reference l' (scope.onto d')) := by
  have name : referenceName cfg reference l'.url (scope.onto d') =
      referenceName cfg reference l.url scope := by
    rw [hm.url, reference_name_onto]
  have converted := BuildsConcur.lift (BuildsConcur.apart hc)
  have settled : ∀ (expected : String) (r : Option AvroType × List String), BuildsConcur cfg
      (settle key reference expected scope r.1 r.2)
      (settle key reference expected (scope.onto d') r.1 r.2) :=
    fun _ _ => .of_neutral (neutral_settle _ _ _ _ _ _)
  simp only [Import.inner, Import.typeName, name] at converted
  unfold importFragment
  dsimp only
  rw [name, ← (alike_of_pare hm.fragment).standalone]
  split
  · refine .bind (.of_neutral (.lift (Run.neutral_remember _ _))) fun _ => ?_
    exact converted.bind fun r => settled _ r
  · exact converted.bind fun r => settled _ r

/-- The references lead to places that match, and so do the nodes that are converted for them. -/
theorem reference_type_concurs (h : AlikeObject o o') (hbare : isBareReference o = isBareReference o')
    (htarget : ∀ reference, (Object.get? o "$ref").bind asString? = some reference →
      SameTarget scope.document d' reference ∧ ∀ l l', LeadsTo cfg reference scope l →
        LeadsTo cfg reference (scope.onto d') l' → l.Matches scope.document d' l' →
        NodesConcur cfg node (referenceSpot cfg o scope reference l)
          (referenceSpot cfg o' (scope.onto d') reference l')) :
    BuildsConcur cfg (referenceType cfg node o scope) (referenceType cfg node o' (scope.onto d')) := by
  unfold referenceType
  rw [← h.text (show "$ref" ∉ conditionalKeywords by decide)]
  split
  · exact .of_neutral (.bind (.lift (Run.neutral_warn _)) fun _ => .pure _)
  · next reference hr =>
    obtain ⟨same, target⟩ := htarget reference hr
    refine .bind (.of_neutral (.lift (Run.neutral_imported _))) fun i => ?_
    split
    · exact .of_neutral (.bind (neutral_reuse_imported _) fun _ => .pure _)
    · refine .locate same fun l l' hl hl' hm => ?_
      have converted := target l l' hl hl' hm
      unfold referenceSpot at converted
      rw [← hbare] at converted ⊢
      split
      · next hb =>
        rw [if_pos hb, if_pos hb] at converted
        exact (import_fragment_concurs _ hm converted).bind fun t => .pure _
      · next hb =>
        rw [if_neg hb, if_neg hb] at converted
        exact .bind (.lift (.warn_all _ _)) fun _ => converted

end Reference

section Node

theorem object_node_concurs (h : AlikeObject o o') (ho : KeyedObject o) (ho' : KeyedObject o')
    (hexpand : hasComposition (unconditional o) = true → List.Forall₂ Alike
      (expand scope.document (unconditional o)).1 (expand d' (unconditional o')).1)
    (hc : SpotsConcur cfg node d' (Spot.mk (.obj o) scope).inner
      (Spot.mk (.obj o') (scope.onto d')).inner)
    (htarget : ∀ reference, (Spot.mk (.obj o) scope).reference? = some reference →
      SameTarget scope.document d' reference ∧ ∀ l l', LeadsTo cfg reference scope l →
        LeadsTo cfg reference (scope.onto d') l' → l.Matches scope.document d' l' →
        NodesConcur cfg node ((Spot.mk (.obj o) scope).target cfg reference l)
          ((Spot.mk (.obj o') (scope.onto d')).target cfg reference l')) :
    BuildsConcur cfg (objectNode cfg node o scope) (objectNode cfg node o' (scope.onto d')) := by
  have unconditional := h.unconditional ho ho'
  have plain := h.plain ho ho'
  simp only [Spot.inner, Spot.reference?, Spot.target] at hc htarget
  unfold objectNode
  refine .without_conditionals ?_
  dsimp only
  rw [← Spot.plainObject, ← Spot.plainObject]
  rw [← unconditional.composition,
    ← plain.contains (show "$ref" ∉ conditionalKeywords by decide)] at hc ⊢
  split
  · next hcomposed =>
    rw [if_pos hcomposed, if_pos hcomposed] at hc
    rw [← unconditional.contains (show "allOf" ∉ conditionalKeywords by decide)]
    refine .bind (.lift (.warn_all _ _)) fun _ => ?_
    exact candidates_type_concurs _ (hexpand hcomposed) hc
  · next hcomposed =>
    rw [if_neg hcomposed, if_neg hcomposed] at hc
    rw [if_neg hcomposed] at htarget
    split
    · exact reference_type_concurs plain (h.bare ho ho') htarget
    · next hr =>
      rw [if_neg hr, if_neg hr] at hc
      refine (keyword_type_concurs plain (plain_object_keyed ho) (plain_object_keyed ho') hc).bind
        fun t => ?_
      split
      · rw [← name_type_alike plain]
        exact .bind (.of_neutral (neutral_reuse_registered _)) fun _ => .pure _
      · exact .pure _

/-- Nodes that match are converted in the same way, if the nodes inside are that match, and those that
their references lead to. -/
theorem step_concurs {p p' : Spot} (h : p.Matches d' p') (hp : p.Keyed) (hp' : p'.Keyed)
    (hexpand : ∀ o o', p.schema = .obj o → p'.schema = .obj o' →
      hasComposition (unconditional o) = true → List.Forall₂ Alike
        (expand p.scope.document (unconditional o)).1 (expand d' (unconditional o')).1)
    (hc : SpotsConcur cfg node d' p.inner p'.inner)
    (htarget : ∀ reference, p.reference? = some reference →
      SameTarget p.scope.document d' reference ∧ ∀ l l', LeadsTo cfg reference p.scope l →
        LeadsTo cfg reference p'.scope l' → l.Matches p.scope.document d' l' →
        NodesConcur cfg node (p.target cfg reference l) (p'.target cfg reference l')) :
    NodesConcur cfg (step cfg node) p p' := by
  obtain ⟨schema, scope⟩ := p
  obtain ⟨schema', scope'⟩ := p'
  obtain ⟨halike, rfl⟩ : Alike schema schema' ∧ scope' = scope.onto d' := ⟨h.schema, h.scope⟩
  have alone : ∀ {type type' : Json}, type.pare .schema = type'.pare .schema →
      BuildsConcur cfg (do return some (← primitive scope none none type))
        (do return some (← primitive (scope.onto d') none none type')) :=
    fun ht => (primitive_concurs none rfl ht).bind fun _ => .pure _
  rcases halike.cases with ⟨o, o', rfl, rfl, ho⟩ | ⟨hobject, -, hsame⟩
  · exact object_node_concurs ho (keyed_obj.mp hp) (keyed_obj.mp hp') (hexpand o o' rfl rfl) hc htarget
  · rcases pare_eq_cases hsame with ⟨o, o', rfl, rfl, -⟩ | ⟨items, items', rfl, rfl, -⟩ | ⟨rfl, -, hlist⟩
    · simp [isObject] at hobject
    · exact alone hsame
    · cases schema with
      | bool b => cases b <;> exact .pure _
      | str text => exact alone rfl
      | obj o => simp [isObject] at hobject
      | arr items => simp [Schema.isList] at hlist
      | _ => exact .of_neutral (.bind (.lift (Run.neutral_warn _)) fun _ => .pure _)

end Node

end AvroDerive.Convert
