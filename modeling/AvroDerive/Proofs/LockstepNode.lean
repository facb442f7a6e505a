import AvroDerive.Proofs.Lockstep

/-! # Nodes in lockstep

A comparison holds of the conversions of a node, if it holds of those of the nodes inside it and of what
its reference leads to. -/
namespace AvroDerive.Convert.Lockstep

open AvroType Json Schema

variable {cfg : Setting} {L : Lockstep cfg} {node node' : NodeConverter} {fs gs : Frames}
  {scope : Scope} {o : Object}

section Reference

theorem import_fragment {reference : String} {located : Located} (key : String)
    (h : L.nodes fs gs node node'
      ⟨located.fragment, (Import.mk reference scope located).inner cfg⟩) :
    L.builds fs gs (importFragment cfg node key reference located scope)
      (importFragment cfg node' key reference located scope) := by
  unfold importFragment
  dsimp only
  split
  · refine builds_bind (builds_neutral (.lift (Run.neutral_remember _ _))) fun _ => ?_
    exact builds_bind (builds_lift (apart h)) fun r => builds_neutral (neutral_settle _ _ _ _ _ _)
  · exact builds_bind (builds_lift (apart h)) fun r => builds_neutral (neutral_settle _ _ _ _ _ _)

/-- The reference is looked up by both conversions, and leads both to the same place. -/
theorem reference_type (h : ∀ reference, (Object.get? o "$ref").bind asString? = some reference →
      L.looks reference scope ∧ ∀ located, L.leads reference scope located →
        L.nodes fs gs node node' (referenceSpot cfg o scope reference located)) :
    L.builds fs gs (referenceType cfg node o scope) (referenceType cfg node' o scope) := by
  unfold referenceType
  split
  · exact builds_neutral (.bind (.lift (Run.neutral_warn _)) fun _ => .pure _)
  · next reference hr =>
    obtain ⟨hlooks, htarget⟩ := h reference hr
    refine builds_bind (builds_neutral (.lift (Run.neutral_imported _))) fun i => ?_
    split
    · exact builds_neutral (.bind (neutral_reuse_imported _) fun _ => .pure _)
    · refine builds_locate hlooks fun located hl => ?_
      have target := htarget located hl
      unfold referenceSpot at target
      split
      · next hbare =>
        rw [if_pos hbare] at target
        exact builds_bind (import_fragment _ target) fun t => builds_pure _
      · next hbare =>
        rw [if_neg hbare] at target
        exact builds_bind (builds_neutral (.lift (Run.neutral_warn_all _))) fun _ => target

end Reference

section Keyword

theorem alternative_types {candidates : List Json} (n : Nat)
    (h : ∀ q ∈ alternativeSpots scope n candidates, L.nodes fs gs node node' q) :
    L.builds fs gs (alternativeTypes node scope n candidates)
      (alternativeTypes node' scope n candidates) := by
  induction candidates generalizing n with
  | nil => exact builds_pure []
  | cons candidate candidates ih =>
    rw [alternativeSpots, List.forall_mem_cons] at h
    rw [alternativeTypes, alternativeTypes]
    refine builds_bind h.1 fun t => ?_
    exact builds_bind (ih _ h.2) fun types => builds_pure _

theorem candidates_type {candidates : List Json} (keepEmpty : Bool)
    (h : ∀ q ∈ candidateSpots scope candidates, L.nodes fs gs node node' q) :
    L.builds fs gs (candidatesType node keepEmpty scope candidates)
      (candidatesType node' keepEmpty scope candidates) := by
  unfold candidatesType
  split
  · rw [candidateSpots, List.forall_mem_singleton] at h
    exact builds_bind h fun t => builds_pure _
  · next hseveral =>
    rw [candidateSpots.eq_2 _ _ hseveral] at h
    refine builds_bind (alternative_types 0 h) fun types => ?_
    split
    · exact builds_pure _
    · exact builds_pure _
    · exact builds_pure _

theorem listed_type {types : List Json} (h : types.any isStructured = true →
      ∀ q ∈ candidateSpots scope (listedCandidates types o), L.nodes fs gs node node' q) :
    L.builds fs gs (listedType node types o scope) (listedType node' types o scope) := by
  unfold listedType
  split
  · next hstructured =>
    have spots := h hstructured
    unfold listedCandidates at spots
    dsimp only
    split
    · next single hsingle =>
      rw [hsingle, List.map_singleton, candidateSpots, List.forall_mem_singleton] at spots
      refine builds_bind spots fun t => ?_
      split
      · exact builds_pure _
      · exact builds_pure _
    · refine builds_bind (candidates_type _ spots) fun t => ?_
      split
      · exact builds_pure _
      · exact builds_pure _
  · exact builds_neutral (.bind (neutral_primitive _ _ _ _) fun _ => .pure _)

theorem tuple_types {items : List Json} (h : ∀ item ∈ items, L.nodes fs gs node node' ⟨item, scope⟩) :
    L.builds fs gs (tupleTypes node scope items) (tupleTypes node' scope items) := by
  induction items with
  | nil => exact builds_pure []
  | cons item items ih =>
    rw [List.forall_mem_cons] at h
    rw [tupleTypes, tupleTypes]
    refine builds_bind h.1 fun t => ?_
    exact builds_bind (ih h.2) fun types => builds_pure _

theorem array_type (h : ∀ q ∈ itemSpots scope o, L.nodes fs gs node node' q) :
    L.builds fs gs (arrayType node o scope) (arrayType node' o scope) := by
  unfold itemSpots at h
  unfold arrayType
  split
  · next tuple hitems =>
    simp only [hitems, List.forall_mem_map] at h
    refine builds_bind (tuple_types h) fun types => ?_
    split
    · exact builds_pure _
    · exact builds_pure _
  · next items _ hitems =>
    simp only [hitems, List.forall_mem_singleton] at h
    exact builds_bind h fun t => builds_pure _
  · exact builds_pure _

theorem inline_record
    (hfind : ∀ frame ∈ recordFrame? scope.localName scope.typeNs o,
      Frames.find? fs frame.name = Frames.find? gs frame.name)
    (h : ∀ q ∈ recordSpots scope scope.localName scope.typeNs o, L.nodes
      (Frames.inside (recordFrame? scope.localName scope.typeNs o) fs)
      (Frames.inside (recordFrame? scope.localName scope.typeNs o) gs) node node' q) :
    L.builds fs gs (inlineRecord node o scope) (inlineRecord node' o scope) := by
  unfold inlineRecord
  refine builds_bind (builds_lift (object_record hfind h)) fun t => ?_
  split
  · exact builds_neutral (.bind (.gather _) fun _ => .pure _)
  · exact builds_pure _

theorem keyword_type
    (hfind : ∀ frame ∈ keywordFrame? scope o,
      Frames.find? fs frame.name = Frames.find? gs frame.name)
    (h : ∀ q ∈ keywordSpots scope o, L.nodes (Frames.inside (keywordFrame? scope o) fs)
      (Frames.inside (keywordFrame? scope o) gs) node node' q) :
    L.builds fs gs (keywordType node o scope) (keywordType node' o scope) := by
  obtain ⟨k, hk⟩ := said o
  rw [hk.type_eq, hk.type_eq]
  rw [hk.frame_eq] at hfind h
  replace h : ∀ q ∈ k.spots scope o, L.nodes (Frames.inside (k.frame? scope o) fs)
      (Frames.inside (k.frame? scope o) gs) node node' q := fun q hq => h q (hk.spots_subset hq)
  cases k with
  | constant value => exact builds_pure _
  | listed types =>
    refine listed_type fun hs => ?_
    rwa [Keyword.spots, if_pos hs] at h
  | array => exact builds_bind (array_type h) fun t => builds_pure _
  | object => exact inline_record hfind h
  | named type =>
    exact builds_neutral (.bind (neutral_primitive _ _ _ _) fun _ => .pure _)
  | silent => exact builds_pure _

end Keyword

section Node

theorem object_node
    (hfind : ∀ frame ∈ (Spot.mk (.obj o) scope).frame?,
      Frames.find? fs frame.name = Frames.find? gs frame.name)
    (h : ∀ q ∈ (Spot.mk (.obj o) scope).inner, L.nodes
      (Frames.inside (Spot.mk (.obj o) scope).frame? fs)
      (Frames.inside (Spot.mk (.obj o) scope).frame? gs) node node' q)
    (htarget : ∀ reference, (Spot.mk (.obj o) scope).reference? = some reference →
      L.looks reference scope ∧ ∀ located, L.leads reference scope located → L.nodes fs gs node node'
        ((Spot.mk (.obj o) scope).target cfg reference located)) :
    L.builds fs gs (objectNode cfg node o scope) (objectNode cfg node' o scope) := by
  simp only [Spot.inner, Spot.frame?, Spot.reference?, Spot.target] at hfind h htarget
  unfold objectNode
  refine builds_without_conditionals ?_
  dsimp only
  rw [← Spot.plainObject]
  split
  · next hc =>
    have composed : Spot.isOwn o = false := by simp [Spot.isOwn, hc]
    rw [if_pos hc, composed, if_neg Bool.false_ne_true] at h
    exact builds_bind (builds_neutral (.lift (Run.neutral_warn_all _))) fun _ => candidates_type _ h
  · next hc =>
    rw [if_neg hc] at h htarget
    split
    · exact reference_type htarget
    · next hr =>
      have own : Spot.isOwn o = true := by simp [Spot.isOwn, hc, hr]
      rw [if_neg hr, if_pos own] at h
      rw [if_pos own] at hfind
      refine builds_bind (keyword_type hfind h) fun t => ?_
      split
      · exact builds_neutral (.bind (neutral_reuse_registered _) fun _ => .pure _)
      · exact builds_pure _

/-- A comparison holds of a step for a node if it holds of the conversions inside. -/
theorem step {p : Spot}
    (hfind : ∀ frame ∈ p.frame?, Frames.find? fs frame.name = Frames.find? gs frame.name)
    (h : ∀ q ∈ p.inner, L.nodes (Frames.inside p.frame? fs) (Frames.inside p.frame? gs) node node' q)
    (htarget : ∀ reference, p.reference? = some reference →
      L.looks reference p.scope ∧ ∀ located, L.leads reference p.scope located → L.nodes fs gs node node'
        (p.target cfg reference located)) :
    L.nodes fs gs (Convert.step cfg node) (Convert.step cfg node') p := by
  obtain ⟨schema, scope⟩ := p
  have alone : ∀ type, L.builds fs gs (do return some (← primitive scope none none type))
      (do return some (← primitive scope none none type)) :=
    fun _ => builds_neutral (.bind (neutral_primitive _ _ _ _) fun _ => .pure _)
  cases schema with
  | bool b => cases b <;> exact builds_pure _
  | str text => exact alone _
  | arr items => exact alone _
  | obj o => exact object_node hfind h htarget
  | _ => exact builds_neutral (.bind (.lift (Run.neutral_warn _)) fun _ => .pure _)

end Node

end AvroDerive.Convert.Lockstep
