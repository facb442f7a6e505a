import AvroDerive.Proofs.KeywordType
import AvroDerive.Proofs.NodeReference
import AvroDerive.Proofs.OrderlyRecord

/-! # Nodes keep states orderly

Every node gathers the names that its type refers to, up to those that it takes over with a type
that is shared. A fragment that cannot be found or read stops a conversion between any two steps. -/
namespace AvroDerive.Convert

open AvroType Json Schema

section Leaf

variable {s s' : State} {names names' : List String} {scope : Scope}

theorem primitive_orderly (format : Option String) (values : Option (List Json)) (type : Json)
    (hs : Orderly s) : BuildsOrderly (primitive scope format values type) names s Made := by
  unfold primitive
  refine .bind (.dependAll hs _) ?_
  rintro _ names₁ _ hs₁ - - ⟨hn, rfl⟩
  refine .pure hs₁ (.of_not_record ?_ (OfKeyword.not_record (primitive_type_of_keyword _ _ _)))
  exact (primitive_type_refer format values type).imp fun _ n h => Or.inl (hn h.1)

theorem Made.clear {r : Record AvroType} (h : RecordMade r s) (hn : r.dependencies ⊆ names) :
    Made (AvroType.record r).clearDependencies names s where
  refer := (all_refer_clear.mpr h.refer).imp fun _ _ h => h.mono (.refl s) hn
  own := rfl
  top ht r' hr' := by
    simp only [clearDependencies, AvroType.record.injEq] at hr'
    rw [← hr', clear_fields_eq]
    refine List.forall_mem_map.mpr fun f hf => ?_
    exact all_refer_clear.mpr ((h.top ht f hf).imp fun _ _ h => h.mono (.refl s) hn)

theorem name_type_own (o : Object) (scope : Scope) (t : AvroType) :
    (nameType o scope t).ownDependencies = t.ownDependencies := by
  cases t with
  | record r =>
    cases hd : description? o <;> cases hn : r.ns <;>
      simp [nameType, hd, hn, isNamed, isEnum, withDocIfMissing, ns?, withNs, ownDependencies]
  | enum e =>
    obtain ⟨e', he'⟩ := name_type_enum scope o e
    rw [he']
    rfl
  | fixed f =>
    obtain ⟨f', hf'⟩ := name_type_fixed scope o f
    rw [hf']
    rfl
  | _ => rw [name_type_unnamed o rfl]

theorem Made.named {t : AvroType} (h : Made t names s) (o : Object) (scope : Scope) :
    Made (nameType o scope t) names s := by
  have own := (name_type_own o scope t).trans h.own
  cases t with
  | record r =>
    obtain ⟨r', hr', hname, hfields, -⟩ := name_type_record scope o r
    have refer := all_refer_record.mp h.refer
    rw [← hname, ← hfields] at refer
    refine ⟨hr' ▸ all_refer_record.mpr refer, own, fun ht r'' hr'' => ?_⟩
    rw [hr', AvroType.record.injEq] at hr''
    rw [← hr'', hfields]
    exact h.top ht r rfl
  | enum e =>
    obtain ⟨e', he'⟩ := name_type_enum scope o e
    exact he' ▸ .of_not_record all_refer_enum rfl
  | fixed f =>
    obtain ⟨f', hf'⟩ := name_type_fixed scope o f
    exact hf' ▸ .of_not_record all_refer_fixed rfl
  | _ =>
    rw [name_type_unnamed o rfl]
    exact h

theorem reuse_registered_orderly {t : AvroType} (hs : Orderly s) (ht : Made t names s) :
    BuildsOrderly (reuseRegistered t) names s Made := by
  unfold reuseRegistered
  split
  · refine .bind (.getThe hs) ?_
    rintro _ _ _ - - - ⟨rfl, rfl, rfl⟩
    split
    · next registered hr =>
      refine .bind (.depend hs registered) ?_
      rintro _ names₁ _ hs₁ - - ⟨hm, rfl⟩
      exact .pure hs₁ (.of_not_record (all_refer_reference.mpr (Or.inl hm)) rfl)
    · exact .pure hs ht
  · exact .pure hs ht

end Leaf

section Import

variable {cfg : Setting} {s s' : State} {names names' : List String} {scope : Scope}
  {node : NodeConverter}

/-- A shared type that is used again refers to names that it brings along. -/
theorem reuse_imported_orderly (hs : Orderly s) {key : String} {i : Imported}
    (hi : Imports.get? s.imports key = some i) :
    BuildsOrderly (reuseImported i) names s Made := by
  cases i with
  | named name =>
    refine .bind (.depend hs name) ?_
    rintro _ names₁ _ hs₁ - - ⟨hm, rfl⟩
    exact .pure hs₁ (.of_not_record (all_refer_reference.mpr (Or.inl hm)) rfl)
  | inline t =>
    have hm : (key, some (Imported.inline t)) ∈ s.imports := by
      obtain ⟨before, after, hsplit, -⟩ :=
        List.lookup_eq_some_iff.mp (Option.join_eq_some_iff.mp hi)
      simp [hsplit]
    refine .pure hs (.of_not_record (fun p n hr => ?_) (hs.inline key t hm))
    exact Or.inr (Or.inl ⟨key, t, p, hm, hr⟩)

theorem fetch_document_orderly (cfg : Setting) (url : Url) (hs : Orderly s) :
    StaysOrderly (fetchDocument cfg url) s fun _ _ => True := by
  unfold fetchDocument
  refine .bind (.get hs) ?_
  rintro _ _ - - ⟨rfl, rfl⟩
  split
  · exact .pure hs trivial
  · split
    · exact .fail hs
    · split
      · exact .fail hs
      · refine .bind (.modify (hs.aside s.warnings _)
          ⟨⟨List.prefix_refl _, List.suffix_refl _⟩, rfl⟩) ?_
        intro _ s₁ hs₁ _ _
        exact .pure hs₁ trivial

theorem locate_orderly (cfg : Setting) (reference : String) (scope : Scope) (hs : Orderly s) :
    StaysOrderly (locate cfg reference scope) s fun _ _ => True := by
  unfold locate
  split
  · split
    · exact .pure hs trivial
    · exact .fail hs
  · split
    · exact .fail hs
    · refine .bind (fetch_document_orderly cfg _ hs) ?_
      intro document s₁ hs₁ _ _
      split
      · exact .pure hs₁ trivial
      · exact .fail hs₁

theorem settle_orderly (key reference expected : String) {t : Option AvroType}
    {inner : List String} (hs : Orderly s) (ht : MaybeMade t inner s) :
    BuildsOrderly (settle key reference expected scope t inner) names s Made := by
  unfold settle
  cases t with
  | none =>
    refine .bind (.lift (.forget hs key)) ?_
    rintro _ _ s₁ hs₁ - - ⟨rfl, -⟩
    refine .bind (.lift (.warn hs₁ _)) ?_
    rintro _ _ s₂ hs₂ - - ⟨rfl, -⟩
    exact .pure hs₂ made_generic
  | some t =>
    have made := ht t rfl
    dsimp only
    split
    · next hkind =>
      split
      · have listed : t.AllRefer (Listed s (inner ++ t.ownDependencies)) none :=
          made.refer.imp fun _ _ h => h.mono (.refl s) (List.subset_append_left _ _)
        refine .bind (.lift (.register hs hkind (made.own ▸ List.nodup_nil) listed)) ?_
        rintro name _ s₁ hs₁ - - ⟨rfl, -⟩
        refine .bind (.lift (.remember hs₁ key (by simp))) ?_
        rintro _ _ s₂ hs₂ - - ⟨rfl, -⟩
        refine .bind (.depend hs₂ name) ?_
        rintro _ names₃ _ hs₃ - - ⟨hm, rfl⟩
        exact .pure hs₃ (.of_not_record (all_refer_reference.mpr (Or.inl hm)) rfl)
      · refine .bind (.lift (.forget hs key)) ?_
        rintro _ _ s₁ hs₁ hg₁ - ⟨rfl, -⟩
        refine .bind (.dependAll hs₁ inner) ?_
        rintro _ names₂ _ hs₂ - - ⟨hn, rfl⟩
        exact .pure hs₂ (made.mono hg₁ hn)
    · next hkind =>
      rw [Bool.not_eq_true, Bool.or_eq_false_iff] at hkind
      have rest : ∀ i : Imported, (∀ u, i = .inline u → u.isRecord = false) →
          BuildsOrderly (do
            Run.remember key i
            Build.dependAll inner
            return t) names s Made := by
        intro i hi
        refine .bind (.lift (.remember hs key hi)) ?_
        rintro _ _ s₁ hs₁ hg₁ - ⟨rfl, -⟩
        refine .bind (.dependAll hs₁ inner) ?_
        rintro _ names₂ _ hs₂ - - ⟨hn, rfl⟩
        exact .pure hs₂ (made.mono hg₁ hn)
      split
      · exact rest _ (by simp)
      · refine rest _ fun u hu => ?_
        obtain rfl := Imported.inline.inj hu
        exact hkind.1

theorem import_fragment_orderly (hnode : NodeOrderly node) (key reference : String)
    (located : Located) (hs : Orderly s) :
    BuildsOrderly (importFragment cfg node key reference located scope) names s Made := by
  unfold importFragment
  dsimp only
  split
  · refine .bind (.lift (.remember hs key (by simp))) ?_
    rintro _ names₁ s₁ hs₁ - - -
    refine .bind (.lift (.apart (hnode _ _ _ _ hs₁))) ?_
    rintro ⟨t, gathered⟩ _ s₂ hs₂ - - ⟨rfl, ht⟩
    exact settle_orderly key reference _ hs₂ ht
  · refine .bind (.lift (.apart (hnode _ _ _ _ hs))) ?_
    rintro ⟨t, gathered⟩ _ s₁ hs₁ - - ⟨rfl, ht⟩
    exact settle_orderly key reference _ hs₁ ht

theorem reference_type_orderly (hnode : NodeOrderly node) (o : Object) (hs : Orderly s) :
    BuildsOrderly (referenceType cfg node o scope) names s MaybeMade := by
  unfold referenceType
  split
  · refine .bind (.lift (.warn hs _)) ?_
    rintro _ _ s₁ hs₁ - - ⟨rfl, -⟩
    exact .pure hs₁ made_generic.maybe
  · refine .bind (.lift (.imported hs _)) ?_
    rintro i _ _ - - - ⟨rfl, hi, rfl⟩
    split
    · refine .bind (reuse_imported_orderly hs hi.symm) ?_
      intro t names₁ s₁ hs₁ _ _ ht
      exact .pure hs₁ ht.maybe
    · refine .bind (.lift (locate_orderly cfg _ scope hs)) ?_
      rintro located _ s₁ hs₁ - - ⟨rfl, -⟩
      split
      · refine .bind (import_fragment_orderly hnode _ _ located hs₁) ?_
        intro t names₁ s₂ hs₂ _ _ ht
        exact .pure hs₂ ht.maybe
      · dsimp only
        refine .bind (.lift (.warnAll hs₁ _)) ?_
        rintro _ _ s₂ hs₂ - - ⟨rfl, -⟩
        exact hnode _ _ _ _ hs₂

end Import

section Node

variable {cfg : Setting} {s s' : State} {names names' : List String} {scope : Scope}
  {node : NodeConverter}

theorem alternative_types_orderly (hnode : NodeOrderly node) (candidates : List Json) (n : Nat)
    (hs : Orderly s) : BuildsOrderly (alternativeTypes node scope n candidates) names s
      fun types names' s' => ∀ t ∈ types, Made t names' s' := by
  induction candidates generalizing n s names with
  | nil =>
    rw [alternativeTypes]
    exact .pure hs (by simp)
  | cons candidate candidates ih =>
    rw [alternativeTypes]
    refine .bind (hnode _ _ _ _ hs) ?_
    intro t names₁ s₁ hs₁ hg₁ hn₁ ht
    refine .bind (ih _ hs₁) ?_
    intro types names₂ s₂ hs₂ hg₂ hn₂ htypes
    refine .pure hs₂ (List.forall_mem_append.mpr ⟨?_, htypes⟩)
    intro u hu
    obtain ⟨hu, -⟩ := Option.filter_eq_some_iff.mp (Option.mem_toList.mp hu)
    exact (ht u hu).mono hg₂ hn₂

theorem candidates_type_orderly (hnode : NodeOrderly node) (keepEmpty : Bool)
    (candidates : List Json) (hs : Orderly s) :
    BuildsOrderly (candidatesType node keepEmpty scope candidates) names s MaybeMade := by
  unfold candidatesType
  split
  · refine .bind (hnode _ _ _ _ hs) ?_
    intro t names₁ s₁ hs₁ _ _ ht
    refine .pure hs₁ ?_
    split
    · exact ht
    · exact (useful_or_generic_made ht).maybe
  · refine .bind (alternative_types_orderly hnode candidates 0 hs) ?_
    intro types names₁ s₁ hs₁ _ _ htypes
    split
    · exact .pure hs₁ maybe_made_none
    · next t => exact .pure hs₁ (htypes t (List.mem_singleton_self t)).maybe
    · refine .pure hs₁ (Made.maybe (.of_not_record ?_ rfl))
      exact all_refer_union.mpr (flatten_refer listed_movable fun t ht => (htypes t ht).refer)

theorem listed_type_orderly (hnode : NodeOrderly node) (types : List Json) (o : Object)
    (hs : Orderly s) : BuildsOrderly (listedType node types o scope) names s MaybeMade := by
  unfold listedType
  split
  · dsimp only
    have finish : ∀ {t : Option AvroType} {names : List String} {s : State}, Orderly s →
        MaybeMade t names s → BuildsOrderly (if types.any isNullName = true then
          pure (t.map fun t => AvroType.unionOf [.null, t]) else pure t) names s MaybeMade := by
      intro t names s hs ht
      split
      · refine .pure hs fun u hu => ?_
        obtain ⟨t', rfl, rfl⟩ := Option.map_eq_some_iff.mp hu
        refine .of_not_record (union_of_refer listed_movable ?_)
          (not_record_of_unnamed (union_of_null t'))
        rw [List.forall_mem_cons, List.forall_mem_singleton]
        exact ⟨all_refer_primitive, (ht t' rfl).refer⟩
      · exact .pure hs ht
    split
    · refine .bind (hnode _ _ _ _ hs) ?_
      intro t names₁ s₁ hs₁ _ _ ht
      exact finish hs₁ ht
    · refine .bind (candidates_type_orderly hnode false _ hs) ?_
      intro t names₁ s₁ hs₁ _ _ ht
      exact finish hs₁ ht
  · refine .bind (primitive_orderly _ _ _ hs) ?_
    intro t names₁ s₁ hs₁ _ _ ht
    exact .pure hs₁ ht.maybe

theorem tuple_types_orderly (hnode : NodeOrderly node) (items : List Json) (hs : Orderly s) :
    BuildsOrderly (tupleTypes node scope items) names s
      fun types names' s' => ∀ t ∈ types, t.AllRefer (Listed s' names') none := by
  induction items generalizing s names with
  | nil =>
    rw [tupleTypes]
    exact .pure hs (by simp)
  | cons item items ih =>
    rw [tupleTypes]
    refine .bind (hnode _ _ _ _ hs) ?_
    intro t names₁ s₁ hs₁ hg₁ hn₁ ht
    refine .bind (ih hs₁) ?_
    intro types names₂ s₂ hs₂ hg₂ hn₂ htypes
    refine .pure hs₂ (List.forall_mem_append.mpr ⟨?_, htypes⟩)
    exact fun u hu => ((ht u (Option.mem_toList.mp hu)).mono hg₂ hn₂).refer

theorem array_type_orderly (hnode : NodeOrderly node) (o : Object) (hs : Orderly s) :
    BuildsOrderly (arrayType node o scope) names s Made := by
  have generic_array : ∀ {names : List String} {s : State}, Made (.array .generic) names s :=
    .of_not_record (all_refer_array.mpr generic_refer) rfl
  unfold arrayType
  split
  · refine .bind (tuple_types_orderly hnode _ hs) ?_
    intro types names₁ s₁ hs₁ _ _ htypes
    split
    · exact .pure hs₁ generic_array
    · exact .pure hs₁ (.of_not_record (all_refer_array.mpr
        (union_of_refer listed_movable htypes)) rfl)
  · refine .bind (hnode _ _ _ _ hs) ?_
    intro t names₁ s₁ hs₁ _ _ ht
    exact .pure hs₁ (.of_not_record (all_refer_array.mpr (or_generic_listed ht)) rfl)
  · exact .pure hs generic_array

/-- Where no composition keywords are, a record may also be made inside another one. -/
theorem inline_record_orderly (hnode : NodeOrderly node) {o : Object}
    (hplain : hasComposition (unconditional o) = false) (hs : Orderly s) :
    BuildsOrderly (inlineRecord node o scope) names s MaybeMade := by
  unfold inlineRecord
  refine .bind (.lift (object_record_orderly hnode _ _ o hs (by simp [hplain]))) ?_
  rintro t _ s₁ hs₁ - - ⟨rfl, ht⟩
  cases t with
  | none => exact .pure hs₁ maybe_made_none
  | some u =>
    obtain ⟨r, rfl, hr⟩ := ht u rfl
    refine .bind (.lift_names hs₁ _) ?_
    rintro _ names₂ _ hs₂ - - ⟨hn, rfl⟩
    have own : r.dependencies ⊆ names₂ := fun n h => hn (List.mem_append_left _ h)
    exact .pure hs₂ (Made.clear hr own).maybe

theorem keyword_type_orderly (hnode : NodeOrderly node) {o : Object}
    (hplain : hasComposition (unconditional o) = false) (hs : Orderly s) :
    BuildsOrderly (keywordType node o scope) names s MaybeMade := by
  have wrapped : ∀ {x : Build AvroType}, BuildsOrderly x names s Made →
      BuildsOrderly (do return some (← x)) names s MaybeMade := by
    intro x hx
    refine .bind hx ?_
    intro t names₁ s₁ hs₁ _ _ ht
    exact .pure hs₁ ht.maybe
  obtain ⟨k, hk⟩ := said o
  rw [hk.type_eq]
  cases k with
  | constant value =>
    refine .pure hs (Made.maybe (.of_not_record (constant_type_refer _) ?_))
    unfold constantType
    split <;> rfl
  | listed types => exact listed_type_orderly hnode _ o hs
  | array => exact wrapped (array_type_orderly hnode o hs)
  | object => exact inline_record_orderly hnode hplain hs
  | named type => exact wrapped (primitive_orderly _ _ _ hs)
  | silent => exact .pure hs maybe_made_none

theorem object_node_orderly (hnode : NodeOrderly node) (o : Object) (hs : Orderly s) :
    BuildsOrderly (objectNode cfg node o scope) names s MaybeMade := by
  unfold objectNode
  refine .bind (.lift (without_conditionals_orderly o hs)) ?_
  rintro o' _ s₁ hs₁ - - ⟨rfl, rfl⟩
  split
  · dsimp only
    refine .bind (.lift (.warnAll hs₁ _)) ?_
    rintro _ _ s₂ hs₂ - - ⟨rfl, -⟩
    exact candidates_type_orderly hnode _ _ hs₂
  · next hc =>
    rw [Bool.not_eq_true] at hc
    dsimp only
    split
    · exact reference_type_orderly hnode _ hs₁
    · refine .bind (keyword_type_orderly hnode (with_object_plain hc) hs₁) ?_
      intro t names₂ s₂ hs₂ _ _ ht
      cases t with
      | none => exact .pure hs₂ maybe_made_none
      | some t =>
        refine .bind (reuse_registered_orderly hs₂ ((ht t rfl).named _ _)) ?_
        intro u names₃ s₃ hs₃ _ _ hu
        exact .pure hs₃ hu.maybe

/-- A warning in place of a type. -/
theorem generic_orderly (hs : Orderly s) (w : Warning) : BuildsOrderly (do
    Run.warn w
    return some AvroType.generic) names s MaybeMade := by
  refine .bind (.lift (.warn hs w)) ?_
  rintro _ _ s₁ hs₁ - - ⟨rfl, -⟩
  exact .pure hs₁ made_generic.maybe

/-- One level of nodes keeps states orderly if the levels below it do. -/
theorem step_orderly (hnode : NodeOrderly node) : NodeOrderly (step cfg node) := by
  have keyword : ∀ {scope : Scope} {names : List String} {s : State} (type : Json), Orderly s →
      BuildsOrderly (do return some (← primitive scope none none type)) names s MaybeMade := by
    intro scope names s type hs
    refine .bind (primitive_orderly _ _ _ hs) ?_
    intro t names₁ s₁ hs₁ _ _ ht
    exact .pure hs₁ ht.maybe
  intro schema scope names s hs
  cases schema with
  | bool b =>
    cases b with
    | true => exact .pure hs made_generic.maybe
    | false => exact .pure hs maybe_made_none
  | str text => exact keyword _ hs
  | arr items => exact keyword _ hs
  | obj o => exact object_node_orderly hnode o hs
  | null => exact generic_orderly hs _
  | num n => exact generic_orderly hs _

theorem node_within_orderly (cfg : Setting) (levels : Nat) :
    NodeOrderly (nodeWithin cfg levels) := by
  induction levels with
  | zero => exact fun _ _ _ _ hs => generic_orderly hs _
  | succ levels ih =>
    intro schema scope names s hs
    rw [nodeWithin]
    dsimp only
    split
    · exact generic_orderly hs _
    · exact step_orderly ih schema scope names s hs

/-- Every node keeps states orderly. -/
theorem node_orderly (cfg : Setting) : NodeOrderly (Convert.node cfg) := node_within_orderly cfg _

end Node

end AvroDerive.Convert
