import AvroDerive.Avro.Evict
import AvroDerive.Proofs.InlinedTree

/-! # Reading types after eviction

Eviction leaves types that read well: no name is defined twice, and a reference that eviction puts in
place of a definition comes behind another definition of the name. -/
namespace AvroDerive.AvroType

section Evict

variable {q : Place → String → Prop}

mutual

/-- Eviction is inlining from no list. -/
theorem evict_in_inlined (defined : List String) : (t : AvroType) →
    Inlined [] defined t (evictIn defined t).1 (evictIn defined t).2
  | .record r => by
    rw [evictIn]
    split
    · next hn => exact .repeated rfl hn
    · next hn => exact .record hn (evict_fields_inlined _ r.fields)
  | .enum e => by
    rw [evictIn]
    split
    · next hn => exact .repeated rfl hn
    · next hn => exact .enum hn
  | .fixed f => by
    rw [evictIn]
    split
    · next hn => exact .repeated rfl hn
    · next hn => exact .fixed hn
  | .array items => .array (evict_in_inlined defined items)
  | .map values => .map (evict_in_inlined defined values)
  | .union branches => .union (evict_branches_inlined defined branches)
  | .reference name => by
    by_cases hn : name ∈ defined
    · exact .behind hn
    · exact .foreign hn rfl
  | .primitive _ => .primitive
  | .logical _ _ => .logical

theorem evict_fields_inlined (defined : List String) : (fs : List (Field AvroType)) →
    FieldsInlined [] defined fs (evictFields defined fs).1 (evictFields defined fs).2
  | [] => .nil
  | f :: fs => .cons (evict_in_inlined defined f.type) (evict_fields_inlined _ fs)

theorem evict_branches_inlined (defined : List String) : (ts : List AvroType) →
    BranchesInlined [] defined ts (evictBranches defined ts).1 (evictBranches defined ts).2
  | [] => .nil
  | t :: ts => .cons (evict_in_inlined defined t) (evict_branches_inlined _ ts)

end

theorem evict_in_reads (defined : List String) (place : Place) (t : AvroType)
    (h : AllRefer q place t) :
    Reads q defined ((evictIn defined t).1.mentions place) (evictIn defined t).2 :=
  ((evict_in_inlined defined t).reads (by simp) place h).imp fun _ _ => And.left

/-- A type that is not evicted keeps its name. -/
theorem evict_in_name {defined : List String} {t : AvroType}
    (h : t.isDefinedIn defined = false) : (evictIn defined t).1.qualifiedName? = t.qualifiedName? := by
  cases t with
  | record r =>
    have hn : qualify r.ns r.name ∉ defined := by
      simpa [isDefinedIn, qualifiedName?, name?, ns?] using h
    simp only [evictIn, if_neg hn]
    rfl
  | enum e =>
    have hn : qualify e.ns e.name ∉ defined := by
      simpa [isDefinedIn, qualifiedName?, name?, ns?] using h
    simp only [evictIn, if_neg hn]
  | fixed f =>
    have hn : qualify f.ns f.name ∉ defined := by
      simpa [isDefinedIn, qualifiedName?, name?, ns?] using h
    simp only [evictIn, if_neg hn]
  | _ => rfl

theorem defined_in_iff {names : List String} {t : AvroType} :
    t.isDefinedIn names = true ↔ ∃ name ∈ names, t.qualifiedName? = some name := by
  simp only [isDefinedIn, Option.any_eq_true, decide_eq_true_eq]
  exact exists_congr fun _ => and_comm

/-- Eviction in a list whose types satisfy a condition on their references. -/
theorem evict_from_reads (defined : List String) (ts : List AvroType)
    (h : ∀ t ∈ ts, AllRefer q none t) :
    ∃ defined', Reads q defined ((evictFrom defined ts).flatMap (mentions none)) defined' ∧
      ∀ name ∈ definedNames ts, name ∈ defined' := by
  induction ts generalizing defined with
  | nil => exact ⟨defined, .nil _, by simp⟩
  | cons t ts ih =>
    rw [List.forall_mem_cons] at h
    simp only [evictFrom]
    split
    · next hd =>
      obtain ⟨own, hown, hname⟩ := defined_in_iff.mp hd
      obtain ⟨defined', hr, hk⟩ := ih defined h.2
      refine ⟨defined', hr, ?_⟩
      rw [defined_cons, hname]
      intro name hm
      rcases List.mem_append.mp hm with hm | hm
      · obtain rfl : name = own := by simpa using hm
        exact hr.subset hown
      · exact hk name hm
    · next hd =>
      have first := evict_in_reads defined none t h.1
      obtain ⟨defined', hr, hk⟩ := ih (evictIn defined t).2 h.2
      refine ⟨defined', first.append hr, ?_⟩
      rw [defined_cons]
      intro name hm
      rcases List.mem_append.mp hm with hm | hm
      · have hname : t.qualifiedName? = some name := by simpa using hm
        rw [← evict_in_name (by simpa using hd)] at hname
        exact hr.subset (first.mem_defined.mpr (Or.inl (mentions_named hname none)))
      · exact hk name hm

/-- Each type that remains comes from one of the list. When eviction reaches that one, the names of
the types before it are defined, and only names that the result defines up to there. -/
theorem evict_from_split {defined : List String} {ts us vs : List AvroType} {u : AvroType}
    (h : evictFrom defined ts = us ++ u :: vs) :
    ∃ before t after known, ts = before ++ t :: after ∧ u = (evictIn known t).1 ∧
      t.isDefinedIn known = false ∧ defined ++ definedNames before ⊆ known ∧
      ∀ name ∈ known, name ∈ defined ∨ name ∈ introduced (us.flatMap (mentions none)) := by
  induction ts generalizing defined us with
  | nil => simp [evictFrom] at h
  | cons t ts ih =>
    simp only [evictFrom] at h
    split at h
    · next hd =>
      obtain ⟨own, hown, hname⟩ := defined_in_iff.mp hd
      obtain ⟨before, t', after, known, rfl, hu, hk, hb, hi⟩ := ih h
      rw [List.append_subset] at hb
      refine ⟨t :: before, t', after, known, rfl, hu, hk, ?_, hi⟩
      rw [List.append_subset, defined_cons, List.append_subset, hname]
      refine ⟨hb.1, ?_, hb.2⟩
      intro name hm
      obtain rfl : name = own := by simpa using hm
      exact hb.1 hown
    · next hd =>
      rw [Bool.not_eq_true] at hd
      cases us with
      | nil =>
        obtain ⟨hu, -⟩ := List.cons.inj h
        exact ⟨[], t, ts, defined, rfl, hu.symm, hd, by simp, fun _ => Or.inl⟩
      | cons u' us =>
        obtain ⟨rfl, hrest⟩ := List.cons.inj h
        obtain ⟨before, t', after, known, rfl, hu, hk, hb, hi⟩ := ih hrest
        have first : Reads (fun _ _ => True) defined ((evictIn defined t).1.mentions none) _ :=
          evict_in_reads defined none t fun _ _ _ => trivial
        rw [List.append_subset] at hb
        refine ⟨t :: before, t', after, known, rfl, hu, hk, ?_, ?_⟩
        · rw [List.append_subset, defined_cons, List.append_subset]
          refine ⟨fun _ hm => hb.1 (first.subset hm), ?_, hb.2⟩
          intro name hm
          have hname : t.qualifiedName? = some name := by simpa using hm
          rw [← evict_in_name hd] at hname
          exact hb.1 (first.mem_defined.mpr (Or.inl (mentions_named hname none)))
        · intro name hm
          rw [List.flatMap_cons, introduced_append, List.mem_append]
          rcases hi name hm with hm | hm
          · rcases first.mem_defined.mp hm with hm | hm
            · exact Or.inr (Or.inl hm)
            · exact Or.inl hm
          · exact Or.inr (Or.inr hm)

end Evict

end AvroDerive.AvroType
