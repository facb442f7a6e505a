import AvroDerive.Avro.Generic
import AvroDerive.Avro.Union
import AvroDerive.Convert.Record
import AvroDerive.Proofs.Mention

/-! # References in unions and merged types

Flattening and merging move references from their places: into the branches of a union, and from a
record into one whose name has its name as a part. A condition that survives such moves holds of the
merged type if it holds of its parts. -/
namespace AvroDerive.AvroType

/-- The condition is no harder inside a field than outside of records, and no harder in a record
whose name has the name of the former one as a part. -/
structure Movable (q : Place → String → Prop) : Prop where
  into_field : ∀ place name, q none name → q place name
  renamed : ∀ front owner back field name, q (some (owner, field)) name →
    q (some (front ++ owner ++ back, field)) name

section Merged

variable {q : Place → String → Prop} {place : Place}

theorem Movable.first (hq : Movable q) {owner field name : String} (back : String)
    (h : q (some (owner, field)) name) : q (some (owner ++ back, field)) name := by
  have := hq.renamed "" owner back field name h
  rwa [String.empty_append] at this

theorem Movable.second (hq : Movable q) {owner field name : String} (front : String)
    (h : q (some (owner, field)) name) : q (some (front ++ owner, field)) name := by
  have := hq.renamed front owner "" field name h
  rwa [String.append_empty] at this

mutual

/-- A type moves from one place to another if the references do that stand in the place. -/
theorem AllRefer.moved {place' : Place} (hq : ∀ name, q place name → q place' name) :
    (t : AvroType) → AllRefer q place t → AllRefer q place' t
  | .reference name, h => by
    rw [all_refer_reference] at h ⊢
    exact hq name h
  | .union branches, h => by
    rw [all_refer_union] at h ⊢
    exact branches_moved hq branches h
  | .record r, h => h.named rfl _
  | .array _, h => h
  | .map _, h => h
  | .primitive _, _ => all_refer_primitive
  | .logical _ _, _ => all_refer_logical
  | .fixed _, _ => all_refer_fixed
  | .enum _, _ => all_refer_enum

theorem branches_moved {place' : Place} (hq : ∀ name, q place name → q place' name) :
    (ts : List AvroType) → (∀ t ∈ ts, AllRefer q place t) → ∀ t ∈ ts, AllRefer q place' t
  | [], _ => by simp
  | t :: ts, h => by
    rw [List.forall_mem_cons] at h ⊢
    exact ⟨AllRefer.moved hq t h.1, branches_moved hq ts h.2⟩

end

theorem AllRefer.into_field (hq : Movable q) (place : Place) {t : AvroType}
    (h : AllRefer q none t) : AllRefer q place t :=
  AllRefer.moved (hq.into_field place) t h

mutual

theorem leaves_refer : (t : AvroType) → AllRefer q place t → ∀ u ∈ t.leaves, AllRefer q place u
  | .union branches, h => by
    rw [all_refer_union] at h
    simp only [leaves]
    exact branch_leaves_refer branches h
  | .reference _, h | .record _, h | .array _, h | .map _, h | .primitive _, h | .logical _ _, h
  | .fixed _, h | .enum _, h => by
    simpa only [leaves, List.forall_mem_singleton] using h

theorem branch_leaves_refer : (ts : List AvroType) → (∀ t ∈ ts, AllRefer q place t) →
    ∀ u ∈ branchLeaves ts, AllRefer q place u
  | [], _ => by simp [branchLeaves]
  | t :: ts, h => by
    rw [List.forall_mem_cons] at h
    simp only [branchLeaves, List.forall_mem_append]
    exact ⟨leaves_refer t h.1, branch_leaves_refer ts h.2⟩

end

/-- Joining two contents keeps the condition. -/
def Keeps (q : Place → String → Prop) (join : AvroType → AvroType → AvroType) : Prop :=
  ∀ a b, AllRefer q none a → AllRefer q none b → AllRefer q none (join a b)

variable {join : AvroType → AvroType → AvroType}

theorem join_into_refer (hj : Keeps q join) {content? : AvroType → Option AvroType}
    {wrap : AvroType → AvroType} (hw : ∀ t, AllRefer q place (wrap t) ↔ AllRefer q none t)
    (hc : ∀ t c, content? t = some c → t = wrap c) {content : AvroType}
    (hcontent : AllRefer q none content) {ts us : List AvroType}
    (hts : ∀ t ∈ ts, AllRefer q place t) (h : joinInto content? wrap join content ts = some us) :
    ∀ t ∈ us, AllRefer q place t := by
  induction ts generalizing us with
  | nil => simp [joinInto] at h
  | cons t ts ih =>
    rw [List.forall_mem_cons] at hts
    simp only [joinInto] at h
    split at h
    · next c hcc =>
      obtain rfl := Option.some.inj h
      obtain rfl := hc t c hcc
      rw [List.forall_mem_cons, hw]
      exact ⟨hj _ _ ((hw c).mp hts.1) hcontent, hts.2⟩
    · obtain ⟨rest, hr, rfl⟩ := Option.map_eq_some_iff.mp h
      rw [List.forall_mem_cons]
      exact ⟨hts.1, ih hts.2 hr⟩

theorem add_branch_refer (hj : Keeps q join) {ts : List AvroType} {t : AvroType}
    (hts : ∀ t ∈ ts, AllRefer q place t) (ht : AllRefer q place t) :
    ∀ u ∈ addBranch join ts t, AllRefer q place u := by
  have appended : ∀ u ∈ ts ++ [t], AllRefer q place u := by
    rw [List.forall_mem_append, List.forall_mem_singleton]
    exact ⟨hts, ht⟩
  cases t with
  | array items =>
    simp only [addBranch]
    cases h : joinInto arrayItems? .array join items ts with
    | none => simpa using appended
    | some us =>
      refine join_into_refer hj (fun _ => all_refer_array) ?_ (all_refer_array.mp ht) hts h
      intro t c hc
      cases t <;> simp_all [arrayItems?]
  | map values =>
    simp only [addBranch]
    cases h : joinInto mapValues? .map join values ts with
    | none => simpa using appended
    | some us =>
      refine join_into_refer hj (fun _ => all_refer_map) ?_ (all_refer_map.mp ht) hts h
      intro t c hc
      cases t <;> simp_all [mapValues?]
  | _ => exact appended

theorem flatten_with_refer (hj : Keeps q join) {ts : List AvroType}
    (hts : ∀ t ∈ ts, AllRefer q place t) : ∀ t ∈ flattenWith join ts, AllRefer q place t := by
  have fold : ∀ (us acc : List AvroType), (∀ t ∈ acc, AllRefer q place t) →
      (∀ t ∈ us, AllRefer q place t) → ∀ t ∈ us.foldl (addBranch join) acc,
        AllRefer q place t := by
    intro us
    induction us with
    | nil => exact fun acc hacc _ => hacc
    | cons u us ih =>
      intro acc hacc hus
      rw [List.forall_mem_cons] at hus
      exact ih _ (add_branch_refer hj hacc hus.1) hus.2
  refine fold _ [] (by simp) ?_
  intro t ht
  exact branch_leaves_refer ts hts t (mem_distinct.mp ht)

theorem unwrap_refer {ts : List AvroType} (hts : ∀ t ∈ ts, AllRefer q place t) :
    AllRefer q place (unwrap ts) := by
  unfold unwrap
  split
  · exact hts _ (List.mem_singleton_self _)
  · exact all_refer_union.mpr hts

theorem merge_field_refer (hj : Keeps q join) {owner : String} {field : Field AvroType}
    (hf : AllRefer q (some (owner, field.name)) field.type) {fs : List (Field AvroType)}
    (hfs : ∀ f ∈ fs, AllRefer q (some (owner, f.name)) f.type) :
    ∀ f ∈ mergeField join field fs, AllRefer q (some (owner, f.name)) f.type := by
  induction fs with
  | nil => simpa [mergeField] using hf
  | cons g fs ih =>
    rw [List.forall_mem_cons] at hfs
    simp only [mergeField]
    split
    · next hn =>
      rw [List.forall_mem_cons]
      refine ⟨?_, hfs.2⟩
      simp only
      split
      · exact hfs.1
      · rw [all_refer_union]
        refine flatten_with_refer hj ?_
        rw [List.forall_mem_cons, List.forall_mem_singleton, hn]
        exact ⟨hn ▸ hfs.1, hf⟩
    · rw [List.forall_mem_cons]
      exact ⟨hfs.1, ih hfs.2⟩

/-- Each of the two names is a part of the name of the merged type. -/
theorem merged_name_parts (a b : String) : (∃ back, mergedName none a b = a ++ back) ∧
    ∃ front, mergedName none a b = front ++ b := by
  by_cases h : a = b
  · subst h
    exact ⟨⟨"", by simp [mergedName]⟩, "", by simp [mergedName]⟩
  · exact ⟨⟨b, by simp [mergedName, h]⟩, a, by simp [mergedName, h]⟩

theorem merge_pair_refer (hq : Movable q) (hj : Keeps q join) {r s : Record AvroType}
    (hr : AllRefer q none (.record r)) (hs : AllRefer q none (.record s)) :
    AllRefer q none (.record (mergeRecordPair join none r s)) := by
  rw [all_refer_record] at hr hs ⊢
  obtain ⟨⟨back, hback⟩, front, hfront⟩ := merged_name_parts r.name s.name
  have fold : ∀ (gs fs : List (Field AvroType)),
      (∀ f ∈ fs, AllRefer q (some (mergedName none r.name s.name, f.name)) f.type) →
      (∀ f ∈ gs, AllRefer q (some (mergedName none r.name s.name, f.name)) f.type) →
      ∀ f ∈ gs.foldl (fun fields f => mergeField join f fields) fs,
        AllRefer q (some (mergedName none r.name s.name, f.name)) f.type := by
    intro gs
    induction gs with
    | nil => exact fun fs hfs _ => hfs
    | cons g gs ih =>
      intro fs hfs hgs
      rw [List.forall_mem_cons] at hgs
      exact ih _ (merge_field_refer hj hgs.1 hfs) hgs.2
  refine fold s.fields r.fields ?_ ?_
  · intro f hf
    rw [hback]
    exact (hr f hf).moved fun _ => hq.first back
  · intro f hf
    rw [hfront]
    exact (hs f hf).moved fun _ => hq.second front

/-- Joining at any level keeps a condition that survives the moves. -/
theorem join_at_refer (hq : Movable q) (level : Nat) : Keeps q (joinAt level) := by
  induction level with
  | zero => exact fun a b ha _ => ha
  | succ level ih =>
    intro a b ha hb
    have flat : AllRefer q none (unwrap (flattenWith (joinAt level) [a, b])) := by
      refine unwrap_refer (flatten_with_refer ih ?_)
      rw [List.forall_mem_cons, List.forall_mem_singleton]
      exact ⟨ha, hb⟩
    simp only [joinAt, joinWith]
    split
    · exact ha
    · split
      · have merged := merge_pair_refer hq ih ha hb
        rw [all_refer_record] at merged ⊢
        exact merged
      · exact all_refer_enum
      · exact flat

theorem flatten_refer (hq : Movable q) {ts : List AvroType}
    (hts : ∀ t ∈ ts, AllRefer q place t) : ∀ t ∈ flatten ts, AllRefer q place t :=
  flatten_with_refer (join_at_refer hq _) hts

theorem union_of_refer (hq : Movable q) {ts : List AvroType}
    (hts : ∀ t ∈ ts, AllRefer q place t) : AllRefer q place (unionOf ts) :=
  unwrap_refer (flatten_refer hq hts)

theorem join_into_null {content? : AvroType → Option AvroType}
    {wrap : AvroType → AvroType} (hc : content? null = none) {content : AvroType}
    {ts us : List AvroType} (hts : null ∈ ts)
    (h : joinInto content? wrap join content ts = some us) : null ∈ us := by
  induction ts generalizing us with
  | nil => simp at hts
  | cons t ts ih =>
    simp only [joinInto] at h
    split at h
    · next c hcc =>
      obtain rfl := Option.some.inj h
      rcases List.mem_cons.mp hts with rfl | hts
      · simp [hc] at hcc
      · exact List.mem_cons_of_mem _ hts
    · obtain ⟨rest, hr, rfl⟩ := Option.map_eq_some_iff.mp h
      rcases List.mem_cons.mp hts with rfl | hts
      · exact List.mem_cons_self ..
      · exact List.mem_cons_of_mem _ (ih hts hr)

/-- A branch `null` stays whatever is added. -/
theorem add_branch_null {ts : List AvroType} {t : AvroType} (h : null ∈ ts ∨ t = null) :
    null ∈ addBranch join ts t := by
  have appended : null ∈ ts ++ [t] := by
    rw [List.mem_append, List.mem_singleton]
    exact h.imp_right Eq.symm
  cases t with
  | array items =>
    simp only [addBranch]
    cases hj : joinInto arrayItems? .array join items ts with
    | none => exact appended
    | some us => exact join_into_null rfl (h.resolve_right (by simp [null])) hj
  | map values =>
    simp only [addBranch]
    cases hj : joinInto mapValues? .map join values ts with
    | none => exact appended
    | some us => exact join_into_null rfl (h.resolve_right (by simp [null])) hj
  | _ => exact appended

theorem not_record_of_unnamed {t : AvroType} (h : t.isNamed = false) : t.isRecord = false := by
  cases t with
  | record r => simp [isNamed] at h
  | _ => rfl

/-- A union with `null` shrinks to nothing else. -/
theorem union_with_null (t : AvroType) :
    unionOf [null, t] = null ∨ ∃ branches, unionOf [null, t] = .union branches := by
  have fold : ∀ us acc : List AvroType, null ∈ acc ∨ null ∈ us →
      ∀ join, null ∈ us.foldl (addBranch join) acc := by
    intro us
    induction us with
    | nil => exact fun acc h _ => h.resolve_right List.not_mem_nil
    | cons u us ih =>
      intro acc h join
      refine ih _ ?_ join
      rw [List.mem_cons] at h
      rcases h with h | h | h
      · exact Or.inl (add_branch_null (Or.inl h))
      · exact Or.inl (add_branch_null (Or.inr h.symm))
      · exact Or.inr h
  have hnull : null ∈ flatten [null, t] := by
    refine fold _ [] (Or.inr ?_) _
    rw [mem_distinct]
    exact List.mem_cons_self ..
  unfold unionOf unwrap
  split
  · next u h =>
    rw [h, List.mem_singleton] at hnull
    exact Or.inl hnull.symm
  · exact Or.inr ⟨_, rfl⟩

theorem union_of_null (t : AvroType) : (unionOf [null, t]).isNamed = false := by
  rcases union_with_null t with h | ⟨branches, h⟩
  · rw [h]
    rfl
  · rw [h]
    rfl

theorem nullable_refer {t : AvroType} (h : AllRefer q place t) :
    AllRefer q place (Convert.makeNullable t) := by
  unfold Convert.makeNullable
  split
  · exact h
  · split
    · rw [all_refer_union] at h ⊢
      rw [List.forall_mem_cons]
      exact ⟨all_refer_primitive, h⟩
    · rw [all_refer_union, List.forall_mem_cons, List.forall_mem_singleton]
      exact ⟨all_refer_primitive, h⟩

theorem generic_refer : AllRefer q place generic := by
  intro p name h
  have : Mention.refers p name ∈ generic.mentions place → False := by
    rw [show generic.mentions place = [] by rfl]
    exact List.not_mem_nil
  exact absurd h this

end Merged

end AvroDerive.AvroType
