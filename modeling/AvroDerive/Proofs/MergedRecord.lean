import AvroDerive.Proofs.FlattenedUnion
import AvroDerive.Proofs.RecordField

/-! # Merged records

A merged record has the fields of all records, and a field has the leaves of all fields of its name: no
merge loses what an earlier one has gathered. -/
namespace AvroDerive

namespace AvroType

open Schema

/-- Every leaf of the first type that is no container is one of the second, which has an array, or a map,
if the first one does. -/
structure Within (t u : AvroType) : Prop where
  others : ∀ leaf ∈ t.leaves, leaf.isContainer = false → leaf ∈ u.leaves
  array : (∃ leaf ∈ t.leaves, leaf.isArray = true) → ∃ leaf ∈ u.leaves, leaf.isArray = true
  map : (∃ leaf ∈ t.leaves, leaf.isMap = true) → ∃ leaf ∈ u.leaves, leaf.isMap = true

section Within

variable {join : AvroType → AvroType → AvroType} {t u v : AvroType} {ts : List AvroType}

theorem Within.refl (t : AvroType) : Within t t := ⟨fun _ h _ => h, id, id⟩

theorem Within.trans (h : Within t u) (h' : Within u v) : Within t v :=
  ⟨fun leaf hleaf hother => h'.others leaf (h.others leaf hleaf hother) hother, h'.array ∘ h.array,
    h'.map ∘ h.map⟩

/-- A type is within the union that it is flattened to together with others. -/
theorem within_flattened (h : t ∈ ts) : Within t (.union (flattenWith join ts)) := by
  have leaves : (AvroType.union (flattenWith join ts)).leaves = flattenWith join ts :=
    branch_leaves_of_simple (flat_flatten_with ts).simple
  have leaf : ∀ {q : AvroType → Bool}, (flattenWith join ts).any q = (branchLeaves ts).any q →
      (∃ leaf ∈ t.leaves, q leaf = true) → ∃ leaf ∈ flattenWith join ts, q leaf = true := by
    rintro q hq ⟨leaf, hleaf, hkind⟩
    rw [← List.any_eq_true, hq, List.any_eq_true]
    exact ⟨leaf, mem_branch_leaves.mpr ⟨t, h, hleaf⟩, hkind⟩
  constructor
  · intro leaf hleaf hother
    have kept : leaf ∈ (flattenWith join ts).filter (!·.isContainer) := by
      rw [flatten_with_others, List.mem_eraseDups, List.mem_filter, mem_branch_leaves]
      exact ⟨⟨t, h, hleaf⟩, by simp [hother]⟩
    rw [leaves]
    exact (List.mem_filter.mp kept).1
  · rw [leaves]
    exact leaf (flatten_with_any Added.any_array ts)
  · rw [leaves]
    exact leaf (flatten_with_any Added.any_map ts)

end Within

/-- The field that a field becomes when one of its name is merged into it. -/
def joinedField (join : AvroType → AvroType → AvroType) (f g : Field AvroType) : Field AvroType :=
  { f with
    type := if f.type = g.type then f.type else .union (flattenWith join [f.type, g.type])
    doc := f.doc.or g.doc }

/-- The field stands for the given ones. -/
structure Represents (f : Field AvroType) (gs : List (Field AvroType)) : Prop where
  doc : f.doc = gs.findSome? Field.doc
  within : ∀ g ∈ gs, Within g.type f.type
  same : ∀ t, (∀ g ∈ gs, g.type = t) → f.type = t

/-- The fields `fs` are what the fields `all` come to: one for each name, which stands for all of the
name. -/
structure Gathers (all fs : List (Field AvroType)) : Prop where
  names : fs.map Field.name = distinct (all.map Field.name)
  represents : ∀ f ∈ fs, Represents f (all.filter (·.name = f.name))

section Fields

variable {join : AvroType → AvroType → AvroType} {f g : Field AvroType}
  {fs gs all : List (Field AvroType)}

/-- A field is merged into the one of its name, or comes last. -/
theorem mem_merge_field (hn : (fs.map Field.name).Nodup) (h : f ∈ mergeField join g fs) :
    (f ∈ fs ∧ f.name ≠ g.name) ∨ (f = g ∧ g.name ∉ fs.map Field.name) ∨
      ∃ old ∈ fs, old.name = g.name ∧ f = joinedField join old g := by
  induction fs with
  | nil =>
    obtain rfl := List.mem_singleton.mp h
    exact Or.inr (Or.inl ⟨rfl, List.not_mem_nil⟩)
  | cons old fs ih =>
    rw [List.map_cons, List.nodup_cons] at hn
    rw [mergeField] at h
    split at h
    · next hname =>
      rcases List.mem_cons.mp h with rfl | hf
      · exact Or.inr (Or.inr ⟨old, List.mem_cons_self, hname, rfl⟩)
      · refine Or.inl ⟨List.mem_cons_of_mem _ hf, fun he => hn.1 ?_⟩
        rw [hname, ← he]
        exact List.mem_map_of_mem hf
    · next hname =>
      rcases List.mem_cons.mp h with rfl | hf
      · exact Or.inl ⟨List.mem_cons_self, hname⟩
      · rcases ih hn.2 hf with ⟨hf, hother⟩ | ⟨rfl, hnew⟩ | ⟨old', hold, hname', rfl⟩
        · exact Or.inl ⟨List.mem_cons_of_mem _ hf, hother⟩
        · refine Or.inr (Or.inl ⟨rfl, ?_⟩)
          rw [List.map_cons, List.mem_cons, not_or]
          exact ⟨Ne.symm hname, hnew⟩
        · exact Or.inr (Or.inr ⟨old', List.mem_cons_of_mem _ hold, hname', rfl⟩)

theorem represents_single (g : Field AvroType) : Represents g [g] where
  doc := by cases h : g.doc <;> simp [h]
  within := List.forall_mem_singleton.mpr (.refl _)
  same t ht := ht g (List.mem_singleton_self g)

theorem Represents.joined (h : Represents f gs) (g : Field AvroType) :
    Represents (joinedField join f g) (gs ++ [g]) where
  doc := by
    rw [List.findSome?_append, ← h.doc]
    cases hg : g.doc <;> simp [joinedField, hg]
  within := by
    have step : ∀ t ∈ [f.type, g.type], Within t (joinedField join f g).type := by
      intro t ht
      unfold joinedField
      dsimp only
      split
      · next he =>
        rw [← he, List.mem_cons, List.mem_singleton, or_self] at ht
        exact ht ▸ .refl _
      · exact within_flattened ht
    rw [List.forall_mem_append, List.forall_mem_singleton]
    exact ⟨fun k hk => (h.within k hk).trans (step _ List.mem_cons_self),
      step _ (List.mem_cons_of_mem _ (List.mem_singleton_self _))⟩
  same t ht := by
    rw [List.forall_mem_append, List.forall_mem_singleton] at ht
    have first := h.same t ht.1
    rw [joinedField, if_pos (first.trans ht.2.symm), first]

/-- Merging a field adds it to those that are gathered. -/
theorem Gathers.merge (h : Gathers all fs) (g : Field AvroType) :
    Gathers (all ++ [g]) (mergeField join g fs) where
  names := by
    rw [merge_field_names, h.names, List.map_append, distinct, distinct, addAll, addAll,
      List.foldl_append]
    rfl
  represents f hf := by
    have nodup : (fs.map Field.name).Nodup := h.names ▸ distinct_nodup _
    rw [List.filter_append]
    rcases mem_merge_field nodup hf with ⟨hf, hother⟩ | ⟨rfl, hnew⟩ | ⟨old, hold, hname, rfl⟩
    · rw [List.filter_cons_of_neg (by simpa using Ne.symm hother), List.filter_nil, List.append_nil]
      exact h.represents f hf
    · have none : all.filter (·.name = f.name) = [] := by
        rw [List.filter_eq_nil_iff]
        intro k hk
        rw [decide_eq_true_eq]
        intro he
        rw [h.names, mem_distinct] at hnew
        exact hnew (he ▸ List.mem_map_of_mem hk)
      rw [none, List.filter_cons_of_pos (by simp), List.filter_nil, List.nil_append]
      exact represents_single f
    · have name : (joinedField join old g).name = old.name := rfl
      rw [name, List.filter_cons_of_pos (by simp [hname]), List.filter_nil]
      exact (h.represents old hold).joined g

theorem Gathers.merge_all (h : Gathers all fs) (gs : List (Field AvroType)) :
    Gathers (all ++ gs) (gs.foldl (fun fields f => mergeField join f fields) fs) := by
  induction gs generalizing all fs with
  | nil => rwa [List.append_nil]
  | cons g gs ih =>
    have moved : all ++ g :: gs = (all ++ [g]) ++ gs := by simp
    rw [List.foldl_cons, moved]
    exact ih (h.merge g)

/-- Fields with different names are what they come to themselves. -/
theorem gathers_self (hn : (fs.map Field.name).Nodup) : Gathers fs fs where
  names := (distinct_of_nodup hn).symm
  represents f hf := by
    have alone : fs.filter (·.name = f.name) = [f] := by
      induction fs with
      | nil => simp at hf
      | cons g fs ih =>
        rw [List.map_cons, List.nodup_cons] at hn
        rcases List.mem_cons.mp hf with rfl | hf
        · rw [List.filter_cons_of_pos (by simp), List.filter_eq_nil_iff.mpr]
          intro k hk
          rw [decide_eq_true_eq]
          exact fun he => hn.1 (he ▸ List.mem_map_of_mem hk)
        · have other : g.name ≠ f.name := fun he => hn.1 (he ▸ List.mem_map_of_mem hf)
          rw [List.filter_cons_of_neg (by simpa using other)]
          exact ih hn.2 hf
    rw [alone]
    exact represents_single f

end Fields

section Records

variable {join : AvroType → AvroType → AvroType} {given : Option String} {r : Record AvroType}
  {rs : List (Record AvroType)}

theorem merge_pairs_doc : (rs.foldl (mergeRecordPair join given) r).doc =
    r.doc.or (rs.findSome? Record.doc) := by
  induction rs generalizing r with
  | nil => simp
  | cons s rs ih =>
    rw [List.foldl_cons, ih, mergeRecordPair, Option.or_assoc]
    cases hs : s.doc <;> simp [hs]

theorem gathers_merged {all : List (Field AvroType)} (h : Gathers all r.fields) :
    Gathers (all ++ rs.flatMap Record.fields) (rs.foldl (mergeRecordPair join given) r).fields := by
  induction rs generalizing r all with
  | nil => rwa [List.flatMap_nil, List.append_nil]
  | cons s rs ih =>
    rw [List.foldl_cons, List.flatMap_cons, ← List.append_assoc]
    exact ih (h.merge_all s.fields)

/-- Two or more types that are all records are merged to a record. -/
theorem merge_several (two : 2 ≤ (r :: rs).length) :
    merge given ((r :: rs).map .record) =
      (.record (mergeRecords given (branchesDepth ((r :: rs).map .record)) r rs),
        (r :: rs).flatMap Record.dependencies) := by
  have counted : ((r :: rs).map AvroType.record).filter (!·.isEmptyUnion) =
      (r :: rs).map .record := by
    rw [List.filter_eq_self]
    intro t ht
    obtain ⟨s, -, rfl⟩ := List.mem_map.mp ht
    rfl
  have all : ((r :: rs).map AvroType.record).all isRecord = true := by
    rw [List.all_map, List.all_eq_true]
    exact fun _ _ => rfl
  have listed : records ((r :: rs).map .record) = r :: rs := by
    rw [records, List.filterMap_map]
    exact List.filterMap_some
  obtain ⟨s, rs, rfl⟩ := List.exists_cons_of_length_pos (Nat.succ_le_succ_iff.mp two)
  unfold merge
  rw [counted]
  split
  · next h => simp at h
  · next h => simp at h
  · rw [if_pos all, listed]

end Records

/-- Several records, each with different field names, are merged to a record that has all their field
names once, in the order in which they occur first, and the documentation of the first record that has
some. A field has the documentation of the first field of its name that has some, and its type has the
leaves of all of them; if they have one type, it has that. -/
theorem merged_record_complete (given : Option String) {rs : List (Record AvroType)}
    (two : 2 ≤ rs.length) (distinct : ∀ r ∈ rs, (r.fields.map Field.name).Nodup) :
    ∃ m, (merge given (rs.map .record)).1 = .record m ∧
      (m.fields.map Field.name).Nodup ∧
      m.fields.map Field.name = ((rs.flatMap Record.fields).map Field.name).eraseDups ∧
      m.doc = rs.findSome? Record.doc ∧
      ∀ f ∈ m.fields,
        f.doc = ((rs.flatMap Record.fields).filter (·.name = f.name)).findSome? Field.doc ∧
        (∀ r ∈ rs, ∀ g ∈ r.fields, g.name = f.name → Within g.type f.type) ∧
        ∀ t, (∀ r ∈ rs, ∀ g ∈ r.fields, g.name = f.name → g.type = t) → f.type = t := by
  obtain ⟨r, rest, rfl⟩ := List.exists_cons_of_length_pos (Nat.zero_lt_of_lt two)
  have gathers : Gathers ((r :: rest).flatMap Record.fields)
      (mergeRecords given (branchesDepth ((r :: rest).map .record)) r rest).fields :=
    gathers_merged (gathers_self (distinct r List.mem_cons_self))
  refine ⟨_, congrArg Prod.fst (merge_several two), ?_, ?_, ?_, fun f hf => ?_⟩
  · exact gathers.names ▸ distinct_nodup _
  · exact gathers.names.trans (distinct_eq_eraseDups _)
  · exact merge_pairs_doc.trans (by cases hr : r.doc <;> simp [hr])
  · have represents := gathers.represents f hf
    have mem : ∀ g, g ∈ ((r :: rest).flatMap Record.fields).filter (·.name = f.name) ↔
        ∃ s ∈ r :: rest, g ∈ s.fields ∧ g.name = f.name := by
      intro g
      rw [List.mem_filter, List.mem_flatMap, decide_eq_true_eq]
      grind
    refine ⟨represents.doc, fun s hs g hg hname => ?_, fun t ht => ?_⟩
    · exact represents.within g ((mem g).mpr ⟨s, hs, hg, hname⟩)
    · refine represents.same t fun g hg => ?_
      obtain ⟨s, hs, hg, hname⟩ := (mem g).mp hg
      exact ht s hs g hg hname

/-- Three records that have a field `x`, one of them in a different place, with three types. -/
def measures : List (Record AvroType) :=
  [{ name := "A", ns := none, fields := [{ name := "x", type := .primitive "string" },
      { name := "y", type := .array (.primitive "int") }] },
    { name := "B", ns := none, doc := some "second", fields := [
      { name := "x", type := .union [.primitive "int", .array .null], doc := some "measured" }] },
    { name := "C", ns := none, fields := [{ name := "z", type := .primitive "boolean" },
      { name := "y", type := .array (.primitive "int") },
      { name := "x", type := .union [.primitive "string", .array (.primitive "int")] }] }]

theorem measures_complete : 2 ≤ measures.length ∧
    (∀ r ∈ measures, (r.fields.map Field.name).Nodup) ∧
    ∃ m, (merge none (measures.map .record)).1 = .record m ∧
      m.fields.map Field.name = ["x", "y", "z"] ∧ m.doc = some "second" ∧
      (∀ f ∈ m.fields, f.name = "x" → f.doc = some "measured" ∧
        Within (.union [.primitive "int", .array .null]) f.type) ∧
      ∀ f ∈ m.fields, f.name = "y" → f.type = .array (.primitive "int") := by
  have two : 2 ≤ measures.length := by decide
  have distinct : ∀ r ∈ measures, (r.fields.map Field.name).Nodup := by decide
  obtain ⟨m, hm, -, names, doc, fields⟩ := merged_record_complete none two distinct
  refine ⟨two, distinct, m, hm, names.trans (by decide), doc, fun f hf hname => ?_,
    fun f hf hname => ?_⟩
  · obtain ⟨hdoc, hwithin, -⟩ := fields f hf
    rw [hname] at hdoc hwithin
    exact ⟨hdoc, hwithin measures[1] (List.getElem_mem _) _ List.mem_cons_self rfl⟩
  · refine (fields f hf).2.2 _ fun r hr g hg hname' => ?_
    rw [hname] at hname'
    revert r g
    decide

end AvroType

end AvroDerive
