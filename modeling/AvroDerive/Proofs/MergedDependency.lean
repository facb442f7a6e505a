import AvroDerive.Proofs.TypePart

/-! # Dependencies of merged types

Flattening and merging neither lose nor make up a dependency: every name is one of a record inside the
result, or is handed out, exactly if it was one of the types. Contents are joined level by level, so this
needs that types do not get deeper and that there is a level for each. -/
namespace AvroDerive.AvroType

section Depth

variable {join : AvroType → AvroType → AvroType} {t u : AvroType} {ts branches after : List AvroType}
  {field : Field AvroType} {fs gs : List (Field AvroType)} {n : Nat}

theorem branches_depth_le : branchesDepth ts ≤ n ↔ ∀ t ∈ ts, t.depth ≤ n := by
  induction ts with
  | nil => simp [branchesDepth]
  | cons t ts ih => rw [branchesDepth, Nat.max_le, ih, List.forall_mem_cons]

theorem fields_depth_le : fieldsDepth fs ≤ n ↔ ∀ f ∈ fs, f.type.depth ≤ n := by
  induction fs with
  | nil => simp [fieldsDepth]
  | cons f fs ih => rw [fieldsDepth, Nat.max_le, ih, List.forall_mem_cons]

theorem record_depth_le {r : Record AvroType} :
    (record r).depth ≤ n + 1 ↔ ∀ f ∈ r.fields, f.type.depth ≤ n := by
  rw [depth, Nat.add_le_add_iff_right, fields_depth_le]

theorem records_fields_depth (rs : List (Record AvroType)) :
    ∀ r ∈ rs, ∀ f ∈ r.fields, f.type.depth ≤ branchesDepth (rs.map record) := by
  intro r hr f hf
  have shallow := branches_depth_le.mp le_rfl _ (List.mem_map_of_mem (f := record) hr)
  exact (fields_depth_le.mp le_rfl f hf).trans ((Nat.le_succ _).trans shallow)

mutual

theorem leaf_depth : (t : AvroType) → ∀ u ∈ t.leaves, u.depth ≤ t.depth
  | .union branches, u, hu => branch_leaf_depth branches u hu
  | .record _, u, hu | .array _, u, hu | .map _, u, hu | .primitive _, u, hu
  | .reference _, u, hu | .logical _ _, u, hu | .fixed _, u, hu | .enum _, u, hu => by
    obtain rfl := List.mem_singleton.mp hu
    exact le_rfl

theorem branch_leaf_depth : (ts : List AvroType) → ∀ u ∈ branchLeaves ts, u.depth ≤ branchesDepth ts
  | t :: ts, u, hu => by
    rw [branchLeaves, List.mem_append] at hu
    rw [branchesDepth, le_max_iff]
    exact hu.imp (leaf_depth t u) (branch_leaf_depth ts u)

end

/-- Joining does not make types deeper. -/
def KeepsDepth (join : AvroType → AvroType → AvroType) : Prop :=
  ∀ {n t u}, t.depth ≤ n → u.depth ≤ n → (join t u).depth ≤ n

theorem Added.depth (hj : KeepsDepth join) (h : Added join branches t after)
    (hb : ∀ b ∈ branches, b.depth ≤ n) (ht : t.depth ≤ n) : ∀ b ∈ after, b.depth ≤ n := by
  have wrapped : ∀ {c d : AvroType}, c.depth + 1 ≤ n → d.depth + 1 ≤ n → (join c d).depth + 1 ≤ n := by
    intro c d hc hd
    have joined : (join c d).depth ≤ n - 1 := hj (by omega) (by omega)
    omega
  cases h with
  | last =>
    rw [List.forall_mem_append, List.forall_mem_singleton]
    exact ⟨hb, ht⟩
  | array hsplit =>
    subst hsplit
    rw [List.forall_mem_append, List.forall_mem_cons] at hb ⊢
    exact ⟨hb.1, wrapped hb.2.1 ht, hb.2.2⟩
  | map hsplit =>
    subst hsplit
    rw [List.forall_mem_append, List.forall_mem_cons] at hb ⊢
    exact ⟨hb.1, wrapped hb.2.1 ht, hb.2.2⟩

theorem add_branches_depth (hj : KeepsDepth join) {us : List AvroType}
    (hb : ∀ b ∈ branches, b.depth ≤ n) (hus : ∀ u ∈ us, u.depth ≤ n) :
    ∀ b ∈ us.foldl (addBranch join) branches, b.depth ≤ n := by
  induction us generalizing branches with
  | nil => exact hb
  | cons u us ih =>
    rw [List.forall_mem_cons] at hus
    exact ih ((add_branch_added branches u).depth hj hb hus.1) hus.2

theorem distinct_leaf_depth (hts : ∀ t ∈ ts, t.depth ≤ n) :
    ∀ u ∈ distinct (branchLeaves ts), u.depth ≤ n := fun u hu =>
  (branch_leaf_depth ts u (mem_distinct.mp hu)).trans (branches_depth_le.mpr hts)

theorem flatten_with_depth (hj : KeepsDepth join) (hts : ∀ t ∈ ts, t.depth ≤ n) :
    ∀ b ∈ flattenWith join ts, b.depth ≤ n :=
  add_branches_depth hj (by simp) (distinct_leaf_depth hts)

theorem unwrap_depth (h : ∀ t ∈ ts, t.depth ≤ n) : (unwrap ts).depth ≤ n := by
  unfold unwrap
  split
  · exact h _ (List.mem_singleton_self _)
  · exact branches_depth_le.mpr h

theorem merge_field_depth (hj : KeepsDepth join) (hf : field.type.depth ≤ n)
    (hfs : ∀ f ∈ fs, f.type.depth ≤ n) : ∀ f ∈ mergeField join field fs, f.type.depth ≤ n := by
  induction fs with
  | nil => simpa [mergeField] using hf
  | cons g fs ih =>
    rw [List.forall_mem_cons] at hfs
    rw [mergeField]
    split
    · rw [List.forall_mem_cons]
      refine ⟨?_, hfs.2⟩
      dsimp only
      split
      · exact hfs.1
      · refine branches_depth_le.mpr (flatten_with_depth hj ?_)
        rw [List.forall_mem_cons, List.forall_mem_singleton]
        exact ⟨hfs.1, hf⟩
    · rw [List.forall_mem_cons]
      exact ⟨hfs.1, ih hfs.2⟩

theorem merge_fields_depth (hj : KeepsDepth join) (hgs : ∀ f ∈ gs, f.type.depth ≤ n)
    (hfs : ∀ f ∈ fs, f.type.depth ≤ n) :
    ∀ f ∈ gs.foldl (fun fields f => mergeField join f fields) fs, f.type.depth ≤ n := by
  induction gs generalizing fs with
  | nil => exact hfs
  | cons g gs ih =>
    rw [List.forall_mem_cons] at hgs
    exact ih hgs.2 (merge_field_depth hj hgs.1 hfs)

theorem merge_pairs_depth (hj : KeepsDepth join) {given : Option String} {rs : List (Record AvroType)}
    {r : Record AvroType} (hr : ∀ f ∈ r.fields, f.type.depth ≤ n)
    (hrs : ∀ s ∈ rs, ∀ f ∈ s.fields, f.type.depth ≤ n) :
    ∀ f ∈ (rs.foldl (mergeRecordPair join given) r).fields, f.type.depth ≤ n := by
  induction rs generalizing r with
  | nil => exact hr
  | cons s rs ih =>
    rw [List.forall_mem_cons] at hrs
    exact ih (merge_fields_depth hj hrs.1 hr) hrs.2

theorem join_at_depth (level : Nat) : KeepsDepth (joinAt level) := by
  induction level with
  | zero => exact fun ht _ => ht
  | succ level ih =>
    intro n t u ht hu
    have flattened : (unwrap (flattenWith (joinAt level) [t, u])).depth ≤ n := by
      refine unwrap_depth (flatten_with_depth ih ?_)
      rw [List.forall_mem_cons, List.forall_mem_singleton]
      exact ⟨ht, hu⟩
    simp only [joinAt, joinWith]
    split
    · exact ht
    · split
      · next r s _ =>
        obtain ⟨m, rfl⟩ : ∃ m, n = m + 1 := ⟨n - 1, by rw [depth] at ht; omega⟩
        exact record_depth_le.mpr
          (merge_fields_depth ih (record_depth_le.mp hu) (record_depth_le.mp ht))
      · exact Nat.zero_le n
      · exact flattened

end Depth

section Dependencies

variable {join : AvroType → AvroType → AvroType} {t u : AvroType} {ts branches after : List AvroType}
  {field : Field AvroType} {fs gs : List (Field AvroType)} {level : Nat} {name : String}

theorem branch_dependencies_append (ts us : List AvroType) :
    branchDependencies (ts ++ us) = branchDependencies ts ++ branchDependencies us := by
  induction ts with
  | nil => rfl
  | cons t ts ih => rw [List.cons_append, branchDependencies, branchDependencies, ih, List.append_assoc]

theorem branch_dependencies_single (t : AvroType) : branchDependencies [t] = t.dependencies := by
  rw [branchDependencies, branchDependencies, List.append_nil]

theorem mem_branch_dependencies :
    name ∈ branchDependencies ts ↔ ∃ t ∈ ts, name ∈ t.dependencies := by
  induction ts with
  | nil => simp [branchDependencies]
  | cons t ts ih => simp [branchDependencies, ih]

mutual

theorem leaves_dependencies : (t : AvroType) → branchDependencies t.leaves = t.dependencies
  | .union branches => branch_leaves_dependencies branches
  | .record _ | .array _ | .map _ | .primitive _
  | .reference _ | .logical _ _ | .fixed _ | .enum _ => branch_dependencies_single _

theorem branch_leaves_dependencies : (ts : List AvroType) →
    branchDependencies (branchLeaves ts) = branchDependencies ts
  | [] => rfl
  | t :: ts => by
    rw [branchLeaves, branch_dependencies_append, leaves_dependencies t, branch_leaves_dependencies ts,
      branchDependencies]

end

mutual

theorem clear_dependencies : (t : AvroType) → t.clearDependencies.dependencies = []
  | .record r => clear_field_dependencies r.fields
  | .array items => clear_dependencies items
  | .map values => clear_dependencies values
  | .union branches => clear_branch_dependencies branches
  | .primitive _ | .reference _ | .logical _ _ | .fixed _ | .enum _ => rfl

theorem clear_field_dependencies : (fs : List (Field AvroType)) → fieldDependencies (clearFields fs) = []
  | [] => rfl
  | f :: fs => by
    rw [clearFields, fieldDependencies, clear_dependencies f.type, clear_field_dependencies fs]
    rfl

theorem clear_branch_dependencies : (ts : List AvroType) → branchDependencies (clearBranches ts) = []
  | [] => rfl
  | t :: ts => by
    rw [clearBranches, branchDependencies, clear_dependencies t, clear_branch_dependencies ts]
    rfl

end

/-- Joining types of which the contents are less than `level` deep conserves their dependencies. -/
def Conserves (level : Nat) (join : AvroType → AvroType → AvroType) : Prop :=
  ∀ {t u}, t.depth < level → u.depth < level → ∀ name,
    name ∈ (join t u).dependencies ↔ name ∈ t.dependencies ∨ name ∈ u.dependencies

theorem Added.dependencies (hj : Conserves level join) (h : Added join branches t after)
    (hb : ∀ b ∈ branches, b.depth ≤ level) (ht : t.depth ≤ level) :
    name ∈ branchDependencies after ↔ name ∈ branchDependencies branches ∨ name ∈ t.dependencies := by
  cases h with
  | last => rw [branch_dependencies_append, branch_dependencies_single, List.mem_append]
  | @array before c rest items hsplit =>
    subst hsplit
    rw [List.forall_mem_append, List.forall_mem_cons] at hb
    have joined := hj (t := c) (u := items) hb.2.1 ht name
    simp only [branch_dependencies_append, branchDependencies, AvroType.dependencies, List.mem_append,
      joined, or_assoc, or_comm]
  | @map before c rest values hsplit =>
    subst hsplit
    rw [List.forall_mem_append, List.forall_mem_cons] at hb
    have joined := hj (t := c) (u := values) hb.2.1 ht name
    simp only [branch_dependencies_append, branchDependencies, AvroType.dependencies, List.mem_append,
      joined, or_assoc, or_comm]

theorem flatten_with_dependencies (hd : KeepsDepth join) (hj : Conserves level join)
    (hts : ∀ t ∈ ts, t.depth ≤ level) :
    name ∈ branchDependencies (flattenWith join ts) ↔ name ∈ branchDependencies ts := by
  have fold : ∀ us branches : List AvroType, (∀ b ∈ branches, b.depth ≤ level) →
      (∀ u ∈ us, u.depth ≤ level) →
      (name ∈ branchDependencies (us.foldl (addBranch join) branches) ↔
        name ∈ branchDependencies branches ∨ name ∈ branchDependencies us) := by
    intro us
    induction us with
    | nil => simp [branchDependencies]
    | cons u us ih =>
      intro branches hb hus
      rw [List.forall_mem_cons] at hus
      have added : Added join branches u (addBranch join branches u) := add_branch_added branches u
      rw [List.foldl_cons, ih _ (added.depth hd hb hus.1) hus.2, added.dependencies hj hb hus.1,
        branchDependencies, List.mem_append, or_assoc]
  have same : name ∈ branchDependencies (distinct (branchLeaves ts)) ↔
      name ∈ branchDependencies (branchLeaves ts) := by
    simp only [mem_branch_dependencies, mem_distinct]
  rw [flattenWith, fold _ [] (by simp) (distinct_leaf_depth hts), same, branch_leaves_dependencies]
  simp [branchDependencies]

theorem unwrap_dependencies (ts : List AvroType) : (unwrap ts).dependencies = branchDependencies ts := by
  unfold unwrap
  split
  · exact (branch_dependencies_single _).symm
  · rfl

theorem merge_field_dependencies (hd : KeepsDepth join) (hj : Conserves level join)
    (hf : field.type.depth ≤ level) (hfs : ∀ f ∈ fs, f.type.depth ≤ level) :
    name ∈ fieldDependencies (mergeField join field fs) ↔
      name ∈ fieldDependencies fs ∨ name ∈ field.type.dependencies := by
  induction fs with
  | nil => simp [mergeField, fieldDependencies]
  | cons g fs ih =>
    rw [List.forall_mem_cons] at hfs
    rw [mergeField]
    split
    · simp only [fieldDependencies, List.mem_append]
      split
      · next he =>
        rw [he, or_right_comm, or_self]
      · have both : ∀ t ∈ [g.type, field.type], t.depth ≤ level := by
          rw [List.forall_mem_cons, List.forall_mem_singleton]
          exact ⟨hfs.1, hf⟩
        rw [AvroType.dependencies, flatten_with_dependencies hd hj both]
        simp only [branchDependencies, List.mem_append, List.append_nil]
        exact or_right_comm
    · rw [fieldDependencies, fieldDependencies, List.mem_append, List.mem_append, ih hfs.2, or_assoc]

theorem merge_fields_dependencies (hd : KeepsDepth join) (hj : Conserves level join)
    (hgs : ∀ f ∈ gs, f.type.depth ≤ level) (hfs : ∀ f ∈ fs, f.type.depth ≤ level) :
    name ∈ fieldDependencies (gs.foldl (fun fields f => mergeField join f fields) fs) ↔
      name ∈ fieldDependencies fs ∨ name ∈ fieldDependencies gs := by
  induction gs generalizing fs with
  | nil => simp [fieldDependencies]
  | cons g gs ih =>
    rw [List.forall_mem_cons] at hgs
    rw [List.foldl_cons, ih hgs.2 (merge_field_depth hd hgs.1 hfs),
      merge_field_dependencies hd hj hgs.1 hfs, fieldDependencies, List.mem_append, or_assoc]

/-- There are enough levels to join types that are less deep. -/
theorem join_at_conserves (level : Nat) : Conserves level (joinAt level) := by
  induction level with
  | zero => exact fun ht => absurd ht (Nat.not_lt_zero _)
  | succ level ih =>
    intro t u ht hu name
    rw [Nat.lt_succ_iff] at ht hu
    have flattened : name ∈ (unwrap (flattenWith (joinAt level) [t, u])).dependencies ↔
        name ∈ t.dependencies ∨ name ∈ u.dependencies := by
      rw [unwrap_dependencies, flatten_with_dependencies (join_at_depth level) ih (by simp [ht, hu])]
      simp [branchDependencies]
    simp only [joinAt, joinWith]
    split
    · next he =>
      rw [he, or_self]
    · split
      · next r s _ =>
        rw [depth, Nat.succ_le_iff] at ht hu
        have fields : name ∈ fieldDependencies (s.fields.foldl
              (fun fields f => mergeField (joinAt level) f fields) r.fields) ↔
            name ∈ fieldDependencies r.fields ∨ name ∈ fieldDependencies s.fields :=
          merge_fields_dependencies (join_at_depth level) ih (fields_depth_le.mp hu.le)
            (fields_depth_le.mp ht.le)
        simp only [mergeRecordPair, AvroType.dependencies, List.mem_append, mem_distinct, fields]
        exact or_or_or_comm
      · simp [AvroType.dependencies]
      · exact flattened

theorem flatten_dependencies :
    name ∈ branchDependencies (flatten ts) ↔ name ∈ branchDependencies ts :=
  flatten_with_dependencies (join_at_depth _) (join_at_conserves _) (branches_depth_le.mp le_rfl)

theorem union_of_dependencies : name ∈ (unionOf ts).dependencies ↔ name ∈ branchDependencies ts := by
  rw [unionOf, unwrap_dependencies, flatten_dependencies]

/-- Merging records field by field keeps the list of the first one and the dependencies inside all. -/
theorem merge_pairs_dependencies (name : String) {level : Nat} (given : Option String)
    {rs : List (Record AvroType)} (r : Record AvroType) (hr : ∀ f ∈ r.fields, f.type.depth ≤ level)
    (hrs : ∀ s ∈ rs, ∀ f ∈ s.fields, f.type.depth ≤ level) :
    (rs.foldl (mergeRecordPair (joinAt level) given) r).dependencies = r.dependencies ∧
      (name ∈ fieldDependencies (rs.foldl (mergeRecordPair (joinAt level) given) r).fields ↔
        name ∈ fieldDependencies r.fields ∨ ∃ s ∈ rs, name ∈ fieldDependencies s.fields) := by
  induction rs generalizing r with
  | nil => simp
  | cons s rs ih =>
    rw [List.forall_mem_cons] at hrs
    have deep := merge_fields_depth (join_at_depth level) hrs.1 hr
    obtain ⟨own, inside⟩ := ih (mergeRecordPair (joinAt level) given r s) deep hrs.2
    have fields : name ∈ fieldDependencies (mergeRecordPair (joinAt level) given r s).fields ↔
        name ∈ fieldDependencies r.fields ∨ name ∈ fieldDependencies s.fields :=
      merge_fields_dependencies (join_at_depth level) (join_at_conserves level) hrs.1 hr
    refine ⟨own, ?_⟩
    rw [List.foldl_cons, inside, fields, List.exists_mem_cons_iff, or_assoc]

/-- Empty unions have no dependencies. -/
theorem counting_dependencies (ts : List AvroType) :
    branchDependencies (ts.filter (!·.isEmptyUnion)) = branchDependencies ts := by
  induction ts with
  | nil => rfl
  | cons t ts ih =>
    by_cases h : t.isEmptyUnion = true
    · have none : t.dependencies = [] := by
        unfold isEmptyUnion at h
        split at h
        · rfl
        · simp at h
      rw [List.filter_cons_of_neg (by simp [h]), ih, branchDependencies, none, List.nil_append]
    · rw [List.filter_cons_of_pos (by simp [h]), branchDependencies, ih, branchDependencies]

/-- A list of nothing but records is the list of these. -/
theorem eq_map_records (h : ts.all isRecord = true) : ts = (records ts).map .record := by
  induction ts with
  | nil => rfl
  | cons t ts ih =>
    rw [List.all_cons, Bool.and_eq_true] at h
    cases t with
    | record r =>
      have step : records (record r :: ts) = r :: records ts := rfl
      rw [step, List.map_cons, ← ih h.2]
    | _ => simp [isRecord] at h

theorem mem_records_dependencies (rs : List (Record AvroType)) :
    name ∈ branchDependencies (rs.map .record) ↔ name ∈ rs.flatMap Record.dependencies ∨
      ∃ r ∈ rs, name ∈ fieldDependencies r.fields := by
  rw [mem_branch_dependencies, List.mem_flatMap, ← exists_or]
  simp only [List.mem_map, exists_exists_and_eq_and, AvroType.dependencies, List.mem_append, and_or_left]

/-- The dependencies of merged records: those inside the fields are kept, the own ones are handed out. -/
theorem records_conserved (given : Option String) (r : Record AvroType) (rs : List (Record AvroType)) :
    name ∈ (r :: rs).flatMap Record.dependencies ∨ name ∈ (AvroType.record (mergeRecords given
        (branchesDepth ((r :: rs).map .record)) r rs)).dependencies ↔
      name ∈ branchDependencies ((r :: rs).map .record) := by
  have deep := records_fields_depth (r :: rs)
  rw [List.forall_mem_cons] at deep
  obtain ⟨own, inside⟩ := merge_pairs_dependencies name given { r with dependencies := [] } deep.1
    deep.2
  rw [mem_records_dependencies, AvroType.dependencies, mergeRecords, own, List.nil_append, inside,
    List.exists_mem_cons_iff]

theorem enums_dependencies (h : ts.all isEnum = true) : branchDependencies ts = [] := by
  induction ts with
  | nil => rfl
  | cons t ts ih =>
    rw [List.all_cons, Bool.and_eq_true] at h
    cases t with
    | enum e => exact ih h.2
    | _ => simp [isEnum] at h

theorem merge_dependencies (given : Option String) (ts : List AvroType) :
    name ∈ (merge given ts).2 ∨ name ∈ (merge given ts).1.dependencies ↔
      name ∈ branchDependencies ts := by
  rw [← counting_dependencies]
  unfold merge
  split
  · next h =>
    rw [h]
    simp [dependencies, branchDependencies]
  · next t h =>
    rw [h, branch_dependencies_single]
    simp
  · next counted _ _ =>
    split
    · next hrecords =>
      have counted_eq := eq_map_records hrecords
      split
      · next hnil =>
        rw [counted_eq, hnil]
        simp [dependencies, branchDependencies]
      · next r rs hrs =>
        rw [hrs] at counted_eq
        rw [hrs, counted_eq]
        exact records_conserved given r rs
    · split
      · next henums =>
        rw [enums_dependencies henums]
        split <;> simp [dependencies, branchDependencies]
      · rw [union_of_dependencies, clear_branch_dependencies]
        simp

end Dependencies

/-- Merging adds to a list of dependencies. The names that are then in the list or inside the merged type
are those that were in the list or inside the types, and what was in the list stays in front. Flattening
types and uniting them keeps the dependencies inside. -/
theorem merging_conserves_dependencies (given : Option String) (ts : List AvroType)
    (names : List String) :
    (∀ name, name ∈ names ++ (merge given ts).2 ∨ name ∈ (merge given ts).1.dependencies ↔
      name ∈ names ∨ name ∈ branchDependencies ts) ∧
    names <+: names ++ (merge given ts).2 ∧
    (∀ name, name ∈ branchDependencies (flatten ts) ↔ name ∈ branchDependencies ts) ∧
    ∀ name, name ∈ (unionOf ts).dependencies ↔ name ∈ branchDependencies ts := by
  refine ⟨fun name => ?_, List.prefix_append _ _, fun _ => flatten_dependencies,
    fun _ => union_of_dependencies⟩
  rw [List.mem_append, or_assoc, merge_dependencies]

end AvroDerive.AvroType
