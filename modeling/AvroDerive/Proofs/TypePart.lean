import AvroDerive.Avro.Name
import AvroDerive.Avro.Union
import AvroDerive.Proofs.InlinedTree

/-! # The parts of a type

A type holds other types at any depth. A property that all its parts have is kept by flattening and
merging if a single merge keeps it. -/
namespace AvroDerive.AvroType

def isArray : AvroType → Bool
  | .array _ => true
  | _ => false

def isMap : AvroType → Bool
  | .map _ => true
  | _ => false

def isUnion : AvroType → Bool
  | .union _ => true
  | _ => false

mutual

/-- The types at any depth, the type itself in front. -/
def parts : AvroType → List AvroType
  | .record r => .record r :: fieldParts r.fields
  | .array items => .array items :: items.parts
  | .map values => .map values :: values.parts
  | .union branches => .union branches :: branchParts branches
  | t => [t]

def fieldParts : List (Field AvroType) → List AvroType
  | [] => []
  | f :: fs => f.type.parts ++ fieldParts fs

def branchParts : List AvroType → List AvroType
  | [] => []
  | t :: ts => t.parts ++ branchParts ts

end

/-- Every part has the property. -/
def AllParts (p : AvroType → Prop) (t : AvroType) : Prop := ∀ u ∈ t.parts, p u

/-- The parts below the type have the property. -/
def Inside (p : AvroType → Prop) (t : AvroType) : Prop := ∀ u ∈ t.parts.tail, p u

section Parts

variable {p : AvroType → Prop} {t : AvroType}

theorem all_parts_iff : AllParts p t ↔ p t ∧ Inside p t := by
  cases t <;> simp [AllParts, Inside, parts]

theorem AllParts.top (h : AllParts p t) : p t := (all_parts_iff.mp h).1

theorem AllParts.inside (h : AllParts p t) : Inside p t := (all_parts_iff.mp h).2

theorem AllParts.imp {q : AvroType → Prop} (h : AllParts p t) (hq : ∀ u, p u → q u) :
    AllParts q t :=
  fun u hu => hq u (h u hu)

theorem all_field_parts {fs : List (Field AvroType)} :
    (∀ u ∈ fieldParts fs, p u) ↔ ∀ f ∈ fs, AllParts p f.type := by
  induction fs with
  | nil => simp [fieldParts]
  | cons f fs ih => rw [fieldParts, List.forall_mem_append, ih, List.forall_mem_cons, AllParts]

theorem all_branch_parts {ts : List AvroType} :
    (∀ u ∈ branchParts ts, p u) ↔ ∀ t ∈ ts, AllParts p t := by
  induction ts with
  | nil => simp [branchParts]
  | cons t ts ih => rw [branchParts, List.forall_mem_append, ih, List.forall_mem_cons, AllParts]

@[simp] theorem inside_record {r : Record AvroType} :
    Inside p (.record r) ↔ ∀ f ∈ r.fields, AllParts p f.type :=
  all_field_parts

@[simp] theorem inside_union {branches : List AvroType} :
    Inside p (.union branches) ↔ ∀ b ∈ branches, AllParts p b :=
  all_branch_parts

@[simp] theorem inside_array {items : AvroType} : Inside p (.array items) ↔ AllParts p items :=
  Iff.rfl

@[simp] theorem inside_map {values : AvroType} : Inside p (.map values) ↔ AllParts p values :=
  Iff.rfl

theorem AllParts.leaf (h : p t) (ht : t.parts = [t]) : AllParts p t := by
  intro u hu
  rw [ht, List.mem_singleton] at hu
  rwa [hu]

theorem AllParts.record {r : Record AvroType} (h : p (.record r))
    (hf : ∀ f ∈ r.fields, AllParts p f.type) : AllParts p (.record r) :=
  all_parts_iff.mpr ⟨h, inside_record.mpr hf⟩

theorem AllParts.array {items : AvroType} (h : p (.array items)) (hi : AllParts p items) :
    AllParts p (.array items) :=
  all_parts_iff.mpr ⟨h, hi⟩

theorem AllParts.map {values : AvroType} (h : p (.map values)) (hv : AllParts p values) :
    AllParts p (.map values) :=
  all_parts_iff.mpr ⟨h, hv⟩

theorem AllParts.union {branches : List AvroType} (h : p (.union branches))
    (hb : ∀ b ∈ branches, AllParts p b) : AllParts p (.union branches) :=
  all_parts_iff.mpr ⟨h, inside_union.mpr hb⟩

end Parts

/-- A list of branches without unions, with one array, one map and one `null` at most. -/
structure Flat (branches : List AvroType) : Prop where
  simple : ∀ b ∈ branches, b.isUnion = false
  arrays : branches.countP isArray ≤ 1
  maps : branches.countP isMap ≤ 1
  nulls : branches.countP isNull ≤ 1

section Flat

theorem flat_single {t : AvroType} (h : t.isUnion = false) : Flat [t] := by
  have one : ∀ q : AvroType → Bool, [t].countP q ≤ 1 := fun _ => List.countP_le_length
  exact ⟨by simpa using h, one _, one _, one _⟩

theorem Flat.cons_null {branches : List AvroType} (h : Flat branches)
    (hn : ∀ b ∈ branches, b.isNull = false) : Flat (null :: branches) where
  simple := List.forall_mem_cons.mpr ⟨rfl, h.simple⟩
  arrays := h.arrays
  maps := h.maps
  nulls := by
    have none : branches.countP isNull = 0 := by simpa [List.countP_eq_zero] using hn
    rw [List.countP_cons, none]
    split
    · omega
    · omega

end Flat

section Flatten

variable {join : AvroType → AvroType → AvroType} {p : AvroType → Prop}

/-- What joining a content into a list of branches does: one container takes it in. -/
theorem join_into_splits {content? : AvroType → Option AvroType} {wrap : AvroType → AvroType}
    (hc : ∀ t c, content? t = some c → t = wrap c) {content : AvroType} {ts us : List AvroType}
    (h : joinInto content? wrap join content ts = some us) :
    ∃ before c after, ts = before ++ wrap c :: after ∧
      us = before ++ wrap (join c content) :: after := by
  induction ts generalizing us with
  | nil => simp [joinInto] at h
  | cons t ts ih =>
    rw [joinInto] at h
    split at h
    · next c hcc =>
      obtain rfl := Option.some.inj h
      exact ⟨[], c, ts, by rw [hc t c hcc]; rfl, rfl⟩
    · obtain ⟨vs, hvs, rfl⟩ := Option.map_eq_some_iff.mp h
      obtain ⟨before, c, after, rfl, rfl⟩ := ih hvs
      exact ⟨t :: before, c, after, rfl, rfl⟩

theorem join_into_none {content? : AvroType → Option AvroType} {wrap : AvroType → AvroType}
    {content : AvroType} {ts : List AvroType} (h : joinInto content? wrap join content ts = none) :
    ∀ t ∈ ts, content? t = none := by
  induction ts with
  | nil => simp
  | cons t ts ih =>
    rw [joinInto] at h
    split at h
    · simp at h
    · next hc =>
      rw [List.forall_mem_cons]
      exact ⟨hc, ih (Option.map_eq_none_iff.mp h)⟩

theorem array_of_items {t c : AvroType} (h : arrayItems? t = some c) : t = .array c := by
  cases t <;> simp_all [arrayItems?]

theorem map_of_values {t c : AvroType} (h : mapValues? t = some c) : t = .map c := by
  cases t <;> simp_all [mapValues?]

/-- A branch is added at the end, or its content goes into the container of its kind. -/
inductive Added (join : AvroType → AvroType → AvroType) (branches : List AvroType) :
    AvroType → List AvroType → Prop
  | last {t} : (t.isArray = true → ∀ b ∈ branches, b.isArray = false) →
    (t.isMap = true → ∀ b ∈ branches, b.isMap = false) →
    Added join branches t (branches ++ [t])
  | array {before c after items} : branches = before ++ .array c :: after →
    Added join branches (.array items) (before ++ .array (join c items) :: after)
  | map {before c after values} : branches = before ++ .map c :: after →
    Added join branches (.map values) (before ++ .map (join c values) :: after)

theorem add_branch_added (branches : List AvroType) (t : AvroType) :
    Added join branches t (addBranch join branches t) := by
  cases t with
  | array items =>
    rw [addBranch]
    cases h : joinInto arrayItems? .array join items branches with
    | none =>
      refine .last (fun _ b hb => ?_) (by simp [isMap])
      have hn := join_into_none h b hb
      cases b <;> simp_all [arrayItems?, isArray]
    | some us =>
      obtain ⟨before, c, after, hb, rfl⟩ := join_into_splits (fun t c => array_of_items) h
      exact .array hb
  | map values =>
    rw [addBranch]
    cases h : joinInto mapValues? .map join values branches with
    | none =>
      refine .last (by simp [isArray]) fun _ b hb => ?_
      have hn := join_into_none h b hb
      cases b <;> simp_all [mapValues?, isMap]
    | some us =>
      obtain ⟨before, c, after, hb, rfl⟩ := join_into_splits (fun t c => map_of_values) h
      exact .map hb
  | _ => exact .last (by simp [isArray]) (by simp [isMap])

/-- No two branches are containers of the same kind. -/
def OneEach (branches : List AvroType) : Prop :=
  branches.countP isArray ≤ 1 ∧ branches.countP isMap ≤ 1

theorem Added.one_each {branches after : List AvroType} {t : AvroType}
    (h : Added join branches t after) (hb : OneEach branches) : OneEach after := by
  obtain ⟨ha, hm⟩ := hb
  have none_before : ∀ q : AvroType → Bool, (q t = true → ∀ b ∈ branches, q b = false) →
      branches.countP q ≤ 1 → (branches ++ [t]).countP q ≤ 1 := by
    intro q hq hcount
    rw [List.countP_append, List.countP_singleton]
    by_cases ht : q t = true
    · rw [List.countP_eq_zero.mpr (by simpa using hq ht), if_pos ht]
    · rw [if_neg ht]
      exact hcount
  cases h with
  | last harray hmap => exact ⟨none_before isArray harray ha, none_before isMap hmap hm⟩
  | array hsplit =>
    subst hsplit
    simp only [OneEach, List.countP_append, List.countP_cons] at ha hm ⊢
    exact ⟨ha, hm⟩
  | map hsplit =>
    subst hsplit
    simp only [OneEach, List.countP_append, List.countP_cons] at ha hm ⊢
    exact ⟨ha, hm⟩

/-- Branches that are no containers are added as they are. -/
theorem Added.count {branches after : List AvroType} {t : AvroType} (h : Added join branches t after)
    {q : AvroType → Bool} (harray : ∀ t, q (.array t) = false) (hmap : ∀ t, q (.map t) = false) :
    after.countP q = branches.countP q + [t].countP q := by
  cases h with
  | last => exact List.countP_append
  | array hsplit =>
    subst hsplit
    simp [harray]
  | map hsplit =>
    subst hsplit
    simp [hmap]

theorem fold_counts {q : AvroType → Bool} (harray : ∀ t, q (.array t) = false)
    (hmap : ∀ t, q (.map t) = false) (us branches : List AvroType) :
    (us.foldl (addBranch join) branches).countP q = branches.countP q + us.countP q := by
  induction us generalizing branches with
  | nil => simp
  | cons u us ih =>
    rw [List.foldl_cons, ih, (add_branch_added branches u).count harray hmap, List.countP_singleton,
      List.countP_cons]
    omega

theorem fold_one_each (us : List AvroType) {branches : List AvroType} (hb : OneEach branches) :
    OneEach (us.foldl (addBranch join) branches) := by
  induction us generalizing branches with
  | nil => exact hb
  | cons u us ih => exact ih ((add_branch_added branches u).one_each hb)

mutual

theorem leaf_simple : (t : AvroType) → ∀ u ∈ t.leaves, u.isUnion = false
  | .union branches, u, hu => branch_leaf_simple branches u hu
  | .record _, u, hu | .array _, u, hu | .map _, u, hu | .primitive _, u, hu
  | .reference _, u, hu | .logical _ _, u, hu | .fixed _, u, hu | .enum _, u, hu => by
    obtain rfl := List.mem_singleton.mp hu
    rfl

theorem branch_leaf_simple : (ts : List AvroType) → ∀ u ∈ branchLeaves ts, u.isUnion = false
  | t :: ts, u, hu => by
    rw [branchLeaves, List.mem_append] at hu
    exact hu.elim (leaf_simple t u) (branch_leaf_simple ts u)

end

theorem null_of_is_null {t : AvroType} (h : t.isNull = true) : t = .null := by
  cases t <;> simp_all [isNull, null]

theorem nulls_of_nodup {ts : List AvroType} (h : ts.Nodup) : ts.countP isNull ≤ 1 := by
  have same : ts.countP isNull ≤ ts.count .null := by
    refine List.countP_mono_left fun t _ ht => ?_
    simp [null_of_is_null ht]
  exact same.trans (List.nodup_iff_count_le_one.mp h .null)

/-- Flattening leaves no unions in the union, one array, one map and one `null`. -/
theorem flat_flatten_with (ts : List AvroType) : Flat (flattenWith join ts) where
  simple := by
    have none : (flattenWith join ts).countP isUnion = 0 := by
      rw [flattenWith, fold_counts (fun _ => rfl) (fun _ => rfl)]
      simp only [List.countP_nil, Nat.zero_add, List.countP_eq_zero, Bool.not_eq_true]
      exact fun u hu => branch_leaf_simple ts u (mem_distinct.mp hu)
    simpa using List.countP_eq_zero.mp none
  arrays := (fold_one_each _ ⟨by simp, by simp⟩).1
  maps := (fold_one_each _ ⟨by simp, by simp⟩).2
  nulls := by
    rw [flattenWith, fold_counts (fun _ => rfl) (fun _ => rfl), List.countP_nil, Nat.zero_add]
    exact nulls_of_nodup (distinct_nodup _)

end Flatten

/-- The record that stands for two records joined in a container. -/
def joinedRecord (level : Nat) (r s : Record AvroType) : Record AvroType :=
  { mergeRecordPair (joinAt level) none r s with
    dependencies := distinct (r.dependencies ++ s.dependencies) }

/-- Single merges and containers keep the property. -/
structure Mergeable (p : AvroType → Prop) : Prop where
  array : ∀ t, p (.array t)
  map : ∀ t, p (.map t)
  union : ∀ branches, Flat branches → p (.union branches)
  record : ∀ level r s, p (.record r) → p (.record s) → p (.record (joinedRecord level r s))
  enum : ∀ d e, p (.enum d) → p (.enum e) → p (.enum (mergeEnumPair none d e))

section Merge

variable {p : AvroType → Prop} {join : AvroType → AvroType → AvroType}

mutual

theorem leaf_parts : (t : AvroType) → AllParts p t → ∀ u ∈ t.leaves, AllParts p u
  | .union branches, h, u, hu => branch_leaf_parts branches (inside_union.mp h.inside) u hu
  | .record _, h, u, hu | .array _, h, u, hu | .map _, h, u, hu | .primitive _, h, u, hu
  | .reference _, h, u, hu | .logical _ _, h, u, hu | .fixed _, h, u, hu | .enum _, h, u, hu => by
    obtain rfl := List.mem_singleton.mp hu
    exact h

theorem branch_leaf_parts : (ts : List AvroType) → (∀ t ∈ ts, AllParts p t) →
    ∀ u ∈ branchLeaves ts, AllParts p u
  | t :: ts, h, u, hu => by
    rw [List.forall_mem_cons] at h
    rw [branchLeaves, List.mem_append] at hu
    exact hu.elim (leaf_parts t h.1 u) (branch_leaf_parts ts h.2 u)

end

/-- Joining two contents keeps the property of all parts. -/
def JoinsParts (p : AvroType → Prop) (join : AvroType → AvroType → AvroType) : Prop :=
  ∀ t u, AllParts p t → AllParts p u → AllParts p (join t u)

theorem Added.all_parts (hp : Mergeable p) (hj : JoinsParts p join) {branches after : List AvroType}
    {t : AvroType} (h : Added join branches t after) (hb : ∀ b ∈ branches, AllParts p b)
    (ht : AllParts p t) : ∀ b ∈ after, AllParts p b := by
  cases h with
  | last =>
    rw [List.forall_mem_append, List.forall_mem_singleton]
    exact ⟨hb, ht⟩
  | array hsplit =>
    subst hsplit
    rw [List.forall_mem_append, List.forall_mem_cons] at hb ⊢
    exact ⟨hb.1, .array (hp.array _) (hj _ _ hb.2.1.inside ht.inside), hb.2.2⟩
  | map hsplit =>
    subst hsplit
    rw [List.forall_mem_append, List.forall_mem_cons] at hb ⊢
    exact ⟨hb.1, .map (hp.map _) (hj _ _ hb.2.1.inside ht.inside), hb.2.2⟩

theorem flatten_with_parts (hp : Mergeable p) (hj : JoinsParts p join) {ts : List AvroType}
    (hts : ∀ t ∈ ts, AllParts p t) : ∀ b ∈ flattenWith join ts, AllParts p b := by
  have fold : ∀ us branches : List AvroType, (∀ b ∈ branches, AllParts p b) →
      (∀ u ∈ us, AllParts p u) → ∀ b ∈ us.foldl (addBranch join) branches, AllParts p b := by
    intro us
    induction us with
    | nil => exact fun branches hb _ => hb
    | cons u us ih =>
      intro branches hb hus
      rw [List.forall_mem_cons] at hus
      exact ih _ ((add_branch_added branches u).all_parts hp hj hb hus.1) hus.2
  apply fold _ [] (by simp)
  intro u hu
  exact branch_leaf_parts ts hts u (mem_distinct.mp hu)

theorem unwrap_parts (hp : Mergeable p) {ts : List AvroType} (hflat : Flat ts)
    (hts : ∀ t ∈ ts, AllParts p t) : AllParts p (unwrap ts) := by
  unfold unwrap
  split
  · exact hts _ (List.mem_singleton_self _)
  · exact .union (hp.union _ hflat) hts

theorem merge_field_parts (hp : Mergeable p) (hj : JoinsParts p join) {field : Field AvroType}
    (hf : AllParts p field.type) {fs : List (Field AvroType)}
    (hfs : ∀ f ∈ fs, AllParts p f.type) : ∀ f ∈ mergeField join field fs, AllParts p f.type := by
  induction fs with
  | nil => simpa [mergeField] using hf
  | cons g fs ih =>
    rw [List.forall_mem_cons] at hfs
    rw [mergeField]
    split
    · rw [List.forall_mem_cons]
      refine ⟨?_, hfs.2⟩
      dsimp only
      split
      · exact hfs.1
      · apply AllParts.union (hp.union _ (flat_flatten_with _))
        apply flatten_with_parts hp hj
        rw [List.forall_mem_cons, List.forall_mem_singleton]
        exact ⟨hfs.1, hf⟩
    · rw [List.forall_mem_cons]
      exact ⟨hfs.1, ih hfs.2⟩

theorem merge_fields_parts (hp : Mergeable p) (hj : JoinsParts p join)
    {gs fs : List (Field AvroType)} (hgs : ∀ f ∈ gs, AllParts p f.type)
    (hfs : ∀ f ∈ fs, AllParts p f.type) :
    ∀ f ∈ gs.foldl (fun fields f => mergeField join f fields) fs, AllParts p f.type := by
  induction gs generalizing fs with
  | nil => exact hfs
  | cons g gs ih =>
    rw [List.forall_mem_cons] at hgs
    exact ih hgs.2 (merge_field_parts hp hj hgs.1 hfs)

/-- Joining at any level keeps a property that single merges keep. -/
theorem join_at_parts (hp : Mergeable p) (level : Nat) : JoinsParts p (joinAt level) := by
  induction level with
  | zero => exact fun t u ht _ => ht
  | succ level ih =>
    intro t u ht hu
    have flattened : AllParts p (unwrap (flattenWith (joinAt level) [t, u])) := by
      apply unwrap_parts hp (flat_flatten_with _)
      apply flatten_with_parts hp ih
      rw [List.forall_mem_cons, List.forall_mem_singleton]
      exact ⟨ht, hu⟩
    simp only [joinAt, joinWith]
    split
    · exact ht
    · split
      · next r s _ =>
        apply AllParts.record (hp.record level r s ht.top hu.top)
        exact merge_fields_parts hp ih (inside_record.mp hu.inside) (inside_record.mp ht.inside)
      · next d e _ => exact .leaf (hp.enum d e ht.top hu.top) rfl
      · exact flattened

theorem flatten_parts (hp : Mergeable p) {ts : List AvroType} (hts : ∀ t ∈ ts, AllParts p t) :
    ∀ b ∈ flatten ts, AllParts p b :=
  flatten_with_parts hp (join_at_parts hp _) hts

theorem union_of_parts (hp : Mergeable p) {ts : List AvroType} (hts : ∀ t ∈ ts, AllParts p t) :
    AllParts p (unionOf ts) :=
  unwrap_parts hp (flat_flatten_with _) (flatten_parts hp hts)

end Merge

end AvroDerive.AvroType
