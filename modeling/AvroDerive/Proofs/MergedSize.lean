import AvroDerive.Proofs.MergedRecord
import AvroDerive.Proofs.MergedDependency

/-! # Sizes of merged types

Flattening and merging give nothing larger than what they are given. A union that stands for two contents
is one type more than these, but of the two containers around them only one is left. So each function calls
the others for smaller types only, and the recursion needs no bound on its levels. -/
namespace AvroDerive.AvroType

mutual

/-- How many types and fields a type consists of. -/
def size : AvroType → Nat
  | .record r => fieldsSize r.fields + 1
  | .array items => items.size + 1
  | .map values => values.size + 1
  | .union branches => branchesSize branches + 1
  | _ => 1

def fieldsSize : List (Field AvroType) → Nat
  | [] => 0
  | f :: fs => f.type.size + 1 + fieldsSize fs

def branchesSize : List AvroType → Nat
  | [] => 0
  | t :: ts => t.size + branchesSize ts

end

section Size

variable {join : AvroType → AvroType → AvroType} {t u : AvroType} {ts us branches after : List AvroType}
  {f field : Field AvroType} {fs gs : List (Field AvroType)}

theorem branches_size_append (ts us : List AvroType) :
    branchesSize (ts ++ us) = branchesSize ts + branchesSize us := by
  induction ts with
  | nil => simp [branchesSize]
  | cons t ts ih => rw [List.cons_append, branchesSize, branchesSize, ih, Nat.add_assoc]

theorem fields_size_append (fs gs : List (Field AvroType)) :
    fieldsSize (fs ++ gs) = fieldsSize fs + fieldsSize gs := by
  induction fs with
  | nil => simp [fieldsSize]
  | cons f fs ih =>
    rw [List.cons_append, fieldsSize, fieldsSize, ih]
    omega

theorem branches_size_single (t : AvroType) : branchesSize [t] = t.size := by
  simp [branchesSize]

theorem size_of_mem (h : t ∈ ts) : t.size ≤ branchesSize ts := by
  obtain ⟨before, after, rfl⟩ := List.append_of_mem h
  rw [branches_size_append, branchesSize]
  omega

theorem field_size_of_mem (h : f ∈ fs) : f.type.size + 1 ≤ fieldsSize fs := by
  obtain ⟨before, after, rfl⟩ := List.append_of_mem h
  rw [fields_size_append, fieldsSize]
  omega

mutual

theorem leaves_size : (t : AvroType) → branchesSize t.leaves ≤ t.size
  | .union branches => (branch_leaves_size branches).trans (Nat.le_succ _)
  | .record _ | .array _ | .map _ | .primitive _
  | .reference _ | .logical _ _ | .fixed _ | .enum _ => (branches_size_single _).le

theorem branch_leaves_size : (ts : List AvroType) → branchesSize (branchLeaves ts) ≤ branchesSize ts
  | [] => le_rfl
  | t :: ts => by
    rw [branchLeaves, branches_size_append, branchesSize]
    exact Nat.add_le_add (leaves_size t) (branch_leaves_size ts)

end

mutual

theorem clear_size : (t : AvroType) → t.clearDependencies.size = t.size
  | .record r => congrArg (· + 1) (clear_fields_size r.fields)
  | .array items => congrArg (· + 1) (clear_size items)
  | .map values => congrArg (· + 1) (clear_size values)
  | .union branches => congrArg (· + 1) (clear_branches_size branches)
  | .primitive _ | .reference _ | .logical _ _ | .fixed _ | .enum _ => rfl

theorem clear_fields_size : (fs : List (Field AvroType)) → fieldsSize (clearFields fs) = fieldsSize fs
  | [] => rfl
  | f :: fs => by rw [clearFields, fieldsSize, fieldsSize, clear_size f.type, clear_fields_size fs]

theorem clear_branches_size : (ts : List AvroType) → branchesSize (clearBranches ts) = branchesSize ts
  | [] => rfl
  | t :: ts => by rw [clearBranches, branchesSize, branchesSize, clear_size t, clear_branches_size ts]

end

theorem add_all_size (ts us : List AvroType) :
    branchesSize (addAll ts us) ≤ branchesSize ts + branchesSize us := by
  induction us generalizing ts with
  | nil => exact le_rfl
  | cons u us ih =>
    have added : branchesSize (addNew ts u) ≤ branchesSize ts + u.size := by
      unfold addNew
      split
      · exact Nat.le_add_right _ _
      · rw [branches_size_append, branches_size_single]
    rw [addAll_cons, branchesSize]
    exact (ih _).trans (by omega)

theorem distinct_leaves_size (ts : List AvroType) :
    branchesSize (distinct (branchLeaves ts)) ≤ branchesSize ts := by
  have added := add_all_size [] (branchLeaves ts)
  rw [branchesSize, Nat.zero_add] at added
  exact added.trans (branch_leaves_size ts)

/-- What is joined is not larger than the union of both. -/
def Compact (join : AvroType → AvroType → AvroType) : Prop :=
  ∀ t u, (join t u).size ≤ t.size + u.size + 1

theorem Added.size (hj : Compact join) (h : Added join branches t after) :
    branchesSize after ≤ branchesSize branches + t.size := by
  cases h with
  | last => rw [branches_size_append, branches_size_single]
  | @array before c rest items hsplit =>
    have joined := hj c items
    subst hsplit
    simp only [branches_size_append, branchesSize, AvroType.size]
    omega
  | @map before c rest values hsplit =>
    have joined := hj c values
    subst hsplit
    simp only [branches_size_append, branchesSize, AvroType.size]
    omega

theorem add_branches_size (hj : Compact join) (us branches : List AvroType) :
    branchesSize (us.foldl (addBranch join) branches) ≤ branchesSize branches + branchesSize us := by
  induction us generalizing branches with
  | nil => exact le_rfl
  | cons u us ih =>
    have added := (add_branch_added branches u).size hj
    rw [List.foldl_cons, branchesSize]
    exact (ih _).trans (by omega)

theorem flatten_with_size (hj : Compact join) (ts : List AvroType) :
    branchesSize (flattenWith join ts) ≤ branchesSize ts := by
  have folded := add_branches_size hj (distinct (branchLeaves ts)) []
  rw [branchesSize, Nat.zero_add] at folded
  exact folded.trans (distinct_leaves_size ts)

theorem unwrap_size (ts : List AvroType) : (unwrap ts).size ≤ branchesSize ts + 1 := by
  unfold unwrap
  split
  · rw [branches_size_single]
    exact Nat.le_succ _
  · exact le_rfl

theorem merge_field_size (hj : Compact join) (field : Field AvroType) (fs : List (Field AvroType)) :
    fieldsSize (mergeField join field fs) ≤ fieldsSize fs + (field.type.size + 1) := by
  induction fs with
  | nil => simp [mergeField, fieldsSize]
  | cons g fs ih =>
    have flattened := flatten_with_size hj [g.type, field.type]
    simp only [branchesSize, Nat.add_zero] at flattened
    rw [mergeField]
    split
    · simp only [fieldsSize]
      split
      · omega
      · rw [AvroType.size]
        omega
    · rw [fieldsSize, fieldsSize]
      omega

theorem merge_fields_size (hj : Compact join) (gs fs : List (Field AvroType)) :
    fieldsSize (gs.foldl (fun fields f => mergeField join f fields) fs) ≤
      fieldsSize fs + fieldsSize gs := by
  induction gs generalizing fs with
  | nil => exact le_rfl
  | cons g gs ih =>
    have merged := merge_field_size hj g fs
    rw [List.foldl_cons, fieldsSize]
    exact (ih _).trans (by omega)

theorem merge_pairs_size (hj : Compact join) (given : Option String) (rs : List (Record AvroType))
    (r : Record AvroType) : (record (rs.foldl (mergeRecordPair join given) r)).size ≤
      (record r).size + branchesSize (rs.map .record) := by
  induction rs generalizing r with
  | nil => exact le_rfl
  | cons s rs ih =>
    have merged := merge_fields_size hj s.fields r.fields
    have step : (record (mergeRecordPair join given r s)).size ≤ (record r).size + (record s).size := by
      simp only [AvroType.size, mergeRecordPair]
      omega
    rw [List.foldl_cons, List.map_cons, branchesSize]
    exact (ih _).trans (by omega)

theorem join_with_compact (hj : Compact join) : Compact (joinWith join) := by
  intro t u
  have flattened := flatten_with_size hj [t, u]
  simp only [branchesSize, Nat.add_zero] at flattened
  unfold joinWith
  split
  · omega
  · split
    · next r s _ =>
      have merged := merge_pairs_size hj none [s] r
      simp only [List.foldl_cons, List.foldl_nil, List.map_cons, List.map_nil, branchesSize,
        Nat.add_zero] at merged
      exact (show _ ≤ (record r).size + (record s).size from merged).trans (Nat.le_succ _)
    · simp [AvroType.size]
    · exact (unwrap_size _).trans (Nat.succ_le_succ flattened)

theorem join_at_compact (level : Nat) : Compact (joinAt level) := by
  induction level with
  | zero =>
    intro t u
    show t.size ≤ _
    omega
  | succ level ih => exact join_with_compact ih

end Size

/-- The contents that are joined when types are flattened. -/
inductive Joined (join : AvroType → AvroType → AvroType) (ts : List AvroType) :
    AvroType → AvroType → Prop
  | array {before items after c} : distinct (branchLeaves ts) = before ++ .array items :: after →
    .array c ∈ before.foldl (addBranch join) [] → Joined join ts c items
  | map {before values after c} : distinct (branchLeaves ts) = before ++ .map values :: after →
    .map c ∈ before.foldl (addBranch join) [] → Joined join ts c values

/-- The types that are flattened when records are merged into a first one. -/
inductive Collide (join : AvroType → AvroType → AvroType) (given : Option String)
    (r : Record AvroType) (rs : List (Record AvroType)) : AvroType → AvroType → Prop
  | field {before s after fs g gs f} : rs = before ++ s :: after → s.fields = fs ++ g :: gs →
    f ∈ fs.foldl (fun fields f => mergeField join f fields)
      (before.foldl (mergeRecordPair join given) r).fields →
    f.name = g.name → f.type ≠ g.type → Collide join given r rs f.type g.type

/-- Two folds agree if their steps do where the second one comes. -/
theorem foldl_agree {α β : Type} {f g : β → α → β} {xs : List α} {b : β}
    (h : ∀ before x after, xs = before ++ x :: after →
      f (before.foldl g b) x = g (before.foldl g b) x) : xs.foldl f b = xs.foldl g b := by
  induction xs generalizing b with
  | nil => rfl
  | cons x xs ih =>
    rw [List.foldl_cons, List.foldl_cons, show f b x = g b x from h [] x xs rfl]
    exact ih fun before y after he => h (x :: before) y after (he ▸ rfl)

section Agree

variable {join join' : AvroType → AvroType → AvroType} {given : Option String} {t u : AvroType}
  {ts : List AvroType} {r : Record AvroType} {rs : List (Record AvroType)} {n : Nat}

theorem join_into_agree {content? : AvroType → Option AvroType} {wrap : AvroType → AvroType}
    (h : ∀ b ∈ ts, ∀ c, content? b = some c → join c t = join' c t) :
    joinInto content? wrap join t ts = joinInto content? wrap join' t ts := by
  induction ts with
  | nil => rfl
  | cons b ts ih =>
    rw [List.forall_mem_cons] at h
    rw [joinInto, joinInto]
    split
    · next c hc => rw [h.1 c hc]
    · rw [ih h.2]

/-- Flattening depends on what is joined in it only. -/
theorem flatten_with_agree (h : ∀ c d, Joined join' ts c d → join c d = join' c d) :
    flattenWith join ts = flattenWith join' ts := by
  refine foldl_agree fun before leaf after he => ?_
  cases leaf with
  | array items =>
    refine congrArg (Option.getD · _) (join_into_agree fun b hb c hc => ?_)
    cases b with
    | array c' =>
      obtain rfl := Option.some.inj hc
      exact h _ _ (.array he hb)
    | _ => simp [arrayItems?] at hc
  | map values =>
    refine congrArg (Option.getD · _) (join_into_agree fun b hb c hc => ?_)
    cases b with
    | map c' =>
      obtain rfl := Option.some.inj hc
      exact h _ _ (.map he hb)
    | _ => simp [mapValues?] at hc
  | _ => rfl

theorem merge_field_agree {g : Field AvroType} {fs : List (Field AvroType)}
    (h : ∀ f ∈ fs, f.name = g.name → f.type ≠ g.type →
      flattenWith join [f.type, g.type] = flattenWith join' [f.type, g.type]) :
    mergeField join g fs = mergeField join' g fs := by
  induction fs with
  | nil => rfl
  | cons f fs ih =>
    rw [List.forall_mem_cons] at h
    rw [mergeField, mergeField]
    split
    · next hname =>
      by_cases he : f.type = g.type
      · rw [if_pos he, if_pos he]
      · rw [if_neg he, if_neg he, h.1 hname he]
    · rw [ih h.2]

/-- Merging records depends on what is flattened in it only. -/
theorem merge_pairs_agree (h : ∀ t u, Collide join' given r rs t u →
      flattenWith join [t, u] = flattenWith join' [t, u]) :
    rs.foldl (mergeRecordPair join given) r = rs.foldl (mergeRecordPair join' given) r := by
  refine foldl_agree fun before s after he => ?_
  have fields : s.fields.foldl (fun fields f => mergeField join f fields)
        (before.foldl (mergeRecordPair join' given) r).fields =
      s.fields.foldl (fun fields f => mergeField join' f fields)
        (before.foldl (mergeRecordPair join' given) r).fields :=
    foldl_agree fun fs g gs hs => merge_field_agree fun f hf hname hne =>
      h _ _ (.field he hs hf hname hne)
  rw [mergeRecordPair, mergeRecordPair, fields]

/-- Two records, or two enumerations. -/
def alike (t u : AvroType) : Bool := t.isRecord && u.isRecord || t.isEnum && u.isEnum

theorem unlike_of_others (hr : ∀ r s, t = .record r → u = .record s → False)
    (he : ∀ d e, t = .enum d → u = .enum e → False) : alike t u = false := by
  cases t with
  | record r =>
    cases u with
    | record s => exact (hr r s rfl rfl).elim
    | _ => rfl
  | enum d =>
    cases u with
    | enum e => exact (he d e rfl rfl).elim
    | _ => rfl
  | _ => rfl

theorem join_with_agree
    (hflat : t ≠ u → alike t u = false → flattenWith join [t, u] = flattenWith join' [t, u])
    (hrecords : ∀ r s, t = .record r → u = .record s → t ≠ u →
      mergeRecordPair join none r s = mergeRecordPair join' none r s) :
    joinWith join t u = joinWith join' t u := by
  unfold joinWith
  split
  · rfl
  · next hne =>
    split
    · rw [hrecords _ _ rfl rfl hne]
    · rfl
    · next hr he => rw [hflat hne (unlike_of_others hr he)]

end Agree

section Levels

variable {join join' : AvroType → AvroType → AvroType} {given : Option String} {t u c d : AvroType}
  {ts : List AvroType} {r : Record AvroType} {rs : List (Record AvroType)} {n level level' : Nat}

theorem Joined.depth (hd : KeepsDepth join) (h : Joined join ts c d) (hts : ∀ t ∈ ts, t.depth ≤ n) :
    c.depth < n ∧ d.depth < n := by
  have leaves := distinct_leaf_depth hts
  cases h with
  | array he hc =>
    rw [he, List.forall_mem_append, List.forall_mem_cons] at leaves
    exact ⟨add_branches_depth hd (by simp) leaves.1 _ hc, leaves.2.1⟩
  | map he hc =>
    rw [he, List.forall_mem_append, List.forall_mem_cons] at leaves
    exact ⟨add_branches_depth hd (by simp) leaves.1 _ hc, leaves.2.1⟩

theorem Collide.depth (hd : KeepsDepth join) (h : Collide join given r rs t u)
    (hr : ∀ f ∈ r.fields, f.type.depth ≤ n) (hrs : ∀ s ∈ rs, ∀ f ∈ s.fields, f.type.depth ≤ n) :
    t.depth ≤ n ∧ u.depth ≤ n := by
  cases h with
  | field he hs hf _ _ =>
    rw [he, List.forall_mem_append, List.forall_mem_cons, hs, List.forall_mem_append,
      List.forall_mem_cons] at hrs
    obtain ⟨hbefore, ⟨hfs, hg, -⟩, -⟩ := hrs
    exact ⟨merge_fields_depth hd hfs (merge_pairs_depth hd hr hbefore) _ hf, hg⟩

/-- Both functions join types less deep in the same way. -/
def AgreeBelow (n : Nat) (join join' : AvroType → AvroType → AvroType) : Prop :=
  ∀ {c d}, c.depth < n → d.depth < n → join c d = join' c d

theorem flatten_with_below (hd : KeepsDepth join') (h : AgreeBelow n join join')
    (hts : ∀ t ∈ ts, t.depth ≤ n) : flattenWith join ts = flattenWith join' ts :=
  flatten_with_agree fun _ _ hj => h (hj.depth hd hts).1 (hj.depth hd hts).2

theorem merge_pairs_below (hd : KeepsDepth join') (h : AgreeBelow n join join')
    (hr : ∀ f ∈ r.fields, f.type.depth ≤ n) (hrs : ∀ s ∈ rs, ∀ f ∈ s.fields, f.type.depth ≤ n) :
    rs.foldl (mergeRecordPair join given) r = rs.foldl (mergeRecordPair join' given) r := by
  refine merge_pairs_agree fun t u hc => flatten_with_below hd h ?_
  rw [List.forall_mem_cons, List.forall_mem_singleton]
  exact hc.depth hd hr hrs

theorem join_with_below (hd : KeepsDepth join') (h : AgreeBelow n join join') (ht : t.depth ≤ n)
    (hu : u.depth ≤ n) : joinWith join t u = joinWith join' t u := by
  refine join_with_agree (fun _ _ => flatten_with_below hd h (by simp [ht, hu])) ?_
  rintro r s rfl rfl -
  rw [AvroType.depth] at ht hu
  have hr := fields_depth_le.mp ((Nat.le_succ _).trans ht)
  have hs := fields_depth_le.mp ((Nat.le_succ _).trans hu)
  have pair : [s].foldl (mergeRecordPair join none) r = [s].foldl (mergeRecordPair join' none) r :=
    merge_pairs_below hd h hr (by simpa using hs)
  exact pair

/-- More levels than the types are deep make no difference. -/
theorem join_at_levels (ht : t.depth < level) (hu : u.depth < level) (ht' : t.depth < level')
    (hu' : u.depth < level') : joinAt level t u = joinAt level' t u := by
  induction level generalizing level' t u with
  | zero => exact absurd ht (Nat.not_lt_zero _)
  | succ level ih =>
    obtain ⟨m, rfl⟩ : ∃ m, level' = m + 1 := ⟨level' - 1, by omega⟩
    have below : AgreeBelow (max t.depth u.depth) (joinAt level) (joinAt m) := fun hc hd =>
      ih (by omega) (by omega) (by omega) (by omega)
    exact join_with_below (join_at_depth m) below (le_max_left _ _) (le_max_right _ _)

theorem join_at_join (ht : t.depth < level) (hu : u.depth < level) :
    joinAt level t u = AvroType.join t u :=
  join_at_levels ht hu (by omega) (by omega)

theorem join_depth : KeepsDepth AvroType.join := fun ht hu => join_at_depth _ ht hu

theorem join_compact : Compact AvroType.join := fun t u => join_at_compact _ t u

/-- Joining is a step of itself: the levels never run out. -/
theorem join_eq (t u : AvroType) : AvroType.join t u = joinWith AvroType.join t u :=
  join_with_below join_depth join_at_join (le_max_left _ _) (le_max_right _ _)

theorem flatten_eq (ts : List AvroType) : flatten ts = flattenWith AvroType.join ts :=
  flatten_with_below join_depth join_at_join (branches_depth_le.mp le_rfl)

end Levels

/-- Merging records field by field, with the contents of containers joined by the given function. -/
def mergeRecordsWith (join : AvroType → AvroType → AvroType) (given : Option String)
    (first : Record AvroType) (rest : List (Record AvroType)) : Record AvroType :=
  let merged := rest.foldl (mergeRecordPair join given) { first with dependencies := [] }
  { merged with name := given.getD merged.name }

/-- Merging types, with the contents of containers joined by the given function. -/
def mergeWith (join : AvroType → AvroType → AvroType) (given : Option String) (ts : List AvroType) :
    AvroType :=
  match ts.filter (!·.isEmptyUnion) with
  | [] => .union []
  | [t] => t
  | ts =>
    if ts.all isRecord then
      match records ts with
      | [] => .union []
      | first :: rest => .record (mergeRecordsWith join given first rest)
    else if ts.all isEnum then
      match enums ts with
      | [] => .union []
      | first :: rest => .enum (mergeEnums given first rest)
    else unwrap (flattenWith join (clearBranches ts))

theorem merge_records_eq (given : Option String) (r : Record AvroType) (rs : List (Record AvroType)) :
    mergeRecords given (branchesDepth ((r :: rs).map .record)) r rs =
      mergeRecordsWith AvroType.join given r rs := by
  have deep := records_fields_depth (r :: rs)
  rw [List.forall_mem_cons] at deep
  have merged : rs.foldl (mergeRecordPair (joinAt _) given) { r with dependencies := [] } =
      rs.foldl (mergeRecordPair AvroType.join given) { r with dependencies := [] } :=
    merge_pairs_below join_depth join_at_join deep.1 deep.2
  rw [mergeRecords, mergeRecordsWith, merged]

theorem merge_eq (given : Option String) (ts : List AvroType) :
    (merge given ts).1 = mergeWith AvroType.join given ts := by
  unfold merge mergeWith
  generalize ts.filter (!·.isEmptyUnion) = counted
  match counted with
  | [] => rfl
  | [t] => rfl
  | t :: u :: rest =>
    dsimp only
    generalize hts : t :: u :: rest = ts
    split
    · next hrecords =>
      have all := eq_map_records hrecords
      cases hrs : records ts with
      | nil => rfl
      | cons r rs =>
        rw [hrs] at all
        rw [all]
        exact congrArg record (merge_records_eq given r rs)
    · split
      · cases enums ts <;> rfl
      · rw [unionOf, flatten_eq]

/-- The calls by which types are flattened and merged. -/
inductive MergeCall where
  | flatten (ts : List AvroType)
  | join (t u : AvroType)
  | merge (given : Option String) (ts : List AvroType)
  | records (given : Option String) (first : Record AvroType) (rest : List (Record AvroType))

/-- The first call makes the second one. -/
inductive Calls : MergeCall → MergeCall → Prop
  | contents {ts c d} : Joined AvroType.join ts c d → Calls (.flatten ts) (.join c d)
  | alike {t u} : t ≠ u → alike t u = true → Calls (.join t u) (.merge none [t, u])
  | unlike {t u} : t ≠ u → alike t u = false → Calls (.join t u) (.flatten [t, u])
  | records {given ts first rest} : ts.filter (!·.isEmptyUnion) = (first :: rest).map .record →
    Calls (.merge given ts) (.records given { first with dependencies := [] } rest)
  | mixed {given ts} : Calls (.merge given ts) (.flatten (clearBranches (ts.filter (!·.isEmptyUnion))))
  | fields {given first rest t u} : Collide AvroType.join given first rest t u →
    Calls (.records given first rest) (.flatten [t, u])

namespace MergeCall

/-- Twice the size of what is to be merged, and more for the calls that pass all of it on. -/
def weight : MergeCall → Nat
  | .flatten ts => 2 * branchesSize ts
  | .join t u => 2 * (t.size + u.size) + 3
  | .merge _ ts => 2 * branchesSize ts + 2
  | .records _ first rest => 2 * branchesSize ((first :: rest).map .record) + 1

/-- The call gives the same, with the contents of containers joined by the given function. -/
def Agrees (f : AvroType → AvroType → AvroType) : MergeCall → Prop
  | .flatten ts => flattenWith f ts = flattenWith AvroType.join ts
  | .join t u => f t u = AvroType.join t u
  | .merge given ts => mergeWith f given ts = mergeWith AvroType.join given ts
  | .records given first rest => rest.foldl (mergeRecordPair f given) first =
      rest.foldl (mergeRecordPair AvroType.join given) first

end MergeCall

section Calls

variable {join : AvroType → AvroType → AvroType} {given : Option String} {t u c d : AvroType}
  {ts : List AvroType} {r : Record AvroType} {rs : List (Record AvroType)} {call call' : MergeCall}

theorem Joined.size (hj : Compact join) (h : Joined join ts c d) :
    c.size + d.size + 2 ≤ branchesSize ts := by
  have leaves := distinct_leaves_size ts
  have held : ∀ {before b}, b ∈ before.foldl (addBranch join) [] → b.size ≤ branchesSize before :=
    fun hb => (size_of_mem hb).trans ((add_branches_size hj _ []).trans_eq (Nat.zero_add _))
  cases h with
  | array he hc =>
    have inside := held hc
    rw [he, branches_size_append, branchesSize] at leaves
    simp only [AvroType.size] at leaves inside
    omega
  | map he hc =>
    have inside := held hc
    rw [he, branches_size_append, branchesSize] at leaves
    simp only [AvroType.size] at leaves inside
    omega

theorem Collide.size (hj : Compact join) (h : Collide join given r rs t u) :
    t.size + u.size < branchesSize ((r :: rs).map .record) := by
  cases h with
  | @field before s after fs g gs f he hs hf _ _ =>
    have earlier := merge_pairs_size hj given before r
    have merged := merge_fields_size hj fs (before.foldl (mergeRecordPair join given) r).fields
    have inside := field_size_of_mem hf
    have own : fieldsSize s.fields = fieldsSize fs + (g.type.size + 1 + fieldsSize gs) := by
      rw [hs, fields_size_append, fieldsSize]
    rw [he, List.map_cons, List.map_append, List.map_cons, branchesSize, branches_size_append,
      branchesSize]
    simp only [AvroType.size] at earlier ⊢
    omega

theorem counting_size (ts : List AvroType) :
    branchesSize (ts.filter (!·.isEmptyUnion)) ≤ branchesSize ts := by
  induction ts with
  | nil => exact le_rfl
  | cons t ts ih =>
    rw [List.filter_cons]
    split
    · exact Nat.add_le_add_left ih _
    · exact ih.trans (Nat.le_add_left _ _)

theorem Calls.lighter (h : Calls call call') : call'.weight < call.weight := by
  cases h with
  | contents h =>
    have size := h.size join_compact
    simp only [MergeCall.weight]
    omega
  | alike _ _ | unlike _ _ =>
    simp only [MergeCall.weight, branchesSize]
    omega
  | @records given ts first rest he =>
    have size := counting_size ts
    have first : (record { first with dependencies := [] }).size = (record first).size := rfl
    rw [he, List.map_cons, branchesSize] at size
    simp only [MergeCall.weight, List.map_cons, branchesSize, first]
    omega
  | @mixed given ts =>
    have size := counting_size ts
    simp only [MergeCall.weight, clear_branches_size]
    omega
  | fields h =>
    have size := h.size join_compact
    simp only [MergeCall.weight, branchesSize]
    omega

/-- No call leads to calls without end. -/
theorem calls_well_founded : WellFounded fun call' call => Calls call call' :=
  Subrelation.wf (fun h => Calls.lighter h) (measure MergeCall.weight).wf

/-- A call agrees if those that it makes do. -/
theorem agrees_step {f : AvroType → AvroType → AvroType} (hf : ∀ t u, f t u = joinWith f t u)
    (h : ∀ call', Calls call call' → call'.Agrees f) : call.Agrees f := by
  cases call with
  | flatten ts => exact flatten_with_agree fun c d hj => h _ (.contents hj)
  | join t u =>
    show f t u = AvroType.join t u
    rw [hf, join_eq]
    refine join_with_agree (fun hne hu => h _ (.unlike hne hu)) ?_
    rintro r s rfl rfl hne
    have merged : mergeWith f none [.record r, .record s] =
      mergeWith AvroType.join none [.record r, .record s] := h _ (.alike hne rfl)
    have fields : s.fields.foldl (fun fields g => mergeField f g fields) r.fields =
        s.fields.foldl (fun fields g => mergeField AvroType.join g fields) r.fields :=
      congrArg Record.fields (record.inj merged)
    rw [mergeRecordPair, mergeRecordPair, fields]
  | merge given ts =>
    have merged : ∀ first rest, ts.filter (!·.isEmptyUnion) = (first :: rest).map .record →
        mergeRecordsWith f given first rest = mergeRecordsWith AvroType.join given first rest := by
      intro first rest he
      have pairs : rest.foldl (mergeRecordPair f given) { first with dependencies := [] } =
        rest.foldl (mergeRecordPair AvroType.join given) { first with dependencies := [] } :=
        h _ (.records he)
      rw [mergeRecordsWith, mergeRecordsWith, pairs]
    have mixed : flattenWith f (clearBranches (ts.filter (!·.isEmptyUnion))) =
      flattenWith AvroType.join (clearBranches (ts.filter (!·.isEmptyUnion))) := h _ .mixed
    show mergeWith f given ts = mergeWith AvroType.join given ts
    unfold mergeWith
    split
    · rfl
    · rfl
    · split
      · next hrecords =>
        split
        · rfl
        · next first rest hrs =>
          rw [merged first rest (hrs ▸ eq_map_records hrecords)]
      · rw [mixed]
  | records given first rest => exact merge_pairs_agree fun t u hc => h _ (.fields hc)

/-- One function alone is a step of itself. -/
theorem join_unique {f : AvroType → AvroType → AvroType} (hf : ∀ t u, f t u = joinWith f t u) :
    f = AvroType.join := by
  have agrees : ∀ call : MergeCall, call.Agrees f := fun call =>
    calls_well_founded.induction call fun _ ih => agrees_step hf ih
  exact funext fun t => funext fun u => agrees (.join t u)

end Calls

/-- Flattening gives branches that are no larger together than the types that it is given. Two records, or
two enumerations, are merged to a type that is no larger than both together. So no call of flattening and
merging leads to calls without end: what they give satisfies the equations of their recursion, and no other
function of the contents of containers does. -/
theorem merging_grows_nothing :
    (∀ ts, branchesSize (flatten ts) ≤ branchesSize ts) ∧
    (∀ given r s, (merge given [.record r, .record s]).1.size ≤ (record r).size + (record s).size) ∧
    (∀ given d e, (merge given [.enum d, .enum e]).1.size ≤ (enum d).size + (enum e).size) ∧
    (WellFounded fun call' call => Calls call call') ∧
    (∀ ts, flatten ts = flattenWith join ts) ∧
    (∀ given ts, (merge given ts).1 = mergeWith join given ts) ∧
    (∀ t u, join t u = joinWith join t u) ∧
    ∃! f : AvroType → AvroType → AvroType, ∀ t u, f t u = joinWith f t u := by
  refine ⟨fun ts => ?_, fun given r s => ?_, fun given d e => ?_, calls_well_founded, flatten_eq, merge_eq,
    join_eq, join, join_eq, fun f hf => join_unique hf⟩
  · rw [flatten_eq]
    exact flatten_with_size join_compact ts
  · have merged := merge_pairs_size join_compact given [s] { r with dependencies := [] }
    rw [merge_eq]
    exact merged.trans_eq (congrArg _ (branches_size_single _))
  · exact Nat.le_succ 1

end AvroDerive.AvroType
