import AvroDerive.Proofs.Eviction
import AvroDerive.Proofs.NodeReference
import AvroDerive.Proofs.TypePart

/-! # Regular types

A type is regular if its names are legal and, if it is a union, its branches are flat. Merging,
clearing and naming keep types regular, and so do definitions that change places with references. -/
namespace AvroDerive.AvroType

open AvroDerive.Convert Json Schema

/-- Names and symbols are legal, and the branches of a union are flat. -/
def Regular : AvroType → Prop
  | .record r => Name.isLegal r.name = true ∧ ∀ f ∈ r.fields, Name.isLegal f.name = true
  | .enum e => Name.isLegal e.name = true ∧ ∀ symbol ∈ e.symbols, Name.isLegal symbol = true
  | .fixed f => Name.isLegal f.name = true
  | .union branches => Flat branches
  | _ => True

theorem Regular.name {t : AvroType} (h : Regular t) (name : String) (hn : t.name? = some name) :
    Name.isLegal name = true := by
  cases t with
  | record r => exact Option.some.inj hn ▸ h.1
  | enum e => exact Option.some.inj hn ▸ h.1
  | fixed f => exact Option.some.inj hn ▸ h
  | _ => simp [name?] at hn

section Merge

theorem legal_merged_name {a b : String} (ha : Name.isLegal a = true) (hb : Name.isLegal b = true) :
    Name.isLegal (mergedName none a b) = true := by
  unfold mergedName
  split
  · exact legal_append ha (List.all_eq_true.mpr (Name.isPart_of_isLegalChars hb))
  · exact ha

theorem merge_field_legal {join : AvroType → AvroType → AvroType} {field : Field AvroType}
    (hf : Name.isLegal field.name = true) {fs : List (Field AvroType)}
    (hfs : ∀ f ∈ fs, Name.isLegal f.name = true) :
    ∀ f ∈ mergeField join field fs, Name.isLegal f.name = true := by
  induction fs with
  | nil => simpa [mergeField] using hf
  | cons g fs ih =>
    rw [List.forall_mem_cons] at hfs
    rw [mergeField]
    split
    · rw [List.forall_mem_cons]
      exact hfs
    · rw [List.forall_mem_cons]
      exact ⟨hfs.1, ih hfs.2⟩

theorem merge_fields_legal {join : AvroType → AvroType → AvroType} {gs fs : List (Field AvroType)}
    (hgs : ∀ f ∈ gs, Name.isLegal f.name = true) (hfs : ∀ f ∈ fs, Name.isLegal f.name = true) :
    ∀ f ∈ gs.foldl (fun fields f => mergeField join f fields) fs, Name.isLegal f.name = true := by
  induction gs generalizing fs with
  | nil => exact hfs
  | cons g gs ih =>
    rw [List.forall_mem_cons] at hgs
    exact ih hgs.2 (merge_field_legal hgs.1 hfs)

theorem regular_mergeable : Mergeable Regular where
  array _ := trivial
  map _ := trivial
  union _ hflat := hflat
  record level r s hr hs := ⟨legal_merged_name hr.1 hs.1, merge_fields_legal hs.2 hr.2⟩
  enum d e hd he := by
    refine ⟨legal_merged_name hd.1 he.1, fun symbol h => ?_⟩
    exact (mem_addAll.mp h).elim (hd.2 symbol) (he.2 symbol)

end Merge

section Clear

variable {p : AvroType → Prop}

mutual

theorem parts_clear : (t : AvroType) → t.clearDependencies.parts = t.parts.map clearDependencies
  | .record r => by
    rw [clearDependencies, parts, field_parts_clear r.fields, parts, List.map_cons,
      clearDependencies]
  | .array items => by
    rw [clearDependencies, parts, parts_clear items, parts, List.map_cons, clearDependencies]
  | .map values => by
    rw [clearDependencies, parts, parts_clear values, parts, List.map_cons, clearDependencies]
  | .union branches => by
    rw [clearDependencies, parts, branch_parts_clear branches, parts, List.map_cons,
      clearDependencies]
  | .primitive _ | .reference _ | .logical _ _ | .fixed _ | .enum _ => rfl

theorem field_parts_clear : (fs : List (Field AvroType)) →
    fieldParts (clearFields fs) = (fieldParts fs).map clearDependencies
  | [] => rfl
  | f :: fs => by
    rw [clearFields, fieldParts, parts_clear f.type, field_parts_clear fs, fieldParts,
      List.map_append]

theorem branch_parts_clear : (ts : List AvroType) →
    branchParts (clearBranches ts) = (branchParts ts).map clearDependencies
  | [] => rfl
  | t :: ts => by
    rw [clearBranches, branchParts, parts_clear t, branch_parts_clear ts, branchParts,
      List.map_append]

end

theorem AllParts.clear (hp : ∀ t, p t → p t.clearDependencies) {t : AvroType} (h : AllParts p t) :
    AllParts p t.clearDependencies := by
  intro u hu
  rw [parts_clear, List.mem_map] at hu
  obtain ⟨v, hv, rfl⟩ := hu
  exact hp v (h v hv)

theorem clear_branches_eq (ts : List AvroType) : clearBranches ts = ts.map clearDependencies := by
  induction ts with
  | nil => rfl
  | cons t ts ih => rw [clearBranches, ih, List.map_cons]

theorem clear_legal {fs : List (Field AvroType)} (h : ∀ f ∈ fs, Name.isLegal f.name = true) :
    ∀ f ∈ clearFields fs, Name.isLegal f.name = true := by
  rw [clear_fields_eq]
  exact List.forall_mem_map.mpr h

theorem regular_clear (t : AvroType) (h : Regular t) : Regular t.clearDependencies := by
  have kind : ∀ q : AvroType → Bool, (∀ t : AvroType, q t.clearDependencies = q t) → ∀ ts,
      (clearBranches ts).countP q = ts.countP q := by
    intro q hq ts
    rw [clear_branches_eq, List.countP_map]
    exact List.countP_congr fun t _ => by rw [Function.comp_apply, hq]
  cases t with
  | record r => exact ⟨h.1, clear_legal h.2⟩
  | union branches =>
    refine ⟨?_, ?_, ?_, ?_⟩
    · rw [clear_branches_eq]
      refine List.forall_mem_map.mpr fun b hb => ?_
      rw [← h.simple b hb]
      cases b <;> rfl
    · rw [kind isArray fun t => by cases t <;> rfl]
      exact h.arrays
    · rw [kind isMap fun t => by cases t <;> rfl]
      exact h.maps
    · rw [kind isNull fun t => by cases t <;> rfl]
      exact h.nulls
  | _ => exact h

end Clear

section Inlined

variable {types : List AvroType} {defined defined' : List String}

/-- A kind of types that is told by the outermost form, and is that of no named type or reference. -/
structure Outer (q : AvroType → Bool) : Prop where
  array : ∀ t u, q (.array t) = q (.array u)
  map : ∀ t u, q (.map t) = q (.map u)
  union : ∀ ts us, q (.union ts) = q (.union us)
  named : ∀ t, t.isNamed = true → q t = false
  reference : ∀ name, q (.reference name) = false

theorem outer_union : Outer isUnion where
  array _ _ := rfl
  map _ _ := rfl
  union _ _ := rfl
  named t ht := by cases t <;> simp_all [isNamed, isUnion]
  reference _ := rfl

theorem outer_array : Outer isArray where
  array _ _ := rfl
  map _ _ := rfl
  union _ _ := rfl
  named t ht := by cases t <;> simp_all [isNamed, isArray]
  reference _ := rfl

theorem outer_map : Outer isMap where
  array _ _ := rfl
  map _ _ := rfl
  union _ _ := rfl
  named t ht := by cases t <;> simp_all [isNamed, isMap]
  reference _ := rfl

theorem outer_null : Outer isNull where
  array _ _ := rfl
  map _ _ := rfl
  union _ _ := rfl
  named t ht := by cases t <;> simp_all [isNamed, isNull]
  reference _ := rfl

/-- What a branch becomes is of the same kind: only named types come in from outside. -/
theorem Inlined.kind {q : AvroType → Bool} (hq : Outer q) {t u : AvroType}
    (h : Inlined types defined t u defined') : q u = q t := by
  cases h with
  | repeated hname hd => rw [hq.reference, hq.named t (named_of_qualified hname)]
  | record hd hf => rw [hq.named _ rfl, hq.named _ rfl]
  | follow hd hl h =>
    have ht := named_of_qualified (name_of_lookup hl).2
    rw [hq.reference]
    cases h with
    | repeated hname hd => exact hq.reference _
    | record hd hf => exact hq.named _ rfl
    | enum hd => exact hq.named _ rfl
    | fixed hd => exact hq.named _ rfl
    | _ => simp [isNamed] at ht
  | array h => exact hq.array _ _
  | map h => exact hq.map _ _
  | union h => exact hq.union _ _
  | _ => rfl

theorem BranchesInlined.count {q : AvroType → Bool} (hq : Outer q) : {ts us : List AvroType} →
    {defined defined' : List String} → BranchesInlined types defined ts us defined' →
    us.countP q = ts.countP q
  | _, _, _, _, .nil => rfl
  | _, _, _, _, .cons h hrest => by
    rw [List.countP_cons, List.countP_cons, hrest.count hq, h.kind hq]

theorem BranchesInlined.flat {ts us : List AvroType} (h : BranchesInlined types defined ts us defined')
    (hflat : Flat ts) : Flat us where
  simple := by
    have none : us.countP isUnion = 0 := by
      rw [h.count outer_union, List.countP_eq_zero]
      simpa using hflat.simple
    simpa using List.countP_eq_zero.mp none
  arrays := (h.count outer_array).trans_le hflat.arrays
  maps := (h.count outer_map).trans_le hflat.maps
  nulls := (h.count outer_null).trans_le hflat.nulls

theorem FieldsInlined.names : {fs gs : List (Field AvroType)} → {defined defined' : List String} →
    FieldsInlined types defined fs gs defined' → gs.map Field.name = fs.map Field.name
  | _, _, _, _, .nil => rfl
  | _, _, _, _, .cons _ hrest => by rw [List.map_cons, List.map_cons, hrest.names]

/-- A property of references and of all containers, that records keep when their fields get other
types, and unions when their branches are inlined. -/
structure Inlinable (p : AvroType → Prop) : Prop where
  reference : ∀ name, p (.reference name)
  array : ∀ t, p (.array t)
  map : ∀ t, p (.map t)
  record : ∀ (r : Record AvroType) (fields : List (Field AvroType)),
    fields.map Field.name = r.fields.map Field.name → p (.record r) → p (.record { r with fields })
  union : ∀ {types ts us defined defined'}, BranchesInlined types defined ts us defined' →
    p (.union ts) → p (.union us)

section AllParts

variable {p : AvroType → Prop}

mutual

/-- Definitions in place of references, and references in place of definitions, have the property. -/
theorem Inlined.all_parts (hp : Inlinable p) (hs : ∀ t ∈ types, AllParts p t) {t u : AvroType}
    {defined defined' : List String} : Inlined types defined t u defined' → AllParts p t →
    AllParts p u
  | .repeated _ _ => fun _ => .leaf (hp.reference _) rfl
  | .record _ h => fun ht => .record (hp.record _ _ h.names ht.top)
      (h.all_parts hp hs (inside_record.mp ht.inside))
  | .follow _ hl h => fun _ => h.all_parts hp hs (hs _ (List.mem_of_find?_eq_some hl))
  | .array h => fun ht => .array (hp.array _) (h.all_parts hp hs ht.inside)
  | .map h => fun ht => .map (hp.map _) (h.all_parts hp hs ht.inside)
  | .union h => fun ht => .union (hp.union h ht.top) (h.all_parts hp hs (inside_union.mp ht.inside))
  | .enum _ | .fixed _ | .behind _ | .foreign _ _ | .primitive | .logical => id

theorem FieldsInlined.all_parts (hp : Inlinable p) (hs : ∀ t ∈ types, AllParts p t)
    {fs gs : List (Field AvroType)} {defined defined' : List String} :
    FieldsInlined types defined fs gs defined' →
    (∀ f ∈ fs, AllParts p f.type) → ∀ g ∈ gs, AllParts p g.type
  | .nil => by simp
  | .cons h hrest => fun hf => by
    rw [List.forall_mem_cons] at hf ⊢
    exact ⟨h.all_parts hp hs hf.1, hrest.all_parts hp hs hf.2⟩

theorem BranchesInlined.all_parts (hp : Inlinable p) (hs : ∀ t ∈ types, AllParts p t)
    {ts us : List AvroType} {defined defined' : List String} :
    BranchesInlined types defined ts us defined' →
    (∀ t ∈ ts, AllParts p t) → ∀ u ∈ us, AllParts p u
  | .nil => by simp
  | .cons h hrest => fun ht => by
    rw [List.forall_mem_cons] at ht ⊢
    exact ⟨h.all_parts hp hs ht.1, hrest.all_parts hp hs ht.2⟩

end

/-- Eviction keeps the property. -/
theorem evict_all_parts (hp : Inlinable p) {ts : List AvroType} (h : ∀ t ∈ ts, AllParts p t) :
    ∀ t ∈ evict ts, AllParts p t := by
  have from_defined : ∀ (ts : List AvroType) (defined : List String),
      (∀ t ∈ ts, AllParts p t) → ∀ t ∈ evictFrom defined ts, AllParts p t := by
    intro ts
    induction ts with
    | nil => simp [evictFrom]
    | cons t ts ih =>
      intro defined h
      rw [List.forall_mem_cons] at h
      rw [evictFrom]
      split
      · exact ih defined h.2
      · rw [List.forall_mem_cons]
        exact ⟨(evict_in_inlined defined t).all_parts hp (by simp) h.1, ih _ h.2⟩
  exact from_defined ts [] h

end AllParts

theorem regular_inlinable : Inlinable Regular where
  reference _ := trivial
  array _ := trivial
  map _ := trivial
  record r fields hnames hr := by
    refine ⟨hr.1, fun f hf => ?_⟩
    have named : f.name ∈ r.fields.map Field.name := hnames ▸ List.mem_map_of_mem hf
    obtain ⟨g, hg, he⟩ := List.mem_map.mp named
    exact he ▸ hr.2 g hg
  union h := h.flat

end Inlined

end AvroDerive.AvroType
