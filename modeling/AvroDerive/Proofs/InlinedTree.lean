import AvroDerive.Avro.Evict
import AvroDerive.Proofs.MergedMention
import AvroDerive.Proofs.Reading
import AvroDerive.Proofs.Unfolding

/-! # Types with other definitions inside

Definitions are put in place of references, and references in place of definitions that are repeated.
How one type comes from another in this way is a relation: it holds only if finitely many steps lead
there. Both types then stand for the same tree. -/
namespace AvroDerive.AvroType

mutual

/-- The second type comes from the first: given the names that are defined before, a reference to a
type of the list is replaced by that type unless its name is defined, and a definition of a name
that is defined by a reference. The names that are defined afterwards come last. -/
inductive Inlined (types : List AvroType) :
    List String → AvroType → AvroType → List String → Prop
  | repeated {defined t name} : t.qualifiedName? = some name → name ∈ defined →
    Inlined types defined t (.reference name) defined
  | record {defined defined' r fields} : qualify r.ns r.name ∉ defined →
    FieldsInlined types (qualify r.ns r.name :: defined) r.fields fields defined' →
    Inlined types defined (.record r) (.record { r with fields }) defined'
  | enum {defined e} : qualify e.ns e.name ∉ defined →
    Inlined types defined (.enum e) (.enum e) (qualify e.ns e.name :: defined)
  | fixed {defined f} : qualify f.ns f.name ∉ defined →
    Inlined types defined (.fixed f) (.fixed f) (qualify f.ns f.name :: defined)
  | behind {defined name} : name ∈ defined →
    Inlined types defined (.reference name) (.reference name) defined
  | foreign {defined name} : name ∉ defined → lookup? types name = none →
    Inlined types defined (.reference name) (.reference name) defined
  | follow {defined defined' name t u} : name ∉ defined → lookup? types name = some t →
    Inlined types defined t u defined' → Inlined types defined (.reference name) u defined'
  | array {defined defined' items items'} : Inlined types defined items items' defined' →
    Inlined types defined (.array items) (.array items') defined'
  | map {defined defined' values values'} : Inlined types defined values values' defined' →
    Inlined types defined (.map values) (.map values') defined'
  | union {defined defined' branches branches'} :
    BranchesInlined types defined branches branches' defined' →
    Inlined types defined (.union branches) (.union branches') defined'
  | primitive {defined name} :
    Inlined types defined (.primitive name) (.primitive name) defined
  | logical {defined base logicalType} :
    Inlined types defined (.logical base logicalType) (.logical base logicalType) defined

inductive FieldsInlined (types : List AvroType) :
    List String → List (Field AvroType) → List (Field AvroType) → List String → Prop
  | nil {defined} : FieldsInlined types defined [] [] defined
  | cons {defined defined' defined'' f fs type fs'} :
    Inlined types defined f.type type defined' → FieldsInlined types defined' fs fs' defined'' →
    FieldsInlined types defined (f :: fs) ({ f with type } :: fs') defined''

inductive BranchesInlined (types : List AvroType) :
    List String → List AvroType → List AvroType → List String → Prop
  | nil {defined} : BranchesInlined types defined [] [] defined
  | cons {defined defined' defined'' t ts t' ts'} :
    Inlined types defined t t' defined' → BranchesInlined types defined' ts ts' defined'' →
    BranchesInlined types defined (t :: ts) (t' :: ts') defined''

end

section Inlined

variable {types ds : List AvroType} {defined defined' : List String} {t u : AvroType}

mutual

theorem Inlined.subset {t u : AvroType} {defined defined' : List String} :
    Inlined types defined t u defined' → defined ⊆ defined'
  | .record _ h => fun _ hn => h.subset (List.mem_cons_of_mem _ hn)
  | .enum _ | .fixed _ => List.subset_cons_self _ _
  | .follow _ _ h | .array h | .map h => h.subset
  | .union h => h.subset
  | .repeated _ _ | .behind _ | .foreign _ _ | .primitive | .logical => List.Subset.refl _

theorem FieldsInlined.subset {fs fs' : List (Field AvroType)} {defined defined' : List String} :
    FieldsInlined types defined fs fs' defined' → defined ⊆ defined'
  | .nil => List.Subset.refl _
  | .cons h hs => List.Subset.trans h.subset hs.subset

theorem BranchesInlined.subset {ts ts' : List AvroType} {defined defined' : List String} :
    BranchesInlined types defined ts ts' defined' → defined ⊆ defined'
  | .nil => List.Subset.refl _
  | .cons h hs => List.Subset.trans h.subset hs.subset

end

/-- A definition either stays one of its name or becomes a reference. -/
theorem Inlined.same_name (h : Inlined types defined t u defined') (ht : t.isNamed = true)
    (hu : u.isNamed = true) : u.qualifiedName? = t.qualifiedName? := by
  cases h with
  | record | enum | fixed => rfl
  | repeated | behind | foreign | primitive | logical => simp [isNamed] at hu
  | follow | array | map | union => simp [isNamed] at ht

/-- The name of a definition is defined afterwards. -/
theorem Inlined.defines (h : Inlined types defined t u defined') {name : String}
    (ht : t.qualifiedName? = some name) : name ∈ defined' := by
  cases h with
  | repeated hname hn =>
    obtain rfl := Option.some.inj (hname.symm.trans ht)
    exact hn
  | record _ h =>
    obtain rfl := Option.some.inj ht
    exact h.subset (List.mem_cons_self ..)
  | enum | fixed =>
    obtain rfl := Option.some.inj ht
    exact List.mem_cons_self ..
  | _ => simp [qualifiedName?, name?] at ht

/-- A definition whose name is defined becomes a reference. -/
theorem Inlined.of_defined {t u : AvroType} {defined defined' : List String} {name : String}
    (h : Inlined types defined t u defined') (hname : t.qualifiedName? = some name)
    (hn : name ∈ defined) : .reference name = u ∧ defined = defined' := by
  cases h with
  | repeated hname' _ =>
    obtain rfl := Option.some.inj (hname'.symm.trans hname)
    exact ⟨rfl, rfl⟩
  | record hfresh | enum hfresh | fixed hfresh =>
    obtain rfl := Option.some.inj hname
    exact absurd hn hfresh
  | _ => simp [qualifiedName?, name?] at hname

mutual

/-- There is one type only that comes from another. -/
theorem Inlined.unique {t u v : AvroType} {defined defined' defined'' : List String} :
    Inlined types defined t u defined' → Inlined types defined t v defined'' →
    u = v ∧ defined' = defined''
  | .repeated hname hn => fun h' => h'.of_defined hname hn
  | .record hn h => fun h' => by
    cases h' with
    | repeated hname hn' => exact absurd (Option.some.inj hname ▸ hn') hn
    | record _ h' =>
      obtain ⟨rfl, rfl⟩ := h.unique h'
      exact ⟨rfl, rfl⟩
  | .enum hn => fun h' => by
    cases h' with
    | repeated hname hn' => exact absurd (Option.some.inj hname ▸ hn') hn
    | enum _ => exact ⟨rfl, rfl⟩
  | .fixed hn => fun h' => by
    cases h' with
    | repeated hname hn' => exact absurd (Option.some.inj hname ▸ hn') hn
    | fixed _ => exact ⟨rfl, rfl⟩
  | .behind hn => fun h' => by
    cases h' with
    | repeated hname => simp [qualifiedName?, name?] at hname
    | behind | foreign => exact ⟨rfl, rfl⟩
    | follow hn' => exact absurd hn hn'
  | .foreign hn hl => fun h' => by
    cases h' with
    | repeated hname => simp [qualifiedName?, name?] at hname
    | behind | foreign => exact ⟨rfl, rfl⟩
    | follow _ hl' => simp [hl] at hl'
  | .follow hn hl h => fun h' => by
    cases h' with
    | repeated hname => simp [qualifiedName?, name?] at hname
    | behind hn' => exact absurd hn' hn
    | foreign _ hl' => simp [hl] at hl'
    | follow _ hl' h' =>
      obtain rfl := Option.some.inj (hl.symm.trans hl')
      exact h.unique h'
  | .array h => fun h' => by
    cases h' with
    | repeated hname => simp [qualifiedName?, name?] at hname
    | array h' =>
      obtain ⟨rfl, rfl⟩ := h.unique h'
      exact ⟨rfl, rfl⟩
  | .map h => fun h' => by
    cases h' with
    | repeated hname => simp [qualifiedName?, name?] at hname
    | map h' =>
      obtain ⟨rfl, rfl⟩ := h.unique h'
      exact ⟨rfl, rfl⟩
  | .union h => fun h' => by
    cases h' with
    | repeated hname => simp [qualifiedName?, name?] at hname
    | union h' =>
      obtain ⟨rfl, rfl⟩ := h.unique h'
      exact ⟨rfl, rfl⟩
  | .primitive => fun h' => by
    cases h' with
    | repeated hname => simp [qualifiedName?, name?] at hname
    | primitive => exact ⟨rfl, rfl⟩
  | .logical => fun h' => by
    cases h' with
    | repeated hname => simp [qualifiedName?, name?] at hname
    | logical => exact ⟨rfl, rfl⟩

theorem FieldsInlined.unique {fs fs' gs : List (Field AvroType)}
    {defined defined' defined'' : List String} : FieldsInlined types defined fs fs' defined' →
    FieldsInlined types defined fs gs defined'' → fs' = gs ∧ defined' = defined''
  | .nil => fun h' => by
    cases h'
    exact ⟨rfl, rfl⟩
  | .cons h hs => fun h' => by
    cases h' with
    | cons h' hs' =>
      obtain ⟨rfl, rfl⟩ := h.unique h'
      obtain ⟨rfl, rfl⟩ := hs.unique hs'
      exact ⟨rfl, rfl⟩

theorem BranchesInlined.unique {ts ts' us : List AvroType}
    {defined defined' defined'' : List String} : BranchesInlined types defined ts ts' defined' →
    BranchesInlined types defined ts us defined'' → ts' = us ∧ defined' = defined''
  | .nil => fun h' => by
    cases h'
    exact ⟨rfl, rfl⟩
  | .cons h hs => fun h' => by
    cases h' with
    | cons h' hs' =>
      obtain ⟨rfl, rfl⟩ := h.unique h'
      obtain ⟨rfl, rfl⟩ := hs.unique hs'
      exact ⟨rfl, rfl⟩

end

mutual

/-- Each definition comes from one of the type or of the list. -/
theorem Inlined.origin {t u : AvroType} {defined defined' : List String}
    (hs : ∀ s ∈ types, s.definitions ⊆ ds) : Inlined types defined t u defined' →
    t.definitions ⊆ ds → ∀ e ∈ u.definitions, ∃ d ∈ ds, ∃ known known',
      Inlined types known d e known' ∧ known' ⊆ defined'
  | .record hn h => fun hd e he => by
    rw [definitions, List.cons_subset] at hd
    rw [definitions, List.mem_cons] at he
    rcases he with rfl | he
    · exact ⟨_, hd.1, _, _, .record hn h, List.Subset.refl _⟩
    · exact h.origin hs hd.2 e he
  | .enum hn => fun hd e he => by
    obtain rfl := List.mem_singleton.mp he
    exact ⟨_, hd he, _, _, .enum hn, List.Subset.refl _⟩
  | .fixed hn => fun hd e he => by
    obtain rfl := List.mem_singleton.mp he
    exact ⟨_, hd he, _, _, .fixed hn, List.Subset.refl _⟩
  | .follow _ hl h => fun _ e he => h.origin hs (hs _ (List.mem_of_find?_eq_some hl)) e he
  | .array h | .map h => fun hd e he => h.origin hs hd e he
  | .union h => fun hd e he => h.origin hs hd e he
  | .repeated _ _ | .behind _ | .foreign _ _ | .primitive | .logical => fun _ e he => by
    simp [definitions] at he

theorem FieldsInlined.origin {fs fs' : List (Field AvroType)} {defined defined' : List String}
    (hs : ∀ s ∈ types, s.definitions ⊆ ds) : FieldsInlined types defined fs fs' defined' →
    fieldDefinitions fs ⊆ ds → ∀ e ∈ fieldDefinitions fs', ∃ d ∈ ds, ∃ known known',
      Inlined types known d e known' ∧ known' ⊆ defined'
  | .nil => fun _ e he => by simp [fieldDefinitions] at he
  | .cons h hrest => fun hd e he => by
    rw [fieldDefinitions, List.append_subset] at hd
    rw [fieldDefinitions, List.mem_append] at he
    rcases he with he | he
    · obtain ⟨d, hd, known, known', hk, hsub⟩ := h.origin hs hd.1 e he
      exact ⟨d, hd, known, known', hk, List.Subset.trans hsub hrest.subset⟩
    · exact hrest.origin hs hd.2 e he

theorem BranchesInlined.origin {ts ts' : List AvroType} {defined defined' : List String}
    (hs : ∀ s ∈ types, s.definitions ⊆ ds) : BranchesInlined types defined ts ts' defined' →
    branchDefinitions ts ⊆ ds → ∀ e ∈ branchDefinitions ts', ∃ d ∈ ds, ∃ known known',
      Inlined types known d e known' ∧ known' ⊆ defined'
  | .nil => fun _ e he => by simp [branchDefinitions] at he
  | .cons h hrest => fun hd e he => by
    rw [branchDefinitions, List.append_subset] at hd
    rw [branchDefinitions, List.mem_append] at he
    rcases he with he | he
    · obtain ⟨d, hd, known, known', hk, hsub⟩ := h.origin hs hd.1 e he
      exact ⟨d, hd, known, known', hk, List.Subset.trans hsub hrest.subset⟩
    · exact hrest.origin hs hd.2 e he

end

section Reads

variable {q : Place → String → Prop}

mutual

/-- The second type reads well: no name is defined twice, and a reference that comes ahead of a
definition of its name is one of the first type, and its name is not in the list. -/
theorem Inlined.reads (hs : ∀ s ∈ types, AllRefer q none s) {t u : AvroType}
    {defined defined' : List String} (place : Place) : Inlined types defined t u defined' →
    AllRefer q place t →
    Reads (fun p n => q p n ∧ n ∉ definedNames types) defined (u.mentions place) defined'
  | .repeated _ hn | .behind hn => fun _ => .refer_single (Or.inl hn)
  | .record hn h => fun ht => .define hn (h.reads hs _ (all_refer_record.mp ht))
  | .enum hn | .fixed hn => fun _ => .single hn
  | .foreign _ hl => fun ht => by
    refine .refer_single (Or.inr ⟨all_refer_reference.mp ht, ?_⟩)
    rw [← lookup_isSome_iff, hl]
    simp
  | .follow _ hl h => fun _ => by
    obtain ⟨hmem, hname⟩ := name_of_lookup hl
    exact h.reads hs place ((hs _ hmem).named (named_of_qualified hname) place)
  | .array h | .map h => fun ht => h.reads hs none ht
  | .union h => fun ht => h.reads hs place (all_refer_union.mp ht)
  | .primitive | .logical => fun _ => .nil _

theorem FieldsInlined.reads (hs : ∀ s ∈ types, AllRefer q none s)
    {fs fs' : List (Field AvroType)} {defined defined' : List String}
    (owner : String) : FieldsInlined types defined fs fs' defined' →
    (∀ f ∈ fs, AllRefer q (some (owner, f.name)) f.type) →
    Reads (fun p n => q p n ∧ n ∉ definedNames types) defined (fieldMentions owner fs') defined'
  | .nil => fun _ => .nil _
  | .cons h hrest => fun ht => by
    rw [List.forall_mem_cons] at ht
    exact (h.reads hs _ ht.1).append (hrest.reads hs owner ht.2)

theorem BranchesInlined.reads (hs : ∀ s ∈ types, AllRefer q none s)
    {ts ts' : List AvroType} {defined defined' : List String}
    (place : Place) : BranchesInlined types defined ts ts' defined' →
    (∀ t ∈ ts, AllRefer q place t) →
    Reads (fun p n => q p n ∧ n ∉ definedNames types) defined (branchMentions place ts') defined'
  | .nil => fun _ => .nil _
  | .cons h hrest => fun ht => by
    rw [List.forall_mem_cons] at ht
    exact (h.reads hs place ht.1).append (hrest.reads hs place ht.2)

end

end Reads

end Inlined

section Tree

variable {types ds es : List AvroType}

/-- The second definitions come from the first, which are consistent and hold those of the list and
those inside them, and nothing else is defined on the way. -/
structure Derived (types ds es : List AvroType) : Prop where
  consistent : Consistent ds
  listed : ∀ s ∈ types, s.definitions ⊆ ds
  closed : ∀ d ∈ ds, d.isNamed = true ∧ d.definitions ⊆ ds
  origin : ∀ e ∈ es, e.isNamed = true ∧ ∃ d ∈ ds, ∃ known known',
    Inlined types known d e known' ∧ known' ⊆ definedNames es

/-- The definitions of the names that other ones define. -/
def counterparts (ds es : List AvroType) : List AvroType :=
  ds.filter (isDefinedIn (definedNames es))

theorem counterpart_lookup (h : Derived types ds es) {d : AvroType} {name : String} (hd : d ∈ ds)
    (hname : d.qualifiedName? = some name) (he : name ∈ definedNames es) :
    lookup? (counterparts ds es) name = some d := by
  refine lookup_of_consistent (fun a ha b hb => ?_) ?_ hname
  · exact h.consistent a (List.mem_of_mem_filter ha) b (List.mem_of_mem_filter hb)
  · rw [counterparts, List.mem_filter]
    exact ⟨hd, by simp [isDefinedIn, hname, he]⟩

theorem counterparts_defined (ds es : List AvroType) :
    definedNames (counterparts ds es) ⊆ definedNames es := by
  intro name hn
  obtain ⟨d, hd, hname⟩ := mem_defined.mp hn
  have := (List.mem_filter.mp hd).2
  simpa [isDefinedIn, hname] using this

/-- A name that is defined afterwards has a definition before, from which its definition comes. -/
theorem Derived.lookup (h : Derived types ds es) {name : String} (hn : name ∈ definedNames es) :
    ∃ d e known known', d ∈ ds ∧ d.qualifiedName? = some name ∧ lookup? es name = some e ∧
      e.isNamed = true ∧ Inlined types known d e known' ∧ known' ⊆ definedNames es := by
  have hsome : (lookup? es name).isSome := by simpa [lookup?, mem_defined] using hn
  obtain ⟨e, hl⟩ := Option.isSome_iff_exists.mp hsome
  obtain ⟨he, hname⟩ := name_of_lookup hl
  obtain ⟨henamed, d, hd, known, known', hk, hsub⟩ := h.origin e he
  have hsame := hk.same_name (h.closed d hd).1 henamed
  exact ⟨d, e, known, known', hd, hsame.symm.trans hname, hl, henamed, hk, hsub⟩

theorem Derived.names (h : Derived types ds es) : definedNames es ⊆ definedNames ds := by
  intro name hn
  obtain ⟨d, _, _, _, hd, hname, _⟩ := h.lookup hn
  exact mem_defined.mpr ⟨d, hd, hname⟩

/-- If no name is lost, every definition counts. -/
theorem counterparts_eq (h : Derived types ds es) (hn : definedNames ds ⊆ definedNames es) :
    counterparts ds es = ds := by
  refine List.filter_eq_self.mpr fun d hd => ?_
  cases hname : d.qualifiedName? with
  | none =>
    have := (h.closed d hd).1
    cases d <;> simp_all [isNamed, qualifiedName?, name?]
  | some name =>
    have := hn (mem_defined.mpr ⟨d, hd, hname⟩)
    simp [isDefinedIn, hname, this]

/-- Down to a depth, types that come from others stand for the same trees. -/
def TreesAlike (types ds es : List AvroType) (depth : Nat) : Prop :=
  ∀ defined t u defined', Inlined types defined t u defined' → t.definitions ⊆ ds →
    defined' ⊆ definedNames es → tree es depth u = tree (counterparts ds es) depth t

variable {depth : Nat}

theorem FieldsInlined.trees (ih : TreesAlike types ds es depth) {fs fs' : List (Field AvroType)}
    {defined defined' : List String} : FieldsInlined types defined fs fs' defined' →
    fieldDefinitions fs ⊆ ds → defined' ⊆ definedNames es →
    (fs'.map fun f => { f with type := tree es depth f.type }) =
      fs.map fun f => { f with type := tree (counterparts ds es) depth f.type }
  | .nil => fun _ _ => rfl
  | .cons h hs => fun hd he => by
    rw [fieldDefinitions, List.append_subset] at hd
    rw [List.map_cons, List.map_cons, hs.trees ih hd.2 he,
      ih _ _ _ _ h hd.1 (List.Subset.trans hs.subset he)]

theorem BranchesInlined.trees (ih : TreesAlike types ds es depth) {ts ts' : List AvroType}
    {defined defined' : List String} : BranchesInlined types defined ts ts' defined' →
    branchDefinitions ts ⊆ ds → defined' ⊆ definedNames es →
    ts'.map (tree es depth) = ts.map (tree (counterparts ds es) depth)
  | .nil => fun _ _ => rfl
  | .cons h hs => fun hd he => by
    rw [branchDefinitions, List.append_subset] at hd
    rw [List.map_cons, List.map_cons, hs.trees ih hd.2 he,
      ih _ _ _ _ h hd.1 (List.Subset.trans hs.subset he)]

/-- One level further, as long as a definition stays a definition. -/
theorem Inlined.tree_named (ih : TreesAlike types ds es depth) {t u : AvroType}
    {defined defined' : List String} (h : Inlined types defined t u defined')
    (ht : t.isNamed = true) (hu : u.isNamed = true) (hd : t.definitions ⊆ ds)
    (he : defined' ⊆ definedNames es) :
    tree es (depth + 1) u = tree (counterparts ds es) (depth + 1) t := by
  cases h with
  | record hn h =>
    rw [definitions, List.cons_subset] at hd
    simp only [tree, resolve, overParts, h.trees ih hd.2 he]
  | enum | fixed => rfl
  | repeated | behind | foreign | primitive | logical => simp [isNamed] at hu
  | follow | array | map | union => simp [isNamed] at ht

/-- A reference leads to the same tree as before, if its name is defined afterwards. -/
theorem reference_tree (hp : Derived types ds es) (ih : TreesAlike types ds es depth)
    (name : String) : tree es (depth + 1) (.reference name) =
      tree (counterparts ds es) (depth + 1) (.reference name) := by
  by_cases hn : name ∈ definedNames es
  · obtain ⟨d, e, known, known', hd, hname, hl, he, hk, hsub⟩ := hp.lookup hn
    obtain ⟨hdnamed, hinside⟩ := hp.closed d hd
    have htrees := hk.tree_named ih hdnamed he hinside hsub
    rw [tree, tree, resolve_named _ he, resolve_named _ hdnamed] at htrees
    simpa only [tree, resolve, hl, counterpart_lookup hp hd hname hn, Option.getD_some] using htrees
  · have hcounter : name ∉ definedNames (counterparts ds es) :=
      fun h => hn (counterparts_defined ds es h)
    simp only [tree, resolve, lookup_eq_none hn, lookup_eq_none hcounter, Option.getD_none,
      overParts]

/-- A definition stands for the tree that its name leads to. -/
theorem named_tree (hp : Derived types ds es) {t : AvroType} {name : String}
    (hname : t.qualifiedName? = some name) (hd : t.definitions ⊆ ds)
    (hn : name ∈ definedNames es) :
    tree (counterparts ds es) (depth + 1) (.reference name) =
      tree (counterparts ds es) (depth + 1) t := by
  have ht : t ∈ ds := hd (named_definition hname)
  rw [tree, tree, resolve_named _ (hp.closed t ht).1, resolve,
    counterpart_lookup hp ht hname hn, Option.getD_some]

/-- One level further, as long as it comes from a definition. -/
theorem Inlined.tree_defined (hp : Derived types ds es) (ih : TreesAlike types ds es depth)
    {t u : AvroType} {defined defined' : List String} (h : Inlined types defined t u defined')
    (ht : t.isNamed = true) (hd : t.definitions ⊆ ds) (he : defined' ⊆ definedNames es) :
    tree es (depth + 1) u = tree (counterparts ds es) (depth + 1) t := by
  cases h with
  | repeated hname hn => rw [reference_tree hp ih, named_tree hp hname hd (he hn)]
  | record hn h => exact (Inlined.record hn h).tree_named ih rfl rfl hd he
  | enum | fixed => rfl
  | _ => simp [isNamed] at ht

/-- One level further, for all types. -/
theorem Inlined.tree_step (hp : Derived types ds es) (ih : TreesAlike types ds es depth)
    {t u : AvroType} {defined defined' : List String} (h : Inlined types defined t u defined')
    (hd : t.definitions ⊆ ds) (he : defined' ⊆ definedNames es) :
    tree es (depth + 1) u = tree (counterparts ds es) (depth + 1) t := by
  by_cases ht : t.isNamed = true
  · exact h.tree_defined hp ih ht hd he
  · cases h with
    | follow _ hl h =>
      obtain ⟨hmem, hname⟩ := name_of_lookup hl
      rw [h.tree_defined hp ih (named_of_qualified hname) (hp.listed _ hmem) he]
      exact (named_tree hp hname (hp.listed _ hmem) (he (h.defines hname))).symm
    | behind | foreign => exact reference_tree hp ih _
    | array h => simp only [tree, resolve, overParts, ih _ _ _ _ h hd he]
    | map h => simp only [tree, resolve, overParts, ih _ _ _ _ h hd he]
    | union h => simp only [tree, resolve, overParts, h.trees ih hd he]
    | primitive | logical => rfl
    | repeated hname => exact absurd (named_of_qualified hname) ht
    | record | enum | fixed => exact absurd rfl ht

/-- Types that come from others stand for the same trees as these, at every depth. -/
theorem trees_alike (hp : Derived types ds es) (depth : Nat) : TreesAlike types ds es depth := by
  induction depth with
  | zero => exact fun _ _ _ _ _ _ _ => rfl
  | succ depth ih => exact fun _ _ _ _ h => h.tree_step hp ih

end Tree

end AvroDerive.AvroType
