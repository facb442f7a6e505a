import AvroDerive.Proofs.Eviction

/-! # Eviction keeps the meaning

After eviction each name is defined once, and evicting again changes nothing. If definitions of the
same name are equal, no name is lost: what an evicted definition holds was defined with the first one
of its name. -/
namespace AvroDerive.AvroType

section Again

variable {q : Place → String → Prop}

mutual

/-- A type that reads well stays as it is. -/
theorem evict_in_of_reads {defined defined' : List String} {place : Place} : (t : AvroType) →
    Reads q defined (t.mentions place) defined' → evictIn defined t = (t, defined')
  | .record r, h => by
    cases h with
    | define hn h => rw [evictIn, if_neg hn, evict_fields_of_reads r.fields h]
  | .enum e, h => by
    cases h with
    | define hn h =>
      cases h
      rw [evictIn, if_neg hn]
  | .fixed f, h => by
    cases h with
    | define hn h =>
      cases h
      rw [evictIn, if_neg hn]
  | .array items, h => by rw [evictIn, evict_in_of_reads items h]
  | .map values, h => by rw [evictIn, evict_in_of_reads values h]
  | .union branches, h => by rw [evictIn, evict_branches_of_reads branches h]
  | .reference name, h => by
    cases h with
    | refer _ h =>
      cases h
      rfl
  | .primitive _, h | .logical _ _, h => by
    cases h
    rfl

theorem evict_fields_of_reads {defined defined' : List String} {owner : String} :
    (fs : List (Field AvroType)) → Reads q defined (fieldMentions owner fs) defined' →
    evictFields defined fs = (fs, defined')
  | [], h => by
    cases h
    rfl
  | f :: fs, h => by
    obtain ⟨known, first, rest⟩ := Reads.split h
    rw [evictFields, evict_in_of_reads f.type first]
    dsimp only
    rw [evict_fields_of_reads fs rest]

theorem evict_branches_of_reads {defined defined' : List String} {place : Place} :
    (ts : List AvroType) → Reads q defined (branchMentions place ts) defined' →
    evictBranches defined ts = (ts, defined')
  | [], h => by
    cases h
    rfl
  | t :: ts, h => by
    obtain ⟨known, first, rest⟩ := Reads.split h
    rw [evictBranches, evict_in_of_reads t first]
    dsimp only
    rw [evict_branches_of_reads ts rest]

end

theorem evict_from_of_reads {defined defined' : List String} (ts : List AvroType)
    (h : Reads q defined (ts.flatMap (mentions none)) defined') : evictFrom defined ts = ts := by
  induction ts generalizing defined with
  | nil => rfl
  | cons t ts ih =>
    obtain ⟨known, first, rest⟩ := Reads.split h
    have fresh : t.isDefinedIn defined = false := by
      rw [← Bool.not_eq_true, defined_in_iff]
      rintro ⟨name, hname, ht⟩
      obtain ⟨ms, hms⟩ := mentions_begin ht none
      rw [hms] at first
      cases first with
      | define hn _ => exact hn hname
    rw [evictFrom, if_neg (by simp [fresh]), evict_in_of_reads t first]
    dsimp only
    rw [ih rest]

end Again

section Settled

variable {ds : List AvroType} {size : Nat} {names : List String}

/-- The definitions of defined names, up to a size, define nothing that is not defined. -/
def Settled (ds : List AvroType) (size : Nat) (defined : List String) : Prop :=
  ∀ d ∈ ds, ∀ name, d.qualifiedName? = some name → name ∈ defined →
    d.definitions.length ≤ size → definedNames d.definitions ⊆ defined

theorem settled_nil (ds : List AvroType) (size : Nat) : Settled ds size [] :=
  fun _ _ _ _ hn => absurd hn List.not_mem_nil

mutual

theorem evict_in_names (defined : List String) : (t : AvroType) →
    (evictIn defined t).2 ⊆ definedNames t.definitions ++ defined
  | .record r => by
    rw [evictIn, record_names]
    split
    · exact List.subset_append_right _ _
    · have inside := evict_fields_names (qualify r.ns r.name :: defined) r.fields
      grind
  | .enum e => by
    rw [evictIn]
    split
    · exact List.subset_append_right _ _
    · exact List.Subset.refl _
  | .fixed f => by
    rw [evictIn]
    split
    · exact List.subset_append_right _ _
    · exact List.Subset.refl _
  | .array items => evict_in_names defined items
  | .map values => evict_in_names defined values
  | .union branches => evict_branches_names defined branches
  | .reference _ | .primitive _ | .logical _ _ => List.Subset.refl _

theorem evict_fields_names (defined : List String) : (fs : List (Field AvroType)) →
    (evictFields defined fs).2 ⊆ definedNames (fieldDefinitions fs) ++ defined
  | [] => List.Subset.refl _
  | f :: fs => by
    rw [evictFields, fieldDefinitions, defined_append]
    have first := evict_in_names defined f.type
    have rest := evict_fields_names (evictIn defined f.type).2 fs
    grind

theorem evict_branches_names (defined : List String) : (ts : List AvroType) →
    (evictBranches defined ts).2 ⊆ definedNames (branchDefinitions ts) ++ defined
  | [] => List.Subset.refl _
  | t :: ts => by
    rw [evictBranches, branchDefinitions, defined_append]
    have first := evict_in_names defined t
    have rest := evict_branches_names (evictIn defined t).2 ts
    grind

end

theorem Settled.mono {size' : Nat} {defined : List String} (h : Settled ds size' defined)
    (hs : size ≤ size') : Settled ds size defined :=
  fun d hd name hname hn hsize => h d hd name hname hn (hsize.trans hs)

/-- A record whose name is new is larger than what is settled inside it. -/
theorem Settled.enter (hc : Consistent ds) {r : Record AvroType} (hr : .record r ∈ ds)
    {defined : List String} (h : Settled ds size defined)
    (hsize : (fieldDefinitions r.fields).length ≤ size) :
    Settled ds (fieldDefinitions r.fields).length (qualify r.ns r.name :: defined) := by
  intro d hd name hname hn hlength
  rcases List.mem_cons.mp hn with rfl | hn
  · obtain rfl : d = .record r := hc d hd _ hr hname
    rw [definitions, List.length_cons] at hlength
    omega
  · exact List.subset_cons_of_subset _ (h d hd name hname hn (hlength.trans hsize))

/-- A definition with nothing inside is settled at once. -/
theorem Settled.add_leaf (hc : Consistent ds) {t : AvroType} (ht : t ∈ ds) {name : String}
    (hname : t.qualifiedName? = some name) (hleaf : t.definitions = [t]) {defined : List String}
    (h : Settled ds size defined) : Settled ds size (name :: defined) ∧
      definedNames t.definitions ⊆ name :: defined := by
  have hnames : definedNames t.definitions ⊆ name :: defined := by
    rw [hleaf, defined_cons, hname]
    exact List.cons_subset.mpr ⟨List.mem_cons_self .., List.nil_subset _⟩
  refine ⟨fun d hd name' hname' hn hsize => ?_, hnames⟩
  rcases List.mem_cons.mp hn with rfl | hn
  · obtain rfl : d = t := hc d hd t ht (hname'.trans hname.symm)
    exact hnames
  · exact List.subset_cons_of_subset _ (h d hd name' hname' hn hsize)

mutual

/-- When a type has been gone through, every name in it is defined. -/
theorem evict_in_settles (hc : Consistent ds) {size : Nat} {defined : List String} :
    (t : AvroType) → t.definitions ⊆ ds → t.definitions.length ≤ size →
    Settled ds size defined → Settled ds size (evictIn defined t).2 ∧
      definedNames t.definitions ⊆ (evictIn defined t).2
  | .record r, hd, hsize, hs => by
    have hinside := hd
    rw [definitions, List.cons_subset] at hinside
    rw [evictIn]
    split
    · next hn => exact ⟨hs, hs _ hinside.1 _ rfl hn hsize⟩
    · next hn =>
      rw [definitions, List.length_cons] at hsize
      have hlength : (fieldDefinitions r.fields).length ≤ size := by omega
      obtain ⟨hsettled, hnames⟩ := evict_fields_settle hc r.fields hinside.2 (Nat.le_refl _)
        (hs.enter hc hinside.1 hlength)
      have hkept := (evict_fields_inlined (qualify r.ns r.name :: defined) r.fields).subset
      have hall : definedNames (definitions (.record r)) ⊆
          (evictFields (qualify r.ns r.name :: defined) r.fields).2 := by
        rw [record_names, List.cons_subset]
        exact ⟨hkept (List.mem_cons_self ..), hnames⟩
      refine ⟨fun d hd' name hname hn' hlength' => ?_, hall⟩
      -- A name that is defined now stands inside the record, is its own, or was defined before.
      rcases List.mem_append.mp (evict_fields_names _ _ hn') with hin | hin
      · obtain ⟨e, he, hname'⟩ := mem_defined.mp hin
        obtain rfl : d = e := hc d hd' e (hinside.2 he) (hname.trans hname'.symm)
        exact List.Subset.trans (defined_subset (field_definitions_inside r.fields d he)) hnames
      · rcases List.mem_cons.mp hin with rfl | hin
        · obtain rfl : d = .record r := hc d hd' _ hinside.1 hname
          exact hall
        · exact List.Subset.trans (hs d hd' name hname hin hlength')
            (List.Subset.trans (List.subset_cons_self _ _) hkept)
  | .enum e, hd, hsize, hs => by
    rw [evictIn]
    split
    · next hn => exact ⟨hs, hs _ (hd (List.mem_cons_self ..)) _ rfl hn hsize⟩
    · exact hs.add_leaf hc (hd (List.mem_cons_self ..)) rfl rfl
  | .fixed f, hd, hsize, hs => by
    rw [evictIn]
    split
    · next hn => exact ⟨hs, hs _ (hd (List.mem_cons_self ..)) _ rfl hn hsize⟩
    · exact hs.add_leaf hc (hd (List.mem_cons_self ..)) rfl rfl
  | .array items, hd, hsize, hs => evict_in_settles hc items hd hsize hs
  | .map values, hd, hsize, hs => evict_in_settles hc values hd hsize hs
  | .union branches, hd, hsize, hs => evict_branches_settle hc branches hd hsize hs
  | .reference _, _, _, hs | .primitive _, _, _, hs | .logical _ _, _, _, hs =>
    ⟨hs, List.nil_subset _⟩

theorem evict_fields_settle (hc : Consistent ds) {size : Nat} {defined : List String} :
    (fs : List (Field AvroType)) → fieldDefinitions fs ⊆ ds →
    (fieldDefinitions fs).length ≤ size → Settled ds size defined →
    Settled ds size (evictFields defined fs).2 ∧
      definedNames (fieldDefinitions fs) ⊆ (evictFields defined fs).2
  | [], _, _, hs => ⟨hs, List.nil_subset _⟩
  | f :: fs, hd, hsize, hs => by
    rw [fieldDefinitions, List.append_subset] at hd
    rw [fieldDefinitions, List.length_append] at hsize
    obtain ⟨first, hfirst⟩ := evict_in_settles hc f.type hd.1 (by omega) hs
    obtain ⟨rest, hrest⟩ := evict_fields_settle hc fs hd.2 (by omega) first
    rw [evictFields, fieldDefinitions, defined_append, List.append_subset]
    exact ⟨rest, List.Subset.trans hfirst (evict_fields_inlined _ fs).subset, hrest⟩

theorem evict_branches_settle (hc : Consistent ds) {size : Nat} {defined : List String} :
    (ts : List AvroType) → branchDefinitions ts ⊆ ds →
    (branchDefinitions ts).length ≤ size → Settled ds size defined →
    Settled ds size (evictBranches defined ts).2 ∧
      definedNames (branchDefinitions ts) ⊆ (evictBranches defined ts).2
  | [], _, _, hs => ⟨hs, List.nil_subset _⟩
  | t :: ts, hd, hsize, hs => by
    rw [branchDefinitions, List.append_subset] at hd
    rw [branchDefinitions, List.length_append] at hsize
    obtain ⟨first, hfirst⟩ := evict_in_settles hc t hd.1 (by omega) hs
    obtain ⟨rest, hrest⟩ := evict_branches_settle hc ts hd.2 (by omega) first
    rw [evictBranches, branchDefinitions, defined_append, List.append_subset]
    exact ⟨rest, List.Subset.trans hfirst (evict_branches_inlined _ ts).subset, hrest⟩

end

mutual

/-- A type in which references come behind definitions reads well when it has been gone through. -/
theorem evict_in_heralded (hc : Consistent ds) {size : Nat} {known defined : List String}
    (hk : known ⊆ defined) (place : Place) : (t : AvroType) → t.definitions ⊆ ds →
    t.definitions.length ≤ size → Settled ds size defined →
    Heralded names known (t.mentions place) →
    Reads (fun _ name => name ∉ names) defined ((evictIn defined t).1.mentions place)
      (evictIn defined t).2
  | .record r, hd, hsize, hs, h => by
    rw [definitions, List.cons_subset] at hd
    rw [definitions, List.length_cons] at hsize
    have hlength : (fieldDefinitions r.fields).length ≤ size := by omega
    rw [evictIn]
    split
    · next hn => exact .refer_single (Or.inl hn)
    · next hn => exact .define hn (evict_fields_heralded hc (List.cons_subset_cons _ hk) r.name
        r.fields hd.2 (Nat.le_refl _) (hs.enter hc hd.1 hlength) h)
  | .enum e, _, _, _, _ => by
    rw [evictIn]
    split
    · next hn => exact .refer_single (Or.inl hn)
    · next hn => exact .single hn
  | .fixed f, _, _, _, _ => by
    rw [evictIn]
    split
    · next hn => exact .refer_single (Or.inl hn)
    · next hn => exact .single hn
  | .array items, hd, hsize, hs, h => evict_in_heralded hc hk none items hd hsize hs h
  | .map values, hd, hsize, hs, h => evict_in_heralded hc hk none values hd hsize hs h
  | .union branches, hd, hsize, hs, h =>
    evict_branches_heralded hc hk place branches hd hsize hs h
  | .reference name, _, _, _, h => by
    refine .refer_single ?_
    by_cases hn : name ∈ names
    · exact Or.inl (hk (h.1 hn))
    · exact Or.inr hn
  | .primitive _, _, _, _, _ | .logical _ _, _, _, _, _ => .nil _

theorem evict_fields_heralded (hc : Consistent ds) {size : Nat} {known defined : List String}
    (hk : known ⊆ defined) (owner : String) : (fs : List (Field AvroType)) →
    fieldDefinitions fs ⊆ ds → (fieldDefinitions fs).length ≤ size → Settled ds size defined →
    Heralded names known (fieldMentions owner fs) →
    Reads (fun _ name => name ∉ names) defined (fieldMentions owner (evictFields defined fs).1)
      (evictFields defined fs).2
  | [], _, _, _, _ => .nil _
  | f :: fs, hd, hsize, hs, h => by
    rw [fieldDefinitions, List.append_subset] at hd
    rw [fieldDefinitions, List.length_append] at hsize
    rw [fieldMentions, heralded_append, introduced_mentions] at h
    obtain ⟨hsettled, hnames⟩ := evict_in_settles hc f.type hd.1 (by omega) hs
    have first := evict_in_heralded hc hk (some (owner, f.name)) f.type hd.1 (by omega) hs h.1
    have hkept : (definedNames f.type.definitions).reverse ++ known ⊆ (evictIn defined f.type).2 :=
      List.append_subset.mpr ⟨List.reverse_subset.mpr hnames, List.Subset.trans hk first.subset⟩
    exact first.append (evict_fields_heralded hc hkept owner fs hd.2 (by omega) hsettled h.2)

theorem evict_branches_heralded (hc : Consistent ds) {size : Nat} {known defined : List String}
    (hk : known ⊆ defined) (place : Place) : (ts : List AvroType) →
    branchDefinitions ts ⊆ ds → (branchDefinitions ts).length ≤ size → Settled ds size defined →
    Heralded names known (branchMentions place ts) →
    Reads (fun _ name => name ∉ names) defined (branchMentions place (evictBranches defined ts).1)
      (evictBranches defined ts).2
  | [], _, _, _, _ => .nil _
  | t :: ts, hd, hsize, hs, h => by
    rw [branchDefinitions, List.append_subset] at hd
    rw [branchDefinitions, List.length_append] at hsize
    rw [branchMentions, heralded_append, introduced_mentions] at h
    obtain ⟨hsettled, hnames⟩ := evict_in_settles hc t hd.1 (by omega) hs
    have first := evict_in_heralded hc hk place t hd.1 (by omega) hs h.1
    have hkept : (definedNames t.definitions).reverse ++ known ⊆ (evictIn defined t).2 :=
      List.append_subset.mpr ⟨List.reverse_subset.mpr hnames, List.Subset.trans hk first.subset⟩
    exact first.append (evict_branches_heralded hc hkept place ts hd.2 (by omega) hsettled h.2)

end

/-- Going through a list from a settled state. -/
theorem evict_from_heralded (names : List String) (hc : Consistent ds) {known defined : List String}
    (hk : known ⊆ defined) (ts : List AvroType) (hd : ts.flatMap definitions ⊆ ds)
    (hs : ∀ size, Settled ds size defined)
    (h : Heralded names known (ts.flatMap (mentions none))) :
    ∃ defined', Reads (fun _ name => name ∉ names) defined
      ((evictFrom defined ts).flatMap (mentions none)) defined' ∧
      definedNames (ts.flatMap definitions) ⊆ defined' := by
  induction ts generalizing known defined with
  | nil => exact ⟨defined, .nil _, List.nil_subset _⟩
  | cons t ts ih =>
    rw [List.flatMap_cons, List.append_subset] at hd
    rw [List.flatMap_cons, heralded_append, introduced_mentions] at h
    rw [evictFrom, List.flatMap_cons, defined_append]
    split
    · next hdropped =>
      obtain ⟨name, hn, hname⟩ := defined_in_iff.mp hdropped
      have hnames := hs _ t (hd.1 (named_definition hname)) name hname hn (Nat.le_refl _)
      have hk' : (definedNames t.definitions).reverse ++ known ⊆ defined :=
        List.append_subset.mpr ⟨List.reverse_subset.mpr hnames, hk⟩
      obtain ⟨defined', hr, hrest⟩ := ih hk' hd.2 hs h.2
      exact ⟨defined', hr, List.append_subset.mpr ⟨List.Subset.trans hnames hr.subset, hrest⟩⟩
    · have settles : ∀ size, Settled ds size (evictIn defined t).2 ∧
          definedNames t.definitions ⊆ (evictIn defined t).2 := by
        intro size
        obtain ⟨hsettled, hnames⟩ := evict_in_settles hc t hd.1 (Nat.le_max_right size _) (hs _)
        exact ⟨hsettled.mono (Nat.le_max_left _ _), hnames⟩
      have first := evict_in_heralded hc hk none t hd.1 (Nat.le_refl _) (hs _) h.1
      have hnames := (settles 0).2
      have hk' : (definedNames t.definitions).reverse ++ known ⊆ (evictIn defined t).2 :=
        List.append_subset.mpr ⟨List.reverse_subset.mpr hnames, List.Subset.trans hk first.subset⟩
      obtain ⟨defined', hr, hrest⟩ := ih hk' hd.2 (fun size => (settles size).1) h.2
      exact ⟨defined', first.append hr,
        List.append_subset.mpr ⟨List.Subset.trans hnames hr.subset, hrest⟩⟩

end Settled

section Lists

theorem list_introduced (ts : List AvroType) :
    introduced (ts.flatMap (mentions none)) = definedNames (ts.flatMap definitions) := by
  rw [← branch_mentions_eq, ← branch_definitions_eq, introduced_branches]

theorem evict_in_defined (defined : List String) (t : AvroType) : (evictIn defined t).2 =
    (definedNames (evictIn defined t).1.definitions).reverse ++ defined := by
  rw [← introduced_mentions none]
  have reads : Reads (fun _ _ => True) defined _ _ :=
    evict_in_reads defined none t fun _ _ _ => trivial
  exact reads.defined_eq

/-- The types that eviction keeps, each with what it becomes, in their order. -/
theorem evict_from_pairs (defined : List String) (ts : List AvroType) :
    ∃ kept : List (AvroType × AvroType), (kept.map Prod.fst).Sublist ts ∧
      kept.map Prod.snd = evictFrom defined ts ∧ ∀ p ∈ kept, ∃ known known',
        Inlined [] known p.1 p.2 known' ∧
          known' ⊆ defined ++ definedNames ((evictFrom defined ts).flatMap definitions) := by
  induction ts generalizing defined with
  | nil => exact ⟨[], List.Sublist.refl _, rfl, by simp⟩
  | cons t ts ih =>
    rw [evictFrom]
    split
    · obtain ⟨kept, hsub, hkept, hk⟩ := ih defined
      exact ⟨kept, hsub.cons t, hkept, hk⟩
    · obtain ⟨kept, hsub, hkept, hk⟩ := ih (evictIn defined t).2
      have names : (evictIn defined t).2 ⊆
          definedNames (evictIn defined t).1.definitions ++ defined := by
        rw [evict_in_defined]
        exact List.append_subset.mpr ⟨List.subset_append_of_subset_left _
          (List.reverse_subset.mpr (List.Subset.refl _)), List.subset_append_right _ _⟩
      refine ⟨(t, (evictIn defined t).1) :: kept, hsub.cons_cons t, ?_, ?_⟩
      · rw [List.map_cons, hkept]
      · rw [List.forall_mem_cons, List.flatMap_cons, defined_append]
        refine ⟨⟨_, _, evict_in_inlined defined t, by grind⟩, fun p hp => ?_⟩
        obtain ⟨known, known', hi, hknown⟩ := hk p hp
        exact ⟨known, known', hi, by grind⟩

theorem list_closed (ts : List AvroType) : ∀ d ∈ ts.flatMap definitions,
    d.isNamed = true ∧ d.definitions ⊆ ts.flatMap definitions := by
  rw [← branch_definitions_eq]
  exact fun d hd => ⟨branch_definition_named ts d hd, branch_definitions_inside ts d hd⟩

/-- What is defined after eviction comes from what was defined before. -/
theorem evict_derived {ts : List AvroType} (hc : Consistent (ts.flatMap definitions))
    {kept : List (AvroType × AvroType)} (hsub : (kept.map Prod.fst).Sublist ts)
    (hkept : kept.map Prod.snd = evict ts) (hk : ∀ p ∈ kept, ∃ known known',
      Inlined [] known p.1 p.2 known' ∧ known' ⊆ definedNames ((evict ts).flatMap definitions)) :
    Derived [] (ts.flatMap definitions) ((evict ts).flatMap definitions) where
  consistent := hc
  listed := by simp
  closed := list_closed ts
  origin e he := by
    obtain ⟨u, hu, heu⟩ := List.mem_flatMap.mp he
    rw [← hkept, List.mem_map] at hu
    obtain ⟨p, hp, rfl⟩ := hu
    obtain ⟨known, known', hi, hknown⟩ := hk p hp
    have hp1 : p.1.definitions ⊆ ts.flatMap definitions :=
      fun _ hd => List.mem_flatMap.mpr ⟨p.1, hsub.subset (List.mem_map_of_mem hp), hd⟩
    obtain ⟨d, hd, k, k', hi', hk'⟩ := hi.origin (by simp) hp1 e heu
    exact ⟨definition_named p.2 e heu, d, hd, k, k', hi', List.Subset.trans hk' hknown⟩

/-- Eviction enforces that names are defined once, and does no more when it is repeated. If
definitions of the same name are equal, it keeps the names that are defined, the trees that the types
it keeps stand for, and the order of definitions and references. -/
theorem evict_defines_once (ts : List AvroType) :
    (introduced ((evict ts).flatMap (mentions none))).Nodup ∧ evict (evict ts) = evict ts ∧
    (Consistent (ts.flatMap definitions) →
      (∀ name, name ∈ introduced ((evict ts).flatMap (mentions none)) ↔
        name ∈ introduced (ts.flatMap (mentions none))) ∧
      (∃ kept : List (AvroType × AvroType), (kept.map Prod.fst).Sublist ts ∧
        kept.map Prod.snd = evict ts ∧ ∀ p ∈ kept, ∀ depth,
          tree ((evict ts).flatMap definitions) depth p.2 =
            tree (ts.flatMap definitions) depth p.1) ∧
      (DefinedAhead (ts.flatMap (mentions none)) →
        DefinedAhead ((evict ts).flatMap (mentions none)))) := by
  obtain ⟨defined, reads⟩ : ∃ defined,
      Reads (fun _ _ => True) [] ((evict ts).flatMap (mentions none)) defined := by
    obtain ⟨defined, reads, -⟩ := evict_from_reads [] ts fun _ _ _ _ _ => trivial
    exact ⟨defined, reads⟩
  refine ⟨reads.introduced_nodup, evict_from_of_reads _ reads, fun hc => ?_⟩
  obtain ⟨kept, hsub, hkept, hk⟩ := evict_from_pairs [] ts
  have derived := evict_derived hc hsub hkept hk
  have names : ∀ name, name ∈ introduced ((evict ts).flatMap (mentions none)) ↔
      name ∈ introduced (ts.flatMap (mentions none)) := by
    obtain ⟨defined', reads', hall⟩ := evict_from_heralded [] hc (List.nil_subset _) ts
      (List.Subset.refl _) (fun size => settled_nil _ size) heralded_nil
    refine fun name => ⟨fun hn => ?_, fun hn => ?_⟩
    · rw [list_introduced] at hn ⊢
      exact derived.names hn
    · rw [list_introduced ts] at hn
      exact (reads'.mem_defined.mp (hall hn)).resolve_right List.not_mem_nil
  refine ⟨names, ⟨kept, hsub, hkept, fun p hp depth => ?_⟩, fun hahead => ?_⟩
  · obtain ⟨known, known', hi, hknown⟩ := hk p hp
    have hall : definedNames (ts.flatMap definitions) ⊆
        definedNames ((evict ts).flatMap definitions) := by
      intro name hn
      rw [← list_introduced] at hn ⊢
      exact (names name).mpr hn
    have htree := trees_alike derived depth _ _ _ _ hi
      (fun _ hd => List.mem_flatMap.mpr ⟨p.1, hsub.subset (List.mem_map_of_mem hp), hd⟩) hknown
    rwa [counterparts_eq derived hall] at htree
  · obtain ⟨defined', reads', -⟩ := evict_from_heralded _ hc (List.nil_subset _) ts
      (List.Subset.refl _) (fun size => settled_nil _ size) (heralded_of_ahead hahead)
    refine Reads.ahead (reads'.imp fun _ name hn hin => hn ((names name).mp hin))

/-- A record with a text. -/
def sharedLeaf : AvroType := .record
  { name := "B", ns := some "ns", fields := [{ name := "x", type := .primitive "string" }] }

/-- Types that define a record three times, twice inside and once on its own. -/
def sharingTypes : List AvroType :=
  [.record { name := "A", ns := some "ns", fields :=
      [{ name := "b", type := sharedLeaf }, { name := "c", type := .reference "ns.B" }] },
    sharedLeaf,
    .record { name := "C", ns := some "ns", fields := [{ name := "b", type := sharedLeaf }] }]

theorem sharing_defined_once : Consistent (sharingTypes.flatMap definitions) ∧
    DefinedAhead (sharingTypes.flatMap (mentions none)) ∧
    (evict sharingTypes).length = 2 ∧ evict (evict sharingTypes) = evict sharingTypes ∧
    (∀ name, name ∈ introduced ((evict sharingTypes).flatMap (mentions none)) ↔
      name ∈ introduced (sharingTypes.flatMap (mentions none))) ∧
    DefinedAhead ((evict sharingTypes).flatMap (mentions none)) := by
  have consistent : Consistent (sharingTypes.flatMap definitions) := by decide +kernel
  have ahead : DefinedAhead (sharingTypes.flatMap (mentions none)) := by decide +kernel
  obtain ⟨-, again, keeps⟩ := evict_defines_once sharingTypes
  obtain ⟨names, -, order⟩ := keeps consistent
  exact ⟨consistent, ahead, by decide +kernel, again, names, order ahead⟩

end Lists

end AvroDerive.AvroType
