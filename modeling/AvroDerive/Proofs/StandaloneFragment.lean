import AvroDerive.Proofs.EvictedMeaning
import AvroDerive.Proofs.OutputReference

/-! # Fragments stand alone

The type of a fragment is emitted by itself, so what it refers to has to be inside. Inlining leaves
no reference to a type of the list without its definition, and it reaches every type that the
fragment leads to, as long as definitions of one name say the same. -/
namespace AvroDerive.AvroType

/-- A type leads to a name: it is its own, it refers to it, or a type of the list that it leads to
does. -/
inductive Reaches (types : List AvroType) (t : AvroType) : String → Prop
  | own {name} : t.qualifiedName? = some name → Reaches types t name
  | refers {place name} : Mention.refers place name ∈ t.mentions none → Reaches types t name
  | through {name place next} {s : AvroType} : Reaches types t name → s ∈ types →
    s.qualifiedName? = some name → Mention.refers place next ∈ s.mentions none →
    Reaches types t next

/-- The references of a type to types of the list are to the given names. -/
def RefersWithin (types : List AvroType) (names : List String) (place : Place) (t : AvroType) :
    Prop :=
  AllRefer (fun _ name => name ∈ definedNames types → name ∈ names) place t

/-- Each of the names has a definition, which has become the one of that name. -/
def Defining (types ds : List AvroType) (names : List String) : Prop :=
  ∀ name ∈ names, ∃ d ∈ ds, d.qualifiedName? = some name ∧ ∃ e known known',
    e.isNamed = true ∧ Inlined types known d e known' ∧ known' ⊆ names

theorem Consistent.mono {ds es : List AvroType} (h : Consistent es) (hs : ds ⊆ es) :
    Consistent ds :=
  fun d hd e he => h d (hs hd) e (hs he)

section Within

variable {types ds : List AvroType} {names : List String} {size : Nat}

/-- Definitions of the same name that are equal up to dependency lists mention the same. -/
theorem mentions_of_consistent (hc : Consistent (ds.map clearDependencies)) {d e : AvroType}
    (hd : d ∈ ds) (he : e ∈ ds) (h : d.qualifiedName? = e.qualifiedName?) :
    d.mentions none = e.mentions none := by
  have hclear : d.clearDependencies = e.clearDependencies := by
    refine hc _ (List.mem_map_of_mem hd) _ (List.mem_map_of_mem he) ?_
    rw [qualified_clear, qualified_clear, h]
  rw [← mentions_clear, hclear, mentions_clear]

/-- Definitions of the given names that define few names themselves refer within the names. -/
def SmallWithin (types ds : List AvroType) (names : List String) (size : Nat) : Prop :=
  ∀ d ∈ ds, ∀ name ∈ names, d.qualifiedName? = some name →
    (definedNames d.definitions).length ≤ size → RefersWithin types names none d

mutual

/-- What comes from a type defines what the type refers to. A definition that became a reference
was kept somewhere else, so this rests on the definitions that are smaller than the type. -/
theorem Inlined.within (hsmall : SmallWithin types ds names size) {t u : AvroType}
    {defined defined' : List String} (place : Place) : Inlined types defined t u defined' →
    defined' ⊆ names → t.definitions ⊆ ds → (definedNames t.definitions).length ≤ size →
    RefersWithin types names place t
  | .repeated hname hn => fun hk hd hsize =>
    (hsmall _ (hd (named_definition hname)) _ (hk hn) hname hsize).named
      (named_of_qualified hname) place
  | .record (r := r) _ h => fun hk hd hsize => by
    rw [definitions, List.cons_subset] at hd
    rw [record_names, List.length_cons] at hsize
    exact all_refer_record.mpr (h.within hsmall r.name hk hd.2 (by omega))
  | .behind hn => fun hk _ _ => all_refer_reference.mpr fun _ => hk hn
  | .foreign _ hl => fun _ _ _ => by
    refine all_refer_reference.mpr fun hn => ?_
    rw [← lookup_isSome_iff, hl] at hn
    simp at hn
  | .follow _ hl h => fun hk _ _ =>
    all_refer_reference.mpr fun _ => hk (h.defines (name_of_lookup hl).2)
  | .array h => fun hk hd hsize => h.within hsmall none hk hd hsize
  | .map h => fun hk hd hsize => h.within hsmall none hk hd hsize
  | .union h => fun hk hd hsize => all_refer_union.mpr (h.within hsmall place hk hd hsize)
  | .enum _ => fun _ _ _ => all_refer_enum
  | .fixed _ => fun _ _ _ => all_refer_fixed
  | .primitive => fun _ _ _ => all_refer_primitive
  | .logical => fun _ _ _ => all_refer_logical

theorem FieldsInlined.within (hsmall : SmallWithin types ds names size)
    {fs fs' : List (Field AvroType)} {defined defined' : List String} (owner : String) :
    FieldsInlined types defined fs fs' defined' → defined' ⊆ names → fieldDefinitions fs ⊆ ds →
    (definedNames (fieldDefinitions fs)).length ≤ size →
    ∀ f ∈ fs, RefersWithin types names (some (owner, f.name)) f.type
  | .nil => fun _ _ _ => by simp
  | .cons h hrest => fun hk hd hsize => by
    rw [fieldDefinitions, List.append_subset] at hd
    rw [fieldDefinitions, defined_append, List.length_append] at hsize
    exact List.forall_mem_cons.mpr
      ⟨h.within hsmall _ (List.Subset.trans hrest.subset hk) hd.1 (by omega),
        hrest.within hsmall owner hk hd.2 (by omega)⟩

theorem BranchesInlined.within (hsmall : SmallWithin types ds names size)
    {ts ts' : List AvroType} {defined defined' : List String} (place : Place) :
    BranchesInlined types defined ts ts' defined' → defined' ⊆ names →
    branchDefinitions ts ⊆ ds → (definedNames (branchDefinitions ts)).length ≤ size →
    ∀ t ∈ ts, RefersWithin types names place t
  | .nil => fun _ _ _ => by simp
  | .cons h hrest => fun hk hd hsize => by
    rw [branchDefinitions, List.append_subset] at hd
    rw [branchDefinitions, defined_append, List.length_append] at hsize
    exact List.forall_mem_cons.mpr
      ⟨h.within hsmall _ (List.Subset.trans hrest.subset hk) hd.1 (by omega),
        hrest.within hsmall place hk hd.2 (by omega)⟩

end

/-- Every definition of one of the names refers within the names. -/
theorem definitions_within (hc : Consistent (ds.map clearDependencies))
    (hclosed : ∀ d ∈ ds, d.definitions ⊆ ds) (hdef : Defining types ds names) (size : Nat) :
    SmallWithin types ds names size := by
  induction size with
  | zero =>
    intro d hd name hn hname hsize
    have := mem_defined.mpr ⟨d, named_definition hname, hname⟩
    simp [List.length_eq_zero_iff.mp (Nat.le_zero.mp hsize)] at this
  | succ size ih =>
    intro d hd name hn hname hsize
    obtain ⟨d', hd', hname', e, known, known', he, hi, hk⟩ := hdef name hn
    -- The definition that was kept stands for every other one of its name.
    have hsame := mentions_of_consistent hc hd hd' (hname.trans hname'.symm)
    rw [← introduced_mentions none, hsame, introduced_mentions] at hsize
    show AllRefer _ none d
    rw [AllRefer, hsame]
    cases hi with
    | record hfresh h =>
      rw [record_names, List.length_cons] at hsize
      have hinside := hclosed _ hd'
      rw [definitions, List.cons_subset] at hinside
      exact all_refer_record.mpr (h.within ih _ hk hinside.2 (by omega))
    | enum => exact all_refer_enum
    | fixed => exact all_refer_fixed
    | repeated | behind | foreign | primitive | logical => simp [isNamed] at he
    | follow | array | map | union => simp [qualifiedName?, name?] at hname'

theorem listed_definitions (types : List AvroType) (root : AvroType) :
    ∀ s ∈ types, s.definitions ⊆ (root :: types).flatMap definitions :=
  fun s hs _ hd => List.mem_flatMap.mpr ⟨s, List.mem_cons_of_mem _ hs, hd⟩

/-- Inlining defines every type of the list that the root leads to. -/
theorem Inlined.reached {root u : AvroType} (h : Inlined types [] root u names)
    (hc : Consistent (((root :: types).flatMap definitions).map clearDependencies))
    (hn : ∀ name ∈ names, name ∈ definedNames u.definitions) {name : String}
    (hr : Reaches types root name) (hk : name ∈ definedNames types) : name ∈ names := by
  have hroot : root.definitions ⊆ (root :: types).flatMap definitions :=
    List.subset_append_left _ _
  have hlist := listed_definitions types root
  have hdef : Defining types ((root :: types).flatMap definitions) names := by
    intro name hname
    obtain ⟨e, he, hename⟩ := mem_defined.mp (hn name hname)
    obtain ⟨d, hd, known, known', hi, hsub⟩ := h.origin hlist hroot e he
    have hsame := hi.same_name (list_closed _ d hd).1 (definition_named u e he)
    exact ⟨d, hd, hsame.symm.trans hename, e, known, known', definition_named u e he, hi, hsub⟩
  have hsmall := definitions_within hc (fun d hd => (list_closed _ d hd).2) hdef
  induction hr with
  | own hname => exact h.defines hname
  | refers hm =>
    have within := h.within (hsmall _) none (List.Subset.refl _) hroot (Nat.le_refl _)
    exact within _ _ hm hk
  | through _ hs hname hm ih =>
    have hknown := ih (mem_defined.mpr ⟨_, hs, hname⟩)
    have within := hsmall _ _ (hlist _ hs (named_definition hname)) _ hknown hname (Nat.le_refl _)
    exact within _ _ hm hk

end Within

section Inline

variable (types : List AvroType) (root : AvroType)

/-- A type defines no name twice, and refers to the given names only behind their definitions. -/
structure StandsAlone (names : List String) (u : AvroType) : Prop where
  once : (introduced (u.mentions none)).Nodup
  behind : ∀ before place name after, u.mentions none = before ++ .refers place name :: after →
    name ∈ names → name ∈ introduced before

theorem inline_stands_alone : StandsAlone (definedNames types) (inline types root) := by
  obtain ⟨defined, reads⟩ : ∃ defined, Reads (fun _ n => True ∧ n ∉ definedNames types) []
      ((inline types root).mentions none) defined :=
    inline_reads (fun _ _ _ _ _ => trivial) fun _ _ _ => trivial
  refine ⟨reads.introduced_nodup, fun before place name after hsplit hn => ?_⟩
  rcases reads.behind hsplit with h | h | h
  · simp at h
  · exact h
  · exact absurd hn h.2

/-- The traversal ends with the inlined type, and with no other. -/
theorem inline_unique : ∃ defined, ∀ u defined',
    Inlined types [] root u defined' ↔ u = inline types root ∧ defined' = defined := by
  obtain ⟨defined, h⟩ := inline_inlined types root
  refine ⟨defined, fun u defined' => ⟨fun h' => ?_, ?_⟩⟩
  · obtain ⟨hu, hd⟩ := h.unique h'
    exact ⟨hu.symm, hd.symm⟩
  · rintro ⟨rfl, rfl⟩
    exact h

theorem Inlined.defined_names {types : List AvroType} {root u : AvroType} {defined : List String}
    (h : Inlined types [] root u defined) (name : String) :
    name ∈ defined ↔ name ∈ definedNames u.definitions := by
  have reads : Reads (fun _ n => True ∧ n ∉ definedNames types) [] (u.mentions none) defined :=
    h.reads (q := fun _ _ => True) (fun _ _ _ _ _ => trivial) none fun _ _ _ => trivial
  rw [reads.mem_defined, introduced_mentions]
  simp

theorem inline_derived (hc : Consistent ((root :: types).flatMap definitions)) :
    Derived types ((root :: types).flatMap definitions) (inline types root).definitions where
  consistent := hc
  listed := listed_definitions types root
  closed := list_closed _
  origin e he := by
    obtain ⟨defined, h⟩ := inline_inlined types root
    obtain ⟨d, hd, known, known', hi, hsub⟩ := h.origin (listed_definitions types root)
      (List.subset_append_left _ _) e he
    exact ⟨definition_named _ e he, d, hd, known, known', hi,
      fun name hn => (h.defined_names name).mp (hsub hn)⟩

/-- The inlined type stands for the same tree as the root, up to references to names that are
defined inside a type of the list only, where inlining does not look for them. -/
theorem inline_tree (hc : Consistent ((root :: types).flatMap definitions)) (depth : Nat) :
    tree (inline types root).definitions depth (inline types root) =
      tree (counterparts ((root :: types).flatMap definitions) (inline types root).definitions)
        depth root := by
  obtain ⟨defined, h⟩ := inline_inlined types root
  exact trees_alike (inline_derived types root hc) depth _ _ _ _ h
    (List.subset_append_left _ _) fun name hn => (h.defined_names name).mp hn

theorem inline_reached (hc : Consistent (((root :: types).flatMap definitions).map clearDependencies))
    {name : String} (hk : name ∈ definedNames types) (hr : Reaches types root name) :
    (introduced ((inline types root).mentions none)).count name = 1 := by
  obtain ⟨defined, h⟩ := inline_inlined types root
  have hmem := h.reached hc (fun name hn => (h.defined_names name).mp hn) hr hk
  refine List.count_eq_one_of_mem (inline_stands_alone types root).once ?_
  rw [introduced_mentions]
  exact (h.defined_names name).mp hmem

/-- A root keeps its name. -/
theorem inline_name {name : String} (hname : root.qualifiedName? = some name) :
    (inline types root).qualifiedName? = some name := by
  obtain ⟨defined, h⟩ := inline_inlined types root
  generalize inline types root = u at h ⊢
  cases h with
  | repeated _ hn => simp at hn
  | record | enum | fixed => exact hname
  | _ => simp [qualifiedName?, name?] at hname

end Inline

end AvroDerive.AvroType

namespace AvroDerive.Convert

open AvroType

section Kept

variable {s s' : State} {schemaName name ns registered : String} {schema : Json}
  {key : Option String} {names : List String}

theorem register_definition_names {t : AvroType} (ht : (t.isRecord || t.isEnum) = true)
    (h : (registerDefinition key schema name ns t names).Yields s registered s') :
    registered ∈ definedNames s'.registry := by
  unfold registerDefinition at h
  obtain ⟨own, s₁, hregister, hrest⟩ := Run.yields_bind.mp h
  obtain ⟨hown, rfl⟩ := Run.yields_register.mp hregister
  obtain ⟨qualified, hqualified⟩ :
      ∃ qualified, ((t.withName name).withNs ns).qualifiedName? = some qualified := by
    cases t <;> simp_all [isRecord, isEnum, withName, withNs, qualifiedName?, name?]
  rw [hqualified, Option.getD_some] at hown
  have defined := hown ▸ register_defined (s := s) names hqualified
  dsimp only at hrest
  split at hrest
  · split at hrest
    · obtain ⟨_, s₂, hremember, hp⟩ := Run.yields_bind.mp hrest
      obtain rfl := Run.yields_remember.mp hremember
      obtain ⟨rfl, rfl⟩ := Run.yields_pure.mp hp
      exact defined
    · obtain ⟨rfl, rfl⟩ := Run.yields_pure.mp hrest
      exact defined
  · obtain ⟨rfl, rfl⟩ := Run.yields_pure.mp hrest
    exact defined

theorem alias_names {r : Registry} {t : AvroType} (h : aliasOf? r t = some registered) :
    registered ∈ definedNames r := by
  cases t with
  | reference name =>
    simp only [aliasOf?, Option.ite_none_right_eq_some, Option.some.injEq] at h
    obtain ⟨hc, rfl⟩ := h
    exact contains_iff_defined.mp hc
  | _ => simp [aliasOf?] at h

theorem keep_definition_names {t : Option AvroType}
    (h : (keepDefinition key schemaName schema name ns t names).Yields s (some registered) s') :
    registered ∈ definedNames s'.registry := by
  unfold keepDefinition at h
  cases t with
  | none =>
    obtain ⟨_, s₁, -, hp⟩ := Run.yields_bind.mp h
    simp at hp
  | some t =>
    dsimp only at h
    split at h
    · next ht =>
      obtain ⟨own, s₁, hregister, hp⟩ := Run.yields_bind.mp h
      obtain ⟨hown, rfl⟩ := Run.yields_pure.mp hp
      exact Option.some.inj hown ▸ register_definition_names ht hregister
    · obtain ⟨_, _, hget, hrest⟩ := Run.yields_bind.mp h
      obtain ⟨rfl, rfl⟩ := Run.yields_get.mp hget
      split at hrest
      · next target htarget =>
        have hknown := alias_names htarget
        split at hrest
        · obtain ⟨_, s₂, hremember, hp⟩ := Run.yields_bind.mp hrest
          obtain rfl := Run.yields_remember.mp hremember
          obtain ⟨hown, rfl⟩ := Run.yields_pure.mp hp
          exact Option.some.inj hown ▸ hknown
        · obtain ⟨hown, rfl⟩ := Run.yields_pure.mp hrest
          exact Option.some.inj hown ▸ hknown
      · obtain ⟨own, s₁, hregister, hp⟩ := Run.yields_bind.mp hrest
        obtain ⟨hown, rfl⟩ := Run.yields_pure.mp hp
        exact Option.some.inj hown ▸ register_definition_names rfl hregister

/-- The name that a definition returns is registered. -/
theorem definition_names {cfg : Setting} {document : Json} {baseUri : String}
    {pointer : Option String}
    (h : (definition cfg document baseUri schemaName schema pointer).Yields s (some registered) s') :
    registered ∈ definedNames s'.registry := by
  unfold definition at h
  obtain ⟨b, s₁, -, hrest⟩ := Run.yields_bind.mp h
  split at hrest
  · simp at hrest
  · dsimp only at hrest
    obtain ⟨⟨t, names⟩, s₂, -, hkeep⟩ := Run.yields_bind.mp hrest
    exact keep_definition_names hkeep

end Kept

section Fragment

variable {cfg : Setting} {j : Json} {s s' : State} {registered : String}

/-- The document that a location leads to, and the fragment of it. -/
def addressed (cfg : Setting) (location : String) : List Char × Option (List Char) :=
  Text.cut '#' (if location = "" then "" else Location.baseUri cfg.workingDirectory location).toList

/-- The definition that a conversion of a fragment starts from. -/
def fragmentDefinition (cfg : Setting) (j : Json) (baseUri fragment : String) (schema : Json) :
    Run (Option String) :=
  definition cfg j baseUri (((Schema.typeName? cfg.rootNs (Schema.fragmentPointer fragment)).map
    Prod.fst).getD cfg.options.rootName) schema (some (Schema.fragmentPointer fragment))

theorem fragment_yields {baseUri fragment : String} {schema : Json}
    (hschema : j.pointer? (Schema.fragmentPointer fragment) = some schema)
    (h : (fragmentDefinition cfg j baseUri fragment schema).Yields s (some registered) s') :
    ∃ root ∈ (order s'.registry).types, root.qualifiedName? = some registered ∧
      (fragmentOutput cfg j baseUri fragment).Yields s
        (.fragment (inline (order s'.registry).types root)) (reported s') := by
  have hdefined := (order_defined s'.registry registered).mpr (definition_names h)
  obtain ⟨root, hroot⟩ := Option.isSome_iff_exists.mp (lookup_isSome_iff.mpr hdefined)
  obtain ⟨hmem, hname⟩ := name_of_lookup hroot
  refine ⟨root, hmem, hname, ?_⟩
  unfold fragmentOutput
  simp only [hschema]
  refine Run.yields_bind.mpr ⟨_, s', h, ?_⟩
  refine Run.yields_bind.mpr ⟨(order s'.registry).types, reported s', ?_, ?_⟩
  · unfold orderedTypes
    refine Run.yields_bind.mpr ⟨s', s', Run.yields_get.mpr ⟨rfl, rfl⟩, ?_⟩
    exact Run.yields_bind.mpr ⟨(), _, Run.yields_warnAll.mpr rfl, Run.yields_pure.mpr ⟨rfl, rfl⟩⟩
  · simp only [hroot]
    exact Run.yields_pure.mpr ⟨rfl, rfl⟩

theorem output_at_fragment {location : String} {uri rest : List Char} {c : Char}
    (h : addressed cfg location = (uri, some (c :: rest))) :
    output cfg j location = fragmentOutput cfg j (String.ofList uri) (String.ofList (c :: rest)) := by
  unfold output
  unfold addressed at h
  dsimp only
  rw [h]

/-- A type of the list reaches the same names in every order of the list. -/
theorem reaches_perm {types types' : List AvroType} (hp : types.Perm types') {t : AvroType}
    {name : String} (h : Reaches types t name) : Reaches types' t name := by
  induction h with
  | own hname => exact .own hname
  | refers hm => exact .refers hm
  | through _ hs hname hm ih => exact .through ih (hp.mem_iff.mp hs) hname hm

/-- Inlining ends. Its result defines names once, refers to types of the list behind their
definitions, stands for the tree of the root and has everything inside that the root leads to. So
a fragment that has a name is converted to the type of that name, with what it leads to inside. -/
theorem fragment_stands_alone :
    (∀ (types : List AvroType) (root : AvroType),
      (∃ defined, ∀ u defined',
        Inlined types [] root u defined' ↔ u = inline types root ∧ defined' = defined) ∧
      StandsAlone (definedNames types) (inline types root) ∧
      (Consistent ((root :: types).flatMap definitions) → ∀ depth,
        tree (inline types root).definitions depth (inline types root) =
          tree (counterparts ((root :: types).flatMap definitions) (inline types root).definitions)
            depth root) ∧
      (Consistent (((root :: types).flatMap definitions).map clearDependencies) →
        ∀ name ∈ definedNames types, Reaches types root name →
          (introduced ((inline types root).mentions none)).count name = 1)) ∧
    ∀ (cfg : Setting) (j : Json) (location : String) (uri rest : List Char) (c : Char)
      (schema : Json) (s s' : State) (registered : String),
      addressed cfg location = (uri, some (c :: rest)) →
      j.pointer? (Schema.fragmentPointer (String.ofList (c :: rest))) = some schema →
      (fragmentDefinition cfg j (String.ofList uri) (String.ofList (c :: rest)) schema).Yields s
        (some registered) s' →
      ∃ root ∈ s'.registry, ∃ u ws, root.qualifiedName? = some registered ∧
        (output cfg j location).Yields s (.fragment u) { s' with warnings := ws } ∧
        (s = {} → convert cfg j location = (.ok (.fragment u), ws)) ∧
        u.qualifiedName? = some registered ∧ StandsAlone (definedNames s'.registry) u ∧
        (Consistent ((s'.registry.flatMap definitions).map clearDependencies) →
          ∀ name ∈ definedNames s'.registry, Reaches s'.registry root name →
            (introduced (u.mentions none)).count name = 1) := by
  refine ⟨fun types root => ⟨inline_unique types root, inline_stands_alone types root,
    inline_tree types root, fun hc _ hk => inline_reached types root hc hk⟩, ?_⟩
  intro cfg j location uri rest c schema s s' registered hlocation hschema hdefinition
  obtain ⟨root, hroot, hname, hyields⟩ := fragment_yields hschema hdefinition
  rw [← output_at_fragment hlocation] at hyields
  have perm := order_perm s'.registry
  have names : ∀ name, name ∈ definedNames (order s'.registry).types ↔
      name ∈ definedNames s'.registry := order_defined s'.registry
  refine ⟨root, perm.mem_iff.mp hroot, inline (order s'.registry).types root, _, hname, hyields,
    ?_, inline_name _ _ hname, ?_, ?_⟩
  · rintro rfl
    unfold convert
    rw [show (output cfg j location).run.run {} = _ from hyields]
    rfl
  · obtain ⟨once, behind⟩ := inline_stands_alone (order s'.registry).types root
    exact ⟨once, fun before place name after hsplit hn =>
      behind before place name after hsplit ((names name).mpr hn)⟩
  · intro hc name hk hr
    refine inline_reached _ _ (hc.mono (List.map_subset _ ?_)) ((names name).mpr hk)
      (reaches_perm perm.symm hr)
    intro d hd
    obtain ⟨t, ht, hdt⟩ := List.mem_flatMap.mp hd
    refine List.mem_flatMap.mpr ⟨t, perm.mem_iff.mp ?_, hdt⟩
    rcases List.mem_cons.mp ht with rfl | ht
    · exact hroot
    · exact ht

end Fragment

/-- The location of a definition in a document. -/
def definitionAt (name : String) : String := "file:///d.json#/definitions/" ++ name

/-- What a successful run yields. -/
theorem yields_of_ok {α : Type} {x : Run α} {s : State} {a : α}
    (h : (x.run.run s).1.toOption = some a) : x.Yields s a (x.run.run s).2 := by
  refine Prod.ext ?_ rfl
  cases hr : (x.run.run s).1 with
  | error e => simp [hr, Except.toOption] at h
  | ok b =>
    rw [hr] at h
    exact congrArg Except.ok (Option.some.inj h)

/-- The definition of a document at a fragment. -/
def definitionIn (j : Json) (name : String) : Json :=
  (j.pointer? ("/definitions/" ++ name)).getD .null

/-- A conversion of the definition on its own. -/
def startAt (j : Json) (name : String) : Run (Option String) :=
  fragmentDefinition offline j (String.ofList "file:///d.json".toList)
    (String.ofList ('/' :: ("definitions/" ++ name).toList)) (definitionIn j name)

theorem referring_stands_alone : ∃ u ws,
    convert offline referring (definitionAt "A") = (.ok (.fragment u), ws) ∧
    u.qualifiedName? = some "ns.A" ∧
    (introduced (u.mentions none)).count "ns.B" = 1 := by
  have yields : (startAt referring "A").Yields {} (some "ns.A") _ :=
    yields_of_ok (by decide +kernel)
  have pointer : Schema.fragmentPointer (String.ofList ('/' :: ("definitions/" ++ "A").toList)) =
      "/definitions/" ++ "A" := by decide +kernel
  have found : referring.pointer? ("/definitions/" ++ "A") = some (definitionIn referring "A") := by
    obtain ⟨schema, hschema⟩ := Option.isSome_iff_exists.mp
      (by decide +kernel : (referring.pointer? ("/definitions/" ++ "A")).isSome)
    rw [definitionIn, hschema, Option.getD_some]
  obtain ⟨root, hroot, u, ws, hname, -, hconvert, hu, -, once⟩ := fragment_stands_alone.2 offline
    referring (definitionAt "A") "file:///d.json".toList ("definitions/" ++ "A").toList '/' _ {} _
    "ns.A" (by decide +kernel) (by rw [pointer, found]) yields
  have refers : ∀ t ∈ ((startAt referring "A").run.run {}).2.registry,
      t.qualifiedName? = some "ns.A" →
        Mention.refers (some ("A", "b")) "ns.B" ∈ t.mentions none := by decide +kernel
  exact ⟨u, ws, hconvert rfl, hu, once (by decide +kernel) "ns.B" (by decide +kernel)
    (.refers (refers root hroot hname))⟩

/-- A type that defines a record inside. -/
def hidingTypes : List AvroType :=
  [.record { name := "A", ns := some "ns", fields := [{ name := "b", type := sharedLeaf }] }]

/-- A type that refers to the record inside. -/
def seekingRoot : AvroType :=
  .record { name := "R", ns := some "ns", fields := [{ name := "b", type := .reference "ns.B" }] }

/-- A record `A` with a list of two records, the second with a field for a record `B`. -/
def listing : Json := .obj [("definitions", .obj [
  ("A", objectSchema [("k", .obj [("type", .str "array"), ("items", .arr [
    objectSchema [("x", .obj [("type", .str "string")])],
    objectSchema [("b", definitionRef "B")]])])]),
  ("B", objectSchema [("y", .obj [("type", .str "string")])])])]

/-- Inlining does not look inside the types of the list. And where two records take one name, the
second is lost with what it alone refers to. -/
theorem hidden_definition_lost :
    (Consistent ((seekingRoot :: hidingTypes).flatMap definitions) ∧
      tree (inline hidingTypes seekingRoot).definitions 2 (inline hidingTypes seekingRoot) ≠
        tree ((seekingRoot :: hidingTypes).flatMap definitions) 2 seekingRoot) ∧
    ∃ out ws s', convert offline listing (definitionAt "A") = (.ok out, ws) ∧
      (startAt listing "A").Yields {} (some "ns.A") s' ∧
      (∃ root ∈ s'.registry, root.qualifiedName? = some "ns.A" ∧
        Reaches s'.registry root "ns.B") ∧
      "ns.B" ∈ definedNames s'.registry ∧ (introduced out.mentions).count "ns.B" = 0 := by
  refine ⟨by decide +kernel, ?_⟩
  obtain ⟨out, hout, hms⟩ := ok_of_mentions (convert offline listing (definitionAt "A"))
    [.defines "ns.A", .defines "ns.A_types.k", .refers none "ns.A_types.k"] (by decide +kernel)
  obtain ⟨root, hroot, hname, hm⟩ : ∃ t ∈ ((startAt listing "A").run.run {}).2.registry,
      t.qualifiedName? = some "ns.A" ∧
        Mention.refers (some ("k", "b")) "ns.B" ∈ t.mentions none := by decide +kernel
  refine ⟨out, _, _, hout, yields_of_ok (by decide +kernel), ⟨root, hroot, hname, .refers hm⟩,
    by decide +kernel, ?_⟩
  rw [hms]
  decide

end AvroDerive.Convert
