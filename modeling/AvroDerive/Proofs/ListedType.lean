import AvroDerive.Proofs.Descent
import AvroDerive.Proofs.MadeRecord
import AvroDerive.Proofs.MergedRecord
import AvroDerive.Proofs.TidyConversion

/-! # Lists of types

A schema may list several types, an object or an array among them. As a node it is converted type by
type: each of them but `null` is a schema of its own, and the type of the node has a branch for every
one. -/
namespace AvroDerive

open AvroType Json Schema

namespace Convert

/-- A schema that lists types, with an object or an array among them, and neither refers nor is a
constant nor is put together from others. -/
structure ListsTypes (o : Object) (types : List String) : Prop where
  keys : (Object.keys o).Nodup
  plain : hasComposition o = false
  own : Object.contains o "$ref" = false
  varies : Object.contains o "const" = false
  listed : Object.get? o "type" = some (.arr (types.map .str))
  structured : "object" ∈ types ∨ "array" ∈ types

/-- The type that a schema of the list would have if it were the only one, at a scope. -/
inductive TypeAlone (cfg : Setting) (o : Object) (scope : Scope) : String → AvroType → Prop
  | primitive {type} : type ≠ "object" → type ≠ "array" →
    TypeAlone cfg o scope type (nameType o scope (singleType scope.localName
      ((Object.get? o "format").bind asString?) ((Object.get? o "enum").bind asArray?) type).1)
  | array {names s items names' s'} :
    (arrayType (node cfg) o scope).Yields names s (.array items) names' s' →
    TypeAlone cfg o scope "array" (.array items)
  | object {made r} : MadeRecord cfg o ⟨Name.ofText scope.localName, scope.typeNs⟩ scope true made →
    r.name = made.name → qualify r.ns r.name = qualify (some scope.typeNs) r.name →
    r.fields = clearFields made.fields → TypeAlone cfg o scope "object" (.record r)

/-- A type is handed out as it is, or as a reference to its name. -/
def HandedOut (t u : AvroType) : Prop := u = t ∨ ∃ name, t.qualifiedName? = some name ∧ u = .reference name

section Alone

variable {cfg : Setting} {scope : Scope} {o a : Object} {s s' : State} {names names' : List String}
  {type : String} {t u v : AvroType}

theorem is_empty_name_type (o : Object) (scope : Scope) (t : AvroType) :
    (nameType o scope t).isEmpty = t.isEmpty := by
  cases t with
  | record r =>
    obtain ⟨r', hr', -, hfields, -⟩ := name_type_record scope o r
    rw [hr', isEmpty, isEmpty, hfields]
  | enum e =>
    cases hd : description? o <;> cases hn : e.ns <;> by_cases hf : scope.field = "" <;>
      simp [nameType, hd, hn, hf, isNamed, isEnum, withDocIfMissing, ns?, withNs, withName, isEmpty]
  | fixed f =>
    obtain ⟨f', hf'⟩ := name_type_fixed scope o f
    rw [hf', isEmpty, isEmpty]
    all_goals simp
  | _ => rw [name_type_unnamed o rfl]

theorem single_type_useful (field : String) (format : Option String) (values : Option (List Json))
    (name : String) : (singleType field format values name).1.isEmpty = false := by
  have named : (namedType name format).isEmpty = false := by
    unfold namedType
    split <;> rfl
  have formatted : (formatType field format (namedType name format)).isEmpty = false := by
    unfold formatType
    split <;> first | rfl | exact named
  unfold singleType
  split
  · rfl
  · dsimp only
    unfold valuesType
    split
    · split
      · split
        · rfl
        · next hsome => exact List.isEmpty_eq_false_iff.mpr hsome
      · exact formatted
    · exact formatted

/-- A schema of type object has a record with fields, if it has one as part of a list. -/
theorem SaysBeside.record_names (h : SaysBeside o a) (hobject : typeIncludes a "object" = true)
    (hsome : recordNames o ≠ []) : recordNames a ≠ [] := by
  have additional : ∀ name, additionalNames name a = additionalNames name o := fun name => by
    rw [additionalNames, additionalNames, h.same _ (by decide) (by decide)]
  unfold recordNames at hsome ⊢
  rw [h.same _ (by decide) (by decide), additional, h.open_names,
    show patternNames a = patternNames o by rw [patternNames, patternNames, h.patterns]]
  split
  · next hp =>
    rw [hp] at hsome
    exact hsome
  · split
    · rw [valuesNames, hobject]
      exact List.cons_ne_nil _ _
    · next hne => exact fun he => hne (by rw [he, List.isEmpty_nil])

theorem type_includes_alone (h : Object.get? a "type" = some (.str type)) (name : String) :
    typeIncludes a name = (type == name) := by
  rw [typeIncludes, h]

/-- A node whose type comes of its keywords gets that type with its name, or a reference to it. -/
theorem typed_node_yields {types : List String} (ho : ListsTypes o types) (hbeside : SaysBeside o a)
    (htype : Object.contains a "type" = true) (hdepth : scope.depth ≤ cfg.options.maxDepth)
    {x : Option AvroType} (h : (node cfg (.obj a) scope).Yields names s x names' s') :
    ∃ k names₁ s₁ s₂, Grows s s₁ ∧
      (keywordType (node cfg) (unconditional a) scope).Yields names s₁ k names₁ s₂ ∧
      (k = none ∧ x = none ∨ ∃ t u, k = some t ∧ x = some u ∧ HandedOut (nameType o scope t) u) := by
  have beside := hbeside.unconditional
  have typed : withObjectType (unconditional a) = unconditional a := by
    have there : Object.contains (unconditional a) "type" = true := by
      rwa [Object.contains, get_unconditional hbeside.keys (by decide), ← Object.contains]
    rw [withObjectType, there, Bool.not_true, Bool.and_false, if_neg Bool.false_ne_true]
  rw [node_eq_step hdepth] at h
  change (objectNode cfg (node cfg) a scope).Yields names s x names' s' at h
  cases object_node_cases h with
  | composed hc => simp [beside.composition, ho.plain] at hc
  | referred _ hr =>
    rw [typed, beside.contains (by decide) (by decide), ho.own] at hr
    simp at hr
  | silent _ _ hq hk =>
    rw [typed] at hk
    exact ⟨none, _, _, _, hq.grows, hk, Or.inl ⟨rfl, rfl⟩⟩
  | @typed _ t _ _ _ _ _ _ _ hq hk hreuse =>
    have named : nameType (unconditional a) scope t = nameType o scope t := by
      rw [nameType, nameType, description?, beside.same _ (by decide) (by decide), description?]
    rw [typed] at hk
    rw [typed, named] at hreuse
    refine ⟨some t, _, _, _, hq.grows, hk, Or.inr ⟨t, _, rfl, rfl, ?_⟩⟩
    obtain ⟨-, ⟨rfl, -⟩ | ⟨name, hname, -, rfl, -⟩⟩ := reuse_registered_yields hreuse
    · exact Or.inl rfl
    · exact Or.inr ⟨name, hname, rfl⟩

/-- The keywords of a schema with one type give the type that it has alone. -/
theorem keyword_alone {types : List String} (ho : ListsTypes o types) (hbeside : SaysBeside o a)
    (htype : Object.get? a "type" = some (.str type))
    (hnew : Frames.find? s.frames (Name.ofText scope.localName) = none) {k : Option AvroType}
    (h : (keywordType (node cfg) a scope).Yields names s k names' s') :
    ∃ t, k = some t ∧ TypeAlone cfg o scope type (nameType o scope t) ∧
      (recordNames o ≠ [] → t.isEmpty = false) := by
  have const : Object.get? a "const" = none := by
    simpa [Object.contains] using (hbeside.contains (by decide) (by decide)).trans ho.varies
  obtain ⟨k', hk⟩ := said a
  rw [hk.type_eq] at h
  cases hk with
  | constant hconst => simp [const] at hconst
  | listed _ hlist => simp [htype] at hlist
  | array _ harray =>
    obtain rfl : type = "array" := by simpa [htype] using harray
    obtain ⟨t, rfl, ht⟩ := Build.yields_some.mp h
    have read : arrayType (node cfg) a scope = arrayType (node cfg) o scope := by
      rw [arrayType, arrayType, hbeside.same "items" (by decide) (by decide)]
    rw [read] at ht
    have array := array_type_array ht
    cases t with
    | array items =>
      refine ⟨_, rfl, ?_, fun _ => rfl⟩
      rw [name_type_unnamed o rfl]
      exact .array ht
    | _ => simp [isArray] at array
  | object _ hobject =>
    obtain rfl : type = "object" := by simpa [htype] using hobject
    have includes : typeIncludes a "object" = true := by rw [type_includes_alone htype]; rfl
    obtain ⟨w, hrecord, rfl, -⟩ := inline_record_yields h
    obtain ⟨r, rfl, made, hnames⟩ := object_record_made hbeside ho.plain hnew
      (by rw [includes, Bool.true_or, Bool.true_or]) hrecord
    rw [includes, Bool.true_or] at made
    refine ⟨_, rfl, ?_, fun hsome => ?_⟩
    · obtain ⟨r', hr', hname, hfields, hqualified⟩ := name_type_record scope o
        { r with fields := clearFields r.fields, dependencies := [] }
      rw [clearDependencies, hr']
      refine .object made hname ?_ hfields
      rw [hqualified, hname, made.ns]
      dsimp only
      split
      · rfl
      · rfl
    · have fields : r.fields ≠ [] := by
        rintro he
        refine hbeside.unconditional.record_names ?_ hsome (hnames.symm.trans (by rw [he, List.map_nil]))
        rw [type_includes_unconditional hbeside.keys, includes]
      rw [clearDependencies, isEmpty, List.isEmpty_eq_false_iff, clear_fields_eq]
      simpa using fields
  | named _ hname _ harray hobject =>
    obtain rfl := Option.some.inj (htype.symm.trans hname)
    rw [Keyword.type, hbeside.same "format" (by decide) (by decide),
      hbeside.same "enum" (by decide) (by decide)] at h
    obtain ⟨t, rfl, ht⟩ := Build.yields_some.mp h
    obtain ⟨rfl, -, -⟩ := primitive_yields ht
    exact ⟨_, rfl, .primitive (by simpa using hobject) (by simpa using harray),
      fun _ => single_type_useful _ _ _ _⟩
  | items _ hnone | texts _ hnone | format _ hnone | silent _ hnone => simp [htype] at hnone

/-- The alternative for a listed type is converted to the type that the schema has with that type alone,
or to a reference to it. -/
theorem alternative_yields {types : List String} (ho : ListsTypes o types) (hbeside : SaysBeside o a)
    (htype : Object.get? a "type" = some (.str type)) (hdepth : scope.depth ≤ cfg.options.maxDepth)
    (hnew : Frames.find? s.frames (Name.ofText scope.localName) = none) {x : Option AvroType}
    (h : (node cfg (.obj a) scope).Yields names s x names' s') :
    ∃ u v, x = some u ∧ TypeAlone cfg o scope type v ∧ HandedOut v u ∧
      (recordNames o ≠ [] → u.isEmpty = false) := by
  obtain ⟨k, names₁, s₁, s₂, grows, hk, hout⟩ :=
    typed_node_yields ho hbeside (by rw [Object.contains, htype]; rfl) hdepth h
  rw [← grows.frames] at hnew
  obtain ⟨t, rfl, alone, useful⟩ := keyword_alone ho hbeside.unconditional
    (by rw [get_unconditional hbeside.keys (by decide), htype]) hnew hk
  obtain ⟨hno, -⟩ | ⟨_, u, ht, rfl, handed⟩ := hout
  · simp at hno
  · obtain rfl := Option.some.inj ht
    refine ⟨u, _, rfl, alone, handed, fun hsome => ?_⟩
    obtain rfl | ⟨name, -, rfl⟩ := handed
    · rw [is_empty_name_type, useful hsome]
    · rfl

end Alone

/-- The listed types other than `null`. -/
def nonNull (types : List String) : List String := types.filter (· ≠ "null")

/-- The alternatives of a node are converted one level deeper, under a number if there are several. -/
def AlternativeAt (scope q : Scope) : Prop := q = scope.deeper ∨ ∃ n, q = scope.alternative n

/-- The type that the schema has with the listed type alone, or a reference to it, is within the type. -/
def Represented (cfg : Setting) (o : Object) (scope : Scope) (t : AvroType) (type : String) : Prop :=
  ∃ q v u, AlternativeAt scope q ∧ TypeAlone cfg o q type v ∧ HandedOut v u ∧ Within u t

section Listed

variable {cfg : Setting} {scope : Scope} {o a : Object} {s s' : State} {names names' : List String}
  {types : List String} {t u v w : AvroType}

theorem handed_out_unnamed (ht : t.isNamed = false) (h : HandedOut (nameType o scope t) w) : w = t := by
  rw [HandedOut, name_type_unnamed o ht] at h
  obtain rfl | ⟨name, hname, -⟩ := h
  · rfl
  · have unnamed : t.name? = none := by cases t <;> simp_all [isNamed, name?]
    simp [qualifiedName?, unnamed] at hname

theorem represented_null (h : Within .null t) : Represented cfg o scope t "null" := by
  refine ⟨scope.deeper, _, .null, Or.inl rfl, .primitive (by decide) (by decide), Or.inl ?_, h⟩
  rw [singleType, if_pos rfl]
  exact (name_type_unnamed o rfl).symm

/-- Naming a type again that has its name already changes nothing that counts. -/
theorem TypeAlone.renamed {type : String} (h : TypeAlone cfg o scope.deeper type v)
    (htype : type = "object" ∨ type = "array") : TypeAlone cfg o scope.deeper type (nameType o scope v) := by
  cases h with
  | primitive hobject harray => exact absurd htype (not_or.mpr ⟨hobject, harray⟩)
  | array ht =>
    rw [name_type_unnamed o rfl]
    exact .array ht
  | object made hname hqualified hfields =>
    rename_i r
    obtain ⟨r', hr', hname', hfields', hqualified'⟩ := name_type_record scope o r
    rw [hr']
    refine .object made (hname'.trans hname) ?_ (hfields'.trans hfields)
    rw [hqualified', hname']
    cases hns : r.ns with
    | none => rfl
    | some ns => exact hns ▸ hqualified

theorem useful_of_somes {us : List AvroType} (h : ∀ u ∈ us, u.isEmpty = false) :
    useful (us.map some) = us := by
  induction us with
  | nil => rfl
  | cons u us ih =>
    rw [List.forall_mem_cons] at h
    rw [List.map_cons, useful_cons, ih h.2, Option.filter_some, if_pos (by simp [h.1])]
    rfl

/-- Each of several alternatives gets the type that the schema has with its type alone. -/
theorem alternatives_yield (ho : ListsTypes o types) (hbeside : SaysBeside o a)
    (hsome : recordNames o ≠ []) (hdepth : scope.depth < cfg.options.maxDepth)
    (hnew : ∀ n, Frames.find? s.frames (Name.ofText (scope.alternative n).localName) = none)
    {listed : List String} {n : Nat} {ts : List (Option AvroType)}
    (h : (convertAll (node cfg) (alternativeSpots scope n
      (listed.map fun type => .obj (Object.insert a "type" (.str type))))).Yields names s ts names' s') :
    ∃ us : List AvroType, ts = us.map some ∧ us.length = listed.length ∧ (∀ u ∈ us, u.isEmpty = false) ∧
      ∀ type ∈ listed, ∃ u ∈ us, ∃ m v, TypeAlone cfg o (scope.alternative m) type v ∧ HandedOut v u := by
  induction listed generalizing n names s ts with
  | nil =>
    obtain ⟨rfl, -, -⟩ := Build.yields_pure.mp h
    exact ⟨[], rfl, rfl, nofun, nofun⟩
  | cons type listed ih =>
    have own : refersElsewhere (.obj (Object.insert a "type" (.str type))) = false :=
      ((hbeside.typed (.str type)).contains (by decide) (by decide)).trans ho.own
    rw [List.map_cons, alternativeSpots, convert_all_cons, own] at h
    obtain ⟨x, names₁, s₁, hfirst, h⟩ := Build.yields_bind.mp h
    obtain ⟨xs, names₂, s₂, hrest, h⟩ := Build.yields_bind.mp h
    obtain ⟨rfl, rfl, rfl⟩ := Build.yields_pure.mp h
    have hdeeper : (scope.alternative (n + 1)).depth ≤ cfg.options.maxDepth := hdepth
    obtain ⟨u, v, rfl, alone, handed, useful⟩ := alternative_yields ho (hbeside.typed (.str type))
      (by rw [Object.get?_insert, if_pos rfl]) hdeeper (hnew _) hfirst
    have grows : Grows s s₁ :=
      Growing.yields (node_within_growing (cfg.options.maxDepth + 1) _ _ names) hfirst
    obtain ⟨us, rfl, length, usefuls, each⟩ := ih (fun m => grows.frames ▸ hnew m) hrest
    refine ⟨u :: us, rfl, congrArg (· + 1) length,
      List.forall_mem_cons.mpr ⟨useful hsome, usefuls⟩, List.forall_mem_cons.mpr ⟨?_, ?_⟩⟩
    · exact ⟨u, List.mem_cons_self, _, v, alone, handed⟩
    · intro type htype
      obtain ⟨u', hu', made⟩ := each type htype
      exact ⟨u', List.mem_cons_of_mem _ hu', made⟩

/-- What is united stays within the union with `null`, which is there too. -/
theorem within_nullable (t : AvroType) : Within .null (unionOf [.null, t]) ∧ Within t (unionOf [.null, t]) := by
  have unwrapped : ∀ branches : List AvroType, Within (.union branches) (unwrap branches) := by
    intro branches
    unfold unwrap
    split
    · next b =>
      have alone : (AvroType.union [b]).leaves = b.leaves := by
        rw [leaves, branchLeaves, branchLeaves, List.append_nil]
      exact ⟨fun leaf hl _ => alone ▸ hl, fun hl => alone ▸ hl, fun hl => alone ▸ hl⟩
    · exact .refl _
  exact ⟨(within_flattened List.mem_cons_self).trans (unwrapped _),
    (within_flattened (List.mem_cons_of_mem _ List.mem_cons_self)).trans (unwrapped _)⟩

/-- Alternatives that are represented with a type, and `null` if it is listed. -/
theorem listed_represented (ht : w = t ∨ w = unionOf [.null, t])
    (hnull : "null" ∈ types → w = unionOf [.null, t])
    (h : ∀ type ∈ nonNull types, Represented cfg o scope t type) :
    ∀ type ∈ types, Represented cfg o scope w type := by
  intro type htype
  by_cases hn : type = "null"
  · subst hn
    rw [hnull htype]
    exact represented_null (within_nullable t).1
  · obtain ⟨q, v, u, hq, alone, handed, within⟩ :=
      h type (List.mem_filter.mpr ⟨htype, decide_eq_true hn⟩)
    obtain rfl | rfl := ht
    · exact ⟨q, v, u, hq, alone, handed, within⟩
    · exact ⟨q, v, u, hq, alone, handed, within.trans (within_nullable t).2⟩

theorem ListsTypes.structured_name (ho : ListsTypes o types) :
    ∃ type ∈ nonNull types, type = "object" ∨ type = "array" := by
  obtain h | h := ho.structured
  · exact ⟨"object", List.mem_filter.mpr ⟨h, rfl⟩, Or.inl rfl⟩
  · exact ⟨"array", List.mem_filter.mpr ⟨h, rfl⟩, Or.inr rfl⟩

/-- The alternatives for the listed types. -/
def alternativesOf (types : List String) (a : Object) : List Json :=
  (nonNull types).map fun type => .obj (Object.insert a "type" (.str type))

theorem listed_candidates_eq (types : List String) (a : Object) :
    listedCandidates (types.map .str) a = alternativesOf types a := by
  have filtered : (types.map Json.str).filter (!isNullName ·) = (nonNull types).map Json.str := by
    rw [List.filter_map, nonNull]
    congr 1
    refine List.filter_congr fun type _ => ?_
    by_cases hn : type = "null" <;> simp [isNullName, asString?, hn]
  rw [listedCandidates, filtered, List.map_map]
  rfl

theorem listed_type_alternatives (node : NodeConverter) (ho : ListsTypes o types) (a : Object) (scope : Scope) :
    listedType node (types.map .str) a scope = (do
      let t ← soleOrUnited node scope (alternativesOf types a)
      return if "null" ∈ types then t.map fun t => unionOf [.null, t] else t) := by
  obtain ⟨structured, hstructured, hkind⟩ := ho.structured_name
  have any : (types.map Json.str).any isStructured = true := by
    rw [List.any_map, List.any_eq_true]
    refine ⟨structured, (List.mem_filter.mp hstructured).1, ?_⟩
    obtain rfl | rfl := hkind <;> rfl
  have null : (types.map Json.str).any isNullName = decide ("null" ∈ types) := by
    rw [Bool.eq_iff_iff, List.any_map, List.any_eq_true, decide_eq_true_iff]
    constructor
    · rintro ⟨type, htype, hn⟩
      rwa [show type = "null" by simpa [isNullName, asString?] using hn] at htype
    · exact fun hn => ⟨"null", hn, rfl⟩
  rw [listed_type_eq node a scope any, listed_candidates_eq, null]
  by_cases hnull : "null" ∈ types <;> simp [hnull]

/-- Each alternative is represented in what the alternatives come to. That has a name only if it is the
type for a single one. -/
theorem alternatives_type_yields (ho : ListsTypes o types) (hbeside : SaysBeside o a)
    (hsome : recordNames o ≠ []) (hdepth : scope.depth < cfg.options.maxDepth)
    (hnew : ∀ q, AlternativeAt scope q → Frames.find? s.frames (Name.ofText q.localName) = none)
    {x : Option AvroType}
    (h : (soleOrUnited (node cfg) scope (alternativesOf types a)).Yields names s x names' s') :
    ∃ t, x = some t ∧ (∀ type ∈ nonNull types, Represented cfg o scope t type) ∧
      (t.isNamed = false ∨ ∃ type, nonNull types = [type] ∧ TypeAlone cfg o scope.deeper type t) := by
  unfold soleOrUnited alternativesOf at h
  rcases hlisted : nonNull types with _ | ⟨first, _ | ⟨second, rest⟩⟩
  · obtain ⟨type, htype, -⟩ := ho.structured_name
    simp [hlisted] at htype
  · rw [hlisted] at h
    have hdeeper : scope.deeper.depth ≤ cfg.options.maxDepth := hdepth
    obtain ⟨u, v, rfl, alone, handed, -⟩ := alternative_yields ho (hbeside.typed (.str first))
      (by rw [Object.get?_insert, if_pos rfl]) hdeeper (hnew _ (Or.inl rfl)) h
    refine ⟨u, rfl, ?_, ?_⟩
    · exact List.forall_mem_singleton.mpr ⟨_, v, u, Or.inl rfl, alone, handed, .refl u⟩
    · obtain rfl | ⟨name, -, rfl⟩ := handed
      · exact Or.inr ⟨first, rfl, alone⟩
      · exact Or.inl rfl
  · rw [hlisted] at h
    change (candidatesType (node cfg) false scope ((first :: second :: rest).map fun type =>
      .obj (Object.insert a "type" (.str type)))).Yields names s x names' s' at h
    rw [candidates_type_several _ _ _ (by simp), candidateSpots.eq_2 _ _ (by simp),
      map_eq_pure_bind] at h
    obtain ⟨ts, names₁, s₁, hts, hp⟩ := Build.yields_bind.mp h
    obtain ⟨rfl, -, -⟩ := Build.yields_pure.mp hp
    obtain ⟨us, rfl, length, usefuls, each⟩ := alternatives_yield ho hbeside hsome hdepth
      (fun n => hnew _ (Or.inr ⟨n, rfl⟩)) hts
    have several : united (useful (us.map some)) = some (.union (flatten us)) := by
      rw [useful_of_somes usefuls]
      rcases us with _ | ⟨u, _ | ⟨v, us⟩⟩
      · simp at length
      · simp at length
      · rfl
    refine ⟨_, several, fun type htype => ?_, Or.inl rfl⟩
    obtain ⟨u, hu, m, v, alone, handed⟩ := each type htype
    exact ⟨_, v, u, Or.inr ⟨m, rfl⟩, alone, handed, within_flattened hu⟩

/-- A type that stands beside `null` has no name. -/
theorem nullable_unnamed (t : AvroType) : (unionOf [.null, t]).isNamed = false := by
  have there := (within_nullable t).1.others .null (List.mem_singleton_self _) rfl
  cases hn : (unionOf [.null, t]).isNamed with
  | false => rfl
  | true =>
    have simple : (unionOf [.null, t]).isUnion = false := by
      generalize unionOf [.null, t] = u at hn
      cases u <;> simp_all [isNamed, isUnion]
    rw [leaves_of_simple simple, List.mem_singleton] at there
    rw [← there] at hn
    exact hn.symm

/-- Of a list of types each is represented, whatever name the type of the list is given. -/
theorem listed_type_yields (ho : ListsTypes o types) (hbeside : SaysBeside o a)
    (hsome : recordNames o ≠ []) (hdepth : scope.depth < cfg.options.maxDepth)
    (hnew : ∀ q, AlternativeAt scope q → Frames.find? s.frames (Name.ofText q.localName) = none)
    {x : Option AvroType}
    (h : (listedType (node cfg) (types.map .str) a scope).Yields names s x names' s') :
    ∃ t, x = some t ∧ ∀ w, HandedOut (nameType o scope t) w →
      ∀ type ∈ types, Represented cfg o scope w type := by
  rw [listed_type_alternatives _ ho] at h
  obtain ⟨x', names₁, s₁, hx, hp⟩ := Build.yields_bind.mp h
  obtain ⟨rfl, -, -⟩ := Build.yields_pure.mp hp
  obtain ⟨t, rfl, each, kind⟩ := alternatives_type_yields ho hbeside hsome hdepth hnew hx
  by_cases hnull : "null" ∈ types
  · refine ⟨_, if_pos hnull, fun w hw => ?_⟩
    obtain rfl := handed_out_unnamed (nullable_unnamed t) hw
    exact listed_represented (Or.inr rfl) (fun _ => rfl) each
  · refine ⟨t, if_neg hnull, fun w hw => ?_⟩
    obtain unnamed | ⟨type, hsingle, alone⟩ := kind
    · obtain rfl := handed_out_unnamed unnamed hw
      exact listed_represented (Or.inl rfl) (fun hn => absurd hn hnull) each
    · obtain ⟨structured, hstructured, hkind⟩ := ho.structured_name
      intro type' htype'
      have other : type' ≠ "null" := fun hn => hnull (hn ▸ htype')
      have same : ∀ type' ∈ nonNull types, type' = type := by
        rw [hsingle]
        exact fun _ => List.mem_singleton.mp
      obtain rfl := same type' (List.mem_filter.mpr ⟨htype', decide_eq_true other⟩)
      obtain rfl := same structured hstructured
      exact ⟨_, _, w, Or.inl rfl, alone.renamed hkind, hw, .refl w⟩

/-- Where a schema that lists types is converted as a node, each of them is represented in its type. -/
theorem listed_node_yields (ho : ListsTypes o types) (hsome : recordNames o ≠ [])
    (hdepth : scope.depth < cfg.options.maxDepth)
    (hnew : ∀ q, AlternativeAt scope q → Frames.find? s.frames (Name.ofText q.localName) = none)
    {x : Option AvroType} (h : (node cfg (.obj o) scope).Yields names s x names' s') :
    ∃ w, x = some w ∧ ∀ type ∈ types, Represented cfg o scope w type := by
  have itself : SaysBeside o o := ⟨ho.keys, fun _ _ _ => rfl⟩
  obtain ⟨k, names₁, s₁, s₂, grows, hk, hout⟩ := typed_node_yields ho itself
    (by rw [Object.contains, ho.listed]; rfl) (Nat.le_of_lt hdepth) h
  have const : Object.get? (unconditional o) "const" = none := by
    simpa [Object.contains] using
      (itself.unconditional.contains (by decide) (by decide)).trans ho.varies
  have listed : Object.get? (unconditional o) "type" = some (.arr (types.map .str)) := by
    rw [get_unconditional ho.keys (by decide), ho.listed]
  rw [(Says.listed const listed).type_eq] at hk
  obtain ⟨t, rfl, represented⟩ := listed_type_yields ho itself.unconditional hsome hdepth
    (by rwa [grows.frames]) hk
  obtain ⟨hno, -⟩ | ⟨_, w, ht, rfl, handed⟩ := hout
  · simp at hno
  · obtain rfl := Option.some.inj ht
    exact ⟨w, rfl, represented w handed⟩

end Listed

end Convert

end AvroDerive
