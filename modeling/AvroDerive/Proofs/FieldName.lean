import AvroDerive.Proofs.ConversionCall
import AvroDerive.Proofs.DefinitionOrigin
import AvroDerive.Proofs.RecordField

/-! # The names of fields

The fields of a record have different names, unless the keys of an object schema that is read give one
name twice: then its record has both fields. Merging adds only fields of other names. -/
namespace AvroDerive.Convert

open AvroType Json Schema

section Told

variable (cfg : Setting) (call : Call)

/-- The object schemas whose keys become fields. -/
inductive ReadsFields : Object → Prop
  | node {o scope} : Visited cfg call ⟨.obj o, scope⟩ → Spot.isOwn o = true →
    Object.get? (Spot.plainObject o) "type" = some (.str "object") →
    ReadsFields (unconditional (Spot.plainObject o))
  | turn {turn o} : call.Takes cfg turn → turn.schema = .obj o → isRecordSchema o = true →
    hasComposition (unconditional o) = false → ReadsFields (unconditional o)

/-- The names are distinct, or begin with the names for a schema of which two are the same. -/
def Told (names : List String) : Prop :=
  names.Nodup ∨ ∃ o, ReadsFields cfg call o ∧ ¬(recordNames o).Nodup ∧ recordNames o <+: names

/-- The fields of the types for object nodes with own keywords are told. -/
def NodeTells (node : NodeConverter) : Prop :=
  ∀ {o scope names s t names' s'}, Visited cfg call ⟨.obj o, scope⟩ → Spot.isOwn o = true →
    (node (.obj o) scope).Yields names s (some t) names' s' → FieldNames (Told cfg call) t

end Told

section Own

variable {cfg : Setting} {call : Call} {node : NodeConverter} {scope : Scope} {s s' : State}
  {names names' : List String} {o : Object} {t : AvroType}

theorem told_of_reads (h : ReadsFields cfg call o) : Told cfg call (recordNames o) := by
  by_cases hd : (recordNames o).Nodup
  · exact Or.inl hd
  · exact Or.inr ⟨o, h, hd, List.prefix_rfl⟩

theorem told_single (name : String) : Told cfg call [name] := Or.inl (List.nodup_singleton name)

theorem Told.add_all (h : Told cfg call names) (more : List String) :
    Told cfg call (addAll names more) := by
  rcases h with hd | ⟨o, ho, hclash, hprefix⟩
  · exact Or.inl (addAll_nodup hd more)
  · exact Or.inr ⟨o, ho, hclash, hprefix.trans (prefix_addAll names more)⟩

/-- Candidates with own keywords, to which the call leads. -/
def OwnSpots (cfg : Setting) (call : Call) (spots : List Spot) : Prop :=
  ∀ p ∈ spots, ∃ o, p.schema = .obj o ∧ Visited cfg call p ∧ Spot.isOwn o = true

theorem NodeTells.at (hnode : NodeTells cfg call node) {schema : Json}
    (h : ∃ o, schema = .obj o ∧ Visited cfg call ⟨schema, scope⟩ ∧ Spot.isOwn o = true)
    (hy : (node schema scope).Yields names s (some t) names' s') : FieldNames (Told cfg call) t := by
  obtain ⟨o, rfl, hvisited, hown⟩ := h
  exact hnode hvisited hown hy

theorem alternative_types_told (hnode : NodeTells cfg call node) {candidates : List Json} {n : Nat}
    (hspots : OwnSpots cfg call (alternativeSpots scope n candidates)) {types : List AvroType}
    (h : (alternativeTypes node scope n candidates).Yields names s types names' s') :
    ∀ t ∈ types, FieldNames (Told cfg call) t := by
  induction candidates generalizing n types names s names' s' with
  | nil =>
    rw [alternativeTypes] at h
    obtain ⟨rfl, -, -⟩ := Build.yields_pure.mp h
    simp
  | cons candidate candidates ih =>
    rw [alternativeSpots, OwnSpots, List.forall_mem_cons] at hspots
    rw [alternativeTypes] at h
    obtain ⟨t, names₁, s₁, hn, hrest⟩ := Build.yields_bind.mp h
    obtain ⟨types, names₂, s₂, hts, hp⟩ := Build.yields_bind.mp hrest
    obtain ⟨rfl, -, -⟩ := Build.yields_pure.mp hp
    rw [List.forall_mem_append]
    refine ⟨fun u hu => ?_, ih hspots.2 hts⟩
    obtain rfl := (Option.filter_eq_some_iff.mp (Option.mem_toList.mp hu)).1
    exact hnode.at hspots.1 hn

theorem candidates_type_told (hnode : NodeTells cfg call node) {candidates : List Json}
    (hspots : OwnSpots cfg call (candidateSpots scope candidates))
    (h : (candidatesType node false scope candidates).Yields names s (some t) names' s') :
    FieldNames (Told cfg call) t := by
  unfold candidatesType at h
  split at h
  · next candidate =>
    rw [candidateSpots] at hspots
    obtain ⟨x, names₁, s₁, hn, hp⟩ := Build.yields_bind.mp h
    obtain ⟨ht, -, -⟩ := Build.yields_pure.mp hp
    obtain rfl := Option.some.inj ht
    refine useful_or_generic (field_names_of_unnamed rfl) fun u hu => ?_
    subst hu
    exact hnode.at (hspots _ (List.mem_singleton_self _)) hn
  · next hseveral =>
    rw [candidateSpots.eq_2 _ _ hseveral] at hspots
    obtain ⟨types, names₁, s₁, hts, hrest⟩ := Build.yields_bind.mp h
    split at hrest
    · obtain ⟨ht, -, -⟩ := Build.yields_pure.mp hrest
      simp at ht
    · obtain ⟨ht, -, -⟩ := Build.yields_pure.mp hrest
      obtain rfl := Option.some.inj ht
      exact alternative_types_told hnode hspots hts _ (List.mem_singleton_self _)
    · obtain ⟨ht, -, -⟩ := Build.yields_pure.mp hrest
      obtain rfl := Option.some.inj ht
      exact field_names_of_unnamed rfl

theorem primitive_told {format : Option String} {values : Option (List Json)} {type : Json}
    (h : (primitive scope format values type).Yields names s t names' s') :
    FieldNames (Told cfg call) t := by
  obtain ⟨rfl, -, -⟩ := primitive_yields h
  exact field_names_of_not_record (primitive_type_of_keyword format values type).not_record

theorem sole_or_united_told (hnode : NodeTells cfg call node) {candidates : List Json}
    (hspots : OwnSpots cfg call (candidateSpots scope candidates))
    (h : (soleOrUnited node scope candidates).Yields names s (some t) names' s') :
    FieldNames (Told cfg call) t := by
  unfold soleOrUnited at h
  split at h
  · exact hnode.at (hspots _ (List.mem_singleton_self _)) h
  · exact candidates_type_told hnode hspots h

theorem listed_type_told (hnode : NodeTells cfg call node) {types : List Json}
    (hspots : types.any isStructured = true →
      OwnSpots cfg call (candidateSpots scope (listedCandidates types o)))
    (h : (listedType node types o scope).Yields names s (some t) names' s') :
    FieldNames (Told cfg call) t := by
  obtain ⟨-, u, ⟨⟩, hu⟩ | ⟨hs, x, hx, ht⟩ := listed_type_cases h
  · exact primitive_told hu
  · obtain rfl | ht := ht
    · exact sole_or_united_told hnode (hspots hs) hx
    · obtain ⟨u, -, rfl⟩ := Option.map_eq_some_iff.mp ht.symm
      exact field_names_of_unnamed (union_of_null u)

theorem candidate_spot_schema {candidates : List Json} {p : Spot}
    (h : p ∈ candidateSpots scope candidates) : p.schema ∈ candidates := by
  have alternatives : ∀ (candidates : List Json) (n : Nat),
      p ∈ alternativeSpots scope n candidates → p.schema ∈ candidates := by
    intro candidates
    induction candidates with
    | nil => simp [alternativeSpots]
    | cons candidate candidates ih =>
      intro n h
      rcases List.mem_cons.mp h with rfl | h
      · exact List.mem_cons_self
      · exact List.mem_cons_of_mem _ (ih (n + 1) h)
  unfold candidateSpots at h
  split at h
  · obtain rfl := List.mem_singleton.mp h
    exact List.mem_singleton_self _
  · exact alternatives candidates 0 h

/-- A node with own keywords has no compositions, also as its conversion reads it. -/
theorem own_composes_nothing (h : Spot.isOwn o = true) :
    hasComposition (unconditional (Spot.plainObject o)) = false := by
  have hc := (own_iff.mp h).1
  have lacks : ∀ {key : String}, key ≠ "type" → Object.contains (unconditional o) key = false →
      Object.contains (unconditional (Spot.plainObject o)) key = false := by
    intro key hk hl
    refine unconditional_lacks ?_
    rwa [Spot.plainObject, contains_with_object _ hk]
  simp only [hasComposition, Bool.or_eq_false_iff] at hc ⊢
  exact ⟨⟨lacks (by decide) hc.1.1, lacks (by decide) hc.1.2⟩, lacks (by decide) hc.2⟩

theorem constant_no_record (scope : Scope) (constant : Json) :
    (constantType scope constant).isRecord = false := by
  cases constant with
  | num n => cases n <;> rfl
  | _ => rfl

theorem inline_record_told (hc : hasComposition (unconditional o) = false)
    (hreads : ReadsFields cfg call (unconditional o))
    (h : (inlineRecord node o scope).Yields names s (some t) names' s') :
    FieldNames (Told cfg call) t := by
  obtain ⟨u, hrecord, hr, -⟩ := inline_record_yields h
  obtain ⟨w, rfl, rfl⟩ := Option.map_eq_some_iff.mp hr.symm
  obtain ⟨r, rfl, hfields⟩ := object_record_read hc hrecord
  have told : FieldNames (Told cfg call) (.record r) := by
    rw [FieldNames]
    rcases hfields with hf | hf
    · exact hf ▸ told_of_reads hreads
    · exact hf ▸ told_single _
  exact told.alike (clear_clear _)

/-- What the keywords of an object node give is told, at whatever node inside it is made. -/
theorem keyword_type_told (hnode : NodeTells cfg call node) (hown : Spot.isOwn o = true)
    (hvisited : Visited cfg call ⟨.obj o, scope⟩)
    (h : (keywordType node (Spot.plainObject o) scope).Yields names s (some t) names' s') :
    FieldNames (Told cfg call) t := by
  obtain ⟨hc, hr⟩ := own_iff.mp hown
  have spots : ∀ q ∈ keywordSpots scope (Spot.plainObject o), Visited cfg call q := by
    intro q hq
    refine .inner hvisited ?_
    rw [Spot.inner]
    simpa only [hc, hr, Bool.false_eq_true, if_false] using hq
  obtain ⟨k, hk⟩ := said (Spot.plainObject o)
  rw [hk.type_eq] at h
  cases k with
  | constant value =>
    obtain ⟨⟨⟩, -, -⟩ := Build.yields_pure.mp h
    exact field_names_of_not_record (constant_no_record scope value)
  | listed types =>
    refine listed_type_told hnode (fun hs p hp => ?_) h
    have visited : Visited cfg call p := by
      refine spots p (hk.spots_subset ?_)
      rwa [Keyword.spots, if_pos hs]
    obtain ⟨type, -, hschema⟩ := List.mem_map.mp (candidate_spot_schema hp)
    exact ⟨_, hschema.symm, visited, own_insert hown type⟩
  | array =>
    obtain ⟨u, ⟨⟩, hu⟩ := Build.yields_some.mp h
    exact field_names_of_unnamed (array_type_unnamed hu)
  | object =>
    cases hk with
    | object _ htype =>
      exact inline_record_told (own_composes_nothing hown) (.node hvisited hown htype) h
  | named type =>
    obtain ⟨u, ⟨⟩, hu⟩ := Build.yields_some.mp h
    exact primitive_told hu
  | silent => simp [Keyword.type] at h

theorem name_type_field_names {q : List String → Prop} (o : Object) (scope : Scope)
    (h : FieldNames q t) : FieldNames q (nameType o scope t) := by
  cases t with
  | record r =>
    obtain ⟨r', hr', -, hfields, -⟩ := name_type_record scope o r
    rw [hr', FieldNames, hfields]
    exact h
  | enum e =>
    obtain ⟨e', he'⟩ := name_type_enum scope o e
    rw [he']
    trivial
  | fixed f =>
    obtain ⟨f', hf'⟩ := name_type_fixed scope o f
    rw [hf']
    trivial
  | _ =>
    rw [name_type_unnamed o rfl]
    exact h

theorem object_node_told (hnode : NodeTells cfg call node) (hown : Spot.isOwn o = true)
    (hvisited : Visited cfg call ⟨.obj o, scope⟩)
    (h : (objectNode cfg node o scope).Yields names s (some t) names' s') :
    FieldNames (Told cfg call) t := by
  obtain ⟨hc, hr⟩ := own_iff.mp hown
  cases object_node_cases h with
  | composed hcomposed => simp [hc] at hcomposed
  | referred _ hreferred => exact absurd (hr.symm.trans hreferred) (by simp)
  | typed _ _ _ hk hreuse =>
    obtain ⟨-, ⟨rfl, -⟩ | ⟨name, -, -, rfl, -⟩⟩ := reuse_registered_yields hreuse
    · exact name_type_field_names _ scope (keyword_type_told hnode hown hvisited hk)
    · trivial

theorem node_within_tells (levels : Nat) : NodeTells cfg call (nodeWithin cfg levels) := by
  have deep : ∀ {scope names s t names' s'}, (tooDeep cfg scope).Yields names s (some t) names' s' →
      FieldNames (Told cfg call) t := by
    intro scope names s t names' s' hy
    obtain ⟨_, names₁, s₁, -, hp⟩ := Build.yields_bind.mp hy
    obtain ⟨ht, -, -⟩ := Build.yields_pure.mp hp
    obtain rfl := Option.some.inj ht
    trivial
  induction levels with
  | zero => exact fun _ _ hy => deep hy
  | succ levels ih =>
    intro o scope names s t names' s' hvisited hown hy
    rw [nodeWithin] at hy
    dsimp only at hy
    split at hy
    · exact deep hy
    · exact object_node_told ih hown hvisited hy

end Own

section Keyword

variable {q : List String → Prop}

theorem generic_field_names : AllParts (FieldNames q) .generic := by
  have unnamed : ∀ u ∈ AvroType.generic.parts, u.isNamed = false := by
    decide
  exact fun u hu => field_names_of_unnamed (unnamed u hu)

/-- What stands in a `type` keyword is no record and holds none. -/
theorem choice_field_names {field : String} {texts names : List String} {t : AvroType}
    (h : Choice field texts names t) : AllParts (FieldNames q) t := by
  cases h with
  | generic hm => exact inside_union.mp generic_field_names.inside t hm
  | _ => exact .leaf trivial rfl

theorem primitive_field_names (field : String) (format : Option String) (values : Option (List Json))
    (type : Json) : AllParts (FieldNames q) (primitiveType field format values type).1 := by
  obtain ⟨ts, hts, he⟩ := primitive_type_choices field format values type
  have each : ∀ t ∈ ts, AllParts (FieldNames q) t := fun t ht => choice_field_names (hts.each t ht)
  rw [he]
  unfold unwrap
  split
  · next t => exact each t (List.mem_singleton_self t)
  · exact .union trivial each

/-- The types that keywords have by themselves hold no records. -/
theorem plain_field_names {p : Spot} {t : AvroType} (h : p.plain? = some t) :
    AllParts (FieldNames q) t := by
  rcases p.is_plain h with ⟨constant, rfl⟩ | ⟨format, values, type, rfl⟩
  · cases constant with
    | num n => cases n <;> exact .leaf trivial rfl
    | arr items => exact .array trivial generic_field_names
    | obj o => exact .map trivial generic_field_names
    | _ => exact .leaf trivial rfl
  · exact primitive_field_names _ format values type

end Keyword

section Law

variable {cfg : Setting} {call : Call}

theorem fetched_cons {known : List (String × Json)} {url : String} {d : Json}
    (hknown : ∀ e ∈ known, Fetched cfg e.1 e.2) (hf : Fetched cfg url d) :
    ∀ e ∈ (url, d) :: known, Fetched cfg e.1 e.2 :=
  List.forall_mem_cons.mpr ⟨hf, hknown⟩

/-- Where a reference of a visited node is found to lead, a node is visited. -/
theorem visited_target {p : Spot} {reference : String} {located : Located} {s s' : State}
    (hp : Visited cfg call p) (href : p.reference? = some reference)
    (hd : ∀ e ∈ s.documents, Fetched cfg e.1 e.2)
    (hl : (locate cfg reference p.scope).Yields s located s') :
    Visited cfg call (p.target cfg reference located) :=
  .target hp href (locate_leads hd hl)

/-- The law that fields are told. What is registered in a turn is seen to after it. -/
def Law.told (cfg : Setting) (call : Call) : Law cfg where
  imports _ := True
  free _ := True
  documents known := ∀ e ∈ known, Fetched cfg e.1 e.2
  spot := Visited cfg call
  turn _ _ _ := False
  origin := FieldNames (Told cfg call)
  unknown _ _ := trivial
  write _ _ _ := trivial
  fetched := fetched_cons
  inner := .inner
  target := visited_target
  begins := nofun
  beginsRecord := nofun
  alike := FieldNames.alike
  joinedRecord {level r s} hr _ := by
    rw [FieldNames, joined_field_names]
    exact Told.add_all hr _
  mergedEnum _ _ := trivial
  listed _ hplain _ hu _ := plain_field_names hplain _ hu
  made {p levels names s t names' s'} hp hown _ hy _ := by
    obtain ⟨schema, scope⟩ := p
    cases schema with
    | obj o => exact object_node_told (node_within_tells levels) hown hp hy
    | _ => simp [Spot.own] at hown
  registered := nofun

theorem fine_told {t : AvroType} (h : (Law.told cfg call).Fine t) : FieldNames (Told cfg call) t := by
  cases ht : t.isNamed with
  | true => exact h.2 ht
  | false => exact field_names_of_unnamed ht

theorem good_told {t : AvroType} (h : (Law.told cfg call).Good t) : FieldNames (Told cfg call) t :=
  fine_told h.top

theorem Lawful.and {L : Law cfg} {α : Type} {x : Run α} {post post' : α → Prop}
    (h : Lawful L x post) (h' : Lawful L x post') : Lawful L x fun a => post a ∧ post' a :=
  fun s hs => ⟨(h s hs).1, fun a ha => ⟨(h s hs).2 a ha, (h' s hs).2 a ha⟩⟩

/-- The record for a composition has the fields of the record that it converts to, or one field. -/
theorem composition_record_told {name ns : String} {o : Object} {scope : Scope}
    (hspot : Visited cfg call ⟨.obj o, (scope.forRecord name ns).forField "value"⟩) :
    Lawful (Law.told cfg call) (compositionRecord (node cfg) name ns o scope)
      (FieldNames (Told cfg call)) := by
  unfold compositionRecord
  refine .bind (.apart (node_lawful _ _ _ hspot)) ?_
  rintro ⟨converted, names⟩ hconverted
  refine .pure ?_
  split
  · next r =>
    have told : FieldNames (Told cfg call) (.record r) := good_told (hconverted _ rfl)
    exact told
  · exact told_single "value"

theorem definition_type_told {turn : Turn} (hturn : call.Takes cfg turn) :
    Lawful (Law.told cfg call)
      (definitionType cfg turn.schema (turn.scope cfg call.subject call.baseUri))
      fun r => ∀ t ∈ r.1, FieldNames (Told cfg call) t := by
  have converted : Lawful (Law.told cfg call)
      (Build.apart (node cfg turn.schema (turn.scope cfg call.subject call.baseUri)))
      fun r => ∀ t ∈ r.1, FieldNames (Told cfg call) t :=
    (Lawful.apart (node_lawful _ _ _ (Visited.turn hturn))).imp fun _ h t ht => good_told (h t ht)
  have spots : ∀ o, turn.schema = .obj o →
      ∀ q ∈ recordSpots (turn.scope cfg call.subject call.baseUri) (turn.typeName cfg).1
        (turn.typeName cfg).2 o, Visited cfg call q := fun o ho q hq => .record hturn ho hq
  unfold definitionType
  split
  · next o ho =>
    split
    · next hrecord =>
      cases hc : hasComposition (unconditional o) with
      | true =>
        have spot := spots o ho
        rw [recordSpots, if_pos hc, List.forall_mem_singleton] at spot
        unfold objectRecord
        refine .bind (.bind (without_conditionals_lawful o) ?_) fun t ht => .pure ht
        rintro _ rfl
        rw [if_pos hc]
        refine .bind (composition_record_told spot) ?_
        intro t ht
        refine .pure fun u hu => ?_
        obtain rfl := Option.some.inj hu
        exact ht
      | false =>
        refine .bind (object_record_lawful (node_lawful _) (spots o ho)).seen ?_
        rintro t ⟨-, s, s', -, hy⟩
        refine .pure fun u hu => ?_
        obtain rfl : t = some u := hu
        obtain ⟨r, rfl, hf⟩ := object_record_read hc hy
        rw [FieldNames]
        rcases hf with hf | hf
        · exact hf ▸ told_of_reads (.turn hturn ho hrecord hc)
        · exact hf ▸ told_single _
    · exact converted
  · exact converted

theorem entry_told {turn : Turn} {t : AvroType} (h : FieldNames (Told cfg call) t) :
    FieldNames (Told cfg call) (turn.entry cfg t) := by
  refine field_names_with_ns _ (field_names_with_name _ ?_)
  split
  · exact h
  · exact told_single "value"

/-- After a call, the fields of all records that are held are told. -/
theorem call_told {t : AvroType} (ht : t ∈ (call.after cfg {}).registry) :
    AllParts (FieldNames (Told cfg call)) t := by
  have start : (Law.told cfg call).Holds {} := ⟨trivial, by simp [Law.told], by simp, by simp⟩
  have turns : ∀ turns, call.turns cfg = .ok turns → ∀ turn ∈ turns, Lawful (Law.told cfg call)
      (definition cfg call.subject call.baseUri turn.name turn.schema turn.pointer) fun _ => True := by
    intro turns hturns turn hturn
    have takes : call.Takes cfg turn := ⟨turns, hturns, hturn⟩
    have type := definition_type_lawful (L := Law.told cfg call) (Visited.turn takes)
      fun o ho q hq => Visited.record takes ho hq
    refine definition_lawful_of ((type.and (definition_type_told takes)).imp ?_)
    rintro r ⟨hdraft, htold⟩ t ht
    exact entry_good (hdraft t ht) (entry_told (htold t ht))
  have holds : (Law.told cfg call).Holds (call.after cfg {}) := (call_lawful_of turns {} start).1
  exact (holds.registry t ht).imp fun u hu => fine_told hu

end Law

section Output

variable {cfg : Setting} {j : Json} {location : String}

/-- A property of all that a call registers is one of all that a conversion gives. -/
theorem Call.Emits.all_parts {p : AvroType → Prop} (hp : Inlinable p) {call : Call} {out : Output}
    (h : call.Emits cfg out) (hs : ∀ t ∈ (call.after cfg {}).registry, AllParts p t) :
    ∀ u ∈ out.parts, p u := by
  have sorted : ∀ t ∈ call.sortedTypes cfg, AllParts p t :=
    fun t ht => hs t (mem_sorted_types.mp ht)
  cases h with
  | types =>
    intro u hu
    obtain ⟨t, ht, hm⟩ := List.mem_flatMap.mp hu
    exact evict_all_parts hp sorted t ht u hm
  | fragment hroot =>
    obtain ⟨defined, h⟩ := inline_inlined (call.sortedTypes cfg) _
    exact h.all_parts hp sorted (sorted _ hroot)

theorem field_names_inlinable (q : List String → Prop) : Inlinable (FieldNames q) where
  reference _ := trivial
  array _ := trivial
  map _ := trivial
  record r fields hnames hr := by
    rw [FieldNames, hnames]
    exact hr
  union _ _ := trivial

/-- The fields of every record that a conversion gives, at any depth, have different names. Unless the
keys of an object schema whose fields are read give one name twice: then the record has these names, in
front of those that merging adds. -/
theorem record_fields_distinct {out : Output} {ws : List Warning}
    (h : convert cfg j location = (.ok out, ws)) :
    ∃ call, conversionCall? cfg j location = some call ∧ ∀ r, .record r ∈ out.parts →
      (r.fields.map Field.name).Nodup ∨
      ∃ o, ReadsFields cfg call o ∧ ¬(recordNames o).Nodup ∧
        recordNames o <+: r.fields.map Field.name := by
  obtain ⟨call, hcall, hemits⟩ := convert_emits h
  refine ⟨call, hcall, fun r hr => ?_⟩
  exact hemits.all_parts (field_names_inlinable _) (fun t ht => call_told ht) _ hr

end Output

/-- An object schema that lists two properties of different names. -/
def twoProperties (name other : String) : Json :=
  objectSchema [(name, .obj [("type", .str "string")]), (other, .obj [("type", .str "integer")])]

theorem two_properties_distinct : ∃ out ws,
    convert offline (twoProperties "a" "b") "" = (.ok out, ws) ∧
    (out.parts.filter isRecord).length = 1 ∧
    ∃ call, conversionCall? offline (twoProperties "a" "b") "" = some call ∧
      ∀ r, .record r ∈ out.parts → (r.fields.map Field.name).Nodup ∨
        ∃ o, ReadsFields offline call o ∧ ¬(recordNames o).Nodup ∧
          recordNames o <+: r.fields.map Field.name := by
  obtain ⟨out, hout, hrecords⟩ := output_of_any (r := convert offline (twoProperties "a" "b") "")
    (p := fun out => (out.parts.filter isRecord).length = 1) (by decide +kernel)
  exact ⟨out, _, hout, of_decide_eq_true hrecords, record_fields_distinct hout⟩

/-- The record for the properties `a-b` and `a_b`. -/
def clashingRecord : Record AvroType :=
  { name := "document", ns := some "ns",
    fields := [{ name := "a_b", type := .union [.null, .primitive "string"] },
               { name := "a_b", type := .union [.null, .primitive "int"] }] }

/-- Keys that differ in a character which no name can have give two fields of one name. -/
theorem sanitized_keys_clash : ∃ out ws r,
    convert offline (twoProperties "a-b" "a_b") "" = (.ok out, ws) ∧ .record r ∈ out.parts ∧
    ¬(r.fields.map Field.name).Nodup := by
  obtain ⟨out, hout, hm⟩ := output_of_any (r := convert offline (twoProperties "a-b" "a_b") "")
    (p := fun out => decide (.record clashingRecord ∈ out.parts)) (by decide +kernel)
  exact ⟨out, _, clashingRecord, hout, of_decide_eq_true hm, by decide⟩

end AvroDerive.Convert
