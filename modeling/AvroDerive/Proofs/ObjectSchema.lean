import AvroDerive.Proofs.CallStep

/-! # Object schemas that list properties

The record of such a schema has a field for each property. Where the schema stands as a fragment, its
type is that record, or stands in for it, or is a reference to a type of the name. -/
namespace AvroDerive

namespace Object

variable {o : Object} {key other : String}

theorem get_iff_mem (h : (keys o).Nodup) {v : Json} : get? o key = some v ↔ (key, v) ∈ o := by
  refine ⟨mem_of_get?, fun hm => ?_⟩
  induction o with
  | nil => simp at hm
  | cons m o ih =>
    obtain ⟨k, w⟩ := m
    simp only [keys, List.map_cons, List.nodup_cons] at h
    rw [get?_cons]
    rcases List.mem_cons.mp hm with hm | hm
    · obtain ⟨rfl, rfl⟩ := Prod.mk.inj hm
      rw [if_pos rfl]
    · have hne : key ≠ k := by
        intro he
        exact h.1 (he ▸ List.mem_map_of_mem (f := Prod.fst) hm)
      rw [if_neg hne]
      exact ih h.2 hm

theorem contains_iff_mem : contains o key = true ↔ key ∈ keys o := by
  simp [contains, get?, keys, List.lookup_isSome_iff]

/-- The members after the last one has taken the place of the one with the key. -/
theorem moved_spec {init : Object} {last : String × Json} (hinit : (keys init).Nodup)
    (hlast : last.1 ∉ keys init) (hkey : key ∈ keys init) :
    (keys (init.map fun m => if m.1 = key then last else m)).Nodup ∧
      ∀ m, m ∈ (init.map fun m => if m.1 = key then last else m) ↔
        (m ∈ init ∧ m.1 ≠ key) ∨ m = last := by
  constructor
  · have names : keys (init.map fun m => if m.1 = key then last else m) =
        (keys init).map fun k => if k = key then last.1 else k := by
      simp only [keys, List.map_map]
      refine List.map_congr_left fun m _ => ?_
      by_cases hm : m.1 = key <;> simp [hm]
    rw [names]
    refine hinit.map_on ?_
    intro a ha b hb hab
    by_cases hak : a = key <;> by_cases hbk : b = key <;>
      simp only [hak, hbk, if_true, if_false] at hab ⊢
    · exact absurd (hab ▸ hb) hlast
    · exact absurd (hab ▸ ha) hlast
    · exact hab
  · intro m
    rw [List.mem_map]
    constructor
    · rintro ⟨e, he, rfl⟩
      by_cases hek : e.1 = key
      · exact Or.inr (if_pos hek)
      · rw [if_neg hek]
        exact Or.inl ⟨he, hek⟩
    · rintro (⟨hm, hne⟩ | rfl)
      · exact ⟨m, hm, if_neg hne⟩
      · obtain ⟨e, he, hek⟩ := List.mem_map.mp hkey
        exact ⟨e, he, if_pos hek⟩

/-- Erasing leaves the other members, in some order. -/
theorem erase_spec (h : (keys o).Nodup) (key : String) : (keys (erase o key)).Nodup ∧
    ∀ m, m ∈ erase o key ↔ m ∈ o ∧ m.1 ≠ key := by
  rcases List.eq_nil_or_concat o with rfl | ⟨init, last, rfl⟩
  · simp [erase, keys]
  have split : (keys init).Nodup ∧ last.1 ∉ keys init := by
    simp only [List.concat_eq_append, keys, List.map_append, List.map_cons, List.map_nil,
      List.nodup_append] at h
    exact ⟨h.1, fun hm => h.2.2 _ hm _ (List.mem_singleton_self _) rfl⟩
  obtain ⟨hinit, hlast⟩ := split
  unfold erase
  rw [List.concat_eq_append, List.getLast?_concat, List.dropLast_concat]
  dsimp only
  split
  · next hcontains =>
    split
    · next hk =>
      subst hk
      refine ⟨hinit, fun m => ?_⟩
      have apart : m ∈ init → m.1 ≠ last.1 := fun hm he => hlast (he ▸ List.mem_map_of_mem hm)
      simp only [List.mem_append, List.mem_singleton]
      constructor
      · exact fun hm => ⟨Or.inl hm, apart hm⟩
      · rintro ⟨hm | rfl, hne⟩
        · exact hm
        · exact absurd rfl hne
    · next hk =>
      have hkey : key ∈ keys init := by
        rw [contains_iff_mem] at hcontains
        simpa [keys, Ne.symm hk, eq_comm] using hcontains
      obtain ⟨hnodup, hmem⟩ := moved_spec hinit hlast hkey
      refine ⟨hnodup, fun m => ?_⟩
      rw [hmem, List.mem_append, List.mem_singleton, or_and_right]
      refine or_congr_right ⟨?_, And.left⟩
      rintro rfl
      exact ⟨rfl, hk⟩
  · next hcontains =>
    rw [List.concat_eq_append] at h
    rw [contains_iff_mem] at hcontains
    exact ⟨h, fun m => ⟨fun hm => ⟨hm, fun he => hcontains (he ▸ List.mem_map_of_mem hm)⟩,
      And.left⟩⟩

/-- Erasing a key leaves the values of the other keys. -/
theorem get_erase (h : (keys o).Nodup) (hne : other ≠ key) :
    get? (erase o key) other = get? o other := by
  obtain ⟨hnodup, hmem⟩ := erase_spec h key
  ext v
  rw [get_iff_mem hnodup, get_iff_mem h, hmem]
  exact and_iff_left hne

end Object

namespace Convert

open AvroType Json Schema

/-- An object schema that lists properties and neither refers nor is put together from others. -/
structure ListsProperties (o : Object) : Prop where
  keys : (Object.keys o).Nodup
  plain : hasComposition o = false
  own : Object.contains o "$ref" = false
  kind : (Object.get? o "type").all fun t => t.asString? == some "object"
  listed : ((Object.get? o "properties").bind asObject?).any (!·.isEmpty) = true

def propertiesOf (o : Object) : Object := ((Object.get? o "properties").bind asObject?).getD []

/-- The names of the fields for the properties. -/
def fieldNames : Object → List String
  | [] => []
  | (name, .obj _) :: rest | (name, .bool _) :: rest => Name.ofText name :: fieldNames rest
  | _ :: rest => fieldNames rest

/-- A record whose fields start with those for the properties of the schema. -/
def Describes (o : Object) (t : AvroType) : Prop :=
  ∃ r, t = .record r ∧ fieldNames (propertiesOf o) <+: r.fields.map Field.name

/-- The names of the fields of a type that is a record. -/
def fieldNamesOf : Option AvroType → List String
  | some (.record r) => r.fields.map Field.name
  | _ => []

section Keywords

variable {o : Object}

theorem get_unconditional (h : (Object.keys o).Nodup) {key : String}
    (hkey : key ∉ conditionalKeywords) : Object.get? (unconditional o) key = Object.get? o key := by
  have erased : ∀ (keys : List String) (o : Object), (Object.keys o).Nodup → key ∉ keys →
      Object.get? (eraseAll o keys) key = Object.get? o key := by
    intro keys
    induction keys with
    | nil => exact fun _ _ _ => rfl
    | cons k keys ih =>
      intro o h hk
      rw [List.mem_cons, not_or] at hk
      exact (ih _ (Object.erase_spec h _).1 hk.2).trans (Object.get_erase h hk.1)
  unfold unconditional withoutConditionals?
  split
  · exact erased _ o h hkey
  · rfl

theorem nodup_unconditional (h : (Object.keys o).Nodup) :
    (Object.keys (unconditional o)).Nodup := by
  have erased : ∀ (keys : List String) (o : Object), (Object.keys o).Nodup →
      (Object.keys (eraseAll o keys)).Nodup := by
    intro keys
    induction keys with
    | nil => exact fun _ h => h
    | cons k keys ih => exact fun o h => ih _ (Object.erase_spec h _).1
  unfold unconditional withoutConditionals?
  split
  · exact erased _ o h
  · exact h

/-- Conditional keywords are none of those that make an object schema. -/
theorem ListsProperties.unconditional (h : ListsProperties o) :
    ListsProperties (unconditional o) := by
  have same : ∀ key, key ∉ conditionalKeywords →
      Object.contains (Convert.unconditional o) key = Object.contains o key := by
    intro key hkey
    rw [Object.contains, Object.contains, get_unconditional h.keys hkey]
  constructor
  · exact nodup_unconditional h.keys
  · rw [← h.plain]
    simp only [hasComposition]
    rw [same _ (by decide), same _ (by decide), same _ (by decide)]
  · rw [same _ (by decide)]
    exact h.own
  · rw [get_unconditional h.keys (by decide)]
    exact h.kind
  · rw [get_unconditional h.keys (by decide)]
    exact h.listed

theorem properties_unconditional (h : ListsProperties o) :
    propertiesOf (unconditional o) = propertiesOf o := by
  rw [propertiesOf, propertiesOf, get_unconditional h.keys (by decide)]

theorem ListsProperties.contains (h : ListsProperties o) :
    Object.contains o "properties" = true := by
  have hl := h.listed
  cases hp : Object.get? o "properties" with
  | none => simp [hp] at hl
  | some p => simp [Object.contains, hp]

/-- Such a schema has the type object, stated or not. -/
theorem ListsProperties.type (h : ListsProperties o) :
    Object.get? (withObjectType o) "type" = some (.str "object") := by
  unfold withObjectType
  split
  · rw [Object.get?_insert, if_pos rfl]
  · next hno =>
    have hk := h.kind
    rw [h.contains, Bool.true_and] at hno
    cases ht : Object.get? o "type" with
    | none => simp [Object.contains, ht] at hno
    | some t =>
      rw [ht] at hk
      cases t <;> simp_all [asString?]

theorem get_with_object {key : String} (hkey : key ≠ "type") :
    Object.get? (withObjectType o) key = Object.get? o key := by
  unfold withObjectType
  split
  · rw [Object.get?_insert, if_neg hkey]
  · rfl

theorem ListsProperties.with_object (h : ListsProperties o) :
    ListsProperties (withObjectType o) := by
  constructor
  · unfold withObjectType
    split
    · exact Object.nodup_keys_insert h.keys _ _
    · exact h.keys
  · rw [← h.plain]
    simp only [hasComposition]
    rw [contains_with_object _ (by decide), contains_with_object _ (by decide),
      contains_with_object _ (by decide)]
  · rw [contains_with_object _ (by decide)]
    exact h.own
  · rw [h.type]
    rfl
  · rw [get_with_object (by decide)]
    exact h.listed

theorem properties_with_object : propertiesOf (withObjectType o) = propertiesOf o := by
  rw [propertiesOf, propertiesOf, get_with_object (by decide)]

end Keywords

section Record

variable {node : NodeConverter} {scope : Scope} {s s' : State} {names names' : List String}

theorem clear_field_names (fields : List (Field AvroType)) :
    (clearFields fields).map Field.name = fields.map Field.name := by
  rw [clear_fields_eq, List.map_map]
  rfl

theorem property_fields_named {required : List String} {properties : Object}
    {fields : List (Field AvroType)}
    (h : (propertyFields node required scope properties).Yields names s fields names' s') :
    fields.map Field.name = fieldNames properties := by
  induction properties generalizing names s fields with
  | nil =>
    rw [propertyFields] at h
    obtain ⟨rfl, -, -⟩ := Build.yields_pure.mp h
    rfl
  | cons p properties ih =>
    obtain ⟨name, schema⟩ := p
    have field : ∀ {x : Build (Option AvroType)} {g : Option AvroType → Field AvroType},
        (∀ t, (g t).name = Name.ofText name) →
        (do let t ← x; return g t :: (← propertyFields node required scope properties) :
          Build (List (Field AvroType))).Yields names s fields names' s' →
        fields.map Field.name = Name.ofText name :: fieldNames properties := by
      intro x g hg h
      obtain ⟨t, names₁, s₁, -, hrest⟩ := Build.yields_bind.mp h
      obtain ⟨rest, names₂, s₂, hfields, hpure⟩ := Build.yields_bind.mp hrest
      obtain ⟨rfl, rfl, rfl⟩ := Build.yields_pure.mp hpure
      rw [List.map_cons, hg, ih hfields]
    cases schema with
    | obj o => exact field (fun _ => rfl) h
    | bool b => exact field (fun _ => rfl) h
    | _ => exact ih h

/-- The fields of a schema that lists properties start with those for the properties. -/
theorem record_fields_named {o : Object} (ho : ListsProperties o) {fields : List (Field AvroType)}
    (h : (recordFields node scope o).Yields names s fields names' s') :
    fieldNames (propertiesOf o) <+: fields.map Field.name := by
  have hl := ho.listed
  unfold recordFields at h
  unfold propertiesOf
  rcases hp : (Object.get? o "properties").bind asObject? with _ | (_ | ⟨p, properties⟩)
  · simp [hp] at hl
  · simp [hp] at hl
  · rw [hp] at h
    dsimp only at h
    obtain ⟨own, names₁, s₁, hown, hrest⟩ := Build.yields_bind.mp h
    obtain ⟨additional, names₂, s₂, -, hrest⟩ := Build.yields_bind.mp hrest
    obtain ⟨patterns, names₃, s₃, -, hpure⟩ := Build.yields_bind.mp hrest
    obtain ⟨rfl, -, -⟩ := Build.yields_pure.mp hpure
    rw [Option.getD_some, ← property_fields_named hown, List.append_assoc, List.map_append]
    exact List.prefix_append _ _

/-- The record of an object schema has its fields, or stands in for one that is under construction. -/
theorem object_record_describes {o : Object} (ho : ListsProperties o) {name ns : String}
    {t : Option AvroType} (h : (objectRecord node name ns o scope).Yields s t s') :
    ∃ r, t = some (.record r) ∧ r.ns = (if ns = "" then none else some ns) ∧
      (r.name = Name.ofText name ∧ fieldNames (propertiesOf o) <+: r.fields.map Field.name ∨
        (Frames.find? s.frames (Name.ofText name)).isSome = true ∧
          r.name = Name.ofText (Name.ofText name ++ "_ref")) := by
  cases object_record_recorded h with
  | composed hc => simp [ho.unconditional.plain] at hc
  | standIn _ _ found => exact ⟨_, rfl, rfl, Or.inr ⟨by rw [found]; rfl, rfl⟩⟩
  | built _ _ _ made =>
    obtain ⟨fields, names, hfields, rfl⟩ := build_record_yields made
    rw [ho.unconditional.listed, if_neg (by simp)]
    refine ⟨_, rfl, rfl, Or.inl ⟨rfl, ?_⟩⟩
    rw [← properties_unconditional ho]
    exact record_fields_named ho.unconditional hfields

end Record

/-- What the conversion of an object schema gives that is to have the name. -/
inductive ObjectOutcome (o : Object) (name : String × String) (s : State) :
    Option AvroType → Prop
  | own {r} : qualify r.ns r.name = fullOf name →
    fieldNames (propertiesOf o) <+: r.fields.map Field.name → ObjectOutcome o name s (some (.record r))
  | standIn {r} : qualify r.ns r.name = standInOf name → ObjectOutcome o name s (some (.record r))
  | constant {e} : Object.contains o "const" = true → qualify e.ns e.name = fullOf name →
    ObjectOutcome o name s (some (.enum e))
  | registered {n} : n = fullOf name ∨ n = standInOf name → n ∈ definedNames s.registry →
    ObjectOutcome o name s (some (.reference n))
  | nameless {t} : (t.isRecord || t.isEnum) = false → (∀ n, t ≠ .reference n) →
    ObjectOutcome o name s (some t)

section Node

variable {cfg : Setting} {node : NodeConverter} {scope : Scope} {s s' : State}
  {names names' : List String} {o : Object}

theorem outcome_generic {name : String × String} :
    ObjectOutcome o name s (some .generic) :=
  .nameless rfl (by simp [generic])

/-- A type of the name is kept, or becomes a reference to the one that is registered. -/
theorem reused_outcome {name : String × String} {t u : AvroType} {n : String}
    (hn : n = fullOf name ∨ n = standInOf name) (ht : t.qualifiedName? = some n)
    (hout : ObjectOutcome o name s (some t))
    (h : (reuseRegistered t).Yields names s u names' s') : ObjectOutcome o name s' (some u) := by
  obtain ⟨rfl, ⟨rfl, -⟩ | ⟨m, hm, hdefined, rfl, -⟩⟩ := reuse_registered_yields h
  · exact hout
  · obtain rfl : n = m := Option.some.inj (ht.symm.trans hm)
    exact .registered hn hdefined

/-- The enumeration of a constant at the top has the expected name. -/
theorem top_enum_name (o : Object) {e : Enumeration} (htop : scope.field = "") (hns : e.ns = none) :
    ∃ e', nameType o scope (.enum e) = .enum e' ∧
      qualify e'.ns e'.name = qualify (some scope.ns) (Name.ofText scope.record) := by
  cases hd : description? o <;>
    simp [nameType, hd, hns, htop, isNamed, isEnum, withDocIfMissing, ns?, withNs, withName,
      Scope.typeNs, Scope.localName]

theorem constant_outcome (hconst : Object.contains o "const" = true) (htop : scope.field = "")
    (hlegal : Name.ofText scope.record = scope.record) (other : Object) (constant : Json)
    {u : AvroType} (h : (reuseRegistered (nameType other scope (constantType scope constant))).Yields
      names s u names' s') : ObjectOutcome o (scope.record, scope.ns) s' (some u) := by
  have nameless : ∀ t : AvroType, t.isNamed = false → (∀ n, t ≠ .reference n) →
      (reuseRegistered (nameType other scope t)).Yields names s u names' s' →
      ObjectOutcome o (scope.record, scope.ns) s' (some u) := by
    intro t ht href hr
    rw [name_type_unnamed other ht] at hr
    have hkind : t.isRecord = false ∧ t.isEnum = false ∧ t.qualifiedName? = none := by
      cases t <;> simp_all [isNamed, isRecord, isEnum, qualifiedName?, name?]
    obtain ⟨rfl, ⟨rfl, -⟩ | ⟨m, hm, -⟩⟩ := reuse_registered_yields hr
    · exact .nameless (by simp [hkind]) href
    · simp [hkind] at hm
  unfold constantType at h
  split at h
  · next text =>
    obtain ⟨e, he, hq⟩ := top_enum_name other htop (e := ⟨Name.ofText scope.localName, none, none,
      [Name.ofText text]⟩) rfl
    rw [he] at h
    rw [hlegal] at hq
    refine reused_outcome (Or.inl rfl) ?_ (.constant hconst hq) h
    exact congrArg some hq
  · exact nameless _ rfl (by simp) h
  · exact nameless _ rfl (by simp) h
  · exact nameless _ rfl (by simp) h
  · exact nameless _ rfl (by simp [AvroType.null]) h
  · exact nameless _ rfl (by simp) h
  · exact nameless _ rfl (by simp) h

theorem const_of_node (ho : ListsProperties o) :
    Object.get? (withObjectType (unconditional o)) "const" = Object.get? o "const" := by
  rw [get_with_object (by decide), get_unconditional ho.keys (by decide)]

/-- The keywords type an object schema; what they give is named, and reused if it is registered. -/
theorem object_node_keywords (ho : ListsProperties o) {t : Option AvroType}
    (h : (objectNode cfg node o scope).Yields names s t names' s') :
    ∃ s₁ u names₁ s₂, Quiet s s₁ ∧
      (keywordType node (withObjectType (unconditional o)) scope).Yields names s₁ u names₁ s₂ ∧
      ∀ v, u = some v → ∃ w, t = some w ∧ (reuseRegistered
        (nameType (withObjectType (unconditional o)) scope v)).Yields names₁ s₂ w names' s' := by
  have hplain := ho.unconditional
  cases object_node_cases h with
  | composed hc => simp [hplain.plain] at hc
  | referred _ hr => simp [hplain.with_object.own] at hr
  | typed _ _ hq hk hreuse =>
    refine ⟨_, _, _, _, hq, hk, ?_⟩
    rintro v ⟨⟩
    exact ⟨_, rfl, hreuse⟩
  | silent _ _ hq hk => exact ⟨_, _, _, _, hq, hk, by simp⟩

/-- Unless it is a constant, the type of an object schema is a record that has its fields or stands in
for one under construction; if a type of the name is registered, a reference to that. -/
theorem object_node_record (ho : ListsProperties o) (hconst : Object.get? o "const" = none)
    {t : Option AvroType} (h : (objectNode cfg node o scope).Yields names s t names' s') :
    ∃ (r : Record AvroType) (n : String), qualify r.ns r.name = n ∧
      (t = some (.record r) ∨ t = some (.reference n) ∧ n ∈ definedNames s'.registry) ∧
      (n = fullOf (Name.ofText scope.localName, scope.typeNs) ∧
          fieldNames (propertiesOf o) <+: r.fields.map Field.name ∨
        (Frames.find? s.frames (Name.ofText scope.localName)).isSome = true ∧
          n = standInOf (Name.ofText scope.localName, scope.typeNs)) := by
  have hplain := ho.unconditional
  have hwith := hplain.with_object
  have hproperties : propertiesOf (withObjectType (unconditional o)) = propertiesOf o := by
    rw [properties_with_object, properties_unconditional ho]
  obtain ⟨s₁, u, names₂, s₂, hq, hk, hrest⟩ := object_node_keywords ho h
  have object : Says (withObjectType (unconditional o)) .object :=
    .object ((const_of_node ho).trans hconst) hplain.type
  rw [object.type_eq] at hk
  obtain ⟨w, hrecord, rfl, rfl⟩ := inline_record_yields hk
  obtain ⟨r, rfl, hns, hname⟩ := object_record_describes hwith hrecord
  obtain ⟨v, rfl, hr⟩ := hrest _ rfl
  obtain ⟨r', hr', -, hfields, hqualified⟩ := name_type_record scope
    (withObjectType (unconditional o)) { r with fields := clearFields r.fields, dependencies := [] }
  rw [clearDependencies, hr'] at hr
  have hns' : qualify (some (r.ns.getD scope.typeNs)) r.name = fullOf (r.name, scope.typeNs) := by
    rw [hns]
    split <;> rfl
  refine ⟨r', _, rfl, ?_, ?_⟩
  · obtain ⟨rfl, ⟨rfl, -⟩ | ⟨n, hn, hdefined, rfl, -⟩⟩ := reuse_registered_yields hr
    · exact Or.inl rfl
    · obtain rfl : qualify r'.ns r'.name = n := Option.some.inj hn
      exact Or.inr ⟨rfl, hdefined⟩
  · rw [hqualified, hns', hfields, clear_field_names, ← hproperties]
    rw [hq.grows.frames] at hname
    rcases hname with ⟨hown, hprefix⟩ | ⟨hfound, hstand⟩
    · exact Or.inl ⟨by rw [hown], hprefix⟩
    · exact Or.inr ⟨hfound, by rw [hstand]; rfl⟩

theorem object_node_outcome (ho : ListsProperties o) (htop : scope.field = "")
    (hlegal : Name.ofText scope.record = scope.record) {t : Option AvroType}
    (h : (objectNode cfg node o scope).Yields names s t names' s') :
    ObjectOutcome o (scope.record, scope.ns) s' t := by
  cases hc : Object.get? o "const" with
  | none =>
    obtain ⟨r, n, hr, ht, hn⟩ := object_node_record ho hc h
    simp only [Scope.localName, Scope.typeNs, htop, if_true, hlegal] at hn
    rcases ht with rfl | ⟨rfl, hdefined⟩
    · rcases hn with ⟨rfl, hprefix⟩ | ⟨-, rfl⟩
      · exact .own hr hprefix
      · exact .standIn hr
    · exact .registered (hn.imp And.left And.right) hdefined
  | some constant =>
    obtain ⟨s₁, u, names₂, s₂, -, hk, hrest⟩ := object_node_keywords ho h
    rw [(Says.constant ((const_of_node ho).trans hc)).type_eq] at hk
    obtain ⟨rfl, rfl, rfl⟩ := Build.yields_pure.mp hk
    obtain ⟨v, rfl, hr⟩ := hrest _ rfl
    exact constant_outcome (by simp [Object.contains, hc]) htop hlegal _ constant hr

/-- The conversion of an object schema at the top has one of the outcomes. -/
theorem object_schema_outcome (ho : ListsProperties o) (levels : Nat) {name : String × String}
    (htop : scope.field = "") (hrecord : scope.record = name.1) (hns : scope.ns = name.2)
    (hlegal : Name.ofText name.1 = name.1) {t : Option AvroType}
    (h : (nodeWithin cfg levels (.obj o) scope).Yields names s t names' s') :
    ObjectOutcome o name s' t := by
  obtain ⟨record, ns⟩ := name
  subst hrecord hns
  have deep : (tooDeep cfg scope).Yields names s t names' s' →
      ObjectOutcome o (scope.record, scope.ns) s' t := by
    intro h
    obtain ⟨_, names₁, s₁, -, hp⟩ := Build.yields_bind.mp h
    obtain ⟨rfl, -, -⟩ := Build.yields_pure.mp hp
    exact outcome_generic
  cases levels with
  | zero => exact deep h
  | succ levels =>
    rw [nodeWithin] at h
    dsimp only at h
    split at h
    · exact deep h
    · exact object_node_outcome ho htop hlegal h

/-- In its turn an object schema becomes the record with its fields, as no record is under
construction. -/
theorem definition_type_describes (ho : ListsProperties o) (htop : s.frames = [])
    {t : Option AvroType} (h : (definitionType cfg (.obj o) scope).Yields s (t, names) s') :
    ∃ u, t = some u ∧ Describes o u := by
  unfold definitionType at h
  dsimp only at h
  rw [if_pos (by simp [isRecordSchema, ho.contains])] at h
  obtain ⟨u, s₁, hu, hp⟩ := Run.yields_bind.mp h
  obtain ⟨he, -⟩ := Run.yields_pure.mp hp
  obtain ⟨rfl, -⟩ := Prod.mk.inj he
  obtain ⟨r, rfl, -, ⟨-, hprefix⟩ | ⟨hfound, -⟩⟩ := object_record_describes ho hu
  · exact ⟨_, rfl, r, rfl, hprefix⟩
  · simp [htop, Frames.find?] at hfound

end Node

end Convert

end AvroDerive
