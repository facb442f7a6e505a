import AvroDerive.Proofs.DefinitionKept
import AvroDerive.Proofs.NodeParallel
import AvroDerive.Proofs.NodeSpot
import AvroDerive.Proofs.RegularKeyword

/-! # Names that tell the place

A node that gets its type from its own keywords names it for its place: the type lives beneath the
record around the node, and its name continues the name of the field. -/
namespace AvroDerive

/-- The namespace beneath the record around. -/
def Scope.beneath (scope : Scope) : String :=
  Namespace.compose [scope.ns, scope.record ++ "_types"]

/-- The scope of a numbered alternative. -/
def Scope.alternative (scope : Scope) (n : Nat) : Scope :=
  scope.forField (Name.ofText (scope.localName ++ "_" ++ toString n))

theorem Scope.alternative_named (scope : Scope) (n : Nat) :
    (scope.alternative n).localName = Name.ofText (scope.localName ++ "_" ++ toString n) ∧
      (scope.alternative n).typeNs = scope.beneath := by
  have there : Name.ofText (scope.localName ++ "_" ++ toString n) ≠ "" := by
    intro he
    have legal := Name.isLegal_ofText (scope.localName ++ "_" ++ toString n)
    rw [he] at legal
    exact absurd legal (by decide)
  exact ⟨if_neg there, if_neg there⟩

namespace Convert

open AvroType Json Schema

section Qualified

/-- A legal name has no point. -/
theorem dotless_of_legal {name : String} (h : Name.isLegal name = true) : '.' ∉ name.toList :=
  Name.not_mem_of_isLegal h (by decide)

/-- Texts are cut in one way at their last point. -/
theorem last_point_inj {a b n m : List Char} (hn : '.' ∉ n) (hm : '.' ∉ m)
    (h : a ++ '.' :: n = b ++ '.' :: m) : a = b ∧ n = m := by
  rcases List.append_eq_append_iff.mp h with ⟨c, rfl, hc⟩ | ⟨c, rfl, hc⟩
  all_goals
    cases c with
    | nil => simp_all
    | cons d c =>
      obtain ⟨-, rfl⟩ := List.cons.inj hc
      simp at hn hm

theorem qualify_within {ns : String} (h : ns ≠ "") (name : String) :
    (qualify (some ns) name).toList = ns.toList ++ '.' :: name.toList := by
  simp [qualify, h]

/-- A text without points is no name in a namespace. -/
theorem qualify_ne {ns name name' : String} (h : ns ≠ "") (hdot : '.' ∉ name'.toList) :
    qualify (some ns) name ≠ name' := by
  rintro rfl
  apply hdot
  rw [qualify_within h]
  simp

/-- Without a namespace a name is qualified as with the empty one. -/
theorem qualify_absent (ns : Option String) (name : String) :
    qualify ns name = qualify (some (ns.getD "")) name := by
  cases ns <;> rfl

/-- Different namespaces or names make different qualified names, if the names have no points. -/
theorem qualify_dotless {ns ns' name name' : String} (hn : '.' ∉ name.toList)
    (hn' : '.' ∉ name'.toList) (h : qualify (some ns) name = qualify (some ns') name') :
    ns = ns' ∧ name = name' := by
  by_cases he : ns = "" <;> by_cases he' : ns' = ""
  · subst he he'
    exact ⟨rfl, h⟩
  · subst he
    exact absurd h.symm (qualify_ne he' hn)
  · subst he'
    exact absurd h (qualify_ne he hn')
  · have texts := congrArg String.toList h
    rw [qualify_within he, qualify_within he'] at texts
    obtain ⟨hns, hname⟩ := last_point_inj hn hn' texts
    exact ⟨String.toList_inj.mp hns, String.toList_inj.mp hname⟩

theorem qualify_legal {ns ns' name name' : String} (hn : Name.isLegal name = true)
    (hn' : Name.isLegal name' = true) (h : qualify (some ns) name = qualify (some ns') name') :
    ns = ns' ∧ name = name' :=
  qualify_dotless (dotless_of_legal hn) (dotless_of_legal hn') h

end Qualified

/-- The name continues that of the scope's field; the namespace, if there is any, is the scope's own
or the one beneath it. -/
structure Offered (scope : Scope) (t : AvroType) : Prop where
  ns : ∀ ns, t.ns? = some ns → ns = scope.typeNs ∨ ns = scope.beneath
  name : ∀ name, t.name? = some name → Name.Continues scope.localName name

/-- As `Offered`, with a namespace. -/
structure Placed (scope : Scope) (t : AvroType) : Prop where
  ns : t.ns? = some scope.typeNs ∨ t.ns? = some scope.beneath
  name : ∃ name, t.name? = some name ∧ Name.Continues scope.localName name

/-- What the converter gives for a node's own keywords is placed at the node. -/
def NodePlaces (node : NodeConverter) : Prop :=
  ∀ {o scope names s t names' s'}, Spot.isOwn o = true →
    (node (.obj o) scope).Yields names s (some t) names' s' → t.isNamed = true → Placed scope t

section Naming

variable {scope : Scope} {t : AvroType}

theorem Placed.offered (h : Placed scope t) : Offered scope t where
  ns ns hns := by
    refine h.ns.imp ?_ ?_ <;> exact fun he => Option.some.inj (hns.symm.trans he)
  name name hname := by
    obtain ⟨name', hname', hc⟩ := h.name
    obtain rfl := Option.some.inj (hname'.symm.trans hname)
    exact hc

/-- Naming places what is offered. -/
theorem name_type_placed (o : Object) (h : Offered scope t) (ht : t.isNamed = true) :
    Placed scope (nameType o scope t) := by
  obtain ⟨name, hname⟩ := name_of_named ht
  obtain ⟨hns, hn⟩ := name_type_parts o scope ht
  refine ⟨?_, ?_⟩
  · rw [hns]
    cases he : t.ns? with
    | none => exact Or.inl rfl
    | some ns => exact (h.ns ns he).imp (congrArg some) (congrArg some)
  · rw [hn]
    split
    · exact ⟨_, rfl, .refl _⟩
    · exact ⟨name, hname, h.name name hname⟩

theorem Offered.of_deeper (h : Offered scope.deeper t) : Offered scope t := ⟨h.ns, h.name⟩

theorem offered_of_unnamed (h : t.isNamed = false) : Offered scope t where
  ns ns hns := by cases t <;> simp_all [isNamed, ns?]
  name name hname := by cases t <;> simp_all [isNamed, name?]

/-- Whether a type is offered is a question for named types only. -/
theorem offered_of_named (h : t.isNamed = true → Offered scope t) : Offered scope t := by
  by_cases ht : t.isNamed = true
  · exact h ht
  · exact offered_of_unnamed (by simpa using ht)

/-- The type of a `type` keyword is offered. -/
theorem primitive_offered (scope : Scope) (format : Option String) (values : Option (List Json))
    (type : Json) : Offered scope (primitiveType scope.localName format values type).1 := by
  obtain ⟨hns, hname⟩ := AllParts.top (primitive_type_named format values type)
  exact ⟨by simp [hns], hname⟩

theorem constant_offered (scope : Scope) (constant : Json) :
    Offered scope (constantType scope constant) := by
  cases constant with
  | str text => exact ⟨nofun, by rintro _ ⟨⟩; exact .refl _⟩
  | num n => cases n <;> exact offered_of_unnamed rfl
  | _ => exact offered_of_unnamed rfl

/-- A type that is offered to a numbered alternative is offered to the node. -/
theorem Placed.of_alternative {n : Nat} (h : Placed (scope.alternative n) t) : Offered scope t := by
  obtain ⟨field, ns⟩ := scope.alternative_named n
  obtain ⟨hns, hname⟩ := h.offered
  rw [ns] at hns
  rw [field] at hname
  exact ⟨fun m hm => Or.inr ((hns m hm).elim id id), fun name hm => (hname name hm).trans⟩

end Naming

section Own

variable {o : Object}

theorem own_iff : Spot.isOwn o = true ↔ hasComposition (unconditional o) = false ∧
    Object.contains (Spot.plainObject o) "$ref" = false := by
  simp [Spot.isOwn]

/-- With another type the schema still has its own keywords. -/
theorem own_insert (h : Spot.isOwn o = true) (type : Json) :
    Spot.isOwn (Object.insert (Spot.plainObject o) "type" type) = true := by
  obtain ⟨hc, hr⟩ := own_iff.mp h
  have other : ∀ {key : String}, key ≠ "type" → Object.contains (unconditional o) key = false →
      Object.contains (unconditional (Object.insert (Spot.plainObject o) "type" type)) key = false := by
    intro key hk hl
    refine unconditional_lacks ?_
    rw [Object.contains, Object.get?_insert, if_neg hk, ← Object.contains, Spot.plainObject,
      contains_with_object _ hk]
    exact hl
  simp only [hasComposition, Bool.or_eq_false_iff] at hc
  refine own_iff.mpr ⟨?_, ?_⟩
  · simp only [hasComposition, other (by decide) hc.1.1, other (by decide) hc.1.2,
      other (by decide) hc.2, Bool.or_self]
  · rw [Spot.plainObject, contains_with_object _ (by decide)] at hr
    rw [Spot.plainObject, contains_with_object _ (by decide)]
    exact other (by decide) hr

theorem own_refers_nowhere (h : Spot.isOwn o = true) (type : Json) :
    refersElsewhere (.obj (Object.insert (Spot.plainObject o) "type" type)) = false := by
  rw [refersElsewhere, Object.contains, Object.get?_insert, if_neg (by decide), ← Object.contains]
  exact (own_iff.mp h).2

end Own

section Keywords

variable {node : NodeConverter} {scope : Scope} {s s' : State} {names names' : List String}
  {o : Object} {t : AvroType}

/-- The record of an object schema has the given name, or that of a record that stands in for one. -/
theorem object_record_named {name ns : String}
    (h : (objectRecord node name ns o scope).Yields s (some t) s') :
    (t.ns? = none ∨ t.ns? = some ns) ∧
      (t.name? = some (Name.ofText name) ∨
        t.name? = some (Name.ofText (Name.ofText name ++ "_ref"))) := by
  have given : ∀ {x : Option String}, x = (if ns = "" then none else some ns) →
      x = none ∨ x = some ns := by
    rintro _ rfl
    split
    · exact Or.inl rfl
    · exact Or.inr rfl
  rcases object_record_cases h with ⟨r, ⟨⟩, hname, hns, -⟩ | ⟨-, -, ht | ⟨f, -, hname, ⟨⟩⟩⟩
  · exact ⟨given hns, Or.inl (congrArg some hname)⟩
  · simp at ht
  · rw [hname]
    exact ⟨given rfl, Or.inr rfl⟩

theorem inline_record_offered (h : (inlineRecord node o scope).Yields names s (some t) names' s') :
    Offered scope t := by
  obtain ⟨r, hrecord, hr, -⟩ := inline_record_yields h
  obtain ⟨u, rfl, rfl⟩ := Option.map_eq_some_iff.mp hr.symm
  obtain ⟨hns, hname⟩ := object_record_named hrecord
  refine ⟨fun ns hm => ?_, fun name hm => ?_⟩
  · rw [clear_ns] at hm
    refine Or.inl (hns.elim (fun he => ?_) fun he => ?_)
    · simp [he] at hm
    · exact Option.some.inj (hm.symm.trans he)
  · rw [clear_name] at hm
    rcases hname with he | he
    · obtain rfl := Option.some.inj (hm.symm.trans he)
      exact .refl _
    · obtain rfl := Option.some.inj (hm.symm.trans he)
      exact .stand_in _

theorem inline_record_named (h : (inlineRecord node o scope).Yields names s (some t) names' s') :
    t.isNamed = true := by
  obtain ⟨r, hrecord, hr, -⟩ := inline_record_yields h
  obtain ⟨u, rfl, rfl⟩ := Option.map_eq_some_iff.mp hr.symm
  rcases (object_record_named hrecord).2 with hname | hname
  · exact named_of_name ((clear_name u).trans hname)
  · exact named_of_name ((clear_name u).trans hname)

theorem array_type_array (h : (arrayType node o scope).Yields names s t names' s') :
    t.isArray = true := by
  have wrapped : ∀ {α : Type} {x : Build α} {f : α → AvroType},
      (do return .array (f (← x)) : Build AvroType).Yields names s t names' s' → t.isArray = true := by
    intro α x f hy
    obtain ⟨a, names₁, s₁, -, hp⟩ := Build.yields_bind.mp hy
    obtain ⟨rfl, -, -⟩ := Build.yields_pure.mp hp
    rfl
  unfold arrayType at h
  split at h
  · obtain ⟨types, names₁, s₁, -, hrest⟩ := Build.yields_bind.mp h
    split at hrest
    · obtain ⟨rfl, -, -⟩ := Build.yields_pure.mp hrest
      rfl
    · obtain ⟨rfl, -, -⟩ := Build.yields_pure.mp hrest
      rfl
  · exact wrapped h
  · obtain ⟨rfl, -, -⟩ := Build.yields_pure.mp h
    rfl

theorem array_type_unnamed (h : (arrayType node o scope).Yields names s t names' s') :
    t.isNamed = false := by
  have array := array_type_array h
  cases t <;> simp_all [isArray, isNamed]

/-- Candidates that have keywords of their own and refer nowhere. -/
def Owned (candidates : List Json) : Prop :=
  ∀ c ∈ candidates, ∃ o, c = .obj o ∧ Spot.isOwn o = true ∧ refersElsewhere c = false

/-- A named type among those of numbered alternatives with own keywords is offered. -/
theorem alternative_types_offered (hnode : NodePlaces node) {candidates : List Json} {n : Nat}
    (hown : Owned candidates) {types : List AvroType}
    (h : (alternativeTypes node scope n candidates).Yields names s types names' s') :
    ∀ t ∈ types, Offered scope t := by
  induction candidates generalizing n types names s with
  | nil =>
    rw [alternativeTypes] at h
    obtain ⟨rfl, -, -⟩ := Build.yields_pure.mp h
    simp
  | cons candidate candidates ih =>
    rw [Owned, List.forall_mem_cons] at hown
    obtain ⟨⟨o, rfl, ho, hrefers⟩, hown⟩ := hown
    rw [alternativeTypes] at h
    obtain ⟨t, names₁, s₁, hnd, hrest⟩ := Build.yields_bind.mp h
    obtain ⟨types, names₂, s₂, hts, hp⟩ := Build.yields_bind.mp hrest
    obtain ⟨rfl, rfl, rfl⟩ := Build.yields_pure.mp hp
    rw [List.forall_mem_append]
    refine ⟨fun u hu => ?_, ih hown hts⟩
    obtain rfl := (Option.filter_eq_some_iff.mp (Option.mem_toList.mp hu)).1
    rw [hrefers] at hnd
    exact offered_of_named fun hu => (hnode ho hnd hu).of_alternative

/-- A schema of own keywords, read as its conversion reads it. -/
def Plain (o : Object) : Prop :=
  ∀ type, Spot.isOwn (Object.insert o "type" type) = true ∧
    refersElsewhere (.obj (Object.insert o "type" type)) = false

theorem candidates_type_offered (hnode : NodePlaces node) {candidates : List Json}
    (hown : Owned candidates)
    (h : (candidatesType node false scope candidates).Yields names s (some t) names' s') :
    Offered scope t := by
  unfold candidatesType at h
  split at h
  · next candidate =>
    obtain ⟨o, rfl, ho, -⟩ := hown _ (List.mem_singleton_self _)
    obtain ⟨x, names₁, s₁, hn, hp⟩ := Build.yields_bind.mp h
    obtain ⟨ht, -, -⟩ := Build.yields_pure.mp hp
    obtain rfl := Option.some.inj ht
    refine useful_or_generic (offered_of_unnamed rfl) fun u hu => ?_
    subst hu
    exact offered_of_named fun hu => (hnode ho hn hu).offered.of_deeper
  · obtain ⟨types, names₁, s₁, hts, hrest⟩ := Build.yields_bind.mp h
    split at hrest
    · obtain ⟨ht, -, -⟩ := Build.yields_pure.mp hrest
      simp at ht
    · obtain ⟨ht, -, -⟩ := Build.yields_pure.mp hrest
      obtain rfl := Option.some.inj ht
      exact alternative_types_offered hnode hown hts _ (List.mem_singleton_self _)
    · obtain ⟨ht, -, -⟩ := Build.yields_pure.mp hrest
      obtain rfl := Option.some.inj ht
      exact offered_of_unnamed rfl

theorem primitive_yields_offered {format : Option String} {values : Option (List Json)}
    {type : Json} (h : (primitive scope format values type).Yields names s t names' s') :
    Offered scope t := by
  obtain ⟨rfl, -, -⟩ := primitive_yields h
  exact primitive_offered scope format values type

theorem sole_or_united_offered (hnode : NodePlaces node) {candidates : List Json}
    (hown : Owned candidates)
    (h : (soleOrUnited node scope candidates).Yields names s (some t) names' s') :
    Offered scope t := by
  unfold soleOrUnited at h
  split at h
  · next single =>
    obtain ⟨o, rfl, ho, -⟩ := hown _ (List.mem_singleton_self _)
    exact offered_of_named fun ht => (hnode ho h ht).offered.of_deeper
  · exact candidates_type_offered hnode hown h

theorem listed_type_offered (hnode : NodePlaces node) (ho : Plain o) {types : List Json}
    (h : (listedType node types o scope).Yields names s (some t) names' s') : Offered scope t := by
  obtain ⟨-, u, ⟨⟩, hu⟩ | ⟨-, x, hx, ht⟩ := listed_type_cases h
  · exact primitive_yields_offered hu
  · have own : Owned (listedCandidates types o) := by
      intro c hc
      obtain ⟨type, -, rfl⟩ := List.mem_map.mp hc
      exact ⟨_, rfl, ho type⟩
    obtain rfl | ht := ht
    · exact sole_or_united_offered hnode own hx
    · obtain ⟨u, -, rfl⟩ := Option.map_eq_some_iff.mp ht.symm
      exact offered_of_unnamed (union_of_null u)

/-- Each keyword offers what it gives to the scope. -/
theorem keyword_type_offered (hnode : NodePlaces node) (ho : Plain o)
    (h : (keywordType node o scope).Yields names s (some t) names' s') : Offered scope t := by
  obtain ⟨k, hk⟩ := said o
  rw [hk.type_eq] at h
  cases k with
  | constant value =>
    obtain ⟨⟨⟩, -, -⟩ := Build.yields_pure.mp h
    exact constant_offered scope value
  | listed types => exact listed_type_offered hnode ho h
  | array =>
    obtain ⟨u, ⟨⟩, hu⟩ := Build.yields_some.mp h
    exact offered_of_unnamed (array_type_unnamed hu)
  | object => exact inline_record_offered h
  | named type =>
    obtain ⟨u, ⟨⟩, hu⟩ := Build.yields_some.mp h
    exact primitive_yields_offered hu
  | silent => simp [Keyword.type] at h

theorem object_node_placed {cfg : Setting} (hnode : NodePlaces node) (ho : Spot.isOwn o = true)
    (h : (objectNode cfg node o scope).Yields names s (some t) names' s') (ht : t.isNamed = true) :
    Placed scope t := by
  obtain ⟨hc, hr⟩ := own_iff.mp ho
  cases object_node_cases h with
  | composed hcomposed => simp [hc] at hcomposed
  | referred _ hreferred => exact absurd (hr.symm.trans hreferred) (by simp)
  | typed _ _ _ hk hreuse =>
    have offered := keyword_type_offered hnode
      (fun type => ⟨own_insert ho type, own_refers_nowhere ho type⟩) hk
    obtain ⟨-, ⟨rfl, -⟩ | ⟨name, -, -, rfl, -⟩⟩ := reuse_registered_yields hreuse
    · refine name_type_placed _ offered ?_
      by_contra hn
      rw [name_type_unnamed _ (by simpa using hn)] at ht
      exact hn ht
    · simp [isNamed] at ht

end Keywords

/-- What a node gets from its own keywords is placed at the node, through any number of levels. -/
theorem node_within_places (cfg : Setting) (levels : Nat) : NodePlaces (nodeWithin cfg levels) := by
  have deep : ∀ {scope names s t names' s'},
      (tooDeep cfg scope).Yields names s (some t) names' s' → t.isNamed = false := by
    intro scope names s t names' s' hy
    obtain ⟨_, names₁, s₁, -, hp⟩ := Build.yields_bind.mp hy
    obtain ⟨ht, -, -⟩ := Build.yields_pure.mp hp
    obtain rfl := Option.some.inj ht
    rfl
  induction levels with
  | zero =>
    intro o scope names s t names' s' _ hy ht
    rw [deep hy] at ht
    simp at ht
  | succ levels ih =>
    intro o scope names s t names' s' ho hy ht
    rw [nodeWithin] at hy
    dsimp only at hy
    split at hy
    · rw [deep hy] at ht
      simp at ht
    · exact object_node_placed ih ho hy ht

end Convert

end AvroDerive
