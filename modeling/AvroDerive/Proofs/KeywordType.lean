import AvroDerive.Proofs.SchemaText

/-! # Types of the type keyword

A value of the `type` keyword stands for one type out of few kinds, or for a union of different
ones. None of them is a record, and they have no namespace yet. -/
namespace AvroDerive.Schema

open AvroType Json

/-- Whether a type is no union, no record and has no namespace. -/
def isKeywordType : AvroType → Bool
  | .record _ | .union _ => false
  | .enum e => e.ns.isNone
  | .fixed f => f.ns.isNone
  | _ => true

/-- Each branch of the type, through unions in unions, is one for a keyword. -/
def OfKeyword (t : AvroType) : Prop := ∀ u ∈ t.leaves, isKeywordType u = true

theorem mem_branch_leaves {u : AvroType} {ts : List AvroType} :
    u ∈ branchLeaves ts ↔ ∃ t ∈ ts, u ∈ t.leaves := by
  induction ts with
  | nil => simp [branchLeaves]
  | cons t ts ih => simp [branchLeaves, ih]

theorem of_keyword_union {branches : List AvroType} :
    OfKeyword (.union branches) ↔ ∀ b ∈ branches, OfKeyword b := by
  constructor
  · intro h b hb u hu
    exact h u (mem_branch_leaves.mpr ⟨b, hb, hu⟩)
  · intro h u hu
    obtain ⟨b, hb, hu⟩ := mem_branch_leaves.mp hu
    exact h b hb u hu

theorem of_keyword_single {t : AvroType} (h : isKeywordType t = true) : OfKeyword t := by
  cases t with
  | union branches => simp [isKeywordType] at h
  | _ =>
    intro u hu
    obtain rfl := List.mem_singleton.mp hu
    exact h

theorem OfKeyword.ns {t : AvroType} (h : OfKeyword t) : t.ns? = none := by
  cases t with
  | record r => exact absurd (h _ (List.mem_singleton_self _)) (by simp [isKeywordType])
  | enum e => simpa [isKeywordType, ns?] using h _ (List.mem_singleton_self _)
  | fixed f => simpa [isKeywordType, ns?] using h _ (List.mem_singleton_self _)
  | _ => rfl

theorem OfKeyword.not_record {t : AvroType} (h : OfKeyword t) : t.isRecord = false := by
  cases t with
  | record r => exact absurd (h _ (List.mem_singleton_self _)) (by simp [isKeywordType])
  | _ => rfl

section Choice

variable {field : String} {texts names texts' names' : List String} {t : AvroType}
  {ts us : List AvroType}

/-- The type names that never stand for a type defined elsewhere. -/
def primitiveNames : List String := ["null", "string", "integer", "number", "boolean"]

/-- What a text or an object stands for in a `type` keyword: a branch of the generic type, a type
that is built in, a type named for the field, or a type that is defined elsewhere. A type defined
elsewhere has its name from the texts and is listed among the names. -/
inductive Choice (field : String) (texts names : List String) : AvroType → Prop
  | generic {t : AvroType} : t ∈ withContainers (withContainers simpleTypes) →
      Choice field texts names t
  | primitive (name : String) : Choice field texts names (.primitive name)
  | logical (base kind : String) : Choice field texts names (.logical base kind)
  | duration : Choice field texts names (.fixed
      { name := Name.ofText (field ++ "_duration"), ns := none, size := 12,
        logicalType := some "duration" })
  | listed (values : List Json) : Choice field texts names (.enum
      { name := Name.ofText (field ++ "_enum"), ns := none, symbols := enumSymbols values })
  | defined {name : String} : name ∈ texts → name ∈ names → name ∉ primitiveNames →
      Choice field texts names (.reference name)

/-- Different choices. -/
structure Choices (field : String) (texts names : List String) (ts : List AvroType) : Prop where
  distinct : ts.Nodup
  each : ∀ t ∈ ts, Choice field texts names t

theorem Choice.mono (h : Choice field texts names t) (ht : texts ⊆ texts') (hn : names ⊆ names') :
    Choice field texts' names' t := by
  cases h with
  | generic hm => exact .generic hm
  | primitive name => exact .primitive name
  | logical base kind => exact .logical base kind
  | duration => exact .duration
  | listed values => exact .listed values
  | defined htext hname hprimitive => exact .defined (ht htext) (hn hname) hprimitive

theorem Choice.of_keyword (h : Choice field texts names t) : isKeywordType t = true := by
  cases h with
  | generic hm =>
    have branches : ∀ b ∈ withContainers (withContainers simpleTypes), isKeywordType b = true := by
      decide
    exact branches t hm
  | _ => rfl

theorem Choice.refer {place : Place} (h : Choice field texts names t) :
    AllRefer (fun _ n => n ∈ names ∧ n ∈ texts ∧ n ∉ primitiveNames) place t := by
  cases h with
  | generic hm => exact all_refer_union.mp generic_refer t hm
  | primitive name => exact all_refer_primitive
  | logical base kind => exact all_refer_logical
  | duration => exact all_refer_fixed
  | listed values => exact all_refer_enum
  | defined htext hname hprimitive => exact all_refer_reference.mpr ⟨hname, htext, hprimitive⟩

theorem Choices.mono (h : Choices field texts names ts) (ht : texts ⊆ texts')
    (hn : names ⊆ names') : Choices field texts' names' ts :=
  ⟨h.distinct, fun t hm => (h.each t hm).mono ht hn⟩

theorem Choices.single (h : Choice field texts names t) : Choices field texts names [t] :=
  ⟨by simp, by simpa using h⟩

theorem generic_choices : Choices field texts names (withContainers (withContainers simpleTypes)) :=
  ⟨by decide, fun _ => .generic⟩

/-- What is added to the choices is one of them, or a union of choices. -/
theorem Choices.add (h : Choices field texts names ts) (hus : Choices field texts names us) :
    Choices field texts names (addAlternative ts (unwrap us)) := by
  have addAll : Choices field texts names (addAll ts us) :=
    ⟨addAll_nodup h.distinct us, fun t ht => (mem_addAll.mp ht).elim (h.each t) (hus.each t)⟩
  unfold unwrap
  split
  · next u =>
    have hu : Choice field texts names u := hus.each u (List.mem_singleton_self u)
    cases u with
    | union branches => exact absurd hu.of_keyword (by simp [isKeywordType])
    | _ => exact addAll
  · exact addAll

theorem named_type_cases {name : String} (hnull : name ≠ "null") (format : Option String) :
    (∃ p, namedType name format = .primitive p) ∨
      namedType name format = .reference name ∧ name ∉ primitiveNames := by
  unfold namedType
  split
  · exact Or.inl ⟨_, rfl⟩
  · exact Or.inl ⟨_, rfl⟩
  · exact Or.inl ⟨_, rfl⟩
  · exact Or.inl ⟨_, rfl⟩
  · next hstring hinteger hnumber hboolean =>
    refine Or.inr ⟨rfl, ?_⟩
    simp only [primitiveNames, List.mem_cons, List.not_mem_nil, or_false, not_or]
    exact ⟨hnull, hstring, hinteger, hnumber, hboolean⟩

theorem format_type_choice (h : Choice field texts names t) (format : Option String) :
    Choice field texts names (formatType field format t) := by
  unfold formatType
  split
  · exact .logical _ _
  · exact .logical _ _
  · exact .logical _ _
  · exact .duration
  · exact .logical _ _
  · exact h

theorem values_type_choice (h : Choice field texts names t) (values : Option (List Json)) :
    Choice field texts names (valuesType field values t) := by
  unfold valuesType
  split
  · next listed =>
    split
    · split
      · exact .primitive _
      · exact .listed listed
    · exact h
  · exact h

theorem single_type_choice (format : Option String) (values : Option (List Json)) (name : String) :
    Choice field [name] (singleType field format values name).2
      (singleType field format values name).1 := by
  unfold singleType
  split
  · exact .primitive _
  · next hnull =>
    refine values_type_choice (format_type_choice ?_ format) values
    rcases named_type_cases hnull format with ⟨p, h⟩ | ⟨h, hprimitive⟩
    · rw [h]
      exact .primitive p
    · rw [h]
      exact .defined (List.mem_singleton_self name) (List.mem_singleton_self name) hprimitive

/-- A value of the keyword stands for a choice out of its texts, or for a union of choices. -/
theorem primitive_type_choices (field : String) (format : Option String)
    (values : Option (List Json)) (type : Json) :
    ∃ ts, Choices field type.texts (primitiveType field format values type).2 ts ∧
      (primitiveType field format values type).1 = unwrap ts := by
  refine (primitiveType.mutual_induct field
    (fun format values type =>
      ∃ ts, Choices field type.texts (primitiveType field format values type).2 ts ∧
        (primitiveType field format values type).1 = unwrap ts)
    (fun format values items types => ∀ texts names, Choices field texts names types →
      Choices field (texts ++ itemTexts items)
        (names ++ (alternativeTypes field format values items types).2)
        (alternativeTypes field format values items types).1)
    (fun format values members => ∀ t names,
      memberType field format values members = some (t, names) →
        ∃ ts, Choices field (memberTexts members) names ts ∧ t = unwrap ts)
    ?list ?name ?other ?nil ?object ?untyped ?item ?bare ?typed ?untypedMember).1 format values type
  case list =>
    intro format values alternatives types names heq ih
    have h := ih [] [] ⟨by simp, by simp⟩
    rw [heq] at h
    refine ⟨types, ?_, ?_⟩
    · simpa only [primitiveType, heq, Json.texts, List.nil_append] using h
    · simp only [primitiveType, heq]
      cases types with
      | nil => rfl
      | cons t ts => cases ts <;> rfl
  case name =>
    intro format values name
    rw [primitiveType, Json.texts]
    exact ⟨_, .single (single_type_choice format values name), rfl⟩
  case other =>
    intro type format values harr hstr
    refine ⟨_, generic_choices, ?_⟩
    cases type with
    | arr items => exact (harr items rfl).elim
    | str name => exact (hstr name rfl).elim
    | _ => rfl
  case nil =>
    intro format values types texts names h
    simpa only [alternativeTypes, itemTexts, List.append_nil] using h
  case object =>
    intro format values o rest types own t more hm types' more' heq ihm ih texts names h
    simp only [own] at hm
    obtain ⟨ts, hts, rfl⟩ := ihm t more hm
    simp only [alternativeTypes, hm, itemTexts, Json.texts, ← List.append_assoc]
    exact ih _ _ ((h.mono (List.subset_append_left ..) (List.subset_append_left ..)).add
      (hts.mono (List.subset_append_right ..) (List.subset_append_right ..)))
  case untyped =>
    intro format values o rest types own hm ihm ih texts names h
    simp only [own] at hm
    simp only [alternativeTypes, hm, itemTexts, Json.texts, ← List.append_assoc]
    exact ih _ _ (h.mono (List.subset_append_left ..) (List.Subset.refl _))
  case item =>
    intro format values item rest types hobj t more hp types' more' heq ihp ih texts names h
    rw [hp] at ihp
    obtain ⟨ts, hts, ht⟩ := ihp
    simp only at ht
    subst ht
    rw [alternativeTypes]
    · simp only [hp, itemTexts, ← List.append_assoc]
      exact ih _ _ ((h.mono (List.subset_append_left ..) (List.subset_append_left ..)).add
        (hts.mono (List.subset_append_right ..) (List.subset_append_right ..)))
    · exact hobj
  case bare =>
    intro format values t names h
    simp [memberType] at h
  case typed =>
    intro format values value rest ih t names h
    simp only [memberType, if_pos] at h
    obtain ⟨rfl, rfl⟩ := Prod.mk.inj (Option.some.inj h)
    obtain ⟨ts, hts, he⟩ := ih
    exact ⟨ts, hts.mono (List.subset_append_left ..) (List.Subset.refl _), he⟩
  case untypedMember =>
    intro format values key value rest hk ih t names h
    simp only [memberType, if_neg hk] at h
    obtain ⟨ts, hts, he⟩ := ih t names h
    exact ⟨ts, hts.mono (List.subset_append_right ..) (List.Subset.refl _), he⟩

end Choice

section Keyword

variable {field : String} {place : Place}

/-- A value of the keyword stands for a keyword's type, alternatives for a union of such types. -/
theorem primitive_type_of_keyword (format : Option String) (values : Option (List Json))
    (type : Json) : OfKeyword (primitiveType field format values type).1 := by
  obtain ⟨ts, hts, he⟩ := primitive_type_choices field format values type
  have each : ∀ t ∈ ts, OfKeyword t := fun t ht => of_keyword_single (hts.each t ht).of_keyword
  rw [he]
  unfold unwrap
  split
  · next t => exact each t (List.mem_singleton_self t)
  · exact of_keyword_union.mpr each

/-- A type keyword refers to names it holds that are no primitive types, and lists them as
dependencies. -/
theorem primitive_type_refer (format : Option String) (values : Option (List Json))
    (type : Json) : AllRefer (fun _ n => n ∈ (primitiveType field format values type).2 ∧
      n ∈ type.texts ∧ n ∉ primitiveNames) place (primitiveType field format values type).1 := by
  obtain ⟨ts, hts, he⟩ := primitive_type_choices field format values type
  rw [he]
  exact unwrap_refer fun t ht => (hts.each t ht).refer

end Keyword

end AvroDerive.Schema
