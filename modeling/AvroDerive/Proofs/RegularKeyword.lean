import AvroDerive.Proofs.KeywordType
import AvroDerive.Proofs.RegularType

/-! # Regular types of keywords

The types that a node has from its keywords alone are regular. Alternatives of a `type` keyword are
no unions, and the only containers among them are those of the generic type. Those that are named
continue the name of the field, and have no namespace yet. -/
namespace AvroDerive

namespace Name

/-- The name is that of the text, or of the text with more after an underscore. -/
def Continues (text name : String) : Prop :=
  name = ofText text ∨ ∃ more, name = ofText (text ++ "_" ++ more)

theorem sanitize_char_idem (c : Char) : sanitizeChar (sanitizeChar c) = sanitizeChar c := by
  rw [sanitizeChar, if_pos (isPart_sanitizeChar c)]

/-- A text that is not empty may be made a name before more is appended. -/
theorem of_text_append {text : String} (h : text ≠ "") (more : String) :
    ofText (ofText text ++ more) = ofText (text ++ more) := by
  have again : (sanitizeChar ∘ sanitizeChar) = sanitizeChar := funext sanitize_char_idem
  have start : isStart '_' = true := by decide
  have underscore : sanitizeChar '_' = '_' := by decide
  unfold ofText
  rw [String.toList_append, String.toList_append, String.toList_ofList]
  cases ht : text.toList with
  | nil => exact absurd (String.toList_eq_nil_iff.mp ht) h
  | cons c rest =>
    simp only [List.map_cons, List.cons_append, List.map_append, ofChars]
    by_cases hc : isStart (sanitizeChar c) = true
    · simp [hc, again, sanitize_char_idem]
    · simp [hc, again, sanitize_char_idem, start, underscore]

theorem Continues.refl (text : String) : Continues text (ofText text) := Or.inl rfl

theorem Continues.after (text more : String) : Continues text (ofText (text ++ "_" ++ more)) :=
  Or.inr ⟨more, rfl⟩

theorem Continues.suffix (text more : String) {suffix : String} (h : suffix = "_" ++ more) :
    Continues text (ofText (text ++ suffix)) := by
  rw [h, ← String.append_assoc]
  exact .after text more

/-- The name of a record that stands in for another one. -/
theorem Continues.stand_in (text : String) : Continues text (ofText (ofText text ++ "_ref")) := by
  by_cases h : text = ""
  · subst h
    exact Or.inr ⟨"_ref", by decide⟩
  · rw [of_text_append h]
    exact .suffix text "ref" rfl

theorem Continues.trans {text more name : String}
    (h : Continues (ofText (text ++ "_" ++ more)) name) : Continues text name := by
  have there : text ++ "_" ++ more ≠ "" := by
    simp [String.append_eq_empty_iff]
  rcases h with rfl | ⟨further, rfl⟩
  · rw [ofText_of_isLegal (isLegal_ofText _)]
    exact .after text more
  · have joined : ofText (ofText (text ++ "_" ++ more) ++ "_" ++ further) =
        ofText (text ++ "_" ++ (more ++ "_" ++ further)) := by
      rw [String.append_assoc, of_text_append there]
      simp only [String.append_assoc]
    rw [joined]
    exact .after text _

end Name

end AvroDerive

namespace AvroDerive.Schema

open AvroType Json

section Generic

theorem simple_types_regular : ∀ t ∈ simpleTypes, AllParts Regular t := by
  intro t ht
  obtain ⟨name, -, rfl⟩ := List.mem_map.mp ht
  exact .leaf trivial rfl

theorem flat_simple_types : Flat simpleTypes := ⟨by decide, by decide, by decide, by decide⟩

theorem flat_with_containers (branches : List AvroType) : Flat (withContainers branches) := by
  constructor
  · simp [withContainers, simpleTypes, isUnion]
  · simp [withContainers, simpleTypes, List.countP_cons, isArray]
  · simp [withContainers, simpleTypes, List.countP_cons, isMap]
  · simp [withContainers, simpleTypes, isNull]

theorem with_containers_regular {branches : List AvroType} (hflat : Flat branches)
    (hb : ∀ b ∈ branches, AllParts Regular b) : ∀ b ∈ withContainers branches, AllParts Regular b := by
  have inner : AllParts Regular (.union branches) := .union hflat hb
  rw [withContainers, List.forall_mem_append, List.forall_mem_cons, List.forall_mem_singleton]
  exact ⟨simple_types_regular, .array trivial inner, .map trivial inner⟩

theorem generic_branches_regular :
    ∀ b ∈ withContainers (withContainers simpleTypes), AllParts Regular b :=
  with_containers_regular (flat_with_containers _)
    (with_containers_regular flat_simple_types simple_types_regular)

theorem generic_regular : AllParts Regular .generic :=
  .union (flat_with_containers _) generic_branches_regular

end Generic

/-- A regular type that is no union, and one of the generic type's containers if it is any. Its name
continues that of the field. -/
structure Alternative (field : String) (t : AvroType) : Prop where
  regular : AllParts Regular t
  named : ∀ u ∈ t.parts, u.ns? = none ∧ ∀ name, u.name? = some name → Name.Continues field name
  simple : t.isUnion = false
  array : t.isArray = true → t = .array (.union (withContainers simpleTypes))
  map : t.isMap = true → t = .map (.union (withContainers simpleTypes))

/-- Different alternatives. -/
structure Alternatives (field : String) (ts : List AvroType) : Prop where
  distinct : ts.Nodup
  each : ∀ t ∈ ts, Alternative field t

section Alternatives

variable {field : String} {ts : List AvroType} {t : AvroType}

theorem generic_alternatives : Alternatives field (withContainers (withContainers simpleTypes)) where
  distinct := by decide
  each t ht := by
    refine ⟨generic_branches_regular t ht, ?_, (flat_with_containers _).simple t ht, ?_, ?_⟩
    all_goals
      simp only [withContainers, simpleTypes, List.map_cons, List.map_nil, List.cons_append,
        List.nil_append, List.mem_cons, List.not_mem_nil, or_false] at ht
      rcases ht with rfl | rfl | rfl | rfl | rfl | rfl | rfl | rfl | rfl | rfl <;>
        simp [isArray, isMap, withContainers, simpleTypes, parts, branchParts, ns?, name?]

theorem alternative_of_leaf (h : Regular t) (hp : t.parts = [t]) (hu : t.isUnion = false)
    (ha : t.isArray = false) (hm : t.isMap = false) (hns : t.ns? = none)
    (hname : ∀ name, t.name? = some name → Name.Continues field name) : Alternative field t where
  regular := .leaf h hp
  named u hu := by
    rw [hp, List.mem_singleton] at hu
    exact hu ▸ ⟨hns, hname⟩
  simple := hu
  array := by simp [ha]
  map := by simp [hm]

theorem Alternatives.flat (h : Alternatives field ts) : Flat ts := by
  have only : ∀ {q : AvroType → Bool} (u : AvroType), (∀ t ∈ ts, q t = true → t = u) →
      ts.countP q ≤ 1 := by
    intro q u hq
    have same : ts.countP q ≤ ts.count u :=
      List.countP_mono_left fun t ht hqt => by simp [hq t ht hqt]
    exact same.trans (List.nodup_iff_count_le_one.mp h.distinct u)
  exact ⟨fun t ht => (h.each t ht).simple, only _ fun t ht => (h.each t ht).array,
    only _ fun t ht => (h.each t ht).map, nulls_of_nodup h.distinct⟩

theorem Alternatives.unwrap_regular (h : Alternatives field ts) : AllParts Regular (unwrap ts) :=
  unwrap_parts regular_mergeable h.flat fun t ht => (h.each t ht).regular

/-- What a value of the `type` keyword stands for is an alternative. -/
theorem Choice.alternative {texts names : List String} (h : Choice field texts names t) :
    Alternative field t := by
  cases h with
  | generic hm => exact generic_alternatives.each t hm
  | primitive name => exact alternative_of_leaf trivial rfl rfl rfl rfl rfl nofun
  | logical base kind => exact alternative_of_leaf trivial rfl rfl rfl rfl rfl nofun
  | duration =>
    refine alternative_of_leaf (Name.isLegal_ofText _) rfl rfl rfl rfl rfl ?_
    rintro _ ⟨⟩
    exact .suffix field "duration" rfl
  | listed values =>
    refine alternative_of_leaf ⟨Name.isLegal_ofText _, fun symbol h => ?_⟩ rfl rfl rfl rfl rfl ?_
    · obtain ⟨text, -, rfl⟩ := List.mem_map.mp (mem_distinct.mp h)
      exact Name.isLegal_ofText text
    · rintro _ ⟨⟩
      exact .suffix field "enum" rfl
  | defined _ _ _ => exact alternative_of_leaf trivial rfl rfl rfl rfl rfl nofun

theorem primitive_type_alternatives (field : String) (format : Option String)
    (values : Option (List Json)) (type : Json) :
    ∃ ts, Alternatives field ts ∧ (primitiveType field format values type).1 = unwrap ts := by
  obtain ⟨ts, hts, he⟩ := primitive_type_choices field format values type
  exact ⟨ts, ⟨hts.distinct, fun t ht => (hts.each t ht).alternative⟩, he⟩

theorem primitive_type_regular (format : Option String) (values : Option (List Json))
    (type : Json) : AllParts Regular (primitiveType field format values type).1 := by
  obtain ⟨ts, hts, he⟩ := primitive_type_alternatives field format values type
  rw [he]
  exact hts.unwrap_regular

/-- The enumerations and the fixed types of a `type` keyword are named for the field. -/
theorem primitive_type_named (format : Option String) (values : Option (List Json)) (type : Json) :
    ∀ u ∈ (primitiveType field format values type).1.parts, u.ns? = none ∧
      ∀ name, u.name? = some name → Name.Continues field name := by
  obtain ⟨ts, hts, he⟩ := primitive_type_alternatives field format values type
  rw [he]
  unfold unwrap
  split
  · next t => exact (hts.each t (List.mem_singleton_self t)).named
  · exact AllParts.union ⟨rfl, nofun⟩ fun t ht => (hts.each t ht).named

end Alternatives

end AvroDerive.Schema

namespace AvroDerive.Convert

open AvroType Json Schema

section Naming

variable {p : AvroType → Prop} {t : AvroType}

theorem constant_type_regular (scope : Scope) (constant : Json) :
    AllParts Regular (constantType scope constant) := by
  cases constant with
  | str text =>
    refine .leaf ⟨Name.isLegal_ofText _, ?_⟩ rfl
    rw [List.forall_mem_singleton]
    exact Name.isLegal_ofText text
  | num n => cases n <;> exact .leaf trivial rfl
  | arr items => exact .array trivial generic_regular
  | obj o => exact .map trivial generic_regular
  | _ => exact .leaf trivial rfl

theorem name_type_regular (o : Object) (scope : Scope) (h : Regular t) :
    Regular (nameType o scope t) := by
  cases t with
  | record r =>
    obtain ⟨r', hr', hname, hfields, -⟩ := name_type_record scope o r
    rw [hr']
    simpa only [Regular, hname, hfields] using h
  | enum e =>
    cases hd : description? o <;> cases hn : e.ns <;> by_cases hf : scope.field = "" <;>
      simp_all [nameType, isNamed, isEnum, withDocIfMissing, ns?, withNs, withName, Regular,
        Name.isLegal_ofText]
  | fixed f =>
    cases hd : description? o <;> cases hn : f.ns <;>
      simp_all [nameType, isNamed, isEnum, withDocIfMissing, ns?, withNs, Regular]
  | _ =>
    rw [name_type_unnamed o rfl]
    exact h

/-- Naming leaves alone what is inside. -/
theorem name_type_inside (o : Object) (scope : Scope) (h : Inside p t) :
    Inside p (nameType o scope t) := by
  cases t with
  | record r =>
    obtain ⟨r', hr', -, hfields, -⟩ := name_type_record scope o r
    rw [hr', inside_record, hfields]
    exact inside_record.mp h
  | enum e =>
    obtain ⟨e', he'⟩ := name_type_enum scope o e
    rw [he']
    exact h
  | fixed f =>
    obtain ⟨f', hf'⟩ := name_type_fixed scope o f
    rw [hf']
    exact h
  | _ =>
    rw [name_type_unnamed o rfl]
    exact h

end Naming

end AvroDerive.Convert
