import AvroDerive.Proofs.ImportReference
import AvroDerive.Proofs.SchemaKeyword

/-! # References in the types of nodes

Every node keeps the state sound and gets a type with fine references. A node whose type is its own
gets a type of the expected name, or leaves the state as it is. -/
namespace AvroDerive.Convert

open AvroType Json Schema

section Leaf

variable {cfg : Setting} {j : Json} {pending : String → Prop} {s s' : State}
  {names names' : List String} {scope : Scope} {format : Option String}
  {values : Option (List Json)}

/-- The type keyword only adds the names it holds. -/
theorem primitive_built {type : Json} {t : AvroType}
    (ht : ∀ n ∈ type.texts, Written cfg j n ∨ n ∈ primitiveNames)
    (h : (primitive scope format values type).Yields names s t names' s') :
    s' = s ∧ names ⊆ names' ∧ Built cfg j pending t names' s' := by
  obtain ⟨rfl, rfl, rfl⟩ := primitive_yields h
  refine ⟨rfl, fun n hn => mem_addAll.mpr (Or.inl hn), .of_names ?_⟩
  refine (primitive_type_refer format values type).imp fun _ n hn => ?_
  have written : Written cfg j n := (ht n hn.2.1).resolve_right hn.2.2
  exact ⟨Or.inr (Or.inl ⟨written, hn.2.2⟩), Or.inl (mem_addAll.mpr (Or.inr hn.1))⟩

theorem constant_type_refer {q : Place → String → Prop} {place : Place} (constant : Json) :
    (constantType scope constant).AllRefer q place := by
  unfold constantType
  split
  · exact all_refer_enum
  · exact all_refer_primitive
  · exact all_refer_primitive
  · exact all_refer_primitive
  · exact all_refer_primitive
  · exact all_refer_array.mpr generic_refer
  · exact all_refer_map.mpr generic_refer

/-- A computation that leaves the state alone keeps it sound. -/
theorem Builds.of_still {α : Type} {x : Build α} {post : α → List String → State → Prop}
    (hs : Sound cfg j pending s) (hx : ∀ a names' s', x.Yields names s a names' s' →
      s' = s ∧ names ⊆ names' ∧ post a names' s') : Builds cfg j pending x names s post := by
  intro a names' s' hy
  obtain ⟨rfl, hn, hp⟩ := hx a names' s' hy
  exact ⟨hs, .refl _, hn, hp⟩

theorem primitive_builds {type : Json} (hs : Sound cfg j pending s)
    (ht : ∀ n ∈ type.texts, Written cfg j n ∨ n ∈ primitiveNames) :
    Builds cfg j pending (primitive scope format values type) names s (Built cfg j pending) :=
  .of_still hs fun _ _ _ => primitive_built ht

/-- The value of `type` is written, unless it is the name of the object type. -/
theorem type_texts {w : String → Prop} {o : Object} (ho : ObjectIn w o) {type : Json}
    (h : Object.get? o "type" = some type) (hobject : type ≠ .str "object")
    (hlist : ∀ types, type ≠ .arr types) : TextsIn w type := by
  have listed_self : listed type = [type] := by
    cases type with
    | arr types => exact absurd rfl (hlist types)
    | _ => rfl
  have hin := ho.get_type h type (by rw [listed_self]; exact List.mem_singleton_self _)
  exact hin.resolve_left hobject

/-- What keywords name is written, or the name of a primitive type. -/
theorem Says.named_texts {w : String → Prop} {o : Object} (ho : ObjectIn w o) {type : Json}
    (h : Says o (.named type)) : ∀ n ∈ type.texts, w n ∨ n ∈ primitiveNames := by
  have string : ∀ n ∈ (Json.str "string").texts, w n ∨ n ∈ primitiveNames := by
    simp [Json.texts, primitiveNames]
  cases h with
  | named _ htype hlist _ hobject => exact fun n hn => Or.inl (type_texts ho htype hobject hlist n hn)
  | texts => exact string
  | format => exact string

/-- The types of a list are written, if neither objects nor arrays are among them. -/
theorem types_texts {w : String → Prop} {o : Object} (ho : ObjectIn w o) {types : List Json}
    (h : Object.get? o "type" = some (.arr types)) (hplain : ¬types.any isStructured = true) :
    TextsIn w (.arr types) := by
  refine texts_in_arr.mpr fun type hm => ?_
  have hin := ho.get_type h type hm
  refine hin.resolve_left ?_
  rintro rfl
  exact hplain (List.any_eq_true.mpr ⟨_, hm, rfl⟩)

end Leaf

section Finish

variable {cfg : Setting} {j : Json} {pending : String → Prop} {s s' : State}
  {names names' : List String} {scope : Scope}

theorem clear_fields_eq (fs : List (Field AvroType)) : clearFields fs =
    fs.map fun f => { f with type := f.type.clearDependencies } := by
  induction fs with
  | nil => rfl
  | cons f fs ih => rw [clearFields, ih, List.map_cons]

theorem Built.clear {t : AvroType} (h : Built cfg j pending t names s) :
    Built cfg j pending t.clearDependencies names s where
  refer := all_refer_clear.mpr h.refer
  top ht r hr := by
    cases t with
    | record r' =>
      simp only [clearDependencies, record.injEq] at hr
      rw [← hr, clear_fields_eq]
      refine List.forall_mem_map.mpr fun f hf => ?_
      exact all_refer_clear.mpr (h.top ht r' rfl f hf)
    | _ => simp [clearDependencies] at hr

/-- Naming changes no fields. -/
theorem name_type_record (scope : Scope) (o : Object) (r : Record AvroType) :
    ∃ r', nameType o scope (.record r) = .record r' ∧ r'.name = r.name ∧ r'.fields = r.fields ∧
      qualify r'.ns r'.name = qualify (some (r.ns.getD scope.typeNs)) r.name := by
  cases hd : description? o <;> cases hn : r.ns <;>
    simp [nameType, hd, hn, isNamed, isEnum, withDocIfMissing, ns?, withNs]

theorem name_type_enum (scope : Scope) (o : Object) (e : Enumeration) :
    ∃ e', nameType o scope (.enum e) = .enum e' := by
  cases hd : description? o <;> cases hn : e.ns <;> by_cases hf : scope.field = "" <;>
    simp [nameType, hd, hn, hf, isNamed, isEnum, withDocIfMissing, ns?, withNs, withName]

theorem name_type_fixed (scope : Scope) (o : Object) (f : Fixed) :
    ∃ f', nameType o scope (.fixed f) = .fixed f' := by
  cases hd : description? o <;> cases hn : f.ns <;>
    simp [nameType, hd, hn, isNamed, isEnum, withDocIfMissing, ns?, withNs]

theorem name_type_unnamed (o : Object) {t : AvroType} (h : t.isNamed = false) :
    nameType o scope t = t := by
  cases hd : description? o <;> cases t <;>
    simp_all [nameType, isNamed, withDocIfMissing]

theorem Built.named {t : AvroType} (h : Built cfg j pending t names s) (o : Object) :
    Built cfg j pending (nameType o scope t) names s := by
  cases t with
  | record r =>
    obtain ⟨r', hr', hname, hfields, -⟩ := name_type_record scope o r
    have refer := all_refer_record.mp h.refer
    rw [← hname, ← hfields] at refer
    refine ⟨hr' ▸ all_refer_record.mpr refer, fun ht r'' hr'' => ?_⟩
    rw [hr', record.injEq] at hr''
    rw [← hr'', hfields]
    exact h.top ht r rfl
  | enum e =>
    obtain ⟨e', he'⟩ := name_type_enum scope o e
    exact he' ▸ .of_no_refer fun _ => all_refer_enum
  | fixed f =>
    obtain ⟨f', hf'⟩ := name_type_fixed scope o f
    exact hf' ▸ .of_no_refer fun _ => all_refer_fixed
  | _ =>
    rw [name_type_unnamed o rfl]
    exact h

theorem qualify_filter (ns : Option String) (name : String) :
    qualify ns name = qualify (ns.filter (· ≠ "")) name := by
  cases ns with
  | none => rfl
  | some ns => by_cases h : ns = "" <;> simp [qualify, Option.filter_some, h]

/-- What the registry finds has the qualified name that was looked for. -/
theorem find_qualified {r : Registry} {t found : AvroType} {name : String}
    (ht : t.name? = some name) (h : Registry.find? r name t.ns? = some found) :
    found ∈ r ∧ found.qualifiedName? = t.qualifiedName? := by
  refine ⟨List.mem_of_find?_eq_some h, ?_⟩
  have hp := List.find?_some h
  simp only [Bool.and_eq_true, decide_eq_true_eq, Registry.sameNs, beq_iff_eq] at hp
  simp only [qualifiedName?, hp.1, ht, Option.map_some, Option.some.injEq]
  rw [qualify_filter, hp.2, ← qualify_filter]

/-- A type is kept, or its name is registered and a reference stands for it. -/
theorem reuse_registered_yields {t u : AvroType}
    (h : (reuseRegistered t).Yields names s u names' s') : s' = s ∧
      (u = t ∧ names' = names ∨ ∃ name, t.qualifiedName? = some name ∧
        name ∈ definedNames s.registry ∧ u = .reference name ∧ names' = addNew names name) := by
  unfold reuseRegistered at h
  split at h
  · next name hname =>
    obtain ⟨st, names₁, s₁, hget, hfound⟩ := Build.yields_bind.mp h
    obtain ⟨rfl, rfl, rfl⟩ := Build.yields_getThe.mp hget
    split at hfound
    · next registered hr =>
      obtain ⟨found, hf, hq⟩ := Option.bind_eq_some_iff.mp hr
      obtain ⟨hm, hsame⟩ := find_qualified hname hf
      obtain ⟨_, names₂, s₂, hd, hp⟩ := Build.yields_bind.mp hfound
      obtain ⟨rfl, rfl⟩ := Build.yields_depend.mp hd
      obtain ⟨rfl, rfl, rfl⟩ := Build.yields_pure.mp hp
      exact ⟨rfl, Or.inr ⟨registered, hsame ▸ hq, mem_defined.mpr ⟨found, hm, hq⟩, rfl, rfl⟩⟩
    · obtain ⟨rfl, rfl, rfl⟩ := Build.yields_pure.mp hfound
      exact ⟨rfl, Or.inl ⟨rfl, rfl⟩⟩
  · obtain ⟨rfl, rfl, rfl⟩ := Build.yields_pure.mp h
    exact ⟨rfl, Or.inl ⟨rfl, rfl⟩⟩

theorem reuse_registered_built {t u : AvroType} (ht : Built cfg j pending t names s)
    (h : (reuseRegistered t).Yields names s u names' s') :
    s' = s ∧ names ⊆ names' ∧ Built cfg j pending u names' s' := by
  obtain ⟨rfl, ⟨rfl, rfl⟩ | ⟨name, -, hk, rfl, rfl⟩⟩ := reuse_registered_yields h
  · exact ⟨rfl, List.Subset.refl _, ht⟩
  · refine ⟨rfl, fun _ hn => mem_addNew.mpr (Or.inl hn), .of_not_record ?_ rfl⟩
    exact all_refer_reference.mpr (Or.inl ⟨Or.inl hk, Or.inl (mem_addNew.mpr (Or.inr rfl))⟩)

end Finish

section Node

variable {cfg : Setting} {j : Json} {pending : String → Prop} {s s' : State}
  {names names' : List String} {scope : Scope} {node : NodeConverter}

theorem alternative_types_builds (hnode : NodeSound cfg j node) (candidates : List Json) (n : Nat)
    (hc : ∀ c ∈ candidates, SchemaIn (Written cfg j) c) (hs : Sound cfg j pending s)
    (hscope : SoundScope cfg j pending s scope) :
    Builds cfg j pending (alternativeTypes node scope n candidates) names s
      fun types names' s' => ∀ t ∈ types, Built cfg j pending t names' s' := by
  induction candidates generalizing n s names with
  | nil =>
    rw [alternativeTypes]
    exact .pure hs (by simp)
  | cons candidate candidates ih =>
    rw [List.forall_mem_cons] at hc
    rw [alternativeTypes]
    refine .bind (hnode _ _ _ _ _ hs (hscope.for_field _) hc.1) ?_
    intro t names₁ s₁ hs₁ hg₁ hn₁ ht
    refine .bind (ih _ hc.2 hs₁ (hscope.mono hg₁)) ?_
    intro types names₂ s₂ hs₂ hg₂ hn₂ htypes
    refine .pure hs₂ (List.forall_mem_append.mpr ⟨?_, htypes⟩)
    intro u hu
    obtain ⟨hu, -⟩ := Option.filter_eq_some_iff.mp (Option.mem_toList.mp hu)
    exact (ht u hu).mono hg₂ hn₂

theorem candidates_type_builds (hnode : NodeSound cfg j node) (keepEmpty : Bool)
    {candidates : List Json} (hc : ∀ c ∈ candidates, SchemaIn (Written cfg j) c)
    (hs : Sound cfg j pending s) (hscope : SoundScope cfg j pending s scope) :
    Builds cfg j pending (candidatesType node keepEmpty scope candidates) names s
      (MaybeBuilt cfg j pending) := by
  unfold candidatesType
  split
  · next candidate =>
    rw [List.forall_mem_singleton] at hc
    refine .bind (hnode _ _ _ _ _ hs hscope.deeper hc) ?_
    intro t names₁ s₁ hs₁ hg₁ hn₁ ht
    refine .pure hs₁ ?_
    split
    · exact ht
    · exact (useful_or_generic_built ht).maybe
  · refine .bind (alternative_types_builds hnode candidates 0 hc hs hscope) ?_
    intro types names₁ s₁ hs₁ hg₁ hn₁ htypes
    split
    · exact .pure hs₁ maybe_built_none
    · next t => exact .pure hs₁ (htypes t (List.mem_singleton_self t)).maybe
    · refine .pure hs₁ (Built.maybe (.of_not_record ?_ rfl))
      exact all_refer_union.mpr (flatten_refer fine_movable fun t ht => (htypes t ht).refer)

theorem with_type_in {w : String → Prop} {o : Object} (ho : ObjectIn w o) {types : List Json}
    (h : Object.get? o "type" = some (.arr types)) {type : Json} (hm : type ∈ types) :
    SchemaIn w (.obj (Object.insert o "type" type)) := by
  refine ho.insert ?_
  rcases ho.get_type h type hm with rfl | ht
  · exact Or.inr ⟨rfl, by simp [listed]⟩
  · exact Or.inl ht

theorem listed_type_builds (hnode : NodeSound cfg j node) {types : List Json} {o : Object}
    (ho : ObjectIn (Written cfg j) o) (htypes : Object.get? o "type" = some (.arr types))
    (hs : Sound cfg j pending s) (hscope : SoundScope cfg j pending s scope) :
    Builds cfg j pending (listedType node types o scope) names s (MaybeBuilt cfg j pending) := by
  unfold listedType
  split
  · have others : ∀ type ∈ types.filter (!isNullName ·),
        SchemaIn (Written cfg j) (.obj (Object.insert o "type" type)) :=
      fun type hm => with_type_in ho htypes (List.mem_of_mem_filter hm)
    dsimp only
    have finish : ∀ {t : Option AvroType} {names : List String} {s : State},
        Sound cfg j pending s → MaybeBuilt cfg j pending t names s →
        Builds cfg j pending (if types.any isNullName = true then
            pure (t.map fun t => AvroType.unionOf [.null, t]) else pure t) names s
          (MaybeBuilt cfg j pending) := by
      intro t names s hs ht
      split
      · refine .pure hs fun u hu => ?_
        obtain ⟨t', rfl, rfl⟩ := Option.map_eq_some_iff.mp hu
        refine .of_not_record (union_of_refer fine_movable ?_)
          (not_record_of_unnamed (union_of_null t'))
        rw [List.forall_mem_cons, List.forall_mem_singleton]
        exact ⟨all_refer_primitive, (ht t' rfl).refer⟩
      · exact .pure hs ht
    split
    · next single hsingle =>
      rw [hsingle, List.forall_mem_singleton] at others
      refine .bind (hnode _ _ _ _ _ hs hscope.deeper others) ?_
      intro t names₁ s₁ hs₁ hg₁ hn₁ ht
      exact finish hs₁ ht
    · refine .bind (candidates_type_builds hnode false (List.forall_mem_map.mpr others) hs
        hscope) ?_
      intro t names₁ s₁ hs₁ hg₁ hn₁ ht
      exact finish hs₁ ht
  · next hplain =>
    refine .bind (primitive_builds hs fun n hn => Or.inl (types_texts ho htypes hplain n hn)) ?_
    intro t names₁ s₁ hs₁ hg₁ hn₁ ht
    exact .pure hs₁ ht.maybe

theorem tuple_types_builds (hnode : NodeSound cfg j node) (items : List Json)
    (hi : ∀ i ∈ items, TextsIn (Written cfg j) i) (hs : Sound cfg j pending s)
    (hscope : SoundScope cfg j pending s scope) :
    Builds cfg j pending (tupleTypes node scope items) names s
      fun types names' s' => ∀ t ∈ types, t.AllRefer (Fine cfg j pending s' names') none := by
  induction items generalizing s names with
  | nil =>
    rw [tupleTypes]
    exact .pure hs (by simp)
  | cons item items ih =>
    rw [List.forall_mem_cons] at hi
    rw [tupleTypes]
    refine .bind (hnode _ _ _ _ _ hs hscope (schema_in hi.1)) ?_
    intro t names₁ s₁ hs₁ hg₁ hn₁ ht
    refine .bind (ih hi.2 hs₁ (hscope.mono hg₁)) ?_
    intro types names₂ s₂ hs₂ hg₂ hn₂ htypes
    refine .pure hs₂ (List.forall_mem_append.mpr ⟨?_, htypes⟩)
    exact fun u hu => ((ht u (Option.mem_toList.mp hu)).mono hg₂ hn₂).refer

theorem array_type_builds (hnode : NodeSound cfg j node) {o : Object}
    (ho : ObjectIn (Written cfg j) o) (hs : Sound cfg j pending s)
    (hscope : SoundScope cfg j pending s scope) :
    Builds cfg j pending (arrayType node o scope) names s (Built cfg j pending) := by
  have generic_array : ∀ {names : List String} {s : State},
      Built cfg j pending (.array .generic) names s :=
    .of_not_record (all_refer_array.mpr generic_refer) rfl
  unfold arrayType
  split
  · next tuple hi =>
    refine .bind (tuple_types_builds hnode tuple (texts_in_arr.mp (ho.get (by decide) hi)) hs
      hscope.deeper) ?_
    intro types names₁ s₁ hs₁ hg₁ hn₁ htypes
    split
    · exact .pure hs₁ generic_array
    · refine .pure hs₁ (.of_not_record ?_ rfl)
      exact all_refer_array.mpr (union_of_refer fine_movable htypes)
  · next items _ hi =>
    refine .bind (hnode _ _ _ _ _ hs hscope.deeper (schema_in (ho.get (by decide) hi))) ?_
    intro t names₁ s₁ hs₁ hg₁ hn₁ ht
    exact .pure hs₁ (.of_not_record (all_refer_array.mpr (or_generic_refer ht)) rfl)
  · exact .pure hs generic_array

/-- Where no composition keywords are, a record may also be made inside another one. -/
theorem inline_record_builds (hnode : NodeSound cfg j node) {o : Object}
    (ho : ObjectIn (Written cfg j) o)
    (hplain : hasComposition (unconditional o) = false)
    (hs : Sound cfg j pending s) (hscope : SoundScope cfg j pending s scope) :
    Builds cfg j pending (inlineRecord node o scope) names s (MaybeBuilt cfg j pending) := by
  unfold inlineRecord
  refine .bind (.lift (object_record_runs hnode ho hs (by simp [hplain]) hscope
    hscope.local_home)) ?_
  rintro t _ s₁ hs₁ hg₁ - ⟨rfl, ht⟩
  cases t with
  | none => exact .pure hs₁ maybe_built_none
  | some u =>
    obtain ⟨r, rfl, hr⟩ := ht u rfl
    refine .bind (.lift_names hs₁ _) ?_
    rintro _ names₂ _ - hg₂ - ⟨hn, rfl⟩
    have own : r.dependencies ⊆ names₂ := fun n h => hn (List.mem_append_left _ h)
    exact .pure hs₁ (hr.mono (.refl _) own).clear.maybe

theorem keyword_type_builds (hnode : NodeSound cfg j node) {o : Object}
    (ho : ObjectIn (Written cfg j) o)
    (hplain : hasComposition (unconditional o) = false)
    (hs : Sound cfg j pending s) (hscope : SoundScope cfg j pending s scope) :
    Builds cfg j pending (keywordType node o scope) names s (MaybeBuilt cfg j pending) := by
  have wrapped : ∀ {x : Build AvroType}, Builds cfg j pending x names s (Built cfg j pending) →
      Builds cfg j pending (do return some (← x)) names s (MaybeBuilt cfg j pending) := by
    intro x hx
    refine .bind hx ?_
    intro t names₁ s₁ hs₁ hg₁ hn₁ ht
    exact .pure hs₁ ht.maybe
  obtain ⟨k, hk⟩ := said o
  rw [hk.type_eq]
  cases k with
  | constant value => exact .pure hs (Built.maybe (.of_no_refer fun _ => constant_type_refer _))
  | listed types => exact listed_type_builds hnode ho hk.listed_types hs hscope
  | array => exact wrapped (array_type_builds hnode ho hs hscope)
  | object => exact inline_record_builds hnode ho hplain hs hscope
  | named type => exact wrapped (primitive_builds hs (hk.named_texts ho))
  | silent => exact .pure hs maybe_built_none

theorem contains_of_subset {o o' : Object} (h : ∀ m ∈ o', m ∈ o) {key : String}
    (hc : Object.contains o' key = true) : Object.contains o key = true := by
  obtain ⟨v, hv⟩ := Option.isSome_iff_exists.mp hc
  have hm := h _ (Object.mem_of_get? hv)
  rw [Object.contains, Object.get?, List.lookup_isSome_iff]
  exact ⟨_, hm, beq_self_eq_true key⟩

theorem unconditional_members (o : Object) : ∀ m ∈ unconditional o, m ∈ o := by
  have erased : ∀ (keys : List String) (o : Object), ∀ m ∈ eraseAll o keys, m ∈ o := by
    intro keys
    induction keys with
    | nil => exact fun o m hm => hm
    | cons key keys ih => exact fun o m hm => Object.mem_erase (ih _ m hm)
  unfold unconditional withoutConditionals?
  split
  · exact erased _ o
  · exact fun m hm => hm

theorem contains_with_object (o : Object) {key : String} (hk : key ≠ "type") :
    Object.contains (withObjectType o) key = Object.contains o key := by
  unfold withObjectType
  split
  · rw [Object.contains, Object.get?_insert, if_neg hk, Object.contains]
  · rfl

theorem with_object_plain {o : Object} (h : hasComposition o = false) :
    hasComposition (unconditional (withObjectType o)) = false := by
  have hplain : hasComposition (withObjectType o) = false := by
    rw [← h]
    simp only [hasComposition]
    rw [contains_with_object o (by decide), contains_with_object o (by decide),
      contains_with_object o (by decide)]
  by_contra hc
  rw [Bool.not_eq_false] at hc
  have more : hasComposition (withObjectType o) = true := by
    simp only [hasComposition, Bool.or_eq_true] at hc ⊢
    have members := unconditional_members (withObjectType o)
    exact hc.imp (Or.imp (contains_of_subset members) (contains_of_subset members))
      (contains_of_subset members)
  simp [hplain] at more

theorem with_object_in {w : String → Prop} {o : Object} (ho : ObjectIn w o) :
    ObjectIn w (withObjectType o) := by
  unfold withObjectType
  split
  · exact ho.insert (Or.inr ⟨rfl, by simp [listed]⟩)
  · exact ho

theorem object_node_builds (hnode : NodeSound cfg j node) (hdirect : DirectSound cfg j node)
    {o : Object} (ho : ObjectIn (Written cfg j) o) (hs : Sound cfg j pending s)
    (hscope : SoundScope cfg j pending s scope) :
    Builds cfg j pending (objectNode cfg node o scope) names s (MaybeBuilt cfg j pending) := by
  unfold objectNode
  refine .bind (.lift (without_conditionals_runs ho hs)) ?_
  rintro o' _ s₁ hs₁ hg₁ - ⟨rfl, rfl, ho'⟩
  have hscope₁ := hscope.mono hg₁
  split
  · dsimp only
    refine .bind (.lift (.warnAll hs₁ _)) ?_
    rintro _ _ s₂ hs₂ hg₂ - ⟨rfl, -⟩
    exact candidates_type_builds hnode _ (expand_in (document_texts hscope.document) ho') hs₂
      (hscope₁.mono hg₂)
  · next hc =>
    rw [Bool.not_eq_true] at hc
    dsimp only
    split
    · exact reference_type_builds hnode hdirect (with_object_in ho') hs₁ hscope₁
    · refine .bind (keyword_type_builds hnode (with_object_in ho') (with_object_plain hc) hs₁
        hscope₁) ?_
      intro t names₂ s₂ hs₂ hg₂ hn₂ ht
      cases t with
      | none => exact .pure hs₂ maybe_built_none
      | some t =>
        refine .bind (.of_still hs₂ fun _ _ _ => reuse_registered_built ((ht t rfl).named _)) ?_
        intro u names₃ s₃ hs₃ hg₃ hn₃ hu
        exact .pure hs₃ hu.maybe

/-- A warning in place of a type leaves the state alone. -/
theorem generic_yields {w : Warning} {t : Option AvroType} (h : (do
      Run.warn w
      return some AvroType.generic : Build (Option AvroType)).Yields names s t names' s') :
    Quiet s s' ∧ names ⊆ names' ∧ MaybeBuilt cfg j pending t names' s' := by
  obtain ⟨_, names₁, s₁, hrun, hp⟩ := Build.yields_bind.mp h
  obtain ⟨hw, rfl⟩ := Build.yields_lift.mp hrun
  obtain ⟨rfl, rfl, rfl⟩ := Build.yields_pure.mp hp
  exact ⟨⟨_, Run.yields_warn.mp hw⟩, List.Subset.refl _, built_generic.maybe⟩

theorem generic_builds (hs : Sound cfg j pending s) {w : Warning} :
    Builds cfg j pending (do
      Run.warn w
      return some AvroType.generic) names s (MaybeBuilt cfg j pending) := by
  intro t names' s' h
  obtain ⟨hq, hn, ht⟩ := generic_yields h
  exact ⟨hq.sound hs, hq.grows, hn, ht⟩

theorem primitive_step_builds {type : Json} (hs : Sound cfg j pending s)
    (ht : TextsIn (Written cfg j) type) :
    Builds cfg j pending (do return some (← primitive scope none none type)) names s
      (MaybeBuilt cfg j pending) := by
  refine .bind (primitive_builds hs fun n hn => Or.inl (ht n hn)) ?_
  intro t names₁ s₁ hs₁ hg₁ hn₁ ht
  exact .pure hs₁ ht.maybe

/-- One level of nodes is sound if the levels below it are. -/
theorem step_sound (hnode : NodeSound cfg j node) (hdirect : DirectSound cfg j node) :
    NodeSound cfg j (step cfg node) := by
  intro pending schema scope names s hs hscope hschema
  cases schema with
  | bool b =>
    cases b with
    | true => exact .pure hs built_generic.maybe
    | false => exact .pure hs maybe_built_none
  | str text => exact primitive_step_builds hs hschema
  | arr items => exact primitive_step_builds hs hschema
  | obj o => exact object_node_builds hnode hdirect hschema hs hscope
  | null => exact generic_builds hs
  | num n => exact generic_builds hs

end Node

section Direct

variable {cfg : Setting} {j : Json} {pending : String → Prop} {s s' : State}
  {names names' : List String} {scope : Scope} {node : NodeConverter}

/-- What the keywords of a plain schema give: a record of the name that a type has at the scope, or
something that leaves the state alone. -/
def KeywordOutcome (cfg : Setting) (j : Json) (pending : String → Prop) (scope : Scope)
    (names : List String) (s s' : State) (t : Option AvroType) : Prop :=
  (∃ r, t = some (.record r) ∧ r.name = Name.ofText scope.localName ∧
    r.ns = (if scope.typeNs = "" then none else some scope.typeNs) ∧
    (r.fields = [] → Quiet s s')) ∨
  Quiet s s' ∧ MaybeBuilt cfg j pending t names s'

theorem inline_record_outcome {o : Object} {t : Option AvroType}
    (hf : ∀ f ∈ s.frames, Name.ofText f.name = f.name ∧ Anchored cfg j pending s f.qualifiedName)
    (hplain : hasComposition (unconditional o) = false)
    (h : (inlineRecord node o scope).Yields names s t names' s') :
    KeywordOutcome cfg j pending scope names' s s' t := by
  obtain ⟨u, hr, rfl, rfl⟩ := inline_record_yields h
  rcases object_record_cases hr with
    ⟨r, rfl, hname, hns, hnil⟩ | ⟨hq, -, rfl | ⟨f, hm, hname, rfl⟩⟩
  · refine Or.inl ⟨_, rfl, hname, hns, fun hfields => hnil hplain ?_⟩
    simpa only [clear_fields_eq, List.map_eq_nil_iff] using hfields
  · exact Or.inr ⟨hq, maybe_built_none⟩
  · refine Or.inr ⟨hq, Built.maybe (Built.clear ⟨?_, fun hempty => ?_⟩)⟩
    · exact cycle_record_refer (hf f hm).1 ((hf f hm).2.mono hq.grows.toExtends) _
    · rw [hq.grows.frames] at hempty
      simp [hempty] at hm

/-- The keywords of a plain schema, with its own `type` if properties are listed. -/
theorem keyword_type_outcome {o : Object} {t : Option AvroType}
    (hf : ∀ f ∈ s.frames, Name.ofText f.name = f.name ∧ Anchored cfg j pending s f.qualifiedName)
    (ho : ObjectIn (Written cfg j) o) (hcomposition : hasComposition (unconditional o) = false)
    (hplain : isPlain o = true)
    (hlisted : Object.get? o "type" = none → Object.contains o "properties" = false)
    (h : (keywordType node o scope).Yields names s t names' s') :
    KeywordOutcome cfg j pending scope names' s s' t := by
  have plain : ∀ {format values type}, (∀ n ∈ type.texts, Written cfg j n ∨ n ∈ primitiveNames) →
      (do return some (← primitive scope format values type)).Yields names s t names' s' →
      KeywordOutcome cfg j pending scope names' s s' t := by
    intro format values type ht h
    obtain ⟨u, rfl, hu⟩ := Build.yields_some.mp h
    obtain ⟨rfl, -, hbuilt⟩ : s' = s ∧ names ⊆ names' ∧ Built cfg j pending u names' s' :=
      primitive_built ht hu
    exact Or.inr ⟨.refl _, hbuilt.maybe⟩
  simp only [isPlain, Bool.and_eq_true, Bool.or_eq_true] at hplain
  obtain ⟨-, hplain⟩ := hplain
  obtain ⟨k, hk⟩ := said o
  rw [hk.type_eq] at h
  cases k with
  | constant value =>
    obtain ⟨rfl, rfl, rfl⟩ := Build.yields_pure.mp h
    exact Or.inr ⟨.refl _, Built.maybe (.of_no_refer fun _ => constant_type_refer _)⟩
  | listed types =>
    cases hk with
    | listed hconst htypes =>
      rw [Object.contains, hconst, htypes] at hplain
      have hsimple : ¬types.any isStructured = true := by simpa using hplain
      rw [Keyword.type, listedType, if_neg hsimple] at h
      exact plain (fun n hn => Or.inl (types_texts ho htypes hsimple n hn)) h
  | array =>
    cases hk with
    | array hconst htype =>
      rw [Object.contains, hconst, htype] at hplain
      simp at hplain
    | items hconst htype henum hitems =>
      rw [Object.contains, hconst, htype, hlisted htype, henum, hitems] at hplain
      simp at hplain
  | object => exact inline_record_outcome hf hcomposition h
  | named type => exact plain (hk.named_texts ho) h
  | silent =>
    obtain ⟨rfl, rfl, rfl⟩ := Build.yields_pure.mp h
    exact Or.inr ⟨.refl _, maybe_built_none⟩

theorem with_object_is_plain {o : Object} (h : isPlain o = true) :
    isPlain (withObjectType o) = true ∧ (Object.get? (withObjectType o) "type" = none →
      Object.contains (withObjectType o) "properties" = false) := by
  by_cases hp : (Object.contains o "properties" && !Object.contains o "type") = true
  · have htype : Object.get? (withObjectType o) "type" = some (.str "object") := by
      rw [withObjectType, if_pos hp, Object.get?_insert, if_pos rfl]
    refine ⟨?_, by simp [htype]⟩
    simp only [isPlain, Bool.and_eq_true] at h ⊢
    simp only [hasComposition] at h ⊢
    rw [contains_with_object o (by decide), contains_with_object o (by decide),
      contains_with_object o (by decide), contains_with_object o (by decide), htype]
    exact ⟨h.1, by simp⟩
  · have hself : withObjectType o = o := by rw [withObjectType, if_neg hp]
    rw [hself]
    refine ⟨h, fun hnone => ?_⟩
    simpa [Object.contains, hnone] using hp

/-- The record of a schema at the top has the expected name. -/
theorem top_record_name (o : Object) {r : Record AvroType} (htop : scope.field = "")
    (hlegal : Name.ofText scope.record = scope.record) (hname : r.name = Name.ofText scope.localName)
    (hns : r.ns = if scope.typeNs = "" then none else some scope.typeNs) :
    ∃ r', nameType o scope (.record r) = .record r' ∧ r'.fields = r.fields ∧
      qualify r'.ns r'.name = qualify (some scope.ns) scope.record := by
  obtain ⟨r', hr', -, hfields, hq⟩ := name_type_record scope o r
  refine ⟨r', hr', hfields, hq.trans ?_⟩
  have own : r.ns.getD scope.typeNs = scope.typeNs := by
    rw [hns]
    split
    · rfl
    · rfl
  rw [own, hname, Scope.typeNs, if_pos htop, Scope.localName, if_pos htop, hlegal]

/-- Warnings leave the records under construction anchored. -/
theorem Quiet.frames_anchored (hq : Quiet s s')
    (hf : ∀ f ∈ s.frames, Name.ofText f.name = f.name ∧ Anchored cfg j pending s f.qualifiedName) :
    ∀ f ∈ s'.frames, Name.ofText f.name = f.name ∧ Anchored cfg j pending s' f.qualifiedName := by
  intro f hm
  obtain ⟨hname, ha⟩ := hf f (hq.grows.frames ▸ hm)
  exact ⟨hname, ha.mono hq.grows.toExtends⟩

/-- How an object gets its type: from the candidates that it is composed of, by its reference, or by its own
keywords if these say anything. A warning may come first. -/
inductive ObjectTyped (cfg : Setting) (node : NodeConverter) (o : Object) (scope : Scope)
    (names : List String) (s : State) : Option AvroType → List String → State → Prop
  | composed {s₁ t names' s'} : hasComposition (unconditional o) = true → Quiet s s₁ →
    (candidatesType node (Object.contains (unconditional o) "allOf") scope
      (expand scope.document (unconditional o)).1).Yields names s₁ t names' s' →
    ObjectTyped cfg node o scope names s t names' s'
  | referred {s₁ t names' s'} : hasComposition (unconditional o) = false →
    Object.contains (withObjectType (unconditional o)) "$ref" = true → Quiet s s₁ →
    (referenceType cfg node (withObjectType (unconditional o)) scope).Yields names s₁ t names' s' →
    ObjectTyped cfg node o scope names s t names' s'
  | typed {s₁ u names₁ s₂ t names' s'} : hasComposition (unconditional o) = false →
    Object.contains (withObjectType (unconditional o)) "$ref" = false → Quiet s s₁ →
    (keywordType node (withObjectType (unconditional o)) scope).Yields names s₁ (some u) names₁ s₂ →
    (reuseRegistered (nameType (withObjectType (unconditional o)) scope u)).Yields names₁ s₂ t names' s' →
    ObjectTyped cfg node o scope names s (some t) names' s'
  | silent {s₁ names' s'} : hasComposition (unconditional o) = false →
    Object.contains (withObjectType (unconditional o)) "$ref" = false → Quiet s s₁ →
    (keywordType node (withObjectType (unconditional o)) scope).Yields names s₁ none names' s' →
    ObjectTyped cfg node o scope names s none names' s'

theorem object_node_cases {o : Object} {t : Option AvroType}
    (h : (objectNode cfg node o scope).Yields names s t names' s') :
    ObjectTyped cfg node o scope names s t names' s' := by
  unfold objectNode at h
  obtain ⟨o', names₁, s₁, hlift, hrun⟩ := Build.yields_bind.mp h
  obtain ⟨hwithout, rfl⟩ := Build.yields_lift.mp hlift
  obtain ⟨rfl, hq⟩ := without_conditionals_yields hwithout
  split at hrun
  · next hc =>
    dsimp only at hrun
    obtain ⟨_, names₂, s₂, hwarn, hcandidates⟩ := Build.yields_bind.mp hrun
    obtain ⟨hwarned, rfl⟩ := Build.yields_lift.mp hwarn
    exact .composed hc (hq.trans ⟨_, Run.yields_warnAll.mp hwarned⟩) hcandidates
  · next hc =>
    rw [Bool.not_eq_true] at hc
    dsimp only at hrun
    split at hrun
    · next hr => exact .referred hc hr hq hrun
    · next hr =>
      rw [Bool.not_eq_true] at hr
      obtain ⟨u, names₂, s₂, hk, hrest⟩ := Build.yields_bind.mp hrun
      cases u with
      | none =>
        obtain ⟨rfl, rfl, rfl⟩ := Build.yields_pure.mp hrest
        exact .silent hc hr hq hk
      | some u =>
        obtain ⟨v, names₃, s₃, hreuse, hp⟩ := Build.yields_bind.mp hrest
        obtain ⟨rfl, rfl, rfl⟩ := Build.yields_pure.mp hp
        exact .typed hc hr hq hk hreuse

theorem composed_node_yields {o : Object} {t : Option AvroType}
    (hc : hasComposition (unconditional o) = true)
    (h : (objectNode cfg node o scope).Yields names s t names' s') :
    ∃ s₁, Quiet s s₁ ∧ (candidatesType node (Object.contains (unconditional o) "allOf") scope
      (expand scope.document (unconditional o)).1).Yields names s₁ t names' s' := by
  cases object_node_cases h with
  | composed _ hq hcandidates => exact ⟨_, hq, hcandidates⟩
  | referred hn | typed hn | silent hn => simp [hc] at hn

theorem plain_node_outcome {o : Object} {t : Option AvroType}
    (hf : ∀ f ∈ s.frames, Name.ofText f.name = f.name ∧ Anchored cfg j pending s f.qualifiedName)
    (ho : ObjectIn (Written cfg j) o) (hplain : isPlain (unconditional o) = true)
    (htop : scope.field = "") (hlegal : Name.ofText scope.record = scope.record)
    (h : (objectNode cfg node o scope).Yields names s t names' s') :
    DirectOutcome cfg j pending (qualify (some scope.ns) scope.record) names' s s' t := by
  have ho' := unconditional_in ho
  obtain ⟨hplain', hlisted⟩ := with_object_is_plain hplain
  simp only [isPlain, Bool.and_eq_true, Bool.not_eq_true'] at hplain
  obtain ⟨⟨hcomposition, hreference⟩, -⟩ := hplain
  rw [← contains_with_object _ (by decide)] at hreference
  have outcome : ∀ {s₁ u names₁ s₂}, Quiet s s₁ →
      (keywordType node (withObjectType (unconditional o)) scope).Yields names s₁ u names₁ s₂ →
      KeywordOutcome cfg j pending scope names₁ s₁ s₂ u := fun hq hk =>
    keyword_type_outcome (hq.frames_anchored hf) (with_object_in ho') (with_object_plain hcomposition)
      hplain' hlisted hk
  cases object_node_cases h with
  | composed hc => simp [hcomposition] at hc
  | referred _ hr => simp [hreference] at hr
  | typed _ _ hq hk hreuse =>
    rcases outcome hq hk with ⟨r, hu, hname, hns, hnil⟩ | ⟨hq', hu⟩
    · obtain rfl := Option.some.inj hu
      obtain ⟨r', hr', hfields, hqualified⟩ :=
        top_record_name (withObjectType (unconditional o)) htop hlegal hname hns
      rw [hr'] at hreuse
      obtain ⟨rfl, ⟨rfl, rfl⟩ | ⟨name, hn, hm, rfl, rfl⟩⟩ := reuse_registered_yields hreuse
      · exact .named r' rfl hqualified fun hempty => hq.trans (hnil (hfields ▸ hempty))
      · obtain rfl : qualify r'.ns r'.name = name := Option.some.inj hn
        exact .registered (by rw [hqualified]) (hqualified ▸ hm)
    · obtain ⟨rfl, -, hv⟩ := reuse_registered_built ((hu _ rfl).named _) hreuse
      exact .quiet (hq.trans hq') hv.maybe
  | silent _ _ hq hk =>
    rcases outcome hq hk with ⟨_, hu, -⟩ | ⟨hq', -⟩
    · simp at hu
    · exact .quiet (hq.trans hq') maybe_built_none

/-- A type in place of one that says nothing is no record of the expected name, but then nothing
has happened. -/
theorem DirectOutcome.useful {expected : String} {t : Option AvroType}
    (h : DirectOutcome cfg j pending expected names s s' t) :
    DirectOutcome cfg j pending expected names s s' (some (usefulOrGeneric t)) := by
  rcases h with ⟨r, rfl, hname, hnil⟩ | ⟨rfl, hk⟩ | ⟨hq, ht⟩
  · by_cases hempty : r.fields = []
    · have generic : usefulOrGeneric (some (.record r)) = AvroType.generic := by
        simp [usefulOrGeneric, orGeneric, Option.filter_some, isEmpty, hempty]
      rw [generic]
      exact .quiet (hnil hempty) built_generic.maybe
    · have same : usefulOrGeneric (some (.record r)) = .record r := by
        simp [usefulOrGeneric, orGeneric, Option.filter_some, isEmpty, hempty]
      rw [same]
      exact .named r rfl hname hnil
  · exact .registered rfl hk
  · exact .quiet hq (useful_or_generic_built ht).maybe

/-- A composition with a single candidate has the candidate's type. -/
theorem single_node_outcome (hnode : DirectSound cfg j node) {o : Object} {candidate : Json}
    {t : Option AvroType}
    (hf : ∀ f ∈ s.frames, Name.ofText f.name = f.name ∧ Anchored cfg j pending s f.qualifiedName)
    (hdocument : IsDocument cfg j scope.document) (ho : ObjectIn (Written cfg j) o)
    (hcomposition : hasComposition (unconditional o) = true)
    (hsingle : (expand scope.document (unconditional o)).1 = [candidate])
    (hdirect : Direct scope.document candidate) (htop : scope.field = "")
    (hlegal : Name.ofText scope.record = scope.record)
    (h : (objectNode cfg node o scope).Yields names s t names' s') :
    DirectOutcome cfg j pending (qualify (some scope.ns) scope.record) names' s s' t := by
  have hin := expand_in (document_texts hdocument) (unconditional_in ho)
  rw [hsingle, List.forall_mem_singleton] at hin
  obtain ⟨s₂, hq₂, hcandidates⟩ := composed_node_yields hcomposition h
  rw [hsingle, candidatesType] at hcandidates
  obtain ⟨u, names₃, s₃, hu, hp⟩ := Build.yields_bind.mp hcandidates
  obtain ⟨rfl, rfl, rfl⟩ := Build.yields_pure.mp hp
  have outcome := hnode pending candidate scope.deeper _ _ u _ _ (hq₂.frames_anchored hf) hdocument
    hin hdirect htop hlegal hu
  have warned : DirectOutcome cfg j pending (qualify (some scope.ns) scope.record) names' s s' u := by
    rcases outcome with ⟨r, rfl, hname, hnil⟩ | ⟨rfl, hk⟩ | ⟨hq', hu'⟩
    · exact .named r rfl hname fun hempty => hq₂.trans (hnil hempty)
    · exact .registered rfl hk
    · exact .quiet (hq₂.trans hq') hu'
  split
  · exact warned
  · exact warned.useful

/-- A level of nodes treats schemas whose type is their own as expected if the levels below do. -/
theorem step_direct (hnode : DirectSound cfg j node) : DirectSound cfg j (step cfg node) := by
  intro pending schema scope names s t names' s' hf hdocument hschema hdirect htop hlegal h
  have written : ∀ type, TextsIn (Written cfg j) type →
      (do return some (← primitive scope none none type) : Build (Option AvroType)).Yields
        names s t names' s' →
      DirectOutcome cfg j pending (qualify (some scope.ns) scope.record) names' s s' t := by
    intro type ht h
    obtain ⟨u, rfl, hrun⟩ := Build.yields_some.mp h
    obtain ⟨rfl, -, hu⟩ := primitive_built (fun n hn => Or.inl (ht n hn)) hrun
    exact .quiet (.refl _) hu.maybe
  have warned : ∀ w : Warning, (do
        Run.warn w
        return some AvroType.generic : Build (Option AvroType)).Yields names s t names' s' →
      DirectOutcome cfg j pending (qualify (some scope.ns) scope.record) names' s s' t := by
    intro w h
    obtain ⟨hq, -, ht⟩ := generic_yields h
    exact .quiet hq ht
  cases schema with
  | bool b =>
    cases b with
    | true =>
      obtain ⟨rfl, rfl, rfl⟩ := Build.yields_pure.mp h
      exact .quiet (.refl _) built_generic.maybe
    | false =>
      obtain ⟨rfl, rfl, rfl⟩ := Build.yields_pure.mp h
      exact .quiet (.refl _) maybe_built_none
  | str text => exact written _ hschema h
  | arr items => exact written _ hschema h
  | obj o =>
    cases hdirect with
    | value hother => exact absurd rfl (hother o)
    | plain hplain => exact plain_node_outcome hf hschema hplain htop hlegal h
    | single hcomposition hsingle hcandidate =>
      exact single_node_outcome hnode hf hdocument hschema hcomposition hsingle hcandidate htop
        hlegal h
  | null => exact warned _ h
  | num n => exact warned _ h

end Direct

section Levels

variable {cfg : Setting} {j : Json}

theorem levels_direct (levels : Nat) : DirectSound cfg j (nodeWithin cfg levels) := by
  induction levels with
  | zero =>
    intro pending schema scope names s t names' s' hf hdocument hschema hdirect htop hlegal h
    obtain ⟨hq, -, ht⟩ := generic_yields h
    exact .quiet hq ht
  | succ levels ih =>
    intro pending schema scope names s t names' s' hf hdocument hschema hdirect htop hlegal h
    simp only [nodeWithin] at h
    split at h
    · obtain ⟨hq, -, ht⟩ := generic_yields h
      exact .quiet hq ht
    · exact step_direct ih pending schema scope names s t names' s' hf hdocument hschema hdirect
        htop hlegal h

theorem levels_sound (levels : Nat) : NodeSound cfg j (nodeWithin cfg levels) := by
  induction levels with
  | zero => exact fun pending schema scope names s hs _ _ => generic_builds hs
  | succ levels ih =>
    intro pending schema scope names s hs hscope hschema
    simp only [nodeWithin]
    split
    · exact generic_builds hs
    · exact step_sound ih (levels_direct levels) pending schema scope names s hs hscope hschema

/-- Converting a node keeps the state sound and gives a type with fine references. -/
theorem node_sound : NodeSound cfg j (node cfg) := levels_sound _

theorem node_direct : DirectSound cfg j (node cfg) := levels_direct _

end Levels

end AvroDerive.Convert
