import AvroDerive.Proofs.Orderly
import AvroDerive.Proofs.RecordReference

/-! # Records keep states orderly

The dependencies of a record that is built are listed on it, each once. The records inside hold
none of their own. -/
namespace AvroDerive.Convert

open AvroType Json Schema

/-- The references of the type are listed. A record holds no dependencies of its own, and at the
top, where no record is under construction, its fields are listed apart from its name. -/
structure Made (t : AvroType) (names : List String) (s : State) : Prop where
  refer : t.AllRefer (Listed s names) none
  own : t.ownDependencies = []
  top : s.frames = [] → ∀ r, t = .record r → ∀ f ∈ r.fields, f.type.AllRefer (Listed s names) none

/-- As `Made`, for a type that need not be there. -/
def MaybeMade (t : Option AvroType) (names : List String) (s : State) : Prop :=
  ∀ u, t = some u → Made u names s

/-- A converter keeps states orderly, whatever it is given. -/
def NodeOrderly (node : NodeConverter) : Prop :=
  ∀ schema scope names s, Orderly s → BuildsOrderly (node schema scope) names s MaybeMade

/-- The references of the fields are listed apart from the record. -/
def FieldsMade (fields : List (Field AvroType)) (names : List String) (s : State) : Prop :=
  ∀ f ∈ fields, f.type.AllRefer (Listed s names) none

section Made

variable {s s' : State} {names names' : List String} {t : AvroType}

theorem Made.mono (h : Made t names s) (hg : Grows s s') (hn : names ⊆ names') :
    Made t names' s' where
  refer := h.refer.imp fun _ _ h => h.mono hg.toExtends hn
  own := h.own
  top ht r hr f hf := (h.top (hg.frames ▸ ht) r hr f hf).imp fun _ _ h =>
    h.mono hg.toExtends hn

theorem Made.of_not_record (h : t.AllRefer (Listed s names) none) (hr : t.isRecord = false) :
    Made t names s := by
  refine ⟨h, ?_, fun _ r hr' => by simp [hr', isRecord] at hr⟩
  cases t <;> simp_all [isRecord, ownDependencies]

theorem Made.maybe (h : Made t names s) : MaybeMade (some t) names s := by
  intro u hu
  obtain rfl := Option.some.inj hu
  exact h

theorem maybe_made_none : MaybeMade none names s := by
  simp [MaybeMade]

theorem made_generic : Made .generic names s := .of_not_record generic_refer rfl

theorem MaybeMade.mono {t : Option AvroType} (h : MaybeMade t names s) (hg : Grows s s')
    (hn : names ⊆ names') : MaybeMade t names' s' :=
  fun u hu => (h u hu).mono hg hn

theorem FieldsMade.mono {fields : List (Field AvroType)} (h : FieldsMade fields names s)
    (he : Extends s s') (hn : names ⊆ names') : FieldsMade fields names' s' :=
  fun f hf => (h f hf).imp fun _ _ h => h.mono he hn

theorem fields_made_append {fields more : List (Field AvroType)}
    (h : FieldsMade fields names s) (hm : FieldsMade more names s) :
    FieldsMade (fields ++ more) names s :=
  List.forall_mem_append.mpr ⟨h, hm⟩

theorem or_generic_listed {t : Option AvroType} (h : MaybeMade t names s) :
    (orGeneric t).AllRefer (Listed s names) none := by
  cases t with
  | none => exact generic_refer
  | some u => exact (h u rfl).refer

theorem useful_or_generic_made {t : Option AvroType} (h : MaybeMade t names s) :
    Made (usefulOrGeneric t) names s :=
  useful_or_generic (p := fun u => Made u names s) made_generic h

end Made

section Record

variable {s s' : State} {names names' : List String} {scope : Scope} {node : NodeConverter}

theorem property_fields_orderly (hnode : NodeOrderly node) (required : List String)
    (properties : List (String × Json)) (hs : Orderly s) :
    BuildsOrderly (propertyFields node required scope properties) names s FieldsMade := by
  induction properties generalizing s names with
  | nil =>
    rw [propertyFields]
    exact .pure hs (by simp [FieldsMade])
  | cons m properties ih =>
    obtain ⟨name, schema⟩ := m
    have field : BuildsOrderly (do
        let t := orGeneric (← node schema (scope.forField name))
        let field : Field AvroType :=
          { name := Name.ofText name
            type := if name ∈ required then t else makeNullable t
            doc := schema.asObject?.bind description? }
        return field :: (← propertyFields node required scope properties)) names s
        FieldsMade := by
      refine .bind (hnode _ _ _ _ hs) ?_
      intro t names₁ s₁ hs₁ hg₁ hn₁ ht
      refine .bind (ih hs₁) ?_
      intro fields names₂ s₂ hs₂ hg₂ hn₂ hfields
      refine .pure hs₂ (List.forall_mem_cons.mpr ⟨?_, hfields⟩)
      have listed := or_generic_listed (ht.mono hg₂ hn₂)
      dsimp only
      split
      · exact listed
      · exact nullable_refer listed
    cases schema with
    | obj o => exact field
    | bool b => exact field
    | _ => exact ih hs

theorem additional_field_orderly (hnode : NodeOrderly node) (name : String) (o : Object)
    (hs : Orderly s) :
    BuildsOrderly (additionalField node name scope o) names s FieldsMade := by
  unfold additionalField
  split
  · refine .bind (hnode _ _ _ _ hs) ?_
    intro t names₁ s₁ hs₁ hg₁ hn₁ ht
    refine .pure hs₁ (List.forall_mem_singleton.mpr ?_)
    exact all_refer_map.mpr (useful_or_generic_made ht).refer
  · exact .pure hs (by simp [FieldsMade])

theorem pattern_fields_orderly (hnode : NodeOrderly node) (patterns : List (String × Json))
    (hs : Orderly s) : BuildsOrderly (patternFields node scope patterns) names s FieldsMade := by
  induction patterns generalizing s names with
  | nil =>
    rw [patternFields]
    exact .pure hs (by simp [FieldsMade])
  | cons m patterns ih =>
    rw [patternFields]
    refine .bind (hnode _ _ _ _ hs) ?_
    intro t names₁ s₁ hs₁ hg₁ hn₁ ht
    refine .bind (ih hs₁) ?_
    intro fields names₂ s₂ hs₂ hg₂ hn₂ hfields
    refine .pure hs₂ (List.forall_mem_cons.mpr ⟨?_, hfields⟩)
    exact all_refer_map.mpr ((useful_or_generic_made ht).mono hg₂ hn₂).refer

theorem values_field_orderly (hnode : NodeOrderly node) (o : Object) (hs : Orderly s) :
    BuildsOrderly (valuesField node scope o) names s FieldsMade := by
  unfold valuesField
  split
  · exact .pure hs (List.forall_mem_singleton.mpr (all_refer_map.mpr generic_refer))
  · split
    · split
      · refine .bind (hnode _ _ _ _ hs) ?_
        intro t names₁ s₁ hs₁ hg₁ hn₁ ht
        refine .pure hs₁ (List.forall_mem_singleton.mpr ?_)
        exact all_refer_array.mpr (or_generic_listed ht)
      · exact .pure hs (List.forall_mem_singleton.mpr (all_refer_array.mpr generic_refer))
    · exact .pure hs (by simp [FieldsMade])

theorem record_fields_orderly (hnode : NodeOrderly node) (o : Object) (hs : Orderly s) :
    BuildsOrderly (recordFields node scope o) names s FieldsMade := by
  unfold recordFields
  split
  · refine .bind (property_fields_orderly hnode _ _ hs) ?_
    intro fields names₁ s₁ hs₁ hg₁ hn₁ hfields
    refine .bind (additional_field_orderly hnode _ o hs₁) ?_
    intro additional names₂ s₂ hs₂ hg₂ hn₂ hadditional
    refine .bind (pattern_fields_orderly hnode _ hs₂) ?_
    intro patterns names₃ s₃ hs₃ hg₃ hn₃ hpatterns
    refine .pure hs₃ (fields_made_append (fields_made_append ?_ ?_) hpatterns)
    · exact hfields.mono (hg₂.trans hg₃).toExtends (List.Subset.trans hn₂ hn₃)
    · exact hadditional.mono hg₃.toExtends hn₃
  · refine .bind (additional_field_orderly hnode _ o hs) ?_
    intro additional names₂ s₂ hs₂ hg₂ hn₂ hadditional
    refine .bind (pattern_fields_orderly hnode _ hs₂) ?_
    intro patterns names₃ s₃ hs₃ hg₃ hn₃ hpatterns
    dsimp only
    split
    · exact values_field_orderly hnode o hs₃
    · exact .pure hs₃ (fields_made_append (hadditional.mono hg₃.toExtends hn₃) hpatterns)

/-- A record that lists the names its fields depend on, each once. Its fields are listed apart from
its name, at the top in any case. -/
structure RecordMade (r : Record AvroType) (s : State) : Prop where
  refer : (AvroType.record r).AllRefer (Listed s r.dependencies) none
  once : r.dependencies.Nodup
  top : s.frames = [] → FieldsMade r.fields r.dependencies s

theorem RecordMade.of_fields {r : Record AvroType} (h : FieldsMade r.fields r.dependencies s)
    (honce : r.dependencies.Nodup) : RecordMade r s where
  refer := all_refer_record.mpr fun f hf => (h f hf).into_field listed_movable _
  once := honce
  top _ := h

theorem build_record_orderly (hnode : NodeOrderly node) (name ns : String) (o : Object)
    (hs : Orderly s) : StaysOrderly (buildRecord node name ns o scope) s fun t s' =>
      ∀ u, t = some u → ∃ r, u = .record r ∧ FieldsMade r.fields r.dependencies s' ∧
        r.dependencies.Nodup := by
  unfold buildRecord
  refine .bind (.apart (record_fields_orderly hnode o hs)) ?_
  rintro ⟨fields, names⟩ s₁ hs₁ hg₁ hfields
  dsimp only at hfields ⊢
  split
  · exact .pure hs₁ (by simp)
  · refine .pure hs₁ fun u hu => ?_
    obtain rfl := Option.some.inj hu
    exact ⟨_, rfl, hfields.mono (.refl _) fun n hn => mem_distinct.mpr hn, distinct_nodup names⟩

theorem cycle_record_record (f : Frame) (ns : String) :
    ∃ r, cycleRecord f.name ns f = .record r ∧ r.dependencies = [] :=
  ⟨_, cycle_record_eq f ns, rfl⟩

/-- The reference of a record for a cycle closes it. -/
theorem cycle_record_listed {f : Frame} (hf : Name.ofText f.name = f.name) (ns : String) :
    (cycleRecord f.name ns f).AllRefer (Listed s names) none := by
  have legal : Name.isLegal f.name = true := hf ▸ Name.isLegal_ofText f.name
  have hname : Name.ofText (f.name ++ "_ref") = f.name ++ "_ref" :=
    Name.ofText_of_isLegal (legal_append legal (by decide))
  simp only [cycle_record_eq, Record.pushField, Record.empty, hname, all_refer_record,
    List.nil_append, List.forall_mem_singleton, all_refer_reference]
  refine Or.inr (Or.inr ⟨"", f.name, "", f.ns, ?_, rfl⟩)
  simp

/-- The record of a composition takes the fields of the record that is converted, at the top. -/
theorem composition_record_orderly (hnode : NodeOrderly node) (name ns : String) (o : Object)
    (hs : Orderly s) (htop : s.frames = []) :
    StaysOrderly (compositionRecord node name ns o scope) s fun u s' =>
      ∃ r, u = .record r ∧ FieldsMade r.fields r.dependencies s' ∧ r.dependencies.Nodup := by
  unfold compositionRecord
  refine .bind (.apart (hnode _ _ _ _ hs)) ?_
  rintro ⟨converted, names⟩ s₁ hs₁ hg₁ hconverted
  dsimp only at hconverted ⊢
  refine .pure hs₁ ⟨_, rfl, ?_⟩
  have all : ∀ deps : List String, names ⊆ addAll deps names :=
    fun deps n hn => mem_addAll.mpr (Or.inr hn)
  split
  · next r =>
    obtain ⟨-, hown, hfields⟩ := hconverted _ rfl
    refine ⟨fun f hf => ?_, addAll_nodup ?_ names⟩
    · exact (hfields (hg₁.frames.trans htop) r rfl f hf).imp fun _ _ h => h.mono (.refl _) (all _)
    · rw [show r.dependencies = [] from hown]
      exact List.nodup_nil
  · refine ⟨List.forall_mem_singleton.mpr ?_, addAll_nodup List.nodup_nil names⟩
    exact (or_generic_listed hconverted).imp fun _ _ h => h.mono (.refl _) (all _)

theorem without_conditionals_orderly (o : Object) (hs : Orderly s) :
    StaysOrderly (Convert.withoutConditionals o) s fun o' _ => o' = unconditional o := by
  unfold Convert.withoutConditionals unconditional
  split
  · next rest hr =>
    refine .bind (.warn hs _) ?_
    intro _ s₁ hs₁ _ _
    exact .pure hs₁ (by rw [hr]; rfl)
  · next hn => exact .pure hs (by rw [hn]; rfl)

/-- Composition keywords, which only the records of definitions may have, are converted where no
record is under construction. -/
theorem object_record_orderly (hnode : NodeOrderly node) (name ns : String) (o : Object)
    (hs : Orderly s) (htop : hasComposition (unconditional o) = true → s.frames = []) :
    StaysOrderly (objectRecord node name ns o scope) s fun t s' =>
      ∀ u, t = some u → ∃ r, u = .record r ∧ RecordMade r s' := by
  unfold objectRecord
  refine .bind (without_conditionals_orderly o hs) ?_
  rintro o' s₁ hs₁ hg₁ rfl
  split
  · next hc =>
    refine .bind (composition_record_orderly hnode name ns _ hs₁ (hg₁.frames.trans (htop hc))) ?_
    rintro _ s₂ hs₂ hg₂ ⟨r, rfl, hfields, honce⟩
    refine .pure hs₂ fun u hu => ?_
    obtain rfl := Option.some.inj hu
    exact ⟨r, rfl, .of_fields hfields honce⟩
  · refine .bind (.get hs₁) ?_
    rintro _ _ - - ⟨rfl, rfl⟩
    split
    · next f hf =>
      have hname : f.name = Name.ofText name := by simpa using List.find?_some hf
      have hlegal := hs₁.frames f (List.mem_of_find?_eq_some hf)
      rw [← hname]
      refine .pure hs₁ fun u hu => ?_
      obtain rfl := Option.some.inj hu
      obtain ⟨r, hr, hnone⟩ := cycle_record_record f ns
      refine ⟨r, hr, ⟨?_, hnone ▸ List.nodup_nil, fun hempty => ?_⟩⟩
      · exact hr ▸ cycle_record_listed hlegal ns
      · simp [Frames.find?, hempty] at hf
    · refine StaysOrderly.within (f := ⟨Name.ofText name, ns⟩) hs₁ (of_text_idem name) ?_
      intro s₀ hs₀
      refine (build_record_orderly hnode _ ns _ hs₀).imp ?_
      intro t s₃ hs₃ hg₃ ht s' he u hu
      obtain ⟨r, rfl, hfields, honce⟩ := ht u hu
      exact ⟨r, rfl, .of_fields (hfields.mono he (List.Subset.refl _)) honce⟩

end Record

end AvroDerive.Convert
