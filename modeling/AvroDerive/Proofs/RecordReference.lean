import AvroDerive.Proofs.Building

/-! # References in records

A record is built from nodes inside it. While it is under construction its name is anchored, and a
record that closes a cycle refers to a name that is. -/
namespace AvroDerive.Convert

open AvroType Json Schema

section

variable (cfg : Setting) (j : Json)

/-- A converter keeps states sound and gives types with fine references. -/
def NodeSound (node : NodeConverter) : Prop :=
  ∀ pending schema scope names s, Sound cfg j pending s → SoundScope cfg j pending s scope →
    SchemaIn (Written cfg j) schema →
    Builds cfg j pending (node schema scope) names s (MaybeBuilt cfg j pending)

/-- The types of the fields are fine apart from the record. -/
def FieldsBuilt (pending : String → Prop) (fields : List (Field AvroType)) (names : List String)
    (s : State) : Prop :=
  ∀ f ∈ fields, f.type.AllRefer (Fine cfg j pending s names) none

end

section Record

variable {cfg : Setting} {j : Json} {pending : String → Prop} {s s' : State}
  {names names' : List String} {scope : Scope} {node : NodeConverter}

theorem FieldsBuilt.mono {fields : List (Field AvroType)}
    (h : FieldsBuilt cfg j pending fields names s) (hg : Grows s s') (hn : names ⊆ names') :
    FieldsBuilt cfg j pending fields names' s' :=
  fun f hf => (h f hf).imp fun _ _ h => h.mono hg.toExtends hn

theorem fields_built_append {fields more : List (Field AvroType)}
    (h : FieldsBuilt cfg j pending fields names s) (hm : FieldsBuilt cfg j pending more names s) :
    FieldsBuilt cfg j pending (fields ++ more) names s :=
  List.forall_mem_append.mpr ⟨h, hm⟩

theorem or_generic_refer {t : Option AvroType}
    (h : MaybeBuilt cfg j pending t names s) :
    (orGeneric t).AllRefer (Fine cfg j pending s names) none := by
  cases t with
  | none => exact generic_refer
  | some u => exact (h u rfl).refer

theorem useful_or_generic_built {t : Option AvroType}
    (h : MaybeBuilt cfg j pending t names s) :
    Built cfg j pending (usefulOrGeneric t) names s :=
  useful_or_generic (p := fun u => Built cfg j pending u names s) built_generic h

theorem property_fields_builds (hnode : NodeSound cfg j node) (required : List String)
    (properties : List (String × Json)) (hp : ∀ m ∈ properties, TextsIn (Written cfg j) m.2)
    (hs : Sound cfg j pending s) (hscope : SoundScope cfg j pending s scope) :
    Builds cfg j pending (propertyFields node required scope properties) names s
      (FieldsBuilt cfg j pending) := by
  induction properties generalizing s names with
  | nil =>
    rw [propertyFields]
    exact .pure hs (by simp [FieldsBuilt])
  | cons m properties ih =>
    obtain ⟨name, schema⟩ := m
    rw [List.forall_mem_cons] at hp
    have field : Builds cfg j pending (do
        let t := orGeneric (← node schema (scope.forField name))
        let field : Field AvroType :=
          { name := Name.ofText name
            type := if name ∈ required then t else makeNullable t
            doc := schema.asObject?.bind description? }
        return field :: (← propertyFields node required scope properties)) names s
        (FieldsBuilt cfg j pending) := by
      refine .bind (hnode _ _ _ _ _ hs (hscope.for_field name) (schema_in hp.1)) ?_
      intro t names₁ s₁ hs₁ hg₁ hn₁ ht
      refine .bind (ih hp.2 hs₁ (hscope.mono hg₁)) ?_
      intro fields names₂ s₂ hs₂ hg₂ hn₂ hfields
      refine .pure hs₂ ?_
      rw [FieldsBuilt, List.forall_mem_cons]
      refine ⟨?_, hfields⟩
      have hrefer := (or_generic_refer ht).imp fun _ _ h => Fine.mono hg₂.toExtends hn₂ h
      simp only
      split
      · exact hrefer
      · exact nullable_refer hrefer
    cases schema with
    | obj o => exact field
    | bool b => exact field
    | _ => exact ih hp.2 hs hscope

theorem additional_field_builds (hnode : NodeSound cfg j node) (name : String) {o : Object}
    (ho : ObjectIn (Written cfg j) o) (hs : Sound cfg j pending s)
    (hscope : SoundScope cfg j pending s scope) :
    Builds cfg j pending (additionalField node name scope o) names s
      (FieldsBuilt cfg j pending) := by
  unfold additionalField
  split
  · next schema hg =>
    have hschema := ho.get (by decide) hg
    refine .bind (hnode _ _ _ _ _ hs (hscope.for_field _) (schema_in hschema)) ?_
    intro t names₁ s₁ hs₁ hg₁ hn₁ ht
    refine .pure hs₁ ?_
    rw [FieldsBuilt, List.forall_mem_singleton]
    exact all_refer_map.mpr (useful_or_generic_built ht).refer
  · exact .pure hs (by simp [FieldsBuilt])

theorem pattern_fields_builds (hnode : NodeSound cfg j node)
    (patterns : List (String × Json)) (hp : ∀ m ∈ patterns, TextsIn (Written cfg j) m.2)
    (hs : Sound cfg j pending s) (hscope : SoundScope cfg j pending s scope) :
    Builds cfg j pending (patternFields node scope patterns) names s
      (FieldsBuilt cfg j pending) := by
  induction patterns generalizing s names with
  | nil =>
    rw [patternFields]
    exact .pure hs (by simp [FieldsBuilt])
  | cons m patterns ih =>
    obtain ⟨pattern, schema⟩ := m
    rw [List.forall_mem_cons] at hp
    rw [patternFields]
    refine .bind (hnode _ _ _ _ _ hs (hscope.for_field _) (schema_in hp.1)) ?_
    intro t names₁ s₁ hs₁ hg₁ hn₁ ht
    refine .bind (ih hp.2 hs₁ (hscope.mono hg₁)) ?_
    intro fields names₂ s₂ hs₂ hg₂ hn₂ hfields
    refine .pure hs₂ ?_
    rw [FieldsBuilt, List.forall_mem_cons]
    refine ⟨?_, hfields⟩
    exact all_refer_map.mpr ((useful_or_generic_built ht).mono hg₂ hn₂).refer

/-- The members of an object under a key other than `type`. -/
theorem members_texts {w : String → Prop} {o members : Object} (ho : ObjectIn w o) {key : String}
    (hk : key ≠ "type") (h : (Object.get? o key).bind asObject? = some members) :
    ∀ m ∈ members, TextsIn w m.2 := by
  obtain ⟨v, hg, hv⟩ := Option.bind_eq_some_iff.mp h
  have htexts := ho.get hk hg
  cases v with
  | obj members' =>
    obtain rfl := Option.some.inj hv
    exact texts_in_obj.mp htexts
  | _ => simp [asObject?] at hv

theorem patterns_texts {w : String → Prop} {o : Object} (ho : ObjectIn w o) :
    ∀ m ∈ patternsOf o, TextsIn w m.2 := by
  unfold patternsOf
  cases h : (Object.get? o "patternProperties").bind asObject? with
  | none => simp
  | some members => exact members_texts ho (by decide) h

theorem values_field_builds (hnode : NodeSound cfg j node) {o : Object}
    (ho : ObjectIn (Written cfg j) o) (hs : Sound cfg j pending s)
    (hscope : SoundScope cfg j pending s scope) :
    Builds cfg j pending (valuesField node scope o) names s (FieldsBuilt cfg j pending) := by
  unfold valuesField
  split
  · refine .pure hs ?_
    rw [FieldsBuilt, List.forall_mem_singleton]
    exact all_refer_map.mpr generic_refer
  · split
    · split
      · next items hg =>
        have hitems := ho.get (by decide) hg
        refine .bind (hnode _ _ _ _ _ hs (hscope.for_field _) (schema_in hitems)) ?_
        intro t names₁ s₁ hs₁ hg₁ hn₁ ht
        refine .pure hs₁ ?_
        rw [FieldsBuilt, List.forall_mem_singleton]
        exact all_refer_array.mpr (or_generic_refer ht)
      · refine .pure hs ?_
        rw [FieldsBuilt, List.forall_mem_singleton]
        exact all_refer_array.mpr generic_refer
    · exact .pure hs (by simp [FieldsBuilt])

theorem record_fields_builds (hnode : NodeSound cfg j node) {o : Object}
    (ho : ObjectIn (Written cfg j) o) (hs : Sound cfg j pending s)
    (hscope : SoundScope cfg j pending s scope) :
    Builds cfg j pending (recordFields node scope o) names s (FieldsBuilt cfg j pending) := by
  unfold recordFields
  split
  · next property properties hp =>
    refine .bind (property_fields_builds hnode _ _ (members_texts ho (by decide) hp) hs hscope) ?_
    intro fields names₁ s₁ hs₁ hg₁ hn₁ hfields
    refine .bind (additional_field_builds hnode _ ho hs₁ (hscope.mono hg₁)) ?_
    intro additional names₂ s₂ hs₂ hg₂ hn₂ hadditional
    refine .bind (pattern_fields_builds hnode _ (patterns_texts ho) hs₂
      (hscope.mono (hg₁.trans hg₂))) ?_
    intro patterns names₃ s₃ hs₃ hg₃ hn₃ hpatterns
    refine .pure hs₃ ?_
    exact fields_built_append (fields_built_append
      (hfields.mono (hg₂.trans hg₃) (List.Subset.trans hn₂ hn₃))
      (hadditional.mono hg₃ hn₃)) hpatterns
  · refine .bind (additional_field_builds hnode _ ho hs hscope) ?_
    intro additional names₂ s₂ hs₂ hg₂ hn₂ hadditional
    refine .bind (pattern_fields_builds hnode _ (patterns_texts ho) hs₂ (hscope.mono hg₂)) ?_
    intro patterns names₃ s₃ hs₃ hg₃ hn₃ hpatterns
    dsimp only
    split
    · exact values_field_builds hnode ho hs₃ (hscope.mono (hg₂.trans hg₃))
    · exact .pure hs₃ (fields_built_append (hadditional.mono hg₃ hn₃) hpatterns)

/-- The own name of a record is given, its fields are fine apart from it, and it lists the names
they depend on. -/
structure RecordBuilt (cfg : Setting) (j : Json) (pending : String → Prop) (qualified : String)
    (s : State) (r : Record AvroType) : Prop where
  qualified : qualify r.ns r.name = qualified
  fields : FieldsBuilt cfg j pending r.fields r.dependencies s

theorem qualify_empty (name ns : String) :
    qualify (Record.empty name ns : Record AvroType).ns name = qualify (some ns) name := by
  by_cases h : ns = "" <;> simp [Record.empty, qualify, h]

theorem qualify_inj {ns : Option String} {a b : String} (h : qualify ns a = qualify ns b) :
    a = b := by
  cases ns with
  | none => exact h
  | some ns =>
    by_cases hns : ns = ""
    · simpa [qualify, hns] using h
    · simpa [qualify, hns, String.append_right_inj] using h

theorem build_record_runs (hnode : NodeSound cfg j node) {name ns : String} {o : Object}
    (ho : ObjectIn (Written cfg j) o) (hs : Sound cfg j pending s)
    (hscope : SoundScope cfg j pending s scope)
    (ha : Anchored cfg j pending s (qualify (some ns) (Name.ofText name))) :
    Runs cfg j pending (buildRecord node name ns o scope) s fun t s' =>
      ∀ u, t = some u → ∃ r, u = .record r ∧
        RecordBuilt cfg j pending (qualify (some ns) name) s' r := by
  unfold buildRecord
  refine .bind (.apart (record_fields_builds hnode ho hs (hscope.for_record ha))) ?_
  rintro ⟨fields, names⟩ s₁ hs₁ hg₁ hfields
  dsimp only at hfields ⊢
  split
  · exact .pure hs₁ (by simp)
  · refine .pure hs₁ fun u hu => ?_
    obtain rfl := Option.some.inj hu
    refine ⟨_, rfl, qualify_empty name ns, ?_⟩
    exact hfields.mono (.refl _) fun n hn => mem_distinct.mpr hn

theorem legal_append {a b : String} (ha : Name.isLegal a = true)
    (hb : b.toList.all Name.isPart = true) : Name.isLegal (a ++ b) = true := by
  unfold Name.isLegal at ha ⊢
  rw [String.toList_append]
  cases hl : a.toList with
  | nil => simp [hl, Name.isLegalChars] at ha
  | cons c rest =>
    rw [hl, Name.isLegalChars, Bool.and_eq_true] at ha
    rw [List.cons_append, Name.isLegalChars, Bool.and_eq_true, List.all_append,
      Bool.and_eq_true]
    exact ⟨ha.1, ha.2, hb⟩

theorem of_text_idem (text : String) : Name.ofText (Name.ofText text) = Name.ofText text :=
  Name.ofText_of_isLegal (Name.isLegal_ofText text)

theorem cycle_record_eq (f : Frame) (ns : String) : cycleRecord f.name ns f = .record
    ((Record.empty (Name.ofText (f.name ++ "_ref")) ns).pushField f.name
      (.reference f.qualifiedName)) := rfl

/-- The reference of a record for a cycle closes it. -/
theorem cycle_record_refer {f : Frame} (hf : Name.ofText f.name = f.name)
    (ha : Anchored cfg j pending s f.qualifiedName) (ns : String) :
    (cycleRecord f.name ns f).AllRefer (Fine cfg j pending s names) none := by
  have legal : Name.isLegal f.name = true := hf ▸ Name.isLegal_ofText f.name
  have hname : Name.ofText (f.name ++ "_ref") = f.name ++ "_ref" :=
    Name.ofText_of_isLegal (legal_append legal (by decide))
  simp only [cycle_record_eq, Record.pushField, Record.empty, hname, all_refer_record,
    List.nil_append, List.forall_mem_singleton, all_refer_reference]
  refine Or.inr ⟨⟨"", f.name, "", f.ns, ?_, rfl⟩, ha⟩
  simp

theorem composition_record_runs (hnode : NodeSound cfg j node) {name ns : String} {o : Object}
    (ho : ObjectIn (Written cfg j) o) (hs : Sound cfg j pending s) (htop : s.frames = [])
    (hscope : SoundScope cfg j pending s scope)
    (ha : Anchored cfg j pending s (qualify (some ns) (Name.ofText name))) :
    Runs cfg j pending (compositionRecord node name ns o scope) s fun u s' =>
      ∃ r, u = .record r ∧
        RecordBuilt cfg j pending (qualify (some ns) (Name.ofText name)) s' r := by
  unfold compositionRecord
  have inner := (hscope.for_record ha).for_field "value"
  refine .bind (.apart (hnode _ _ _ _ _ hs inner ho)) ?_
  rintro ⟨converted, names⟩ s₁ hs₁ hg₁ hconverted
  dsimp only at hconverted ⊢
  refine .pure hs₁ ?_
  have all : ∀ deps : List String, names ⊆ addAll deps names :=
    fun deps n hn => mem_addAll.mpr (Or.inr hn)
  split
  · next r =>
    have htop₁ : s₁.frames = [] := hg₁.frames.trans htop
    refine ⟨_, rfl, qualify_empty _ ns, fun f hf => ?_⟩
    exact ((hconverted _ rfl).top htop₁ r rfl f hf).imp fun _ _ h => h.mono (.refl _) (all _)
  · refine ⟨_, rfl, qualify_empty _ ns, ?_⟩
    simp only [FieldsBuilt, Record.pushField, Record.empty, List.nil_append,
      List.forall_mem_singleton]
    exact (or_generic_refer hconverted).imp fun _ _ h => h.mono (.refl _) (all _)

theorem RecordBuilt.extend {qualified : String} {r : Record AvroType}
    (h : RecordBuilt cfg j pending qualified s r) (he : Extends s s') :
    RecordBuilt cfg j pending qualified s' r :=
  ⟨h.qualified, fun f hf => (h.fields f hf).imp fun _ _ h => h.mono he (List.Subset.refl _)⟩

theorem without_conditionals_yields {o o' : Object}
    (h : (withoutConditionals o).Yields s o' s') : o' = unconditional o ∧ Quiet s s' := by
  unfold unconditional
  unfold Convert.withoutConditionals at h
  split at h
  · next rest hr =>
    obtain ⟨_, s₁, hw, hp⟩ := Run.yields_bind.mp h
    obtain rfl := Run.yields_warn.mp hw
    obtain ⟨rfl, rfl⟩ := Run.yields_pure.mp hp
    exact ⟨by rw [hr]; rfl, _, rfl⟩
  · next hn =>
    obtain ⟨rfl, rfl⟩ := Run.yields_pure.mp h
    exact ⟨by rw [hn]; rfl, .refl _⟩

/-- Dropping the conditional keywords of a schema does no more than give a warning. -/
theorem without_conditionals_eq (o : Object) : Convert.withoutConditionals o =
    Run.warnAll (if (withoutConditionals? o).isSome then [.conditional] else []) >>=
      fun _ => pure (unconditional o) := by
  unfold Convert.withoutConditionals unconditional
  cases h : withoutConditionals? o with
  | some rest => rfl
  | none =>
    funext s
    show (Except.ok o, s) = (Except.ok o, { s with warnings := s.warnings ++ [] })
    rw [List.append_nil]

theorem unconditional_in {w : String → Prop} {o : Object} (ho : ObjectIn w o) :
    ObjectIn w (unconditional o) := by
  unfold unconditional
  cases h : withoutConditionals? o with
  | none => exact ho
  | some rest => exact without_conditionals_in ho h

theorem without_conditionals_runs {o : Object} (ho : ObjectIn (Written cfg j) o)
    (hs : Sound cfg j pending s) : Runs cfg j pending (Convert.withoutConditionals o) s
      fun o' _ => o' = unconditional o ∧ ObjectIn (Written cfg j) o' := by
  intro o' s' hy
  obtain ⟨rfl, hq⟩ := without_conditionals_yields hy
  exact ⟨hq.sound hs, hq.grows, rfl, unconditional_in ho⟩

/-- Composition keywords, which only the records of definitions may have, are converted where no
record is under construction. -/
theorem object_record_runs (hnode : NodeSound cfg j node) {name ns : String} {o : Object}
    (ho : ObjectIn (Written cfg j) o) (hs : Sound cfg j pending s)
    (htop : hasComposition (unconditional o) = true → s.frames = [])
    (hscope : SoundScope cfg j pending s scope)
    (ha : Anchored cfg j pending s (qualify (some ns) (Name.ofText name))) :
    Runs cfg j pending (objectRecord node name ns o scope) s fun t s' => ∀ u, t = some u →
      ∃ r, u = .record r ∧ Built cfg j pending u r.dependencies s' := by
  unfold objectRecord
  refine .bind (without_conditionals_runs ho hs) ?_
  rintro o' s₁ hs₁ hg₁ ⟨rfl, ho'⟩
  have ha₁ := ha.mono hg₁.toExtends
  split
  · next hc =>
    refine .bind (composition_record_runs hnode ho' hs₁ (hg₁.frames.trans (htop hc))
      (hscope.mono hg₁) ha₁) ?_
    rintro _ s₂ hs₂ hg₂ ⟨r, rfl, hr⟩
    refine .pure hs₂ fun u hu => ?_
    obtain rfl := Option.some.inj hu
    exact ⟨r, rfl, .of_fields hr.fields⟩
  · refine .bind (.get hs₁) ?_
    rintro _ _ - - ⟨rfl, rfl⟩
    split
    · next f hf =>
      have hname : f.name = Name.ofText name := by simpa using List.find?_some hf
      obtain ⟨hlegal, hanchor⟩ := hs₁.frames f (List.mem_of_find?_eq_some hf)
      rw [← hname]
      refine .pure hs₁ fun u hu => ?_
      obtain rfl := Option.some.inj hu
      refine ⟨_, cycle_record_eq f ns, cycle_record_refer hlegal hanchor ns, fun hempty => ?_⟩
      simp [Frames.find?, hempty] at hf
    · refine Runs.within (f := ⟨Name.ofText name, ns⟩) hs₁ (of_text_idem name) ha₁ ?_
      intro s₀ hs₀ he₀
      have ha₀ : Anchored cfg j pending s₀
          (qualify (some ns) (Name.ofText (Name.ofText name))) := by
        rw [of_text_idem]
        exact ha₁.mono he₀
      refine (build_record_runs hnode ho' hs₀ ((hscope.mono hg₁).extend he₀) ha₀).imp ?_
      intro t s₃ hs₃ hg₃ ht s' he u hu
      obtain ⟨r, rfl, hr⟩ := ht u hu
      exact ⟨r, rfl, .of_fields (hr.extend he).fields⟩

theorem additional_field_nil {name : String} {o : Object}
    (h : (additionalField node name scope o).Yields names s [] names' s') : s' = s := by
  unfold additionalField at h
  split at h
  · obtain ⟨t, names₁, s₁, -, hp⟩ := Build.yields_bind.mp h
    simp at hp
  · exact (Build.yields_pure.mp h).2.2

theorem pattern_fields_nil {patterns : List (String × Json)}
    (h : (patternFields node scope patterns).Yields names s [] names' s') : s' = s := by
  cases patterns with
  | nil => exact (Build.yields_pure.mp h).2.2
  | cons m patterns =>
    obtain ⟨t, names₁, s₁, -, h⟩ := Build.yields_bind.mp h
    obtain ⟨fields, names₂, s₂, -, hp⟩ := Build.yields_bind.mp h
    simp at hp

theorem values_field_nil {o : Object}
    (h : (valuesField node scope o).Yields names s [] names' s') : s' = s := by
  unfold valuesField at h
  split at h
  · simp at h
  · split at h
    · split at h
      · obtain ⟨t, names₁, s₁, -, hp⟩ := Build.yields_bind.mp h
        simp at hp
      · simp at h
    · exact (Build.yields_pure.mp h).2.2

theorem property_fields_nil {required : List String} {properties : List (String × Json)}
    (h : (propertyFields node required scope properties).Yields names s [] names' s') :
    s' = s := by
  induction properties generalizing s names with
  | nil => exact (Build.yields_pure.mp h).2.2
  | cons m properties ih =>
    obtain ⟨name, schema⟩ := m
    have field : ∀ {x : Build (Option AvroType)} {f : Option AvroType → Field AvroType},
        ¬(do
          let t ← x
          return f t :: (← propertyFields node required scope properties) :
            Build (List (Field AvroType))).Yields names s [] names' s' := by
      intro x f h
      obtain ⟨t, names₁, s₁, -, hrest⟩ := Build.yields_bind.mp h
      obtain ⟨fields, names₂, s₂, -, hp⟩ := Build.yields_bind.mp hrest
      simp at hp
    cases schema with
    | obj o => exact absurd h field
    | bool b => exact absurd h field
    | _ => exact ih h

/-- Nothing is converted for a record that holds no fields. -/
theorem record_fields_nil {o : Object}
    (h : (recordFields node scope o).Yields names s [] names' s') : s' = s := by
  unfold recordFields at h
  split at h
  · obtain ⟨fields, names₁, s₁, hfields, hrest⟩ := Build.yields_bind.mp h
    obtain ⟨additional, names₂, s₂, hadditional, hmore⟩ := Build.yields_bind.mp hrest
    obtain ⟨patterns, names₃, s₃, hpatterns, hp⟩ := Build.yields_bind.mp hmore
    obtain ⟨hnil, -, rfl⟩ := Build.yields_pure.mp hp
    rw [eq_comm, List.append_eq_nil_iff, List.append_eq_nil_iff] at hnil
    obtain ⟨⟨rfl, rfl⟩, rfl⟩ := hnil
    rw [pattern_fields_nil hpatterns, additional_field_nil hadditional,
      property_fields_nil hfields]
  · obtain ⟨additional, names₁, s₁, hadditional, hrest⟩ := Build.yields_bind.mp h
    obtain ⟨patterns, names₂, s₂, hpatterns, hvalues⟩ := Build.yields_bind.mp hrest
    dsimp only at hvalues
    split at hvalues
    · next hnone =>
      rw [List.isEmpty_iff, List.append_eq_nil_iff] at hnone
      obtain ⟨rfl, rfl⟩ := hnone
      rw [values_field_nil hvalues, pattern_fields_nil hpatterns,
        additional_field_nil hadditional]
    · next hsome =>
      obtain ⟨hnil, -, -⟩ := Build.yields_pure.mp hvalues
      exact absurd (by rw [← hnil]; rfl) hsome

/-- A record has the fields that its nodes give, and is there if it has fields or lists properties. -/
theorem build_record_yields {name ns : String} {o : Object} {t : Option AvroType}
    (h : (buildRecord node name ns o scope).Yields s t s') :
    ∃ fields names, (recordFields node (scope.forRecord name ns) o).Yields [] s fields names s' ∧
      t = if fields.isEmpty && !((Object.get? o "properties").bind asObject?).any (!·.isEmpty) then
          none
        else some (.record { (Record.empty name ns : Record AvroType) with
          doc := description? o, fields, dependencies := distinct names }) := by
  unfold buildRecord at h
  obtain ⟨⟨fields, names⟩, s₁, hfields, hrest⟩ := Run.yields_bind.mp h
  refine ⟨fields, names, ?_⟩
  dsimp only at hrest
  split at hrest
  · next hempty =>
    obtain ⟨rfl, rfl⟩ := Run.yields_pure.mp hrest
    exact ⟨Build.yields_apart.mp hfields, (if_pos hempty).symm⟩
  · next hsome =>
    obtain ⟨rfl, rfl⟩ := Run.yields_pure.mp hrest
    exact ⟨Build.yields_apart.mp hfields, (if_neg hsome).symm⟩

/-- How an object schema comes to its record: by what its composition gives, by reference to a record
under construction that has the name, or by its own fields. -/
inductive ObjectRecorded (node : NodeConverter) (name ns : String) (o : Object) (scope : Scope)
    (s : State) : Option AvroType → State → Prop
  | composed {t : AvroType} {s₁ s' : State} (composition : hasComposition (unconditional o) = true)
      (quiet : Quiet s s₁)
      (made : (compositionRecord node name ns (unconditional o) scope).Yields s₁ t s') :
      ObjectRecorded node name ns o scope s (some t) s'
  | standIn {f : Frame} {s' : State} (plain : hasComposition (unconditional o) = false)
      (quiet : Quiet s s') (found : Frames.find? s.frames (Name.ofText name) = some f) :
      ObjectRecorded node name ns o scope s (some (cycleRecord (Name.ofText name) ns f)) s'
  | built {t : Option AvroType} {s₁ s₂ : State} (plain : hasComposition (unconditional o) = false)
      (quiet : Quiet s s₁) (new : Frames.find? s.frames (Name.ofText name) = none)
      (made : (buildRecord node (Name.ofText name) ns (unconditional o) scope).Yields
        { s₁ with frames := ⟨Name.ofText name, ns⟩ :: s₁.frames } t s₂) :
      ObjectRecorded node name ns o scope s t { s₂ with frames := s₂.frames.tail }

theorem object_record_recorded {name ns : String} {o : Object} {t : Option AvroType}
    (h : (objectRecord node name ns o scope).Yields s t s') :
    ObjectRecorded node name ns o scope s t s' := by
  unfold objectRecord at h
  obtain ⟨o', s₁, ho, hrest⟩ := Run.yields_bind.mp h
  obtain ⟨rfl, hq⟩ := without_conditionals_yields ho
  split at hrest
  · next hc =>
    obtain ⟨u, s₂, hu, hp⟩ := Run.yields_bind.mp hrest
    obtain ⟨rfl, rfl⟩ := Run.yields_pure.mp hp
    exact .composed hc hq hu
  · next hc =>
    rw [Bool.not_eq_true] at hc
    obtain ⟨_, _, hget, hframe⟩ := Run.yields_bind.mp hrest
    obtain ⟨rfl, rfl⟩ := Run.yields_get.mp hget
    split at hframe
    · next f hf =>
      obtain ⟨rfl, rfl⟩ := Run.yields_pure.mp hframe
      exact .standIn hc hq (hq.grows.frames ▸ hf)
    · next hnew =>
      obtain ⟨s₂, hb, rfl⟩ := Run.yields_within.mp hframe
      exact .built hc hq (hq.grows.frames ▸ hnew) hb

/-- The record of a composition has the name and the namespace. -/
theorem composition_record_yields {name ns : String} {o : Object} {t : AvroType}
    (h : (compositionRecord node name ns o scope).Yields s t s') :
    ∃ r, t = .record r ∧ r.name = Name.ofText name ∧ r.ns = (if ns = "" then none else some ns) := by
  unfold compositionRecord at h
  obtain ⟨⟨converted, names⟩, s₁, -, hp⟩ := Run.yields_bind.mp h
  obtain ⟨rfl, -⟩ := Run.yields_pure.mp hp
  refine ⟨_, rfl, ?_, ?_⟩
  · split
    · rfl
    · rfl
  · split
    · rfl
    · rfl

/-- What becomes of an object schema: a record of the name; or nothing happens, as no fields are
there or the record is under construction already. -/
theorem object_record_cases {name ns : String} {o : Object} {t : Option AvroType}
    (h : (objectRecord node name ns o scope).Yields s t s') :
    (∃ r, t = some (.record r) ∧ r.name = Name.ofText name ∧
        r.ns = (if ns = "" then none else some ns) ∧
        (hasComposition (unconditional o) = false → r.fields = [] → Quiet s s')) ∨
      Quiet s s' ∧ hasComposition (unconditional o) = false ∧
        (t = none ∨ ∃ f ∈ s.frames, f.name = Name.ofText name ∧
          t = some (cycleRecord f.name ns f)) := by
  cases object_record_recorded h with
  | composed hc _ made =>
    obtain ⟨r, rfl, hname, hns⟩ := composition_record_yields made
    exact Or.inl ⟨r, rfl, hname, hns, fun hplain => by simp [hc] at hplain⟩
  | @standIn f _ plain quiet found =>
    have hname : f.name = Name.ofText name := by simpa using List.find?_some found
    refine Or.inr ⟨quiet, plain, Or.inr ⟨f, List.mem_of_find?_eq_some found, hname, ?_⟩⟩
    rw [hname]
  | built plain quiet _ made =>
    obtain ⟨ws, rfl⟩ := quiet
    obtain ⟨fields, names, hfields, rfl⟩ := build_record_yields made
    split
    · next hempty =>
      rw [Bool.and_eq_true, List.isEmpty_iff] at hempty
      obtain rfl := hempty.1
      obtain rfl := record_fields_nil hfields
      exact Or.inr ⟨⟨ws, rfl⟩, plain, Or.inl rfl⟩
    · refine Or.inl ⟨_, rfl, rfl, rfl, fun _ hnil => ?_⟩
      obtain rfl : fields = [] := hnil
      obtain rfl := record_fields_nil hfields
      exact ⟨ws, rfl⟩

end Record

end AvroDerive.Convert
