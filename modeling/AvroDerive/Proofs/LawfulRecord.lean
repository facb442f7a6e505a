import AvroDerive.Proofs.Law

/-! # Records are lawful

If the nodes inside are converted lawfully, all fields of a record have legal names and good types. -/
namespace AvroDerive.Convert

open AvroType Json Schema

/-- If there is a type it is good. -/
def Law.MaybeGood {cfg : Setting} (L : Law cfg) (t : Option AvroType) : Prop := ∀ u ∈ t, L.Good u

/-- Nodes are converted lawfully where the law admits it. -/
def NodeLawful {cfg : Setting} (L : Law cfg) (node : NodeConverter) : Prop :=
  ∀ schema scope, L.spot ⟨schema, scope⟩ → BuildsLawful L (node schema scope) L.MaybeGood

/-- The fields have legal names and good types. -/
def Law.GoodFields {cfg : Setting} (L : Law cfg) (fields : List (Field AvroType)) : Prop :=
  ∀ f ∈ fields, Name.isLegal f.name = true ∧ L.Good f.type

section Record

variable {cfg : Setting} {L : Law cfg} {node : NodeConverter} {scope : Scope} {o : Object}

theorem good_fields_nil : L.GoodFields [] := by simp [Law.GoodFields]

theorem good_fields_cons {f : Field AvroType} {fields : List (Field AvroType)} :
    L.GoodFields (f :: fields) ↔ (Name.isLegal f.name = true ∧ L.Good f.type) ∧
      L.GoodFields fields :=
  List.forall_mem_cons

theorem good_fields_append {fields more : List (Field AvroType)} :
    L.GoodFields (fields ++ more) ↔ L.GoodFields fields ∧ L.GoodFields more :=
  List.forall_mem_append

theorem good_fields_single {f : Field AvroType} (hn : Name.isLegal f.name = true)
    (ht : L.Good f.type) : L.GoodFields [f] :=
  good_fields_cons.mpr ⟨⟨hn, ht⟩, good_fields_nil⟩

/-- A record is a draft if its name is legal and its fields are good. -/
theorem draft_record {r : Record AvroType} :
    L.Draft (.record r) ↔ Name.isLegal r.name = true ∧ L.GoodFields r.fields := by
  rw [Law.Draft, inside_record, Regular, and_assoc, Law.GoodFields, ← forall₂_and]
  rfl

theorem property_fields_lawful (hnode : NodeLawful L node) (required : List String)
    {properties : List (String × Json)}
    (hspot : ∀ m ∈ properties, L.spot ⟨m.2, scope.forField m.1⟩) :
    BuildsLawful L (propertyFields node required scope properties) L.GoodFields := by
  induction properties with
  | nil =>
    rw [propertyFields]
    exact .pure good_fields_nil
  | cons m properties ih =>
    obtain ⟨name, schema⟩ := m
    rw [List.forall_mem_cons] at hspot
    have field : BuildsLawful L (do
        let t := orGeneric (← node schema (scope.forField name))
        let field : Field AvroType :=
          { name := Name.ofText name
            type := if name ∈ required then t else makeNullable t
            doc := schema.asObject?.bind description? }
        return field :: (← propertyFields node required scope properties)) L.GoodFields := by
      refine .bind (hnode _ _ hspot.1) ?_
      intro t ht
      refine .bind (ih hspot.2) ?_
      intro fields hfields
      refine .pure (good_fields_cons.mpr ⟨⟨Name.isLegal_ofText name, ?_⟩, hfields⟩)
      dsimp only
      split
      · exact Law.good_or_generic ht
      · exact Law.good_nullable (Law.good_or_generic ht)
    cases schema with
    | obj o => exact field
    | bool b => exact field
    | _ => exact ih hspot.2

theorem additional_field_lawful (hnode : NodeLawful L node) {name : String}
    (hname : Name.isLegal name = true) (hspot : ∀ schema, Object.get? o "additionalProperties" =
      some schema → L.spot ⟨schema, scope.forField (scope.record ++ "_extensions")⟩) :
    BuildsLawful L (additionalField node name scope o) L.GoodFields := by
  unfold additionalField
  split
  · next schema hschema =>
    refine .bind (hnode _ _ (hspot _ hschema)) ?_
    intro t ht
    exact .pure (good_fields_single hname (Law.good_useful ht).map)
  · exact .pure good_fields_nil

theorem pattern_fields_lawful (hnode : NodeLawful L node) {patterns : List (String × Json)}
    (hspot : ∀ m ∈ patterns, L.spot ⟨m.2, scope.forField (patternName m.1)⟩) :
    BuildsLawful L (patternFields node scope patterns) L.GoodFields := by
  induction patterns with
  | nil =>
    rw [patternFields]
    exact .pure good_fields_nil
  | cons m patterns ih =>
    rw [List.forall_mem_cons] at hspot
    rw [patternFields]
    refine .bind (hnode _ _ hspot.1) ?_
    intro t ht
    refine .bind (ih hspot.2) ?_
    intro fields hfields
    exact .pure (good_fields_cons.mpr
      ⟨⟨Name.isLegal_ofText _, (Law.good_useful ht).map⟩, hfields⟩)

theorem values_field_lawful (hnode : NodeLawful L node)
    (hspot : ∀ items, Object.get? o "items" = some items →
      L.spot ⟨items, scope.forField "values"⟩) :
    BuildsLawful L (valuesField node scope o) L.GoodFields := by
  have legal : Name.isLegal "values" = true := by decide
  unfold valuesField
  split
  · exact .pure (good_fields_single legal Law.good_generic.map)
  · split
    · split
      · next items hitems =>
        refine .bind (hnode _ _ (hspot items hitems)) ?_
        intro t ht
        exact .pure (good_fields_single legal (Law.good_or_generic ht).array)
      · exact .pure (good_fields_single legal Law.good_generic.array)
    · exact .pure good_fields_nil

theorem record_fields_lawful (hnode : NodeLawful L node)
    (hspot : ∀ q ∈ fieldSpots scope o, L.spot q) :
    BuildsLawful L (recordFields node scope o) L.GoodFields := by
  simp only [fieldSpots, List.forall_mem_append, List.forall_mem_map] at hspot
  obtain ⟨⟨⟨hproperty, hadditional⟩, hpattern⟩, hitems⟩ := hspot
  have additional : ∀ schema, Object.get? o "additionalProperties" = some schema →
      L.spot ⟨schema, scope.forField (scope.record ++ "_extensions")⟩ :=
    fun schema h => hadditional schema (Option.mem_toList.mpr h)
  unfold recordFields
  split
  · next property properties hp =>
    rw [hp] at hproperty
    refine .bind (property_fields_lawful hnode _ hproperty) ?_
    intro fields hfields
    refine .bind (additional_field_lawful hnode (by decide) additional) ?_
    intro more hmore
    refine .bind (pattern_fields_lawful hnode hpattern) ?_
    intro patterns hpatterns
    exact .pure (good_fields_append.mpr ⟨good_fields_append.mpr ⟨hfields, hmore⟩, hpatterns⟩)
  · refine .bind (additional_field_lawful hnode (by decide) additional) ?_
    intro more hmore
    refine .bind (pattern_fields_lawful hnode hpattern) ?_
    intro patterns hpatterns
    dsimp only
    split
    · exact values_field_lawful hnode fun items h => hitems items (Option.mem_toList.mpr h)
    · exact .pure (good_fields_append.mpr ⟨hmore, hpatterns⟩)

/-- If there is a type it is a record, and good but for its own origin. -/
def Law.DraftRecord (L : Law cfg) (t : AvroType) : Prop := t.isRecord = true ∧ L.Draft t

theorem draft_record_of {r : Record AvroType} (hn : Name.isLegal r.name = true)
    (hf : L.GoodFields r.fields) : L.DraftRecord (.record r) :=
  ⟨rfl, draft_record.mpr ⟨hn, hf⟩⟩

theorem build_record_lawful (hnode : NodeLawful L node) {name ns : String}
    (hname : Name.isLegal name = true) (hspot : ∀ q ∈ fieldSpots (scope.forRecord name ns) o, L.spot q) :
    Lawful L (buildRecord node name ns o scope) fun t => ∀ u ∈ t, L.DraftRecord u := by
  unfold buildRecord
  refine .bind (.apart (record_fields_lawful hnode hspot)) ?_
  rintro ⟨fields, names⟩ hfields
  dsimp only
  split
  · exact .pure (by simp)
  · refine .pure fun u hu => ?_
    obtain rfl := Option.some.inj hu
    exact draft_record_of hname hfields

theorem cycle_record_draft {name : String} (hname : Name.isLegal name = true) (ns : String)
    (target : Frame) : L.DraftRecord (cycleRecord name ns target) :=
  draft_record_of (Name.isLegal_ofText _) (good_fields_single hname (Law.good_reference _))

theorem composition_record_lawful (hnode : NodeLawful L node) {name ns : String}
    (hspot : L.spot ⟨.obj o, (scope.forRecord name ns).forField "value"⟩) :
    Lawful L (compositionRecord node name ns o scope) L.DraftRecord := by
  have legal : Name.isLegal "value" = true := by decide
  unfold compositionRecord
  refine .bind (.apart (hnode _ _ hspot)) ?_
  rintro ⟨converted, names⟩ hconverted
  refine .pure ?_
  split
  · next r =>
    have hr : L.Draft (.record r) := (hconverted _ rfl).draft
    exact draft_record_of (Name.isLegal_ofText name) (draft_record.mp hr).2
  · exact draft_record_of (Name.isLegal_ofText name)
      (good_fields_single legal (Law.good_or_generic hconverted))

theorem without_conditionals_lawful (o : Object) :
    Lawful L (Convert.withoutConditionals o) fun o' => o' = unconditional o := by
  unfold Convert.withoutConditionals unconditional
  split
  · next rest hr =>
    refine .bind (.warn _) ?_
    intro _ _
    exact .pure (by rw [hr, Option.getD_some])
  · next hn => exact .pure (by rw [hn, Option.getD_none])

theorem object_record_lawful (hnode : NodeLawful L node) {name ns : String}
    (hspot : ∀ q ∈ recordSpots scope name ns o, L.spot q) :
    Lawful L (objectRecord node name ns o scope) fun t => ∀ u ∈ t, L.DraftRecord u := by
  unfold recordSpots at hspot
  unfold objectRecord
  refine .bind (without_conditionals_lawful o) ?_
  rintro _ rfl
  split
  · next hc =>
    rw [if_pos hc, List.forall_mem_singleton] at hspot
    refine .bind (composition_record_lawful hnode hspot) ?_
    intro t ht
    refine .pure fun u hu => ?_
    obtain rfl := Option.some.inj hu
    exact ht
  · next hc =>
    rw [if_neg hc] at hspot
    refine .bind .get ?_
    intro s _
    split
    · next frame _ =>
      refine .pure fun u hu => ?_
      obtain rfl := Option.some.inj hu
      exact cycle_record_draft (Name.isLegal_ofText name) ns frame
    · exact .within (build_record_lawful hnode (Name.isLegal_ofText name) hspot)

end Record

end AvroDerive.Convert
