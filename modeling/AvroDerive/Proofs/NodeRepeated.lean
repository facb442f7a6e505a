import AvroDerive.Proofs.ReferenceRepeated

/-! # Nodes are converted again

Apart from references, a node is converted in the second run as it was in the first one. -/
namespace AvroDerive.Convert

open AvroType Json Schema

section Record

variable {cfg : Setting} {c : Corpus} {final : State} {is : List Import} {scope : Scope}
  {node : NodeConverter}

theorem property_fields_repeat (hnode : NodeRepeats cfg c final node) (required : List String)
    (properties : List (String × Json)) (hp : ∀ m ∈ properties, TextsIn c.written m.2)
    (hscope : c.stands scope.baseUri scope.document) :
    BuildsRepeat cfg c final is List.isEmpty (propertyFields node required scope properties)
      (propertyFields node required scope properties) := by
  induction properties with
  | nil =>
    rw [propertyFields]
    exact .pure rfl
  | cons m properties ih =>
    obtain ⟨name, schema⟩ := m
    rw [List.forall_mem_cons] at hp
    have field : BuildsRepeat cfg c final is List.isEmpty (do
        let t := orGeneric (← node schema (scope.forField name))
        let field : Field AvroType :=
          { name := Name.ofText name
            type := if name ∈ required then t else makeNullable t
            doc := schema.asObject?.bind description? }
        return field :: (← propertyFields node required scope properties)) (do
        let t := orGeneric (← node schema (scope.forField name))
        let field : Field AvroType :=
          { name := Name.ofText name
            type := if name ∈ required then t else makeNullable t
            doc := schema.asObject?.bind description? }
        return field :: (← propertyFields node required scope properties)) := by
      refine .bind (hnode _ _ _ hscope (schema_in hp.1)) ?_
      intro t t' _
      refine .bind (ih hp.2) ?_
      intro fields fields' _
      exact .pure rfl
    cases schema with
    | obj o => exact field
    | bool b => exact field
    | _ => exact ih hp.2

theorem additional_field_repeats (hnode : NodeRepeats cfg c final node) (name : String) {o : Object}
    (ho : ObjectIn c.written o) (hscope : c.stands scope.baseUri scope.document) :
    BuildsRepeat cfg c final is List.isEmpty (additionalField node name scope o)
      (additionalField node name scope o) := by
  unfold additionalField
  split
  · next schema hschema =>
    refine .bind (hnode _ _ _ hscope (schema_in (ho.get (by decide) hschema))) ?_
    intro t t' _
    exact .pure rfl
  · exact .pure rfl

theorem pattern_fields_repeat (hnode : NodeRepeats cfg c final node)
    (patterns : List (String × Json)) (hp : ∀ m ∈ patterns, TextsIn c.written m.2)
    (hscope : c.stands scope.baseUri scope.document) :
    BuildsRepeat cfg c final is List.isEmpty (patternFields node scope patterns)
      (patternFields node scope patterns) := by
  induction patterns with
  | nil =>
    rw [patternFields]
    exact .pure rfl
  | cons m patterns ih =>
    rw [List.forall_mem_cons] at hp
    rw [patternFields]
    refine .bind (hnode _ _ _ hscope (schema_in hp.1)) ?_
    intro t t' _
    refine .bind (ih hp.2) ?_
    intro fields fields' _
    exact .pure rfl

theorem values_field_repeats (hnode : NodeRepeats cfg c final node) {o : Object}
    (ho : ObjectIn c.written o) (hscope : c.stands scope.baseUri scope.document) :
    BuildsRepeat cfg c final is List.isEmpty (valuesField node scope o)
      (valuesField node scope o) := by
  unfold valuesField
  split
  · exact .pure rfl
  · split
    · split
      · next items hitems =>
        refine .bind (hnode _ _ _ hscope (schema_in (ho.get (by decide) hitems))) ?_
        intro t t' _
        exact .pure rfl
      · exact .pure rfl
    · exact .pure rfl

theorem is_empty_append {α : Type} {as as' bs bs' : List α} (ha : as.isEmpty = as'.isEmpty)
    (hb : bs.isEmpty = bs'.isEmpty) : (as ++ bs).isEmpty = (as' ++ bs').isEmpty := by
  cases as with
  | nil => cases as' <;> simp_all
  | cons a as => cases as' <;> simp_all

/-- Whether a record has fields is the same in both runs. -/
theorem record_fields_repeat (hnode : NodeRepeats cfg c final node) {o : Object}
    (ho : ObjectIn c.written o) (hscope : c.stands scope.baseUri scope.document) :
    BuildsRepeat cfg c final is List.isEmpty (recordFields node scope o)
      (recordFields node scope o) := by
  unfold recordFields
  split
  · next property properties hp =>
    refine .bind (property_fields_repeat hnode _ _ (members_texts ho (by decide) hp) hscope) ?_
    intro fields fields' hfields
    refine .bind (additional_field_repeats hnode _ ho hscope) ?_
    intro additional additional' hadditional
    refine .bind (pattern_fields_repeat hnode _ (patterns_texts ho) hscope) ?_
    intro patterns patterns' hpatterns
    exact .pure (is_empty_append (is_empty_append hfields hadditional) hpatterns)
  · refine .bind (additional_field_repeats hnode _ ho hscope) ?_
    intro additional additional' hadditional
    refine .bind (pattern_fields_repeat hnode _ (patterns_texts ho) hscope) ?_
    intro patterns patterns' hpatterns
    have both := is_empty_append hadditional hpatterns
    dsimp only
    rw [both]
    split
    · exact values_field_repeats hnode ho hscope
    · exact .pure both

theorem build_record_repeats (hnode : NodeRepeats cfg c final node) (name ns : String) {o : Object}
    (ho : ObjectIn c.written o) (hscope : c.stands scope.baseUri scope.document) :
    Repeats cfg c final is unseen (buildRecord node name ns o scope)
      (buildRecord node name ns o scope) := by
  unfold buildRecord
  refine .bind (.apart (record_fields_repeat hnode ho hscope)) ?_
  intro r r' hfields
  dsimp only
  rw [hfields]
  split
  · exact .pure rfl
  · exact .pure rfl

theorem composition_record_repeats (hnode : NodeRepeats cfg c final node) (name ns : String)
    {o : Object} (ho : ObjectIn c.written o) (hscope : c.stands scope.baseUri scope.document) :
    Repeats cfg c final is unseen (compositionRecord node name ns o scope)
      (compositionRecord node name ns o scope) := by
  unfold compositionRecord
  refine .bind (.apart (hnode _ _ _ hscope ho)) ?_
  intro r r' _
  exact .pure rfl

theorem object_record_repeats (hnode : NodeRepeats cfg c final node) (name ns : String)
    {o : Object} (ho : ObjectIn c.written o) (hscope : c.stands scope.baseUri scope.document) :
    Repeats cfg c final is unseen (objectRecord node name ns o scope)
      (objectRecord node name ns o scope) := by
  have ho' := unconditional_in ho
  unfold objectRecord
  rw [without_conditionals_eq, bind_assoc]
  refine .bind (.warnAll _ _) ?_
  intro _ _ _
  rw [pure_bind]
  split
  · refine .bind (composition_record_repeats hnode name ns ho' hscope) ?_
    intro t t' _
    exact .pure rfl
  · refine .bind .get ?_
    intro s s' hframes
    rw [hframes]
    split
    · exact .pure rfl
    · exact .within (build_record_repeats hnode _ ns ho' hscope)

end Record

section Node

variable {cfg : Setting} {c : Corpus} {final : State} {is : List Import} {scope : Scope}
  {node : NodeConverter}

theorem primitive_repeats (format : Option String) (values : Option (List Json)) (type : Json) :
    BuildsRepeat cfg c final is unseen (primitive scope format values type)
      (primitive scope format values type) := by
  have still : ∀ names s, ∃ t names',
      (primitive scope format values type).Yields names s t names' s :=
    fun _ _ => ⟨_, _, rfl⟩
  exact .of_still still still

theorem alternative_types_repeat (hnode : NodeRepeats cfg c final node) (candidates : List Json)
    (n : Nat) (hi : ∀ candidate ∈ candidates, SchemaIn c.written candidate)
    (hscope : c.stands scope.baseUri scope.document) :
    BuildsRepeat cfg c final is unseen (alternativeTypes node scope n candidates)
      (alternativeTypes node scope n candidates) := by
  induction candidates generalizing n with
  | nil =>
    rw [alternativeTypes]
    exact .pure rfl
  | cons candidate candidates ih =>
    rw [List.forall_mem_cons] at hi
    rw [alternativeTypes]
    refine .bind (hnode _ _ _ hscope hi.1) ?_
    intro t t' _
    refine .bind (ih _ hi.2) ?_
    intro types types' _
    exact .pure rfl

theorem candidates_type_repeats (hnode : NodeRepeats cfg c final node) (keepEmpty : Bool)
    {candidates : List Json} (hi : ∀ candidate ∈ candidates, SchemaIn c.written candidate)
    (hscope : c.stands scope.baseUri scope.document) :
    BuildsRepeat cfg c final is unseen (candidatesType node keepEmpty scope candidates)
      (candidatesType node keepEmpty scope candidates) := by
  unfold candidatesType
  split
  · rw [List.forall_mem_singleton] at hi
    refine .bind (hnode _ _ _ hscope hi) ?_
    intro t t' _
    exact .pure rfl
  · refine .bind (alternative_types_repeat hnode candidates 0 hi hscope) ?_
    intro types types' _
    split <;> split <;> exact .pure rfl

theorem listed_type_repeats (hnode : NodeRepeats cfg c final node) {types : List Json} {o : Object}
    (ho : ObjectIn c.written o) (htypes : Object.get? o "type" = some (.arr types))
    (hscope : c.stands scope.baseUri scope.document) :
    BuildsRepeat cfg c final is unseen (listedType node types o scope)
      (listedType node types o scope) := by
  unfold listedType
  split
  · have others : ∀ type ∈ types.filter (!isNullName ·),
        SchemaIn c.written (.obj (Object.insert o "type" type)) :=
      fun type hm => with_type_in ho htypes (List.mem_of_mem_filter hm)
    dsimp only
    have finish : ∀ t t' : Option AvroType, BuildsRepeat cfg c final is unseen
        (if types.any isNullName = true then
          pure (t.map fun t => AvroType.unionOf [.null, t]) else pure t)
        (if types.any isNullName = true then
          pure (t'.map fun t => AvroType.unionOf [.null, t]) else pure t') := by
      intro t t'
      split
      · exact .pure rfl
      · exact .pure rfl
    split
    · next single hsingle =>
      rw [hsingle, List.forall_mem_singleton] at others
      exact .bind (hnode _ _ _ hscope others) fun t t' _ => finish t t'
    · exact .bind (candidates_type_repeats hnode false (List.forall_mem_map.mpr others) hscope)
        fun t t' _ => finish t t'
  · refine .bind (primitive_repeats _ _ _) ?_
    intro t t' _
    exact .pure rfl

theorem tuple_types_repeat (hnode : NodeRepeats cfg c final node) (items : List Json)
    (hi : ∀ i ∈ items, TextsIn c.written i) (hscope : c.stands scope.baseUri scope.document) :
    BuildsRepeat cfg c final is unseen (tupleTypes node scope items)
      (tupleTypes node scope items) := by
  induction items with
  | nil =>
    rw [tupleTypes]
    exact .pure rfl
  | cons item items ih =>
    rw [List.forall_mem_cons] at hi
    rw [tupleTypes]
    refine .bind (hnode _ _ _ hscope (schema_in hi.1)) ?_
    intro t t' _
    refine .bind (ih hi.2) ?_
    intro types types' _
    exact .pure rfl

theorem array_type_repeats (hnode : NodeRepeats cfg c final node) {o : Object}
    (ho : ObjectIn c.written o) (hscope : c.stands scope.baseUri scope.document) :
    BuildsRepeat cfg c final is unseen (arrayType node o scope) (arrayType node o scope) := by
  unfold arrayType
  split
  · next tuple hi =>
    refine .bind (tuple_types_repeat hnode tuple (texts_in_arr.mp (ho.get (by decide) hi)) hscope) ?_
    intro types types' _
    split <;> split <;> exact .pure rfl
  · next items hnot hi =>
    refine .bind (hnode _ _ _ hscope (schema_in (ho.get (by decide) hi))) ?_
    intro t t' _
    exact .pure rfl
  · exact .pure rfl

theorem inline_record_repeats (hnode : NodeRepeats cfg c final node) {o : Object}
    (ho : ObjectIn c.written o) (hscope : c.stands scope.baseUri scope.document) :
    BuildsRepeat cfg c final is unseen (inlineRecord node o scope) (inlineRecord node o scope) := by
  unfold inlineRecord
  refine .bind (.lift (object_record_repeats hnode _ _ ho hscope)) ?_
  intro t t' _
  refine .of_still (fun names s => ?_) fun names s => ?_
  · cases t with
    | none => exact ⟨_, _, rfl⟩
    | some r => exact ⟨_, _, rfl⟩
  · cases t' with
    | none => exact ⟨_, _, rfl⟩
    | some r => exact ⟨_, _, rfl⟩

theorem keyword_type_repeats (hnode : NodeRepeats cfg c final node) {o : Object}
    (ho : ObjectIn c.written o) (hscope : c.stands scope.baseUri scope.document) :
    BuildsRepeat cfg c final is unseen (keywordType node o scope) (keywordType node o scope) := by
  have wrapped : ∀ {x : Build AvroType}, BuildsRepeat cfg c final is unseen x x →
      BuildsRepeat cfg c final is unseen (do return some (← x)) (do return some (← x)) := by
    intro x hx
    refine .bind hx ?_
    intro t t' _
    exact .pure rfl
  obtain ⟨k, hk⟩ := said o
  rw [hk.type_eq]
  cases k with
  | constant value => exact .pure rfl
  | listed types => exact listed_type_repeats hnode ho hk.listed_types hscope
  | array => exact wrapped (array_type_repeats hnode ho hscope)
  | object => exact inline_record_repeats hnode ho hscope
  | named type => exact wrapped (primitive_repeats _ _ _)
  | silent => exact .pure rfl

/-- Whether a name is registered may differ between the runs, but a type there is in both. -/
theorem reuse_registered_still (t : AvroType) (names : List String) (s : State) :
    ∃ u names', (reuseRegistered t).Yields names s u names' s := by
  unfold reuseRegistered
  split
  · next name _ =>
    cases h : (Registry.find? s.registry name t.ns?).bind AvroType.qualifiedName? with
    | none =>
      refine ⟨t, names, Build.yields_bind.mpr ⟨s, names, s, Build.yields_getThe.mpr ⟨rfl, rfl, rfl⟩, ?_⟩⟩
      rw [h]
      rfl
    | some registered =>
      refine ⟨.reference registered, addNew names registered,
        Build.yields_bind.mpr ⟨s, names, s, Build.yields_getThe.mpr ⟨rfl, rfl, rfl⟩, ?_⟩⟩
      rw [h]
      rfl
  · exact ⟨t, names, rfl⟩

theorem named_still (o : Object) (scope : Scope) (t : Option AvroType) (names : List String)
    (s : State) : ∃ u names', (match t with
      | some t => do
        return some (← reuseRegistered (nameType (withObjectType (unconditional o)) scope t))
      | none => return none : Build (Option AvroType)).Yields names s u names' s := by
  cases t with
  | none => exact ⟨none, names, rfl⟩
  | some t =>
    obtain ⟨u, names', hy⟩ :=
      reuse_registered_still (nameType (withObjectType (unconditional o)) scope t) names s
    exact ⟨some u, names', Build.yields_bind.mpr ⟨u, names', s, hy,
      Build.yields_pure.mpr ⟨rfl, rfl, rfl⟩⟩⟩

theorem object_node_repeats {levels : Nat} (hnode : NodeRepeats cfg c final (nodeWithin cfg levels))
    (hc : c.Closed cfg) (hgiven : GivesUpAlone cfg c final) {o : Object} (ho : ObjectIn c.written o)
    (hscope : c.stands scope.baseUri scope.document) :
    BuildsRepeat cfg c final is unseen (objectNode cfg (nodeWithin cfg levels) o scope)
      (objectNode cfg (nodeWithin cfg levels) o scope) := by
  have ho' := unconditional_in ho
  have dropped : (liftM (Convert.withoutConditionals o) : Build Object) =
      liftM (Run.warnAll (if (withoutConditionals? o).isSome then [.conditional] else [])) >>=
        fun _ => pure (unconditional o) := by
    rw [without_conditionals_eq, liftM_bind, liftM_pure]
  unfold objectNode
  rw [dropped, bind_assoc]
  refine .bind (.lift (.warnAll _ _)) ?_
  intro _ _ _
  rw [pure_bind]
  split
  · refine .bind (.lift (.warnAll _ _)) ?_
    intro _ _ _
    exact candidates_type_repeats hnode _ (expand_in (hc.texts hscope) ho') hscope
  · dsimp only
    split
    · exact reference_type_repeats hnode hc hgiven (with_object_in ho') hscope
    · refine .bind (keyword_type_repeats hnode (with_object_in ho') hscope) ?_
      exact fun t t' _ => .of_still (named_still o scope t) (named_still o scope t')

/-- A warning in place of a type. -/
theorem generic_repeats (w : Warning) : BuildsRepeat cfg c final is unseen (do
    Run.warn w
    return some AvroType.generic) (do
    Run.warn w
    return some AvroType.generic) := by
  refine .bind (.lift (.warn w w)) ?_
  intro _ _ _
  exact .pure rfl

theorem step_repeats {levels : Nat} (hnode : NodeRepeats cfg c final (nodeWithin cfg levels))
    (hc : c.Closed cfg) (hgiven : GivesUpAlone cfg c final) :
    NodeRepeats cfg c final (step cfg (nodeWithin cfg levels)) := by
  have keyword : ∀ (scope : Scope) (is : List Import) (type : Json),
      BuildsRepeat cfg c final is unseen (do return some (← primitive scope none none type))
        (do return some (← primitive scope none none type)) := by
    intro scope is type
    refine .bind (primitive_repeats _ _ _) ?_
    intro t t' _
    exact .pure rfl
  intro schema scope is hscope hschema
  cases schema with
  | bool b =>
    cases b with
    | true => exact .pure rfl
    | false => exact .pure rfl
  | str text => exact keyword scope is _
  | arr items => exact keyword scope is _
  | obj o => exact object_node_repeats hnode hc hgiven hschema hscope
  | null => exact generic_repeats _
  | num n => exact generic_repeats _

theorem node_within_repeats (hc : c.Closed cfg) (hgiven : GivesUpAlone cfg c final) (levels : Nat) :
    NodeRepeats cfg c final (nodeWithin cfg levels) := by
  induction levels with
  | zero => exact fun _ _ _ _ _ => generic_repeats _
  | succ levels ih =>
    intro schema scope is hscope hschema
    rw [nodeWithin]
    dsimp only
    split
    · exact generic_repeats _
    · exact step_repeats ih hc hgiven schema scope is hscope hschema

end Node

end AvroDerive.Convert
