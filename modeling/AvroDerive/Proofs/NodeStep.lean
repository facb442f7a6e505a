import AvroDerive.Proofs.ImportRun
import AvroDerive.Proofs.NodeReference

/-! # Nodes go from step to step

Only references do anything that counts. The rest of a node passes on what the nodes inside it do. -/
namespace AvroDerive.Convert

open AvroType Json Schema

section Record

variable {cfg : Setting} {c : Corpus} {s : State} {names : List String} {begun : List Import}
  {scope : Scope} {node : NodeConverter}

/-- Nothing is said of the result. -/
abbrev Anything {α : Type} : α → State → Prop := fun _ _ => True

theorem property_fields_traced (hnode : NodeTraced cfg c node) (required : List String)
    (properties : List (String × Json)) (hp : ∀ m ∈ properties, TextsIn c.written m.2)
    (hs : Furnished cfg s) (hscope : c.stands scope.baseUri scope.document) :
    BuildsTraced cfg c (propertyFields node required scope properties) names begun s Anything := by
  induction properties generalizing s names with
  | nil =>
    rw [propertyFields]
    exact .pure hs trivial
  | cons m properties ih =>
    obtain ⟨name, schema⟩ := m
    rw [List.forall_mem_cons] at hp
    have field : BuildsTraced cfg c (do
        let t := orGeneric (← node schema (scope.forField name))
        let field : Field AvroType :=
          { name := Name.ofText name
            type := if name ∈ required then t else makeNullable t
            doc := schema.asObject?.bind description? }
        return field :: (← propertyFields node required scope properties)) names begun s
        Anything := by
      refine .bind (hnode _ _ _ _ _ hs hscope (schema_in hp.1)) ?_
      intro t names₁ s₁ hs₁ _ _
      refine .bind (ih hp.2 hs₁) ?_
      intro fields names₂ s₂ hs₂ _ _
      exact .pure hs₂ trivial
    cases schema with
    | obj o => exact field
    | bool b => exact field
    | _ => exact ih hp.2 hs

theorem additional_field_traced (hnode : NodeTraced cfg c node) (name : String) {o : Object}
    (ho : ObjectIn c.written o) (hs : Furnished cfg s)
    (hscope : c.stands scope.baseUri scope.document) :
    BuildsTraced cfg c (additionalField node name scope o) names begun s Anything := by
  unfold additionalField
  split
  · next schema hschema =>
    refine .bind (hnode _ _ _ _ _ hs hscope (schema_in (ho.get (by decide) hschema))) ?_
    intro t names₁ s₁ hs₁ _ _
    exact .pure hs₁ trivial
  · exact .pure hs trivial

theorem pattern_fields_traced (hnode : NodeTraced cfg c node) (patterns : List (String × Json))
    (hp : ∀ m ∈ patterns, TextsIn c.written m.2) (hs : Furnished cfg s)
    (hscope : c.stands scope.baseUri scope.document) :
    BuildsTraced cfg c (patternFields node scope patterns) names begun s Anything := by
  induction patterns generalizing s names with
  | nil =>
    rw [patternFields]
    exact .pure hs trivial
  | cons m patterns ih =>
    rw [List.forall_mem_cons] at hp
    rw [patternFields]
    refine .bind (hnode _ _ _ _ _ hs hscope (schema_in hp.1)) ?_
    intro t names₁ s₁ hs₁ _ _
    refine .bind (ih hp.2 hs₁) ?_
    intro fields names₂ s₂ hs₂ _ _
    exact .pure hs₂ trivial

theorem values_field_traced (hnode : NodeTraced cfg c node) {o : Object}
    (ho : ObjectIn c.written o) (hs : Furnished cfg s)
    (hscope : c.stands scope.baseUri scope.document) :
    BuildsTraced cfg c (valuesField node scope o) names begun s Anything := by
  unfold valuesField
  split
  · exact .pure hs trivial
  · split
    · split
      · next items hitems =>
        refine .bind (hnode _ _ _ _ _ hs hscope (schema_in (ho.get (by decide) hitems))) ?_
        intro t names₁ s₁ hs₁ _ _
        exact .pure hs₁ trivial
      · exact .pure hs trivial
    · exact .pure hs trivial

theorem record_fields_traced (hnode : NodeTraced cfg c node) {o : Object}
    (ho : ObjectIn c.written o) (hs : Furnished cfg s)
    (hscope : c.stands scope.baseUri scope.document) :
    BuildsTraced cfg c (recordFields node scope o) names begun s Anything := by
  unfold recordFields
  split
  · next property properties hp =>
    refine .bind (property_fields_traced hnode _ _ (members_texts ho (by decide) hp) hs hscope) ?_
    intro fields names₁ s₁ hs₁ _ _
    refine .bind (additional_field_traced hnode _ ho hs₁ hscope) ?_
    intro additional names₂ s₂ hs₂ _ _
    refine .bind (pattern_fields_traced hnode _ (patterns_texts ho) hs₂ hscope) ?_
    intro patterns names₃ s₃ hs₃ _ _
    exact .pure hs₃ trivial
  · refine .bind (additional_field_traced hnode _ ho hs hscope) ?_
    intro additional names₁ s₁ hs₁ _ _
    refine .bind (pattern_fields_traced hnode _ (patterns_texts ho) hs₁ hscope) ?_
    intro patterns names₂ s₂ hs₂ _ _
    dsimp only
    split
    · exact values_field_traced hnode ho hs₂ hscope
    · exact .pure hs₂ trivial

/-- Whatever there is, it is no reference. -/
def NoReference (t : Option AvroType) : Prop := ∀ name, t ≠ some (.reference name)

theorem NoReference.hands_out {t : Option AvroType} (h : NoReference t) : HandsOut c t s :=
  fun name hn => absurd hn (h name)

theorem build_record_traced (hnode : NodeTraced cfg c node) (name ns : String) {o : Object}
    (ho : ObjectIn c.written o) (hs : Furnished cfg s)
    (hscope : c.stands scope.baseUri scope.document) :
    Traced cfg c (buildRecord node name ns o scope) begun s fun t _ => NoReference t := by
  unfold buildRecord
  refine .bind (.apart (record_fields_traced hnode ho hs hscope)) ?_
  rintro ⟨fields, names⟩ s₁ hs₁ - -
  dsimp only
  split
  · exact .pure hs₁ (by simp [NoReference])
  · exact .pure hs₁ (by simp [NoReference])

theorem without_conditionals_traced (o : Object) (hs : Furnished cfg s) :
    Traced cfg c (Convert.withoutConditionals o) begun s fun o' _ => o' = unconditional o := by
  unfold Convert.withoutConditionals unconditional
  split
  · next rest hr =>
    refine .bind (.warn hs _) ?_
    intro _ s₁ hs₁ _ _
    exact .pure hs₁ (by rw [hr]; rfl)
  · next hn => exact .pure hs (by rw [hn]; rfl)

theorem composition_record_traced (hnode : NodeTraced cfg c node) (name ns : String) {o : Object}
    (ho : ObjectIn c.written o) (hs : Furnished cfg s)
    (hscope : c.stands scope.baseUri scope.document) :
    Traced cfg c (compositionRecord node name ns o scope) begun s
      fun t _ => NoReference (some t) := by
  unfold compositionRecord
  refine .bind (.apart (hnode _ _ _ _ _ hs hscope ho)) ?_
  rintro ⟨converted, names⟩ s₁ hs₁ - -
  exact .pure hs₁ (by simp [NoReference])

theorem object_record_traced (hnode : NodeTraced cfg c node) (name ns : String) {o : Object}
    (ho : ObjectIn c.written o) (hs : Furnished cfg s)
    (hscope : c.stands scope.baseUri scope.document) :
    Traced cfg c (objectRecord node name ns o scope) begun s fun t _ => NoReference t := by
  unfold objectRecord
  refine .bind (without_conditionals_traced o hs) ?_
  rintro o' s₁ hs₁ - rfl
  have ho' := unconditional_in ho
  split
  · refine .bind (composition_record_traced hnode name ns ho' hs₁ hscope) ?_
    intro u s₂ hs₂ _ hu
    exact .pure hs₂ hu
  · refine .bind (.get hs₁) ?_
    rintro _ _ - - ⟨rfl, rfl⟩
    split
    · exact .pure hs₁ (by simp [NoReference, cycleRecord])
    · refine .within ?_
      have hs₀ : Furnished cfg { s₁ with frames := ⟨Name.ofText name, ns⟩ :: s₁.frames } :=
        ⟨hs₁.documents, hs₁.inline⟩
      exact (build_record_traced hnode _ ns ho' hs₀ hscope).imp fun _ _ _ h _ => h

end Record

section Reference

variable {cfg : Setting} {c : Corpus} {s s' : State} {names : List String} {begun : List Import}
  {scope : Scope} {node : NodeConverter}

theorem fetch_document_traced (url : Url) (hs : Furnished cfg s) :
    Traced cfg c (fetchDocument cfg url) begun s fun d s' =>
      Fetched cfg url.text d ∧ s'.imports = s.imports := by
  unfold fetchDocument
  refine .bind (.get hs) ?_
  rintro _ _ - - ⟨rfl, rfl⟩
  split
  · next d hd =>
    refine .pure hs ⟨?_, rfl⟩
    obtain ⟨before, after, hsplit, -⟩ := List.lookup_eq_some_iff.mp hd
    exact hs.documents (url.text, d) (by simp [hsplit])
  · split
    · exact .fail hs
    · next content hc =>
      split
      · exact .fail hs
      · next d hd =>
        have hfetched : Fetched cfg url.text d := ⟨url, content, rfl, hc, hd⟩
        have hs' : Furnished cfg { s with documents := (url.text, d) :: s.documents } :=
          ⟨List.forall_mem_cons.mpr ⟨hfetched, hs.documents⟩, hs.inline⟩
        refine .of_aside ?_ hs' rfl rfl (List.prefix_refl _) ⟨hfetched, rfl⟩
        exact Run.yields_bind.mpr ⟨⟨⟩, _, Run.yields_modify.mpr rfl, Run.yields_pure.mpr ⟨rfl, rfl⟩⟩

theorem locate_traced (reference : String) (hs : Furnished cfg s) :
    Traced cfg c (locate cfg reference scope) begun s
      fun located s' => LeadsTo cfg reference scope located ∧ s'.imports = s.imports := by
  unfold locate
  split
  · split
    · next fragment hf => exact .pure hs ⟨.inside hf, rfl⟩
    · exact .fail hs
  · next hlocal =>
    rw [Option.not_isSome_iff_eq_none] at hlocal
    split
    · exact .fail hs
    · next url hurl =>
      refine .bind (fetch_document_traced url.withoutFragment hs) ?_
      rintro d s₁ hs₁ - ⟨hd, hi⟩
      split
      · next fragment hf => exact .pure hs₁ ⟨.across hlocal hurl hd hf, hi⟩
      · exact .fail hs₁

theorem LeadsTo.stands (hc : c.Closed cfg) {reference : String} {located : Located}
    (h : LeadsTo cfg reference scope located) (hscope : c.stands scope.baseUri scope.document) :
    c.stands located.baseUri located.document ∧ TextsIn c.written located.fragment := by
  cases h with
  | inside hf => exact ⟨hscope, local_fragment_texts (hc.texts hscope) hf⟩
  | across hlocal hurl hd hf =>
    have stands := hc.fetched hd
    exact ⟨stands, pointer_texts (hc.texts stands) hf⟩

theorem mem_of_imported {imports : Imports} {key : String} {i : Imported}
    (h : Imports.get? imports key = some i) : (key, some i) ∈ imports := by
  obtain ⟨before, after, hsplit, -⟩ := List.lookup_eq_some_iff.mp (Option.join_eq_some_iff.mp h)
  simp [hsplit]

theorem reuse_imported_traced (hs : Furnished cfg s) {key : String} {i : Imported}
    (hi : Imports.get? s.imports key = some i) :
    BuildsTraced cfg c (reuseImported i) names begun s fun t s' => HandsOut c (some t) s' := by
  have hm := mem_of_imported hi
  cases i with
  | named name =>
    refine .bind (.gather hs _) ?_
    rintro _ names₁ _ hs₁ - rfl
    refine .pure hs₁ fun n hn => ?_
    obtain rfl := AvroType.reference.inj (Option.some.inj hn)
    exact Or.inr (Or.inl ⟨key, hm⟩)
  | inline t => exact .pure hs (hands_out_of (hs.inline key t hm))

/-- Settling an import never fails. -/
theorem settle_succeeds (key reference expected : String) (scope : Scope) (t : Option AvroType)
    (more names : List String) (s : State) : ∃ u names' s',
      (settle key reference expected scope t more).Yields names s u names' s' := by
  unfold settle
  cases t with
  | none => exact ⟨_, _, _, rfl⟩
  | some t =>
    dsimp only
    split
    · split
      · exact ⟨_, _, _, rfl⟩
      · exact ⟨_, _, _, rfl⟩
    · split
      · exact ⟨_, _, _, rfl⟩
      · exact ⟨_, _, _, rfl⟩

/-- The type that a settled import gets was handed out if it is a reference. -/
theorem Settles.hands_out {key expected : String} {t : Option AvroType} {u : AvroType}
    (h : Settles key expected t u s s') (ht : HandsOut c t s) : HandsOut c (some u) s' := by
  have he := h.extends
  cases h with
  | registered hkind hname =>
    intro name hn
    obtain rfl := AvroType.reference.inj (Option.some.inj hn)
    exact Or.inr (Or.inl ⟨key, List.mem_cons_self ..⟩)
  | standIn hkind hname => exact ht.mono he
  | passed => exact ht.mono he
  | inline hkind hname => exact hands_out_of hname
  | empty => exact hands_out_of (by simp [generic])

theorem run_lift_bind {α β : Type} (x : Run α) (f : α → Build β) (names : List String) :
    (liftM x >>= f : Build β).run names = x >>= fun a => (f a).run names := by
  show (x >>= fun a => (pure (a, names) : Run (α × List String))) >>= (fun r => (f r.1).run r.2) = _
  simp

/-- An import is begun, its fragment is converted, and it is settled. -/
theorem import_fragment_run (cfg : Setting) (node : NodeConverter) (i : Import)
    (names : List String) (s : State) :
    ((importFragment cfg node i.key i.reference i.located i.scope).run names).run.run s =
      (Build.apart (node i.located.fragment (i.inner cfg)) >>= fun r =>
        (settle i.key i.reference (fullOf (i.typeName cfg)) i.scope r.1 r.2).run names).run.run
          (i.begun cfg s) := by
  unfold importFragment Import.begun
  by_cases halone : isStandalone i.located.fragment = true
  · simp only [if_pos halone, run_lift_bind]
    rw [Run.run_bind]
    rfl
  · simp only [if_neg halone, run_lift_bind]
    rfl

/-- An import whose fragment fails fails with it. -/
theorem import_fragment_fails {node : NodeConverter} {i : Import} {e : Failure}
    (h : (Build.apart (node i.located.fragment (i.inner cfg))).run.run (i.begun cfg s) = (.error e, s'))
    (names : List String) :
    ((importFragment cfg node i.key i.reference i.located i.scope).run names).run.run s =
      (.error e, s') := by
  rw [import_fragment_run, Run.run_bind, h]

/-- An import whose fragment comes to a type, or to none, is settled by that. -/
theorem import_fragment_settles {node : NodeConverter} {i : Import} {r : Option AvroType × List String}
    {s₁ : State}
    (h : (Build.apart (node i.located.fragment (i.inner cfg))).run.run (i.begun cfg s) = (.ok r, s₁))
    (names : List String) : ∃ u s',
      ((importFragment cfg node i.key i.reference i.located i.scope).run names).Yields s u s' ∧
        Settles i.key (fullOf (i.typeName cfg)) r.1 u.1 s₁ s' := by
  obtain ⟨u, names', s', hy⟩ := settle_succeeds i.key i.reference (fullOf (i.typeName cfg)) i.scope
    r.1 r.2 names s₁
  refine ⟨(u, names'), s', ?_, settle_settles hy⟩
  rw [Run.Yields, import_fragment_run]
  exact Run.yields_bind.mpr ⟨r, s₁, h, hy⟩

/-- If the conversion of the fragment fails, the import stays begun. -/
theorem import_fragment_traced {levels : Nat} (hnode : NodeTraced cfg c (nodeWithin cfg levels))
    (hc : c.Closed cfg) {i : Import} (hi : i.Valid cfg c)
    (hnew : Imports.get? s.imports i.key = none) (hs : Furnished cfg s) :
    BuildsTraced cfg c (importFragment cfg (nodeWithin cfg levels) i.key i.reference i.located
      i.scope) names begun s fun t s' => HandsOut c (some t) s' := by
  obtain ⟨hstands, htexts⟩ := hi.leads.stands hc hi.stands
  have first : Steps cfg c (begun, s) (i :: begun, i.begun cfg s) := .single (.begin hi hnew)
  have inner : Traced cfg c (Build.apart (nodeWithin cfg levels i.located.fragment (i.inner cfg)))
      (i :: begun) (i.begun cfg s) fun r s' => HandsOut c r.1 s' :=
    .apart (hnode _ _ _ _ _ (hs.at_begin i) hstands (schema_in htexts))
  obtain ⟨furnished, done, failed⟩ := inner
  unfold BuildsTraced
  rcases h : (Build.apart (nodeWithin cfg levels i.located.fragment (i.inner cfg))).run.run
    (i.begun cfg s) with ⟨r, s₁⟩
  rw [h] at furnished done failed
  cases r with
  | error e =>
    have ends := import_fragment_fails h names
    refine ⟨by rw [ends]; exact furnished, fun a ha => by simp [ends] at ha, fun e' he' => ?_⟩
    rw [ends] at he' ⊢
    obtain rfl := Except.error.inj he'
    obtain ⟨more, hstopped, hsteps⟩ := failed e rfl
    refine ⟨more ++ [i], ?_, ?_⟩
    · rw [List.forall_mem_append, List.forall_mem_singleton]
      exact ⟨hstopped, hi, levels, s, s₁, hnew, h⟩
    · rw [List.append_assoc, List.singleton_append]
      exact first.trans hsteps
  | ok r =>
    obtain ⟨hsteps, ht⟩ := done r rfl
    obtain ⟨u, s', ends, settles⟩ := import_fragment_settles h names
    rw [Run.Yields] at ends
    refine ⟨by rw [ends]; exact furnished.settled settles, fun a ha => ?_, fun _ he => ?_⟩
    · rw [ends] at ha ⊢
      obtain rfl := Except.ok.inj ha
      have converted : (nodeWithin cfg levels i.located.fragment (i.inner cfg)).Yields []
        (i.begun cfg s) r.1 r.2 s₁ := h
      exact ⟨first.trans (hsteps.tail (.settle hi converted ht settles)), settles.hands_out ht⟩
    · rw [ends] at he
      simp at he

theorem reference_written {o : Object} (ho : ObjectIn c.written o) {reference : String}
    (href : (Object.get? o "$ref").bind asString? = some reference) : c.written reference := by
  obtain ⟨v, hv, htext⟩ := Option.bind_eq_some_iff.mp href
  have htexts := ho.get (by decide) hv
  cases v with
  | str text =>
    obtain rfl := Option.some.inj htext
    exact texts_in_str.mp htexts
  | _ => simp [asString?] at htext

theorem reference_type_traced {levels : Nat} (hnode : NodeTraced cfg c (nodeWithin cfg levels))
    (hc : c.Closed cfg) {o : Object} (ho : ObjectIn c.written o) (hs : Furnished cfg s)
    (hscope : c.stands scope.baseUri scope.document) :
    BuildsTraced cfg c (referenceType cfg (nodeWithin cfg levels) o scope) names begun s
      (HandsOut c) := by
  unfold referenceType
  split
  · refine .bind (.lift (.warn hs _)) ?_
    intro _ _ s₁ hs₁ _ _
    exact .pure hs₁ (hands_out_of (by simp [generic]))
  · next reference href =>
    have written := reference_written ho href
    refine .bind (.lift (.imported hs _)) ?_
    rintro i _ _ - - ⟨hi, rfl⟩
    split
    · refine .bind (reuse_imported_traced hs hi.symm) ?_
      intro t names₁ s₁ hs₁ _ ht
      exact .pure hs₁ ht
    · refine .bind (.lift (locate_traced reference hs)) ?_
      rintro located names₁ s₁ hs₁ - ⟨hleads, himports⟩
      obtain ⟨hstands, htexts⟩ := hleads.stands hc hscope
      split
      · have hnew : Imports.get? s₁.imports (Location.resolve scope.baseUri reference) = none := by
          rw [himports, ← hi]
        refine .bind (import_fragment_traced (i := ⟨reference, scope, located⟩) hnode hc
          ⟨hscope, written, hleads⟩ hnew hs₁) ?_
        intro t names₂ s₂ hs₂ _ ht
        exact .pure hs₂ ht
      · dsimp only
        refine .bind (.lift (.warnAll hs₁ _)) ?_
        intro _ names₂ s₂ hs₂ _ _
        have hmerged : SchemaIn c.written
            (.obj (mergeAll [.obj (Object.erase o "$ref"), located.fragment]).1) := by
          refine merge_all_in ?_
          rw [List.forall_mem_cons, List.forall_mem_singleton]
          exact ⟨ho.erase _, schema_in htexts⟩
        exact hnode _ _ _ _ _ hs₂ hstands hmerged

end Reference

section Node

variable {cfg : Setting} {c : Corpus} {s s' : State} {names : List String} {begun : List Import}
  {scope : Scope} {node : NodeConverter}

theorem primitive_traced {format : Option String} {values : Option (List Json)} {type : Json}
    (ht : ∀ name ∈ type.texts, c.written name ∨ name ∈ primitiveNames) (hs : Furnished cfg s) :
    BuildsTraced cfg c (primitive scope format values type) names begun s
      fun t s' => HandsOut c (some t) s' := by
  unfold primitive
  refine .bind (.gather hs _) ?_
  rintro _ names₁ _ hs₁ - rfl
  refine .pure hs₁ fun name hn => ?_
  have refer : AllRefer (fun _ n => n ∈ (primitiveType scope.localName format values type).2 ∧
      n ∈ type.texts ∧ n ∉ primitiveNames) none (primitiveType scope.localName format values type).1 :=
    primitive_type_refer format values type
  rw [Option.some.inj hn, all_refer_reference] at refer
  exact Or.inr (Or.inr ⟨(ht name refer.2.1).resolve_right refer.2.2, refer.2.2⟩)

theorem alternative_types_traced (hnode : NodeTraced cfg c node) (candidates : List Json) (n : Nat)
    (hi : ∀ candidate ∈ candidates, SchemaIn c.written candidate) (hs : Furnished cfg s)
    (hscope : c.stands scope.baseUri scope.document) :
    BuildsTraced cfg c (alternativeTypes node scope n candidates) names begun s
      fun types s' => ∀ t ∈ types, HandsOut c (some t) s' := by
  induction candidates generalizing n s names with
  | nil =>
    rw [alternativeTypes]
    exact .pure hs (by simp)
  | cons candidate candidates ih =>
    rw [List.forall_mem_cons] at hi
    rw [alternativeTypes]
    refine .bind (hnode _ _ _ _ _ hs hscope hi.1) ?_
    intro t names₁ s₁ hs₁ _ ht
    refine .bind (ih _ hi.2 hs₁) ?_
    intro types names₂ s₂ hs₂ he₂ htypes
    refine .pure hs₂ (List.forall_mem_append.mpr ⟨?_, htypes⟩)
    intro u hu
    obtain ⟨hu, -⟩ := Option.filter_eq_some_iff.mp (Option.mem_toList.mp hu)
    exact hu ▸ ht.mono he₂

theorem candidates_type_traced (hnode : NodeTraced cfg c node) (keepEmpty : Bool)
    {candidates : List Json} (hi : ∀ candidate ∈ candidates, SchemaIn c.written candidate)
    (hs : Furnished cfg s) (hscope : c.stands scope.baseUri scope.document) :
    BuildsTraced cfg c (candidatesType node keepEmpty scope candidates) names begun s
      (HandsOut c) := by
  unfold candidatesType
  split
  · rw [List.forall_mem_singleton] at hi
    refine .bind (hnode _ _ _ _ _ hs hscope hi) ?_
    intro t names₁ s₁ hs₁ _ ht
    refine .pure hs₁ ?_
    split
    · exact ht
    · exact hands_out_useful ht
  · refine .bind (alternative_types_traced hnode candidates 0 hi hs hscope) ?_
    intro types names₁ s₁ hs₁ _ htypes
    split
    · exact .pure hs₁ hands_out_none
    · next t => exact .pure hs₁ (htypes t (List.mem_singleton_self t))
    · exact .pure hs₁ (hands_out_of (by simp))

theorem listed_type_traced (hnode : NodeTraced cfg c node) {types : List Json} {o : Object}
    (ho : ObjectIn c.written o) (htypes : Object.get? o "type" = some (.arr types))
    (hs : Furnished cfg s) (hscope : c.stands scope.baseUri scope.document) :
    BuildsTraced cfg c (listedType node types o scope) names begun s (HandsOut c) := by
  unfold listedType
  split
  · have others : ∀ type ∈ types.filter (!isNullName ·),
        SchemaIn c.written (.obj (Object.insert o "type" type)) :=
      fun type hm => with_type_in ho htypes (List.mem_of_mem_filter hm)
    dsimp only
    have finish : ∀ {t : Option AvroType} {names : List String} {s : State},
        Furnished cfg s → HandsOut c t s →
        BuildsTraced cfg c (if types.any isNullName = true then
            pure (t.map fun t => AvroType.unionOf [.null, t]) else pure t) names begun s
          (HandsOut c) := by
      intro t names s hs ht
      split
      · refine .pure hs (NoReference.hands_out fun name hn => ?_)
        obtain ⟨t', -, hu⟩ := Option.map_eq_some_iff.mp hn
        rcases union_with_null t' with h | ⟨branches, h⟩
        · rw [h] at hu
          simp [AvroType.null] at hu
        · rw [h] at hu
          simp at hu
      · exact .pure hs ht
    split
    · next single hsingle =>
      rw [hsingle, List.forall_mem_singleton] at others
      refine .bind (hnode _ _ _ _ _ hs hscope others) ?_
      intro t names₁ s₁ hs₁ _ ht
      exact finish hs₁ ht
    · refine .bind (candidates_type_traced hnode false (List.forall_mem_map.mpr others) hs
        hscope) ?_
      intro t names₁ s₁ hs₁ _ ht
      exact finish hs₁ ht
  · next hplain =>
    refine .bind (primitive_traced (fun n hn => Or.inl (types_texts ho htypes hplain n hn)) hs) ?_
    intro t names₁ s₁ hs₁ _ ht
    exact .pure hs₁ ht

theorem tuple_types_traced (hnode : NodeTraced cfg c node) (items : List Json)
    (hi : ∀ i ∈ items, TextsIn c.written i) (hs : Furnished cfg s)
    (hscope : c.stands scope.baseUri scope.document) :
    BuildsTraced cfg c (tupleTypes node scope items) names begun s Anything := by
  induction items generalizing s names with
  | nil =>
    rw [tupleTypes]
    exact .pure hs trivial
  | cons item items ih =>
    rw [List.forall_mem_cons] at hi
    rw [tupleTypes]
    refine .bind (hnode _ _ _ _ _ hs hscope (schema_in hi.1)) ?_
    intro t names₁ s₁ hs₁ _ _
    refine .bind (ih hi.2 hs₁) ?_
    intro types names₂ s₂ hs₂ _ _
    exact .pure hs₂ trivial

theorem array_type_traced (hnode : NodeTraced cfg c node) {o : Object}
    (ho : ObjectIn c.written o) (hs : Furnished cfg s)
    (hscope : c.stands scope.baseUri scope.document) :
    BuildsTraced cfg c (arrayType node o scope) names begun s
      fun t s' => HandsOut c (some t) s' := by
  unfold arrayType
  split
  · next tuple hi =>
    refine .bind (tuple_types_traced hnode tuple (texts_in_arr.mp (ho.get (by decide) hi)) hs
      hscope) ?_
    intro types names₁ s₁ hs₁ _ _
    split
    · exact .pure hs₁ (hands_out_of (by simp))
    · exact .pure hs₁ (hands_out_of (by simp))
  · next items hnot hi =>
    refine .bind (hnode _ _ _ _ _ hs hscope (schema_in (ho.get (by decide) hi))) ?_
    intro t names₁ s₁ hs₁ _ _
    exact .pure hs₁ (hands_out_of (by simp))
  · exact .pure hs (hands_out_of (by simp))

theorem inline_record_traced (hnode : NodeTraced cfg c node) {o : Object}
    (ho : ObjectIn c.written o) (hs : Furnished cfg s)
    (hscope : c.stands scope.baseUri scope.document) :
    BuildsTraced cfg c (inlineRecord node o scope) names begun s (HandsOut c) := by
  unfold inlineRecord
  refine .bind (.lift (object_record_traced hnode _ _ ho hs hscope)) ?_
  intro t names₁ s₁ hs₁ _ ht
  cases t with
  | none => exact .pure hs₁ hands_out_none
  | some u =>
    refine .bind (.gather hs₁ _) ?_
    rintro _ names₂ _ hs₂ - rfl
    refine .pure hs₂ (hands_out_of fun name hn => ht name ?_)
    cases u <;> simp_all [clearDependencies]

theorem keyword_type_traced (hnode : NodeTraced cfg c node) {o : Object}
    (ho : ObjectIn c.written o) (hs : Furnished cfg s)
    (hscope : c.stands scope.baseUri scope.document) :
    BuildsTraced cfg c (keywordType node o scope) names begun s (HandsOut c) := by
  have wrapped : ∀ {x : Build AvroType},
      BuildsTraced cfg c x names begun s (fun t s' => HandsOut c (some t) s') →
      BuildsTraced cfg c (do return some (← x)) names begun s (HandsOut c) := by
    intro x hx
    refine .bind hx ?_
    intro t names₁ s₁ hs₁ _ ht
    exact .pure hs₁ ht
  obtain ⟨k, hk⟩ := said o
  rw [hk.type_eq]
  cases k with
  | constant value =>
    refine .pure hs (hands_out_of fun name => ?_)
    unfold constantType
    split <;> simp [AvroType.null]
  | listed types => exact listed_type_traced hnode ho hk.listed_types hs hscope
  | array => exact wrapped (array_type_traced hnode ho hs hscope)
  | object => exact inline_record_traced hnode ho hs hscope
  | named type => exact wrapped (primitive_traced (hk.named_texts ho) hs)
  | silent => exact .pure hs hands_out_none

theorem name_type_hands_out (o : Object) {t : AvroType} (h : HandsOut c (some t) s) :
    HandsOut c (some (nameType o scope t)) s := by
  cases t with
  | record r =>
    obtain ⟨r', hr', -⟩ := name_type_record scope o r
    exact hands_out_of (by simp [hr'])
  | enum e =>
    obtain ⟨e', he'⟩ := name_type_enum scope o e
    exact hands_out_of (by simp [he'])
  | fixed f =>
    obtain ⟨f', hf'⟩ := name_type_fixed scope o f
    exact hands_out_of (by simp [hf'])
  | _ =>
    rw [name_type_unnamed o rfl]
    exact h

theorem reuse_registered_traced {t : AvroType} (ht : HandsOut c (some t) s)
    (hs : Furnished cfg s) : BuildsTraced cfg c (reuseRegistered t) names begun s
      fun u s' => HandsOut c (some u) s' := by
  unfold reuseRegistered
  split
  · next name hname =>
    refine .bind (.getThe hs) ?_
    rintro _ names₁ _ - - ⟨rfl, rfl⟩
    split
    · next registered hr =>
      refine .bind (.gather hs _) ?_
      rintro _ names₂ _ hs₂ - rfl
      refine .pure hs₂ fun n hn => ?_
      obtain rfl := AvroType.reference.inj (Option.some.inj hn)
      obtain ⟨found, hf, hq⟩ := Option.bind_eq_some_iff.mp hr
      exact Or.inl (mem_defined.mpr ⟨found, (find_qualified hname hf).1, hq⟩)
    · exact .pure hs ht
  · exact .pure hs ht

theorem object_node_traced {levels : Nat} (hnode : NodeTraced cfg c (nodeWithin cfg levels))
    (hc : c.Closed cfg) {o : Object} (ho : ObjectIn c.written o) (hs : Furnished cfg s)
    (hscope : c.stands scope.baseUri scope.document) :
    BuildsTraced cfg c (objectNode cfg (nodeWithin cfg levels) o scope) names begun s
      (HandsOut c) := by
  unfold objectNode
  refine .bind (.lift (without_conditionals_traced o hs)) ?_
  rintro o' names₁ s₁ hs₁ - rfl
  have ho' := unconditional_in ho
  split
  · dsimp only
    refine .bind (.lift (.warnAll hs₁ _)) ?_
    intro _ names₂ s₂ hs₂ _ _
    exact candidates_type_traced hnode _ (expand_in (hc.texts hscope) ho') hs₂ hscope
  · dsimp only
    split
    · exact reference_type_traced hnode hc (with_object_in ho') hs₁ hscope
    · refine .bind (keyword_type_traced hnode (with_object_in ho') hs₁ hscope) ?_
      intro t names₂ s₂ hs₂ _ ht
      cases t with
      | none => exact .pure hs₂ hands_out_none
      | some t =>
        refine .bind (reuse_registered_traced (name_type_hands_out _ ht) hs₂) ?_
        intro u names₃ s₃ hs₃ _ hu
        exact .pure hs₃ hu

/-- A warning in place of a type. -/
theorem generic_traced (hs : Furnished cfg s) (w : Warning) : BuildsTraced cfg c (do
    Run.warn w
    return some AvroType.generic) names begun s (HandsOut c) := by
  refine .bind (.lift (.warn hs w)) ?_
  intro _ names₁ s₁ hs₁ _ _
  exact .pure hs₁ (hands_out_of (by simp [generic]))

theorem step_traced {levels : Nat} (hnode : NodeTraced cfg c (nodeWithin cfg levels))
    (hc : c.Closed cfg) : NodeTraced cfg c (step cfg (nodeWithin cfg levels)) := by
  have keyword : ∀ {scope : Scope} {names : List String} {begun : List Import} {s : State}
      {type : Json}, TextsIn c.written type → Furnished cfg s →
      BuildsTraced cfg c (do return some (← primitive scope none none type)) names begun s
        (HandsOut c) := by
    intro scope names begun s type ht hs
    refine .bind (primitive_traced (fun n hn => Or.inl (ht n hn)) hs) ?_
    intro t names₁ s₁ hs₁ _ ht
    exact .pure hs₁ ht
  intro schema scope names begun s hs hscope hschema
  cases schema with
  | bool b =>
    cases b with
    | true => exact .pure hs (hands_out_of (by simp [generic]))
    | false => exact .pure hs hands_out_none
  | str text => exact keyword hschema hs
  | arr items => exact keyword hschema hs
  | obj o => exact object_node_traced hnode hc hschema hs hscope
  | null => exact generic_traced hs _
  | num n => exact generic_traced hs _

theorem node_within_traced (hc : c.Closed cfg) (levels : Nat) :
    NodeTraced cfg c (nodeWithin cfg levels) := by
  induction levels with
  | zero => exact fun _ _ _ _ _ hs _ _ => generic_traced hs _
  | succ levels ih =>
    intro schema scope names begun s hs hscope hschema
    rw [nodeWithin]
    dsimp only
    split
    · exact generic_traced hs _
    · exact step_traced ih hc schema scope names begun s hs hscope hschema

end Node

end AvroDerive.Convert
