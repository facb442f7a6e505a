import AvroDerive.Proofs.NodeReference

/-! # References in definitions

A definition's own name is pending while its type is made. Then a type of that name is registered,
or nothing has happened that could have used the name. So the state between definitions is sound
with nothing pending. -/
namespace AvroDerive.Convert

open AvroType Json Schema

/-- No name is pending. -/
def Nothing (_ : String) : Prop := False

section Keep

variable {cfg : Setting} {j : Json} {pending : String → Prop} {s s' : State}
  {names : List String} {key : Option String} {name ns schemaName : String} {schema : Json}

/-- A reference is remembered by a registered name, and nothing else happens. -/
theorem remember_runs {α : Type} {a : α} (hs : Sound cfg j pending s) (key : String)
    {registered : String} (hk : registered ∈ definedNames s.registry) :
    Runs cfg j pending (do
      Run.remember key (.named registered)
      return a) s fun _ s' => s'.registry = s.registry := by
  refine .bind (.remember hs key (i := .named registered) (Or.inl hk)) ?_
  intro _ s₁ hs₁ hg₁ h
  exact .pure hs₁ h

/-- At the top a type keeps its references fine under another name. -/
theorem renamed_refer (name ns : String) {t : AvroType} (htop : s.frames = []) (ht : Built cfg j pending t names s) :
    ((t.withName name).withNs ns).AllRefer (Fine cfg j pending s names) none := by
  cases t with
  | record r =>
    refine all_refer_record.mpr fun f hf => ?_
    exact (ht.top htop r rfl f hf).into_field fine_movable _
  | enum e => exact all_refer_enum
  | fixed f => exact all_refer_fixed
  | _ => exact ht.refer

theorem register_definition_runs {t : AvroType} (hs : Sound cfg j pending s) (htop : s.frames = [])
    (hnamed : (t.isRecord || t.isEnum) = true)
    (ht : Built cfg j pending t (names ++ t.ownDependencies) s) :
    Runs cfg j pending (registerDefinition key schema name ns t names) s fun _ s' =>
      qualify (some ns) name ∈ definedNames s'.registry := by
  have own : ((t.withName name).withNs ns).ownDependencies = t.ownDependencies := by
    cases t <;> rfl
  have named : ((t.withName name).withNs ns).isNamed = true := by
    cases t <;> simp_all [isRecord, isEnum, withName, withNs, isNamed]
  have qualified : ((t.withName name).withNs ns).qualifiedName? = some (qualify (some ns) name) := by
    cases t <;> simp_all [isRecord, isEnum, withName, withNs, qualifiedName?, name?, ns?]
  have refer := renamed_refer name ns htop ht
  rw [← own] at refer
  unfold registerDefinition
  refine .bind (.register hs named qualified refer) ?_
  rintro _ s₁ hs₁ hg₁ ⟨rfl, hk⟩
  dsimp only
  have remembered := fun key => (remember_runs (a := qualify (some ns) name) hs₁ key hk).imp
    fun _ s' _ _ h => (h.symm ▸ hk : qualify (some ns) name ∈ definedNames s'.registry)
  split
  · split
    · exact remembered _
    · exact .pure hs₁ hk
  · exact .pure hs₁ hk

/-- Keeping a definition keeps the state sound; a record or an enumeration is registered. -/
theorem keep_definition_runs {t : Option AvroType} (hs : Sound cfg j pending s)
    (htop : s.frames = [])
    (ht : ∀ u, t = some u → Built cfg j pending u (names ++ u.ownDependencies) s) :
    Runs cfg j pending (keepDefinition key schemaName schema name ns t names) s fun _ s' =>
      (∃ u, t = some u ∧ (u.isRecord || u.isEnum) = true) →
        qualify (some ns) name ∈ definedNames s'.registry := by
  unfold keepDefinition
  cases t with
  | none =>
    refine .bind (.warn hs _) ?_
    intro _ s₁ hs₁ hg₁ _
    exact .pure hs₁ (by simp)
  | some t =>
    dsimp only
    split
    · next hnamed =>
      refine .bind (register_definition_runs hs htop hnamed (ht t rfl)) ?_
      intro _ s₁ hs₁ hg₁ hk
      exact .pure hs₁ fun _ => hk
    · next hother =>
      have unnamed : ¬∃ u, some t = some u ∧ (u.isRecord || u.isEnum) = true := by
        rintro ⟨u, hu, h⟩
        exact hother (Option.some.inj hu ▸ h)
      refine .bind (.get hs) ?_
      rintro _ _ - - ⟨rfl, rfl⟩
      split
      · next target htarget =>
        have hk : target ∈ definedNames s.registry := by
          cases t with
          | reference n =>
            simp only [aliasOf?, Option.ite_none_right_eq_some, Option.some.injEq] at htarget
            obtain ⟨hc, rfl⟩ := htarget
            exact contains_iff_defined.mp hc
          | _ => simp [aliasOf?] at htarget
        split
        · exact (remember_runs hs _ hk).imp fun _ _ _ _ _ h => absurd h unnamed
        · exact .pure hs fun h => absurd h unnamed
      · have plain : t.ownDependencies = [] := by
          cases t <;> simp_all [ownDependencies, isRecord]
        have refer := (ht t rfl).refer
        rw [plain, List.append_nil] at refer
        refine .bind (register_definition_runs hs htop rfl (.of_fields ?_)) ?_
        · simp only [Record.pushField, Record.empty, List.nil_append, List.forall_mem_singleton]
          exact refer.imp fun _ _ h => h.mono (.refl s) (List.subset_append_left _ _)
        · intro _ s₁ hs₁ hg₁ hk
          exact .pure hs₁ fun _ => hk

end Keep

section Definition

variable {cfg : Setting} {j : Json} {s s' : State} {names : List String} {name ns : String}
  {schema : Json} {baseUri : String}

theorem part_texts {v : Json} (h : Part j v) : TextsIn (Written cfg j) v := by
  induction h with
  | whole => exact document_texts (Or.inl rfl)
  | member _ hm ih => exact texts_in_obj.mp ih _ hm
  | item _ hi ih => exact texts_in_arr.mp ih _ hi

/-- What the conversion of a definition leads to: its own name is pending, and the type is bound to
be registered under it or it is registered already; or nothing is pending. -/
def Promising (cfg : Setting) (j : Json) (own : String) (names : List String) (s : State)
    (t : Option AvroType) : Prop :=
  (Sound cfg j (Expecting Nothing own) s ∧
    (∀ u, t = some u → Built cfg j (Expecting Nothing own) u (names ++ u.ownDependencies) s) ∧
    ((∃ u, t = some u ∧ (u.isRecord || u.isEnum) = true) ∨ own ∈ definedNames s.registry)) ∨
  Sound cfg j Nothing s ∧
    ∀ u, t = some u → Built cfg j Nothing u (names ++ u.ownDependencies) s

theorem MaybeBuilt.own {pending : String → Prop} {t : Option AvroType}
    (h : MaybeBuilt cfg j pending t names s) :
    ∀ u, t = some u → Built cfg j pending u (names ++ u.ownDependencies) s :=
  fun u hu => (h u hu).mono (.refl s) (List.subset_append_left _ _)

/-- A definition is converted inside a type of its own name. -/
theorem root_scope {pending : String → Prop} (hlegal : Name.ofText name = name)
    (h : Anchored cfg j pending s (qualify (some ns) name)) (baseUri : String) :
    SoundScope cfg j pending s (Scope.root name ns j baseUri) where
  document := Or.inl rfl
  home := by
    show Anchored cfg j pending s (qualify (some ns) (Name.ofText name))
    rw [hlegal]
    exact h

/-- A name that is expected is pending. -/
theorem expected_anchored (pending : String → Prop) (s : State) (own : String) :
    Anchored cfg j (Expecting pending own) s own :=
  Or.inl (Or.inr (Or.inr (Or.inr (Or.inr rfl))))

/-- The record of a definition has its name, also where it is put together from others. -/
theorem record_promising (hs : Sound cfg j Nothing s) (htop : s.frames = []) {o : Object}
    (ho : Part j (.obj o)) (hlegal : Name.ofText name = name) {t : Option AvroType}
    (h : (objectRecord (node cfg) name ns o (Scope.root name ns j baseUri)).Yields s t s') :
    Grows s s' ∧ Promising cfg j (qualify (some ns) name) [] s' t := by
  have more : ∀ n, Nothing n → Known cfg j (Expecting Nothing (qualify (some ns) name)) s n :=
    fun n hn => hn.elim
  have hscope : SoundScope cfg j (Expecting Nothing (qualify (some ns) name)) s
      (Scope.root name ns j baseUri) := root_scope hlegal (expected_anchored ..) baseUri
  obtain ⟨hs', hg, ht⟩ := object_record_runs node_sound (schema_in (part_texts ho))
    (hs.settle more) (fun _ => htop) hscope hscope.home t s' h
  refine ⟨hg, ?_⟩
  rcases object_record_cases h with ⟨r, rfl, -, -⟩ | ⟨hq, -, rfl | ⟨f, hf, -⟩⟩
  · refine Or.inl ⟨hs', fun u hu => ?_, Or.inl ⟨_, rfl, rfl⟩⟩
    obtain ⟨r', rfl, hr'⟩ := ht u hu
    exact hr'
  · exact Or.inr ⟨hq.sound hs, by simp⟩
  · simp [htop] at hf

/-- Any other type of a definition is that of its node. -/
theorem node_promising (hs : Sound cfg j Nothing s) (htop : s.frames = []) (hschema : Part j schema)
    (hlegal : Name.ofText name = name)
    (hinner : ¬Direct j schema → Inner cfg j (qualify (some ns) name))
    {t : Option AvroType}
    (h : (node cfg schema (Scope.root name ns j baseUri)).Yields [] s t names s') :
    Grows s s' ∧ Promising cfg j (qualify (some ns) name) names s' t := by
  have hin : SchemaIn (Written cfg j) schema := schema_in (part_texts hschema)
  by_cases hdirect : Direct j schema
  · have more : ∀ n, Nothing n → Known cfg j (Expecting Nothing (qualify (some ns) name)) s n :=
      fun n hn => hn.elim
    have hscope : SoundScope cfg j (Expecting Nothing (qualify (some ns) name)) s
        (Scope.root name ns j baseUri) := root_scope hlegal (expected_anchored ..) baseUri
    obtain ⟨hs', hg, -, ht⟩ := node_sound _ _ _ _ _ (hs.settle more) hscope hin _ _ _ h
    refine ⟨hg, ?_⟩
    have outcome : DirectOutcome cfg j Nothing (qualify (some ns) name) names s s' t :=
      node_direct Nothing schema (Scope.root name ns j baseUri) [] s t names s'
        (by simp [htop]) (Or.inl rfl) hin hdirect rfl hlegal h
    rcases outcome with ⟨r, rfl, -, -⟩ | ⟨rfl, hk⟩ | ⟨hq, hquiet⟩
    · exact Or.inl ⟨hs', ht.own, Or.inl ⟨_, rfl, rfl⟩⟩
    · exact Or.inl ⟨hs', ht.own, Or.inr hk⟩
    · exact Or.inr ⟨hq.sound hs, hquiet.own⟩
  · have hscope : SoundScope cfg j Nothing s (Scope.root name ns j baseUri) :=
      root_scope hlegal (Or.inr (hinner hdirect)) baseUri
    obtain ⟨hs', hg, -, ht⟩ := node_sound _ _ _ _ _ hs hscope hin _ _ _ h
    exact ⟨hg, Or.inr ⟨hs', ht.own⟩⟩

theorem definition_type_promising (hs : Sound cfg j Nothing s) (htop : s.frames = [])
    (hschema : Part j schema) (hlegal : Name.ofText name = name)
    (hinner : ¬Direct j schema → Inner cfg j (qualify (some ns) name))
    {t : Option AvroType}
    (h : (definitionType cfg schema (Scope.root name ns j baseUri)).Yields s (t, names) s') :
    Grows s s' ∧ Promising cfg j (qualify (some ns) name) names s' t := by
  unfold definitionType at h
  split at h
  · next o =>
    split at h
    · obtain ⟨u, s₁, hrecord, hp⟩ := Run.yields_bind.mp h
      obtain ⟨hpair, rfl⟩ := Run.yields_pure.mp hp
      obtain ⟨rfl, rfl⟩ := Prod.mk.inj hpair
      exact record_promising hs htop hschema hlegal hrecord
    · exact node_promising hs htop hschema hlegal hinner (Build.yields_apart.mp h)
  · exact node_promising hs htop hschema hlegal hinner (Build.yields_apart.mp h)

/-- Once the type of a definition is kept nothing is pending. -/
theorem Promising.keep {t : Option AvroType} {r : Option String} {key : Option String}
    {schemaName : String} (ht : Promising cfg j (qualify (some ns) name) names s t)
    (htop : s.frames = [])
    (h : (keepDefinition key schemaName schema name ns t names).Yields s r s') :
    Sound cfg j Nothing s' ∧ Grows s s' := by
  rcases ht with ⟨hs, ht, hk⟩ | ⟨hs, ht⟩
  · obtain ⟨hs', hg, hnamed⟩ := keep_definition_runs hs htop ht r s' h
    refine ⟨hs'.settle (kept ?_), hg⟩
    rcases hk with hk | hk
    · exact hnamed hk
    · exact hg.defined hk
  · obtain ⟨hs', hg, -⟩ := keep_definition_runs hs htop ht r s' h
    exact ⟨hs', hg⟩

theorem is_imported_still {key : Option String} {b : Bool} (h : (isImported key).Yields s b s') :
    s' = s := by
  unfold isImported at h
  split at h
  · obtain ⟨i, s₁, hi, hp⟩ := Run.yields_bind.mp h
    obtain ⟨-, rfl⟩ := Run.yields_imported.mp hi
    split at hp
    · exact (Run.yields_pure.mp hp).2
    · exact (Run.yields_pure.mp hp).2
  · exact (Run.yields_pure.mp h).2

theorem definition_runs (hs : Sound cfg j Nothing s) (htop : s.frames = [])
    (hschema : Part j schema) (schemaName : String) (pointer : Option String) :
    Runs cfg j Nothing (definition cfg j baseUri schemaName schema pointer) s
      fun _ _ => True := by
  obtain ⟨⟨name, ns⟩, hname⟩ : ∃ p, (pointer.bind (typeName? cfg.rootNs)).getD
      (Name.ofText schemaName, cfg.rootNs) = p := ⟨_, rfl⟩
  have hlegal : Name.ofText name = name := by
    cases h : pointer.bind (typeName? cfg.rootNs) with
    | none =>
      obtain ⟨rfl, -⟩ : Name.ofText schemaName = name ∧ cfg.rootNs = ns := by simpa [h] using hname
      exact of_text_idem schemaName
    | some p =>
      obtain ⟨_, -, hp⟩ := Option.bind_eq_some_iff.mp h
      obtain rfl : p = (name, ns) := by simpa [h] using hname
      have legal := type_name_legal hp
      dsimp only at legal
      exact legal
  have hinner : ¬Direct j schema → Inner cfg j (qualify (some ns) name) := by
    intro hdirect
    have inner := @Inner.definition cfg j schemaName schema pointer hschema hdirect
    rwa [hname] at inner
  intro r s' hy
  unfold definition at hy
  obtain ⟨b, s₁, hb, hrest⟩ := Run.yields_bind.mp hy
  obtain rfl := is_imported_still hb
  split at hrest
  · obtain ⟨rfl, rfl⟩ := Run.yields_pure.mp hrest
    exact ⟨hs, .refl _, trivial⟩
  · simp only [hname] at hrest
    obtain ⟨⟨t, names⟩, s₂, ht, hkeep⟩ := Run.yields_bind.mp hrest
    obtain ⟨hg, hpromising⟩ := definition_type_promising hs htop hschema hlegal hinner ht
    obtain ⟨hs', hg'⟩ := hpromising.keep (hg.frames.trans htop) hkeep
    exact ⟨hs', hg.trans hg', trivial⟩

end Definition

section Document

variable {cfg : Setting} {j : Json} {s s' : State} {baseUri : String}

/-- One definition after another, each begun with nothing pending and no record under
construction. -/
theorem then_runs {α β : Type} {x : Run α} {y : Run β} (htop : s.frames = [])
    (hx : Runs cfg j Nothing x s fun _ _ => True)
    (hy : ∀ s', Sound cfg j Nothing s' → s'.frames = [] → Runs cfg j Nothing y s' fun _ _ => True) :
    Runs cfg j Nothing (x >>= fun _ => y) s fun _ _ => True := by
  refine .bind hx ?_
  intro _ s₁ hs₁ hg₁ _
  exact hy s₁ hs₁ (hg₁.frames.trans htop)

mutual

theorem definition_or_group_runs (pointer name : String) (schema : Json) (s : State)
    (hs : Sound cfg j Nothing s) (htop : s.frames = []) (hp : Part j schema) :
    Runs cfg j Nothing (definitionOrGroup cfg j baseUri pointer name schema) s
      fun _ _ => True := by
  cases schema with
  | obj members =>
    rw [definitionOrGroup]
    split
    · exact then_runs htop (definition_runs hs htop hp _ _) fun s' hs' _ => .pure hs' trivial
    · exact definition_list_runs pointer members s hs htop fun m hm => .member hp hm
  | _ =>
    rw [definitionOrGroup]
    · exact .pure hs trivial
    · simp

theorem definition_list_runs (pointer : String) (members : List (String × Json)) (s : State)
    (hs : Sound cfg j Nothing s) (htop : s.frames = []) (hp : ∀ m ∈ members, Part j m.2) :
    Runs cfg j Nothing (definitionList cfg j baseUri pointer members) s fun _ _ => True := by
  cases members with
  | nil =>
    rw [definitionList]
    exact .pure hs trivial
  | cons m members =>
    obtain ⟨name, schema⟩ := m
    rw [List.forall_mem_cons] at hp
    rw [definitionList]
    refine then_runs htop (definition_or_group_runs _ name schema s hs htop hp.1) ?_
    exact fun s' hs' htop' => definition_list_runs pointer members s' hs' htop' hp.2

end

theorem definition_items_runs (index : Nat) (items : List Json) (hp : ∀ i ∈ items, Part j i)
    (hs : Sound cfg j Nothing s) (htop : s.frames = []) :
    Runs cfg j Nothing (definitionItems cfg j baseUri index items) s fun _ _ => True := by
  induction items generalizing index s with
  | nil =>
    rw [definitionItems]
    exact .pure hs trivial
  | cons item items ih =>
    rw [List.forall_mem_cons] at hp
    have rest : ∀ s', Sound cfg j Nothing s' → s'.frames = [] →
        Runs cfg j Nothing (definitionItems cfg j baseUri (index + 1) items) s' fun _ _ => True :=
      fun s' hs' htop' => ih _ hp.2 hs' htop'
    cases item with
    | obj o =>
      rw [definitionItems]
      exact then_runs htop (definition_runs hs htop hp.1 _ _) rest
    | _ => exact rest s hs htop

/-- Converting all definitions of a document keeps the state sound, with nothing pending. -/
theorem document_runs (hs : Sound cfg j Nothing s) (htop : s.frames = []) :
    Runs cfg j Nothing (document cfg j baseUri) s fun _ _ => True := by
  unfold document
  split
  · next o =>
    split
    · exact then_runs htop (definition_runs hs htop .whole _ _) fun s' hs' _ => .pure hs' trivial
    · split
      · dsimp only
        split
        · next first rest hg =>
          refine definition_list_runs _ _ s hs htop fun m hm => ?_
          obtain ⟨group, hget, hobj⟩ := Option.bind_eq_some_iff.mp hg
          have hmem := Object.mem_of_get? hget
          cases group with
          | obj members =>
            obtain rfl := Option.some.inj hobj
            exact .member (.member .whole hmem) hm
          | _ => simp [asObject?] at hobj
        · exact .fail
      · exact .fail
  · exact definition_items_runs 0 _ (fun i hi => .item .whole hi) hs htop
  · exact .fail

/-- Nothing is registered or remembered at the start. -/
theorem start_sound : Sound cfg j Nothing {} where
  registered := by simp
  named := by simp [Imports.get?]
  inline := by simp
  frames := by simp
  documents := by simp

end Document

end AvroDerive.Convert
