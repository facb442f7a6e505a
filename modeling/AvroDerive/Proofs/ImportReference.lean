import AvroDerive.Proofs.RecordReference

/-! # References to fragments

The name of a fragment that stands alone is handed out while the fragment is converted. A fragment
whose type is its own then gets that name, or nothing has happened that could have used it. The name
of any other fragment is promised without need. -/
namespace AvroDerive.Convert

open AvroType Json Schema

section

variable (cfg : Setting) (j : Json)

/-- What a schema whose type is its own converts to: a record of the expected name, which holds no
fields only if nothing has happened, a reference to a registered type of that name, or something
that leaves the state alone. -/
inductive DirectOutcome (pending : String → Prop) (expected : String) (names : List String)
    (s s' : State) (t : Option AvroType) : Prop
  | named (r) : t = some (.record r) → qualify r.ns r.name = expected →
    (r.fields = [] → Quiet s s') → DirectOutcome pending expected names s s' t
  | registered : t = some (.reference expected) → expected ∈ definedNames s'.registry →
    DirectOutcome pending expected names s s' t
  | quiet : Quiet s s' → MaybeBuilt cfg j pending t names s' →
    DirectOutcome pending expected names s s' t

/-- What a converter does with a schema whose type is its own and that is no field's. -/
def DirectSound (node : NodeConverter) : Prop :=
  ∀ pending schema scope names s t names' s',
    (∀ f ∈ s.frames, Name.ofText f.name = f.name ∧ Anchored cfg j pending s f.qualifiedName) →
    IsDocument cfg j scope.document → SchemaIn (Written cfg j) schema →
    Direct scope.document schema → scope.field = "" → Name.ofText scope.record = scope.record →
    (node schema scope).Yields names s t names' s' →
    DirectOutcome cfg j pending (qualify (some scope.ns) scope.record) names' s s' t

end

section Import

variable {cfg : Setting} {j : Json} {pending pending' : String → Prop} {s s' : State}
  {names names' : List String} {scope : Scope} {node : NodeConverter}

theorem fetch_document_runs (hs : Sound cfg j pending s) (url : Url) :
    Runs cfg j pending (fetchDocument cfg url) s fun d _ => Fetched cfg url.text d := by
  unfold fetchDocument
  refine .bind (.get hs) ?_
  rintro _ _ - - ⟨rfl, rfl⟩
  split
  · next d hd =>
    refine .pure hs ?_
    obtain ⟨before, after, hsplit, -⟩ := List.lookup_eq_some_iff.mp hd
    exact hs.documents (url.text, d) (by simp [hsplit])
  · split
    · exact .fail
    · next content hc =>
      split
      · exact .fail
      · next d hd =>
        have hfetched : Fetched cfg url.text d := ⟨url, content, rfl, hc, hd⟩
        intro d' s' hy
        obtain ⟨_, s₁, hm, hp⟩ := Run.yields_bind.mp hy
        obtain rfl := Run.yields_modify.mp hm
        obtain ⟨rfl, rfl⟩ := Run.yields_pure.mp hp
        have he : Extends s { s with documents := (url.text, d') :: s.documents } :=
          ⟨List.prefix_refl _, List.suffix_refl _⟩
        refine ⟨?_, ⟨he, rfl⟩, hfetched⟩
        refine hs.extend he (fun _ => Or.inl) (fun _ _ => Or.inl) (fun _ _ => Or.inl)
          (fun _ => Or.inl) fun e he => ?_
        rcases List.mem_cons.mp he with rfl | he
        · exact Or.inr hfetched
        · exact Or.inl he

/-- A located fragment is in a document, and the reference gives it its name. -/
structure LocatedIn (cfg : Setting) (j : Json) (reference : String) (scope : Scope)
    (located : Located) : Prop where
  document : IsDocument cfg j located.document
  texts : TextsIn (Written cfg j) located.fragment
  leads : Leads cfg j located.document (qualify (some (referenceName cfg reference located.url scope).2)
    (referenceName cfg reference located.url scope).1) located.fragment

theorem locate_runs (hs : Sound cfg j pending s) (hscope : SoundScope cfg j pending s scope)
    (reference : String) : Runs cfg j pending (locate cfg reference scope) s
      fun located _ => LocatedIn cfg j reference scope located := by
  unfold locate
  split
  · split
    · next fragment hf =>
      exact .pure hs ⟨hscope.document,
        local_fragment_texts (document_texts hscope.document) hf, .inside hscope.document hf⟩
    · exact .fail
  · split
    · exact .fail
    · next url hurl =>
      refine .bind (fetch_document_runs hs url.withoutFragment) ?_
      intro d s₁ hs₁ hg₁ hd
      have hdoc : IsDocument cfg j d := Or.inr ⟨_, hd⟩
      split
      · next fragment hf =>
        exact .pure hs₁ ⟨hdoc, pointer_texts (document_texts hdoc) hf, .across hd hf⟩
      · exact .fail

theorem type_name_legal {root pointer : String} {p : String × String}
    (h : typeName? root pointer = some p) : Name.ofText p.1 = p.1 := by
  simp only [typeName?, typeNameOfKeys?, Option.map_eq_some_iff] at h
  obtain ⟨last, -, rfl⟩ := h
  exact of_text_idem last

theorem reference_name_legal (cfg : Setting) (scope : Scope) (reference : String)
    (url : Option Url) : Name.ofText (referenceName cfg reference url scope).1 =
      (referenceName cfg reference url scope).1 := by
  unfold referenceName
  dsimp only
  split
  · next p h => exact type_name_legal h
  · rw [of_text_idem]

theorem reuse_imported_builds (hs : Sound cfg j pending s) {key : String} {i : Imported}
    (hi : Imports.get? s.imports key = some i) :
    Builds cfg j pending (reuseImported i) names s (Built cfg j pending) := by
  cases i with
  | named name =>
    have hk := hs.named key name hi
    refine .bind (.depend hs name) ?_
    rintro _ names₁ _ - - hn₁ ⟨hm, rfl⟩
    refine .pure hs (.of_not_record ?_ rfl)
    exact all_refer_reference.mpr (Or.inl ⟨hk, Or.inl hm⟩)
  | inline t =>
    have hm : (key, some (Imported.inline t)) ∈ s.imports := by
      obtain ⟨before, after, hsplit, -⟩ := List.lookup_eq_some_iff.mp (Option.join_eq_some_iff.mp hi)
      simp [hsplit]
    obtain ⟨hr, ht⟩ := hs.inline key t hm
    exact .pure hs (.of_not_record (ht.imp fun _ _ h => h.mono (.refl s) (List.nil_subset _)) hr)

/-- What is remembered of a reference at the end counts, whatever was remembered of it before. -/
theorem Differs.supersede {key : String} (hs : Sound cfg j pending s) (hd : Differs key s s')
    {i : Option Imported} (hi : Stands cfg j pending s' i) (ws : List Warning) :
    Sound cfg j pending { s' with imports := (key, i) :: s'.imports, warnings := ws } ∧
      Grows s' { s' with imports := (key, i) :: s'.imports, warnings := ws } :=
  ⟨(hs.supersede hd hi).warn ws, ⟨List.prefix_refl _, List.suffix_cons _ _⟩, rfl⟩

/-- A type that does not get the expected name is used where it is, and remembered as it is. -/
theorem settle_other {key reference expected : String} {t : Option AvroType}
    {inner : List String} (hs : Sound cfg j pending s) (hd : Differs key s s')
    (hk : ∀ u, t = some u → (u.isRecord || u.isEnum) = true →
      u.qualifiedName? ≠ some expected) (ht : MaybeBuilt cfg j pending t inner s') :
    Builds cfg j pending (settle key reference expected scope t inner) names s'
      (Built cfg j pending) := by
  intro u names₁ s₁ hy
  unfold settle at hy
  cases t with
  | none =>
    simp only [Build.yields_bind, Build.yields_lift, Build.yields_pure, Run.yields_forget,
      Run.yields_warn] at hy
    obtain ⟨_, _, _, ⟨rfl, rfl⟩, _, _, _, ⟨rfl, rfl⟩, rfl, rfl, rfl⟩ := hy
    obtain ⟨hsound, hgrows⟩ := hd.supersede hs (i := none) trivial _
    exact ⟨hsound, hgrows, List.Subset.refl _, built_generic⟩
  | some t =>
    have hbuilt := ht t rfl
    dsimp only at hy
    split at hy
    · next hr =>
      rw [if_neg (hk t rfl hr)] at hy
      simp only [Build.yields_bind, Build.yields_lift, Build.yields_pure, Run.yields_forget,
        Build.yields_dependAll] at hy
      obtain ⟨_, _, _, ⟨rfl, rfl⟩, _, _, _, ⟨rfl, rfl⟩, rfl, rfl, rfl⟩ := hy
      obtain ⟨hsound, hgrows⟩ := hd.supersede hs (i := none) trivial s'.warnings
      exact ⟨hsound, hgrows, fun n hn => mem_addAll.mpr (Or.inl hn),
        hbuilt.mono hgrows fun n hn => mem_addAll.mpr (Or.inr hn)⟩
    · next hr =>
      have hi : ∃ i, Stands cfg j pending s' (some i) ∧ u = t ∧ names₁ = addAll names inner ∧
          s₁ = { s' with imports := Imports.insert s'.imports key i } := by
        split at hy
        · next name =>
          simp only [Build.yields_bind, Build.yields_lift, Build.yields_pure,
            Run.yields_remember, Build.yields_dependAll] at hy
          obtain ⟨_, _, _, ⟨rfl, rfl⟩, _, _, _, ⟨rfl, rfl⟩, rfl, rfl, rfl⟩ := hy
          exact ⟨.named name, (all_refer_reference.mp hbuilt.refer).known, rfl, rfl, rfl⟩
        · simp only [Build.yields_bind, Build.yields_lift, Build.yields_pure,
            Run.yields_remember, Build.yields_dependAll] at hy
          obtain ⟨_, _, _, ⟨rfl, rfl⟩, _, _, _, ⟨rfl, rfl⟩, rfl, rfl, rfl⟩ := hy
          rw [Bool.not_eq_true, Bool.or_eq_false_iff] at hr
          exact ⟨.inline u, ⟨hr.1, inner, hbuilt.refer⟩, rfl, rfl, rfl⟩
      obtain ⟨i, hstands, rfl, rfl, rfl⟩ := hi
      obtain ⟨hsound, hgrows⟩ := hd.supersede hs hstands s'.warnings
      exact ⟨hsound, hgrows, fun n hn => mem_addAll.mpr (Or.inl hn),
        hbuilt.mono hgrows fun n hn => mem_addAll.mpr (Or.inr hn)⟩

/-- A record or an enumeration of the expected name is registered. -/
theorem settle_named {key reference expected : String} {t : AvroType} {inner : List String}
    (hs : Sound cfg j pending s) (hr : (t.isRecord || t.isEnum) = true)
    (hk : t.qualifiedName? = some expected) (ht : Built cfg j pending t inner s) :
    Builds cfg j pending (settle key reference expected scope (some t) inner) names s
      fun u names' s' => Built cfg j pending u names' s' ∧
        expected ∈ definedNames s'.registry := by
  have hnamed : t.isNamed = true := by
    cases t <;> simp_all [isNamed, isRecord, isEnum]
  simp only [settle, if_pos hr, if_pos hk]
  refine .bind (.lift (.register hs hnamed hk (ht.refer.imp fun _ _ h =>
    h.mono (.refl s) (List.subset_append_left inner t.ownDependencies)))) ?_
  rintro _ _ s₁ hs₁ - - ⟨rfl, rfl, hdefined⟩
  refine .bind (.lift (.remember hs₁ key (Or.inl hdefined))) ?_
  rintro _ _ s₂ hs₂ hg₂ - ⟨rfl, hregistry⟩
  refine .bind (.depend hs₂ _) ?_
  rintro _ names₃ _ - - - ⟨hm, rfl⟩
  rw [← hregistry] at hdefined
  refine .pure hs₂ ⟨.of_not_record ?_ rfl, hdefined⟩
  exact all_refer_reference.mpr (Or.inl ⟨Or.inl hdefined, Or.inl hm⟩)

theorem settle_builds {key reference expected : String} {t : Option AvroType}
    {inner : List String} (hs : Sound cfg j pending s)
    (ht : MaybeBuilt cfg j pending t inner s) :
    Builds cfg j pending (settle key reference expected scope t inner) names s
      (Built cfg j pending) := by
  by_cases hk : ∃ u, t = some u ∧ (u.isRecord || u.isEnum) = true ∧
      u.qualifiedName? = some expected
  · obtain ⟨u, rfl, hr, hname⟩ := hk
    exact (settle_named hs hr hname (ht u rfl)).imp fun _ _ _ _ _ _ h => h.1
  · refine settle_other hs (.refl key s) (fun u hu hr hname => hk ⟨u, hu, hr, hname⟩) ht

/-- A name that is expected of a fragment is pending while the fragment is converted. -/
def Expecting (pending : String → Prop) (expected : String) : String → Prop :=
  fun n => pending n ∨ n = expected

/-- The expected name is pending no longer when a type of that name is registered. -/
theorem kept {expected : String} (h : expected ∈ definedNames s.registry) :
    ∀ n, Expecting pending expected n → Known cfg j pending s n := by
  rintro n (hn | rfl)
  · exact Or.inr (Or.inr (Or.inr hn))
  · exact Or.inl h

/-- A fragment whose type is its own gets the expected name, or nothing has used that name. -/
theorem import_direct (hnode : NodeSound cfg j node) (hdirect : DirectSound cfg j node)
    {key reference : String} {fragment : Json} (inner : Scope) (hs : Sound cfg j pending s)
    (hd : Differs key s s')
    (hs' : Sound cfg j (Expecting pending (qualify (some inner.ns) inner.record)) s')
    (hdoc : IsDocument cfg j inner.document) (hfragment : TextsIn (Written cfg j) fragment)
    (hf : Direct inner.document fragment) (hfield : inner.field = "")
    (hlegal : Name.ofText inner.record = inner.record) :
    Builds cfg j pending (do
      let (t, names) ← Build.apart (node fragment inner)
      settle key reference (qualify (some inner.ns) inner.record) scope t names) names s'
      (Built cfg j pending) := by
  intro u names₁ s₁ hy
  obtain ⟨⟨t, gathered⟩, names₂, s₂, hrun, hsettle⟩ := Build.yields_bind.mp hy
  obtain ⟨hapart, rfl⟩ := Build.yields_lift.mp hrun
  rw [Build.yields_apart] at hapart
  dsimp only at hapart hsettle
  have home : Anchored cfg j (Expecting pending (qualify (some inner.ns) inner.record)) s'
      (qualify (some inner.ns) (Name.ofText inner.record)) := by
    rw [hlegal]
    exact Or.inl (Or.inr (Or.inr (Or.inr (Or.inr rfl))))
  obtain ⟨hs₂, hg₂, -, ht⟩ :=
    hnode _ _ _ _ _ hs' ⟨hdoc, home⟩ (schema_in hfragment) _ _ _ hapart
  have settled : qualify (some inner.ns) inner.record ∈ definedNames s₁.registry →
      Sound cfg j (Expecting pending (qualify (some inner.ns) inner.record)) s₁ →
      Grows s₂ s₁ → names₂ ⊆ names₁ →
      Built cfg j (Expecting pending (qualify (some inner.ns) inner.record)) u names₁ s₁ →
      Sound cfg j pending s₁ ∧ Grows s' s₁ ∧ names₂ ⊆ names₁ ∧ Built cfg j pending u names₁ s₁ :=
    fun hk hs₁ hg₁ hn₁ hu => ⟨hs₁.settle (kept hk), hg₂.trans hg₁, hn₁, hu.settle (kept hk)⟩
  have named : ∀ v, t = some v → (v.isRecord || v.isEnum) = true →
      v.qualifiedName? = some (qualify (some inner.ns) inner.record) →
      Sound cfg j pending s₁ ∧ Grows s' s₁ ∧ names₂ ⊆ names₁ ∧
        Built cfg j pending u names₁ s₁ := by
    rintro v rfl hr hname
    obtain ⟨hs₁, hg₁, hn₁, hu, hk⟩ := settle_named hs₂ hr hname (ht v rfl) u names₁ s₁ hsettle
    exact settled hk hs₁ hg₁ hn₁ hu
  have frames : ∀ f ∈ s'.frames,
      Name.ofText f.name = f.name ∧ Anchored cfg j pending s' f.qualifiedName := by
    intro f hf
    obtain ⟨hname, ha⟩ := hs.frames f (hd.frames ▸ hf)
    exact ⟨hname, ha.mono hd.extends⟩
  rcases hdirect pending fragment inner [] s' t gathered s₂ frames hdoc (schema_in hfragment) hf
    hfield hlegal hapart with ⟨r, hv, hname, -⟩ | ⟨rfl, hk⟩ | ⟨hq, hquiet⟩
  · exact named (.record r) hv rfl (congrArg some hname)
  · obtain ⟨hs₁, hg₁, hn₁, hu⟩ := settle_builds hs₂ ht u names₁ s₁ hsettle
    exact settled (hg₁.defined hk) hs₁ hg₁ hn₁ hu
  · by_cases hk : ∃ v, t = some v ∧ (v.isRecord || v.isEnum) = true ∧
        v.qualifiedName? = some (qualify (some inner.ns) inner.record)
    · obtain ⟨v, hv, hr, hname⟩ := hk
      exact named v hv hr hname
    · have hd₂ : Differs key s s₂ := by
        obtain ⟨ws, rfl⟩ := hq
        exact ⟨hd.registry, hd.frames, hd.documents, hd.imports⟩
      obtain ⟨hs₁, hg₁, hn₁, hu⟩ := settle_other hs hd₂
        (fun v hv hr hname => hk ⟨v, hv, hr, hname⟩) hquiet u names₁ s₁ hsettle
      exact ⟨hs₁, hg₂.trans hg₁, hn₁, hu⟩

theorem import_fragment_builds (hnode : NodeSound cfg j node) (hdirect : DirectSound cfg j node)
    {key reference : String} {located : Located} (hs : Sound cfg j pending s)
    (hl : LocatedIn cfg j reference scope located) :
    Builds cfg j pending (importFragment cfg node key reference located scope) names s
      (Built cfg j pending) := by
  obtain ⟨⟨name, ns⟩, hname⟩ : ∃ p, referenceName cfg reference located.url scope = p :=
    ⟨_, rfl⟩
  have hlegal : Name.ofText name = name := by
    have := reference_name_legal cfg scope reference located.url
    rwa [hname] at this
  have hleads : Leads cfg j located.document (qualify (some ns) name) located.fragment := by
    have := hl.leads
    rwa [hname] at this
  let inner : Scope :=
    { record := name, ns, document := located.document, baseUri := located.baseUri,
      depth := scope.depth + 1 }
  let rest : Build AvroType := do
    let (t, names) ← Build.apart (node located.fragment inner)
    settle key reference (qualify (some ns) name) scope t names
  have split : importFragment cfg node key reference located scope =
      if isStandalone located.fragment then
        (do Run.remember key (.named (qualify (some ns) name)); rest) else rest := by
    simp only [importFragment, hname]
    rfl
  rw [split]
  by_cases hdir : Direct located.document located.fragment
  · have hmore : ∀ n, pending n → Known cfg j (Expecting pending (qualify (some ns) name)) s n :=
      fun n hn => Or.inr (Or.inr (Or.inr (Or.inl hn)))
    have hexpecting := hs.settle hmore
    split
    · intro u names₁ s₁ hy
      obtain ⟨_, names₂, s₂, hm, hrest⟩ := Build.yields_bind.mp hy
      obtain ⟨hr, rfl⟩ := Build.yields_lift.mp hm
      have hs₂ := Run.yields_remember.mp hr
      have hd : Differs key s s₂ := by
        rw [hs₂]
        exact ⟨rfl, rfl, rfl, Or.inr ⟨_, rfl⟩⟩
      have hremembered : Sound cfg j (Expecting pending (qualify (some ns) name)) s₂ := by
        rw [hs₂]
        exact hexpecting.supersede (.refl key s) (i := some (.named _))
          (Or.inr (Or.inr (Or.inr (Or.inr rfl))))
      obtain ⟨hs', hg', hn', hu⟩ := import_direct hnode hdirect inner hs hd hremembered
        hl.document hl.texts hdir rfl hlegal u names₁ s₁ hrest
      exact ⟨hs', Grows.trans ⟨hd.extends, hd.frames⟩ hg', hn', hu⟩
    · exact import_direct hnode hdirect inner hs (.refl key s) hexpecting hl.document hl.texts
        hdir rfl hlegal
  · have core : ∀ s', Sound cfg j pending s' → Builds cfg j pending rest names s'
        (Built cfg j pending) := by
      intro s' hs'
      have home : Anchored cfg j pending s' (qualify (some ns) (Name.ofText name)) := by
        rw [hlegal]
        exact Or.inr (.fragment hleads hdir)
      refine .bind (.lift (.apart (hnode _ _ _ _ _ hs' ⟨hl.document, home⟩ (schema_in hl.texts)))) ?_
      rintro ⟨t, gathered⟩ _ s₁ hs₁ - - ⟨rfl, ht⟩
      exact settle_builds hs₁ ht
    split
    · next hstand =>
      refine .bind (.lift (.remember hs key ?_)) ?_
      · exact Or.inr (Or.inr (Or.inl ⟨_, _, hleads, hstand, hdir⟩))
      · rintro _ _ s₁ hs₁ - - ⟨rfl, -⟩
        exact core s₁ hs₁
    · exact core s hs

theorem imported_runs (hs : Sound cfg j pending s) (key : String) :
    Runs cfg j pending (Run.imported? key) s fun i s' =>
      i = Imports.get? s'.imports key ∧ s = s' := by
  intro i s' hy
  obtain ⟨rfl, rfl⟩ := Run.yields_imported.mp hy
  exact ⟨hs, .refl _, rfl, rfl⟩

/-- A reference keeps the state sound and gives a type with fine references. -/
theorem reference_type_builds (hnode : NodeSound cfg j node) (hdirect : DirectSound cfg j node)
    {o : Object} (ho : ObjectIn (Written cfg j) o) (hs : Sound cfg j pending s)
    (hscope : SoundScope cfg j pending s scope) :
    Builds cfg j pending (referenceType cfg node o scope) names s (MaybeBuilt cfg j pending) := by
  unfold referenceType
  split
  · refine .bind (.lift (.warn hs _)) ?_
    rintro _ _ s₁ hs₁ - - ⟨rfl, -⟩
    exact .pure hs₁ built_generic.maybe
  · next reference href =>
    refine .bind (.lift (imported_runs hs _)) ?_
    rintro i _ _ - - - ⟨rfl, hi, rfl⟩
    split
    · refine .bind (reuse_imported_builds hs hi.symm) ?_
      intro t names₁ s₁ hs₁ hg₁ hn₁ ht
      exact .pure hs₁ ht.maybe
    · refine .bind (.lift (locate_runs hs hscope reference)) ?_
      rintro located _ s₁ hs₁ hg₁ - ⟨rfl, hl⟩
      split
      · refine .bind (import_fragment_builds hnode hdirect hs₁ hl) ?_
        intro t names₁ s₂ hs₂ hg₂ hn₂ ht
        exact .pure hs₂ ht.maybe
      · dsimp only
        refine .bind (.lift (.warnAll hs₁ _)) ?_
        rintro _ _ s₂ hs₂ hg₂ - ⟨rfl, -⟩
        have hmerged : SchemaIn (Written cfg j)
            (.obj (mergeAll [.obj (Object.erase o "$ref"), located.fragment]).1) := by
          refine merge_all_in ?_
          rw [List.forall_mem_cons, List.forall_mem_singleton]
          exact ⟨ho.erase _, schema_in hl.texts⟩
        have hscope₂ := hscope.mono (hg₁.trans hg₂)
        exact hnode _ _ _ _ _ hs₂ (hscope₂.with_document hl.document _).deeper hmerged

end Import

end AvroDerive.Convert
