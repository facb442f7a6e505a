import AvroDerive.Proofs.Repetition

/-! # References that are followed again

Only references look at what is remembered. One that the first run followed may have become known:
then the second run passes over what is behind it. Any other one that the second run follows the first
run followed too, and both runs begin, convert and settle it. -/
namespace AvroDerive.Convert

open AvroType Json Schema

/-- A converter does in the second run what it did in the first one, whatever schema of the corpus it
is given and whatever is under way. -/
def NodeRepeats (cfg : Setting) (c : Corpus) (final : State) (node : NodeConverter) : Prop :=
  ∀ schema scope is, c.stands scope.baseUri scope.document → SchemaIn c.written schema →
    BuildsRepeat cfg c final is unseen (node schema scope) (node schema scope)

/-- A key that was given up leads to fragments that stand alone. -/
def GivesUpAlone (cfg : Setting) (c : Corpus) (s : State) : Prop :=
  ∀ key, (key, none) ∈ s.imports → ∀ fragment name, c.Gives cfg (some key) fragment name →
    isStandalone fragment = true

section Located

variable {cfg : Setting} {c : Corpus} {final s s' t : State} {is : List Import} {scope : Scope}

/-- The document that the source gives at a URL. -/
def download (cfg : Setting) (url : Url) : Except Failure Json :=
  match cfg.source url with
  | .error e => .error (.fetch e)
  | .ok text =>
    match parse? text with
    | none => .error (.invalidJson url.text)
    | some d => .ok d

theorem download_fetched {url : Url} {d : Json} (h : download cfg url = .ok d) :
    Fetched cfg url.text d := by
  unfold download at h
  split at h
  · simp at h
  · next text htext =>
    split at h
    · simp at h
    · next d' hparse =>
      obtain rfl := Except.ok.inj h
      exact ⟨url, text, rfl, htext, hparse⟩

theorem fetch_document_run (cfg : Setting) (url : Url) (s : State) :
    (fetchDocument cfg url).run.run s = match s.documents.lookup url.text with
      | some d => (.ok d, s)
      | none => match download cfg url with
        | .ok d => (.ok d, { s with documents := (url.text, d) :: s.documents })
        | .error e => (.error e, s) := by
  unfold fetchDocument download
  rw [Run.run_bind, show (get : Run State).run.run s = (.ok s, s) from rfl]
  dsimp only
  cases s.documents.lookup url.text with
  | some d => rfl
  | none =>
    cases cfg.source url with
    | error e => rfl
    | ok text =>
      dsimp only
      cases parse? text with
      | none => rfl
      | some d => rfl

theorem fetch_document_retains (cfg : Setting) (url : Url) (s : State) :
    Retains cfg s ((fetchDocument cfg url).run.run s).2 := by
  rw [fetch_document_run]
  cases hd : s.documents.lookup url.text with
  | some d => exact .refl s
  | none =>
    cases hload : download cfg url with
    | error e => exact .refl s
    | ok d =>
      refine ⟨List.suffix_refl _, fun _ => id, fun _ => id, rfl, fun url' d' h => ?_, fun h => ?_⟩
      · have hne : url' ≠ url.text := by
          rintro rfl
          simp [hd] at h
        rw [List.lookup_cons, beq_eq_false_iff_ne.mpr hne]
        exact h
      · exact List.forall_mem_cons.mpr ⟨download_fetched hload, h⟩

/-- A document that is fetched is at hand afterwards. -/
theorem fetch_document_yields {url : Url} {d : Json} (hy : (fetchDocument cfg url).Yields s d t) :
    t.documents.lookup url.text = some d ∧ t.imports = s.imports := by
  have run := (fetch_document_run cfg url s).symm.trans hy
  cases hd : s.documents.lookup url.text with
  | some d' =>
    simp only [hd] at run
    obtain ⟨h, rfl⟩ := Prod.mk.inj run
    rw [hd, Except.ok.inj h]
    exact ⟨rfl, rfl⟩
  | none =>
    cases hload : download cfg url with
    | error e =>
      simp only [hd, hload] at run
      exact absurd (Prod.mk.inj run).1 (by simp)
    | ok d' =>
      simp only [hd, hload] at run
      obtain ⟨h, rfl⟩ := Prod.mk.inj run
      rw [List.lookup_cons_self, Except.ok.inj h]
      exact ⟨rfl, rfl⟩

theorem fetch_document_fetched {url : Url} {d : Json} (hs : Stocked cfg s)
    (hy : (fetchDocument cfg url).Yields s d t) : Fetched cfg url.text d := by
  have retains := retains_yields (fetch_document_retains cfg url s) hy
  obtain ⟨before, after, hsplit, -⟩ := List.lookup_eq_some_iff.mp (fetch_document_yields hy).1
  exact retains.stocked hs (url.text, d) (by simp [hsplit])

theorem fetch_document_repeats (url : Url) :
    Repeats cfg c final is id (fetchDocument cfg url) (fetchDocument cfg url) := by
  refine ⟨fun s _ => fetch_document_retains cfg url s, fun s _ => fetch_document_retains cfg url s,
    fun s s' hs => ?_⟩
  refine ⟨fun d t hy hl => ?_, fun e t hfail _ hd => Or.inl ⟨s', ?_⟩⟩
  · have retains := retains_yields (fetch_document_retains cfg url s) hy
    refine ⟨d, s', ?_, hs.first_on retains, rfl⟩
    show (fetchDocument cfg url).run.run s' = _
    rw [fetch_document_run, hs.documents, hl.documents _ _ (fetch_document_yields hy).1]
  · rw [fetch_document_run] at hfail ⊢
    cases hnone : s.documents.lookup url.text with
    | some d =>
      simp only [hnone] at hfail
      exact absurd (Prod.mk.inj hfail).1 (by simp)
    | none =>
      cases hload : download cfg url with
      | ok d =>
        simp only [hnone, hload] at hfail
        exact absurd (Prod.mk.inj hfail).1 (by simp)
      | error e' =>
        simp only [hnone, hload] at hfail
        obtain ⟨he, rfl⟩ := Prod.mk.inj hfail
        rw [hs.documents, ← hd, hnone, Except.error.inj he]

theorem locate_repeats (reference : String) :
    Repeats cfg c final is id (locate cfg reference scope) (locate cfg reference scope) := by
  unfold locate
  split
  · split
    · exact .pure rfl
    · exact .fail _
  · split
    · exact .fail _
    · next url _ =>
      refine .bind (fetch_document_repeats url.withoutFragment) ?_
      intro d d' hd
      obtain rfl : d = d' := hd
      split
      · exact .pure rfl
      · exact .fail _

theorem locate_imports {reference : String} {located : Located}
    (hy : (locate cfg reference scope).Yields s located t) : t.imports = s.imports := by
  unfold locate at hy
  split at hy
  · split at hy
    · obtain ⟨-, rfl⟩ := Run.yields_pure.mp hy
      rfl
    · exact absurd hy Run.yields_fail
  · split at hy
    · exact absurd hy Run.yields_fail
    · obtain ⟨d, t₁, hd, hrest⟩ := Run.yields_bind.mp hy
      split at hrest
      · obtain ⟨-, rfl⟩ := Run.yields_pure.mp hrest
        exact (fetch_document_yields hd).2
      · exact absurd hrest Run.yields_fail

/-- A reference within the document is found in every state. -/
theorem locate_inside (cfg : Setting) {reference : String} {fragment : Json}
    (h : localFragment? scope.document reference = some fragment) (s : State) :
    (locate cfg reference scope).Yields s ⟨fragment, scope.document, scope.baseUri, none⟩ s := by
  obtain ⟨part, hpart, -⟩ := Option.bind_eq_some_iff.mp h
  unfold locate
  rw [hpart, Option.isSome_some, if_pos rfl, h]
  exact Run.yields_pure.mpr ⟨rfl, rfl⟩

/-- Where a fragment is found, the reference leads. -/
theorem locate_leads {reference : String} {located : Located} (hs : Stocked cfg s)
    (hy : (locate cfg reference scope).Yields s located t) :
    LeadsTo cfg reference scope located := by
  unfold locate at hy
  split at hy
  · split at hy
    · next fragment hf =>
      obtain ⟨rfl, rfl⟩ := Run.yields_pure.mp hy
      exact .inside hf
    · exact absurd hy Run.yields_fail
  · next hlocal =>
    rw [Option.not_isSome_iff_eq_none] at hlocal
    split at hy
    · exact absurd hy Run.yields_fail
    · next url hurl =>
      obtain ⟨d, t₁, hd, hrest⟩ := Run.yields_bind.mp hy
      split at hrest
      · next fragment hf =>
        obtain ⟨rfl, rfl⟩ := Run.yields_pure.mp hrest
        exact .across hlocal hurl (fetch_document_fetched hs hd) hf
      · exact absurd hrest Run.yields_fail

end Located

section Import

variable {cfg : Setting} {c : Corpus} {final s s' t t' : State} {is : List Import} {i : Import}
  {scope : Scope} {node : NodeConverter}

/-- Settling an import adds an entry of its key to what is remembered. -/
theorem Settles.adds {key expected : String} {r : Option AvroType} {u : AvroType}
    (h : Settles key expected r u s t) : (∃ o, t.imports = (key, o) :: s.imports) ∧
      t.frames = s.frames ∧ t.documents = s.documents := by
  cases h with
  | registered hkind hname => exact ⟨⟨_, rfl⟩, rfl, rfl⟩
  | standIn hkind hname => exact ⟨⟨_, rfl⟩, rfl, rfl⟩
  | passed => exact ⟨⟨_, rfl⟩, rfl, rfl⟩
  | inline hkind href => exact ⟨⟨_, rfl⟩, rfl, rfl⟩
  | empty => exact ⟨⟨_, rfl⟩, rfl, rfl⟩

theorem begun_adds (cfg : Setting) (i : Import) (s : State) :
    (i.begun cfg s).frames = s.frames ∧ (i.begun cfg s).documents = s.documents := by
  unfold Import.begun
  split <;> exact ⟨rfl, rfl⟩

/-- Apart from its key an import that is begun changes nothing that is remembered. -/
theorem get_begun {key : String} (h : key ≠ i.key) :
    Imports.get? (i.begun cfg s).imports key = Imports.get? s.imports key := by
  unfold Import.begun
  split
  · exact get_cons_ne _ h
  · rfl

theorem begun_retains (hnew : ¬ Remembers s i.key) : Retains cfg s (i.begun cfg s) := by
  have apart : ∀ key, Remembers s key → key ≠ i.key := by
    rintro key hk rfl
    exact hnew hk
  obtain ⟨hframes, hdocuments⟩ := begun_adds cfg i s
  refine ⟨(begun_extends i s).imports, fun key hk => ?_, fun key hk => ?_, hframes, ?_, ?_⟩
  · rw [Remembers, get_begun (apart key hk)]
    exact hk
  · obtain ⟨name, hname⟩ := hk
    have hne : key ≠ i.key := apart key (by rw [Remembers, hname]; simp)
    exact ⟨name, by rw [get_begun hne, hname]⟩
  · rw [hdocuments]
    exact fun _ _ h => h
  · rw [Stocked, Stocked, hdocuments]
    exact id

/-- An import that is settled keeps what was remembered when it was begun. -/
theorem Retains.settled (h : Retains cfg s t) (hnew : ¬ Remembers s i.key) {expected : String}
    {r : Option AvroType} {u : AvroType} (hset : Settles i.key expected r u t t') :
    Retains cfg s t' := by
  obtain ⟨⟨o, himports⟩, hframes, hdocuments⟩ := hset.adds
  have apart : ∀ key, Remembers s key → key ≠ i.key := by
    rintro key hk rfl
    exact hnew hk
  refine ⟨?_, fun key hk => ?_, fun key hk => ?_, hframes.trans h.frames, ?_, ?_⟩
  · rw [himports]
    exact h.log.trans (List.suffix_cons _ _)
  · rw [Remembers, himports, get_cons_ne o (apart key hk)]
    exact h.remembers key hk
  · have hne : key ≠ i.key := by
      obtain ⟨name, hname⟩ := hk
      exact apart key (by rw [Remembers, hname]; simp)
    rw [RemembersName, himports, get_cons_ne o hne]
    exact h.names key hk
  · rw [hdocuments]
    exact h.documents
  · intro hs
    rw [Stocked, hdocuments]
    exact h.stocked hs

/-- What lasts when the import is settled lasted while it was under way. -/
theorem Lasts.before_settled (h : Lasts final is t') {expected : String} {r : Option AvroType}
    {u : AvroType} (hset : Settles i.key expected r u t t') : Lasts final (i :: is) t := by
  obtain ⟨⟨o, himports⟩, -, hdocuments⟩ := hset.adds
  refine ⟨?_, fun key hk => ?_, fun key hk => ?_, ?_⟩
  · refine List.IsSuffix.trans ?_ h.log
    rw [himports]
    exact List.suffix_cons _ _
  · by_cases hkey : key = i.key
    · exact Or.inr ⟨i, List.mem_cons_self .., hkey.symm⟩
    · refine (h.remembers key ?_).imp_right ?_
      · rw [Remembers, himports, get_cons_ne o hkey]
        exact hk
      · rintro ⟨j, hj, rfl⟩
        exact ⟨j, List.mem_cons_of_mem _ hj, rfl⟩
  · by_cases hkey : key = i.key
    · exact Or.inr ⟨i, List.mem_cons_self .., hkey.symm⟩
    · refine (h.names key ?_).imp_right ?_
      · rw [RemembersName, himports, get_cons_ne o hkey]
        exact hk
      · rintro ⟨j, hj, rfl⟩
        exact ⟨j, List.mem_cons_of_mem _ hj, rfl⟩
  · intro url d hd
    exact h.documents url d (by rwa [hdocuments])

theorem Lasts.under_way (h : Lasts final is t) (i : Import) : Lasts final (i :: is) t where
  log := h.log
  remembers key hk := (h.remembers key hk).imp_right fun ⟨j, hj, hkey⟩ =>
    ⟨j, List.mem_cons_of_mem _ hj, hkey⟩
  names key hk := (h.names key hk).imp_right fun ⟨j, hj, hkey⟩ =>
    ⟨j, List.mem_cons_of_mem _ hj, hkey⟩
  documents := h.documents

/-- Both runs begin the same import. -/
theorem Along.begun_both (h : Along cfg c final is s s') (hi : i.Valid cfg c)
    (hnew : ¬ Remembers s i.key) (hnew' : ¬ Remembers s' i.key) :
    Along cfg c final (i :: is) (i.begun cfg s) (i.begun cfg s') := by
  have first : Retains cfg s (i.begun cfg s) := begun_retains hnew
  have second : Retains cfg s' (i.begun cfg s') := begun_retains hnew'
  have promised : ∀ s : State, isStandalone i.located.fragment = true →
      Remembers (i.begun cfg s) i.key := by
    intro s halone
    rw [Remembers, Import.begun, if_pos halone, Imports.insert, get_cons_self]
    simp
  refine ⟨first.stocked h.first, second.stocked h.second, ?_, ?_, fun key hk => second.remembers key (h.remembers key hk),
    fun key hk => second.names key (h.names key hk), ?_, ?_, ?_⟩
  · rw [first.frames, second.frames, h.frames]
  · rw [(begun_adds cfg i s').2, h.documents]
  · exact List.forall_mem_cons.mpr ⟨hi, h.valid⟩
  · refine List.forall_mem_cons.mpr ⟨promised s', fun j hj halone => ?_⟩
    exact second.remembers _ (h.promised j hj halone)
  · have own : Remembers (i.begun cfg s') i.key → Remembers (i.begun cfg s) i.key := by
      intro hk
      by_cases halone : isStandalone i.located.fragment = true
      · exact promised s halone
      · rw [Import.begun, if_neg halone] at hk
        exact absurd hk hnew'
    refine List.forall_mem_cons.mpr ⟨own, fun j hj hk => ?_⟩
    by_cases hkey : j.key = i.key
    · rw [hkey] at hk ⊢
      exact own hk
    · rw [Remembers, get_begun hkey] at hk ⊢
      exact h.begun j hj hk

/-- Both runs settle the import. If the first one gives it up, it stands alone, and so no import of
its key is under way around it. -/
theorem Along.settled_both (h : Along cfg c final (i :: is) s s') (hgiven : GivesUpAlone cfg c final)
    (hfinal : ¬ Remembers final i.key)
    (hfree : ∀ j ∈ is, isStandalone j.located.fragment = true → j.key ≠ i.key)
    {expected : String} {r r' : Option AvroType} {u u' : AvroType}
    (hset : Settles i.key expected r u s t) (hset' : Settles i.key expected r' u' s' t')
    (hl : Lasts final is t) : Along cfg c final is t t' := by
  obtain ⟨⟨o, himports⟩, hframes, hdocuments⟩ := hset.adds
  obtain ⟨⟨o', himports'⟩, hframes', hdocuments'⟩ := hset'.adds
  have other : ∀ key, key ≠ i.key → (Remembers t key ↔ Remembers s key) := by
    intro key hkey
    rw [Remembers, Remembers, himports, get_cons_ne o hkey]
  have other' : ∀ key, key ≠ i.key → (Remembers t' key ↔ Remembers s' key) := by
    intro key hkey
    rw [Remembers, Remembers, himports', get_cons_ne o' hkey]
  have valid := List.forall_mem_cons.mp h.valid
  refine ⟨by rw [Stocked, hdocuments]; exact h.first, by rw [Stocked, hdocuments']; exact h.second,
    by rw [hframes, hframes', h.frames], hdocuments'.trans h.documents, fun key hk => ?_, fun key hk => ?_, valid.2, ?_, ?_⟩
  · have hkey : key ≠ i.key := by
      rintro rfl
      exact hfinal hk
    exact (other' key hkey).mpr (h.remembers key hk)
  · have hkey : key ≠ i.key := by
      obtain ⟨name, hname⟩ := hk
      rintro rfl
      exact hfinal (by rw [Remembers, hname]; simp)
    rw [RemembersName, himports', get_cons_ne o' hkey]
    exact h.names key hk
  · intro j hj halone
    exact (other' _ (hfree j hj halone)).mpr (h.promised j (List.mem_cons_of_mem _ hj) halone)
  · intro j hj hk
    by_cases hkey : j.key = i.key
    · have given : o ≠ none := by
        rintro rfl
        have hmem : (i.key, none) ∈ final.imports :=
          hl.log.subset (by rw [himports]; exact List.mem_cons_self ..)
        have gives : c.Gives cfg (some j.key) j.located.fragment (j.typeName cfg) :=
          .reference (valid.2 j hj)
        rw [hkey] at gives
        exact hfree j hj (hgiven _ hmem _ _ gives) hkey
      rw [hkey, Remembers, himports, get_cons_self]
      exact given
    · exact (other _ hkey).mpr (h.begun j (List.mem_cons_of_mem _ hj) ((other' _ hkey).mp hk))

theorem import_fragment_retains (hnode : ∀ s, Stocked cfg s → Retains cfg s
      (((node i.located.fragment (i.inner cfg)).run []).run.run s).2)
    (hs : Stocked cfg s) (hnew : ¬ Remembers s i.key) (names : List String) :
    Retains cfg s (((importFragment cfg node i.key i.reference i.located i.scope).run
      names).run.run s).2 := by
  have begun : Retains cfg s (i.begun cfg s) := begun_retains hnew
  have inner := begun.trans (hnode (i.begun cfg s) (begun.stocked hs))
  rcases h : (Build.apart (node i.located.fragment (i.inner cfg))).run.run (i.begun cfg s) with
    ⟨r, t⟩
  rw [show ((node i.located.fragment (i.inner cfg)).run []).run.run (i.begun cfg s) = (r, t) from h]
    at inner
  cases r with
  | error e =>
    rw [import_fragment_fails h names]
    exact inner
  | ok r =>
    obtain ⟨u, t', ends, settles⟩ := import_fragment_settles h names
    rw [Run.Yields] at ends
    rw [ends]
    exact inner.settled hnew settles

/-- An import that both runs begin goes in the second one as in the first one. -/
theorem import_fragment_follows (hnode : NodeRepeats cfg c final node) (hc : c.Closed cfg)
    (hgiven : GivesUpAlone cfg c final) (hi : i.Valid cfg c) (hs : Along cfg c final is s s')
    (hnew : ¬ Remembers s i.key) (hnew' : ¬ Remembers s' i.key) (names names' : List String) :
    Follows cfg c final is unseen
      ((importFragment cfg node i.key i.reference i.located i.scope).run names)
      ((importFragment cfg node i.key i.reference i.located i.scope).run names') s s' := by
  obtain ⟨hstands, htexts⟩ := hi.leads.stands hc hi.stands
  have inner := (Repeats.apart (hnode i.located.fragment (i.inner cfg) (i :: is) hstands
    (schema_in htexts))).follows _ _ (hs.begun_both hi hnew hnew')
  have hfinal : ¬ Remembers final i.key := fun h => hnew' (hs.remembers _ h)
  have hfree : ∀ j ∈ is, isStandalone j.located.fragment = true → j.key ≠ i.key := by
    intro j hj halone hkey
    exact hnew' (hkey ▸ hs.promised j hj halone)
  constructor
  · intro a t hy hl
    rw [Run.Yields, import_fragment_run] at hy
    obtain ⟨r, t₁, hr, hsettle⟩ := Run.yields_bind.mp hy
    have hset : Settles i.key (fullOf (i.typeName cfg)) r.1 a.1 t₁ t := settle_settles hsettle
    obtain ⟨r', t₁', hr', along, -⟩ := inner.done r t₁ hr (hl.before_settled hset)
    obtain ⟨u', t', hy', hset'⟩ := import_fragment_settles hr' names'
    exact ⟨u', t', hy', along.settled_both hgiven hfinal hfree hset hset' hl, rfl⟩
  · intro e t hfail hl hd
    rcases h : (Build.apart (node i.located.fragment (i.inner cfg))).run.run (i.begun cfg s) with
      ⟨r, t₁⟩
    cases r with
    | ok r =>
      obtain ⟨u, t₂, hy, -⟩ := import_fragment_settles h names
      rw [Run.Yields] at hy
      rw [hy] at hfail
      exact absurd (Prod.mk.inj hfail).1 (by simp)
    | error e' =>
      rw [import_fragment_fails h names] at hfail
      obtain ⟨he, rfl⟩ := Prod.mk.inj hfail
      obtain rfl := Except.error.inj he
      rcases inner.failed e' t₁ h (hl.under_way i) hd with ⟨t', h'⟩ | hesc
      · exact Or.inl ⟨t', import_fragment_fails h' names'⟩
      · -- What the second run passes over is not the import itself, so it stays known.
        refine Or.inr ?_
        rcases h' : (Build.apart (node i.located.fragment (i.inner cfg))).run.run (i.begun cfg s')
          with ⟨r', t₁'⟩
        rw [h'] at hesc
        obtain ⟨key, hstops, hk, hother⟩ := hesc
        rw [List.forall_mem_cons] at hother
        cases r' with
        | error e'' =>
          rw [import_fragment_fails h' names']
          exact ⟨key, hstops, hk, hother.2⟩
        | ok r' =>
          obtain ⟨u', t', hy', hset'⟩ := import_fragment_settles h' names'
          rw [Run.Yields] at hy'
          rw [hy']
          obtain ⟨⟨o, himports⟩, -, -⟩ := hset'.adds
          refine ⟨key, hstops, ?_, hother.2⟩
          rw [Remembers, himports, get_cons_ne o (Ne.symm hother.1)]
          exact hk

end Import

section Reference

variable {cfg : Setting} {c : Corpus} {final s s' : State} {is : List Import} {scope : Scope}
  {node : NodeConverter} {o : Object} {reference : String}

/-- What becomes of a reference when its fragment is found. -/
def useLocated (cfg : Setting) (node : NodeConverter) (o : Object) (scope : Scope)
    (reference : String) (located : Located) : Build (Option AvroType) :=
  if isBareReference o then do
    return some (← importFragment cfg node (Location.resolve scope.baseUri reference) reference
      located scope)
  else do
    let (merged, warnings) := mergeAll [.obj (Object.erase o "$ref"), located.fragment]
    Run.warnAll warnings
    node (.obj merged) (scope.withDocument located.document located.baseUri).deeper

theorem given_up_of_unknown {imports : Imports} {key : String} {i : Imported}
    (hm : (key, some i) ∈ imports) (hnone : Imports.get? imports key = none) :
    (key, none) ∈ imports := by
  cases h : imports.lookup key with
  | none =>
    have := List.lookup_eq_none_iff.mp h _ hm
    simp at this
  | some o =>
    rw [Imports.get?, h, Option.join_some] at hnone
    obtain ⟨before, after, hsplit, -⟩ := List.lookup_eq_some_iff.mp h
    simp [hsplit, hnone]

/-- What the first run knows the second one knows as well. -/
theorem Along.known (h : Along cfg c final is s s') (hgiven : GivesUpAlone cfg c final)
    (hl : Lasts final is s) {key : String} (hk : Remembers s key) : Remembers s' key := by
  by_cases hfinal : Remembers final key
  · exact h.remembers key hfinal
  · obtain ⟨i, hi, rfl⟩ := (hl.remembers key hk).resolve_left hfinal
    refine h.promised i hi ?_
    obtain ⟨v, hv⟩ := Option.ne_none_iff_exists'.mp hk
    have hgone : (i.key, none) ∈ final.imports :=
      given_up_of_unknown (hl.log.subset (mem_of_imported hv)) (not_not.mp hfinal)
    exact hgiven _ hgone _ _ (.reference (h.valid i hi))

theorem known_reference_yields (href : (Object.get? o "$ref").bind asString? = some reference)
    (hk : Remembers s (Location.resolve scope.baseUri reference)) (names : List String) :
    ∃ r, ((referenceType cfg node o scope).run names).Yields s r s := by
  unfold Remembers at hk
  obtain ⟨i, hi⟩ := Option.ne_none_iff_exists'.mp hk
  have imported : (liftM (Run.imported? (Location.resolve scope.baseUri reference)) :
      Build (Option Imported)).Yields names s (some i) names s :=
    Build.yields_lift.mpr ⟨Run.yields_imported.mpr ⟨hi.symm, rfl⟩, rfl⟩
  have reused : ∃ t names', (reuseImported i).Yields names s t names' s := by
    cases i with
    | named name => exact ⟨_, _, rfl⟩
    | inline t => exact ⟨_, _, rfl⟩
  obtain ⟨t, names', hreuse⟩ := reused
  refine ⟨(some t, names'), ?_⟩
  unfold referenceType
  rw [href]
  exact Build.yields_bind.mpr ⟨_, _, _, imported, Build.yields_bind.mpr ⟨t, names', s, hreuse,
    Build.yields_pure.mpr ⟨rfl, rfl, rfl⟩⟩⟩

theorem unknown_reference_run (href : (Object.get? o "$ref").bind asString? = some reference)
    (hk : ¬ Remembers s (Location.resolve scope.baseUri reference)) (names : List String) :
    ((referenceType cfg node o scope).run names).run.run s =
      (locate cfg reference scope >>= fun located =>
        (useLocated cfg node o scope reference located).run names).run.run s := by
  unfold Remembers at hk
  rw [not_not] at hk
  unfold referenceType
  rw [href]
  dsimp only
  rw [run_lift_bind, Run.run_bind, show (Run.imported? (Location.resolve scope.baseUri
    reference)).run.run s = (.ok none, s) from congrArg (fun i => (Except.ok i, s)) hk]
  dsimp only
  rw [run_lift_bind]
  rfl

theorem merged_located_repeats (hnode : NodeRepeats cfg c final node) (hc : c.Closed cfg)
    (ho : ObjectIn c.written o) (hscope : c.stands scope.baseUri scope.document) {located : Located}
    (hleads : LeadsTo cfg reference scope located) (hbare : ¬ isBareReference o = true) :
    BuildsRepeat cfg c final is unseen (useLocated cfg node o scope reference located)
      (useLocated cfg node o scope reference located) := by
  obtain ⟨hstands, htexts⟩ := hleads.stands hc hscope
  unfold useLocated
  rw [if_neg hbare]
  refine .bind (.lift (.warnAll _ _)) ?_
  intro _ _ _
  have hmerged : SchemaIn c.written
      (.obj (mergeAll [.obj (Object.erase o "$ref"), located.fragment]).1) := by
    refine merge_all_in ?_
    rw [List.forall_mem_cons, List.forall_mem_singleton]
    exact ⟨ho.erase _, schema_in htexts⟩
  exact hnode _ _ _ hstands hmerged

theorem use_located_retains (hnode : NodeRepeats cfg c final node) (hc : c.Closed cfg)
    (ho : ObjectIn c.written o) (hscope : c.stands scope.baseUri scope.document) {located : Located}
    (hleads : LeadsTo cfg reference scope located) (hs : Stocked cfg s)
    (hk : ¬ Remembers s (Location.resolve scope.baseUri reference)) (names : List String) :
    Retains cfg s (((useLocated cfg node o scope reference located).run names).run.run s).2 := by
  by_cases hbare : isBareReference o = true
  · obtain ⟨hstands, htexts⟩ := hleads.stands hc hscope
    have inner : ∀ s, Stocked cfg s → Retains cfg s (((node located.fragment
        ((Import.mk reference scope located).inner cfg)).run []).run.run s).2 :=
      fun s hs => (hnode _ _ [] hstands (schema_in htexts) [] []).first s hs
    unfold useLocated
    rw [if_pos hbare, StateT.run_bind]
    exact retains_bind (import_fragment_retains inner hs hk names) fun r t _ => .refl t
  · have merged : BuildsRepeat cfg c final [] unseen (useLocated cfg node o scope reference located)
        (useLocated cfg node o scope reference located) :=
      merged_located_repeats hnode hc ho hscope hleads hbare
    exact (merged names names).first s hs

theorem use_located_follows (hnode : NodeRepeats cfg c final node) (hc : c.Closed cfg)
    (hgiven : GivesUpAlone cfg c final) (ho : ObjectIn c.written o)
    (hscope : c.stands scope.baseUri scope.document) (hwritten : c.written reference)
    {located : Located} (hleads : LeadsTo cfg reference scope located)
    (hs : Along cfg c final is s s')
    (hk : ¬ Remembers s (Location.resolve scope.baseUri reference))
    (hk' : ¬ Remembers s' (Location.resolve scope.baseUri reference)) (names names' : List String) :
    Follows cfg c final is unseen ((useLocated cfg node o scope reference located).run names)
      ((useLocated cfg node o scope reference located).run names') s s' := by
  by_cases hbare : isBareReference o = true
  · have both := import_fragment_follows (i := ⟨reference, scope, located⟩) hnode hc hgiven
      ⟨hscope, hwritten, hleads⟩ hs hk hk' names names'
    unfold useLocated
    rw [if_pos hbare, StateT.run_bind, StateT.run_bind]
    refine both.bind (fun r t _ => .refl t) (fun r t _ => .refl t) ?_
    intro r r' t t' _ _ _ along
    exact (Repeats.pure (a := (some r.1, r.2)) (b := (some r'.1, r'.2)) rfl).follows t t' along
  · exact (merged_located_repeats hnode hc ho hscope hleads hbare names names').follows s s' hs

/-- The fragment of an unknown reference is looked for and used. -/
theorem follow_reference_retains (hnode : NodeRepeats cfg c final node) (hc : c.Closed cfg)
    (ho : ObjectIn c.written o) (hscope : c.stands scope.baseUri scope.document)
    (hs : Stocked cfg s) (hk : ¬ Remembers s (Location.resolve scope.baseUri reference))
    (names : List String) :
    (∀ l t, (locate cfg reference scope).Yields s l t →
      Retains cfg t (((useLocated cfg node o scope reference l).run names).run.run t).2) ∧
    Retains cfg s ((locate cfg reference scope >>= fun located =>
      (useLocated cfg node o scope reference located).run names).run.run s).2 := by
  have search : Repeats cfg c final [] id (locate cfg reference scope) (locate cfg reference scope) :=
    locate_repeats reference
  have used : ∀ l t, (locate cfg reference scope).Yields s l t →
      Retains cfg t (((useLocated cfg node o scope reference l).run names).run.run t).2 := by
    intro l t hy
    refine use_located_retains hnode hc ho hscope (locate_leads hs hy)
      ((retains_yields (search.first s hs) hy).stocked hs) ?_ names
    rwa [Remembers, locate_imports hy]
  exact ⟨used, retains_bind (search.first s hs) used⟩

theorem follow_reference_follows (hnode : NodeRepeats cfg c final node) (hc : c.Closed cfg)
    (hgiven : GivesUpAlone cfg c final) (ho : ObjectIn c.written o)
    (hscope : c.stands scope.baseUri scope.document) (hwritten : c.written reference)
    (hs : Along cfg c final is s s')
    (hk : ¬ Remembers s (Location.resolve scope.baseUri reference))
    (hk' : ¬ Remembers s' (Location.resolve scope.baseUri reference)) (names names' : List String) :
    Follows cfg c final is unseen
      (locate cfg reference scope >>= fun located =>
        (useLocated cfg node o scope reference located).run names)
      (locate cfg reference scope >>= fun located =>
        (useLocated cfg node o scope reference located).run names') s s' := by
  refine ((locate_repeats reference).follows s s' hs).bind
    (follow_reference_retains hnode hc ho hscope hs.first hk names).1
    (follow_reference_retains hnode hc ho hscope hs.second hk' names').1 ?_
  intro l l' t t' hy hy' hl along
  obtain rfl : l = l' := hl
  refine use_located_follows hnode hc hgiven ho hscope hwritten (locate_leads hs.first hy) along ?_ ?_
    names names'
  · rwa [Remembers, locate_imports hy]
  · rwa [Remembers, locate_imports hy']

/-- A reference is passed over in the second run if it was in the first one. If only the first run
follows it, then either that succeeds and the second run is where it was, or the failure is what the
second run escapes. -/
theorem reference_type_repeats {levels : Nat} (hnode : NodeRepeats cfg c final (nodeWithin cfg levels))
    (hc : c.Closed cfg) (hgiven : GivesUpAlone cfg c final) (ho : ObjectIn c.written o)
    (hscope : c.stands scope.baseUri scope.document) :
    BuildsRepeat cfg c final is unseen (referenceType cfg (nodeWithin cfg levels) o scope)
      (referenceType cfg (nodeWithin cfg levels) o scope) := by
  cases href : (Object.get? o "$ref").bind asString? with
  | none =>
    unfold referenceType
    rw [href]
    refine .bind (.lift (.warn _ _)) ?_
    intro _ _ _
    exact .pure rfl
  | some reference =>
    have known : ∀ s names, Remembers s (Location.resolve scope.baseUri reference) →
        ∃ r, ((referenceType cfg (nodeWithin cfg levels) o scope).run names).Yields s r s :=
      fun _ names hk => known_reference_yields href hk names
    have retains : ∀ names s, Stocked cfg s → Retains cfg s
        (((referenceType cfg (nodeWithin cfg levels) o scope).run names).run.run s).2 := by
      intro names s hs
      by_cases hk : Remembers s (Location.resolve scope.baseUri reference)
      · obtain ⟨r, hy⟩ := known s names hk
        rw [show ((referenceType cfg (nodeWithin cfg levels) o scope).run names).run.run s =
          (.ok r, s) from hy]
        exact .refl s
      · rw [unknown_reference_run href hk]
        exact (follow_reference_retains hnode hc ho hscope hs hk names).2
    intro names names'
    refine ⟨retains names, retains names', fun s s' hs => ?_⟩
    by_cases hk : Remembers s (Location.resolve scope.baseUri reference)
    · obtain ⟨r, hy⟩ := known s names hk
      refine ⟨fun a t hy' hl => ?_, fun e t hfail => ?_⟩
      · obtain ⟨-, rfl⟩ := Prod.mk.inj (hy.symm.trans hy')
        obtain ⟨r', hy'⟩ := known s' names' (hs.known hgiven hl hk)
        exact ⟨r', s', hy', hs, rfl⟩
      · exact absurd (Prod.mk.inj (hy.symm.trans hfail)).1 (by simp)
    · by_cases hk' : Remembers s' (Location.resolve scope.baseUri reference)
      · obtain ⟨r', hy'⟩ := known s' names' hk'
        refine ⟨fun a t hy _ => ?_, fun e t hfail _ _ => Or.inr ?_⟩
        · exact ⟨r', s', hy', hs.first_on (retains_yields (retains names s hs.first) hy), rfl⟩
        · rw [show ((referenceType cfg (nodeWithin cfg levels) o scope).run names').run.run s' =
            (.ok r', s') from hy']
          refine ⟨_, .reference hscope ho href hs.first hk hfail, hk', fun i hi hkey => ?_⟩
          rw [← hkey] at hk hk'
          exact hk (hs.begun i hi hk')
      · exact (follow_reference_follows hnode hc hgiven ho hscope (reference_written ho href) hs hk hk'
          names names').of_runs (unknown_reference_run href hk names)
          (unknown_reference_run href hk' names')

end Reference

end AvroDerive.Convert
