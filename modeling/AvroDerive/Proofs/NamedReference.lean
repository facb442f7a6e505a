import AvroDerive.Proofs.ObjectSchema

/-! # References by name

A reference that is remembered by a name has that name from its own pointer, and a registered type
comes from a schema that was given its name. So references to different object schemas are told
apart by their names, unless the pointers already give the same one. -/
namespace AvroDerive.Convert

open AvroType Json Schema

section Provided

variable {cfg : Setting} {c : Corpus} {o : Object} {t : AvroType} {name : String × String}

theorem Import.type_name_legal (cfg : Setting) (i : Import) :
    Name.ofText (i.typeName cfg).1 = (i.typeName cfg).1 := reference_name_legal cfg _ _ _

theorem Turn.type_name_legal (cfg : Setting) (t : Turn) :
    Name.ofText (t.typeName cfg).1 = (t.typeName cfg).1 := by
  unfold Turn.typeName
  cases hn : t.pointer.bind (typeName? cfg.rootNs) with
  | none => exact of_text_idem t.name
  | some named =>
    obtain ⟨pointer, -, hp⟩ := Option.bind_eq_some_iff.mp hn
    exact Convert.type_name_legal hp

/-- All names that are given are legal. -/
theorem Corpus.Gives.legal {key : Option String} {f : Json} (h : c.Gives cfg key f name) :
    Name.ofText name.1 = name.1 := by
  cases h with
  | reference hi => exact Import.type_name_legal cfg _
  | turn ht => exact Turn.type_name_legal cfg _

theorem Import.inner_record (cfg : Setting) (i : Import) :
    (i.inner cfg).record = (i.typeName cfg).1 := by
  rw [Import.inner]

theorem Import.inner_ns (cfg : Setting) (i : Import) : (i.inner cfg).ns = (i.typeName cfg).2 := by
  rw [Import.inner]

/-- What the import of an object schema gives. -/
theorem import_outcome {o : Object} (ho : ListsProperties o) {i : Import}
    (hf : i.located.fragment = .obj o) {levels : Nat} {s₀ s : State} {t : Option AvroType}
    {names : List String}
    (h : (nodeWithin cfg levels i.located.fragment (i.inner cfg)).Yields [] s₀ t names s) :
    ObjectOutcome o (i.typeName cfg) s t := by
  rw [hf] at h
  exact object_schema_outcome ho levels rfl (i.inner_record cfg) (i.inner_ns cfg)
    (i.type_name_legal cfg) h

theorem stand_in_eq (hlegal : Name.ofText name.1 = name.1) :
    standInOf name = qualify (some name.2) (name.1 ++ "_ref") := by
  have legal : Name.isLegal name.1 = true := hlegal ▸ Name.isLegal_ofText name.1
  rw [standInOf, Name.ofText_of_isLegal (legal_append legal (by decide))]

theorem stand_in_ne (hlegal : Name.ofText name.1 = name.1) : standInOf name ≠ fullOf name := by
  rw [stand_in_eq hlegal, fullOf]
  intro he
  have hlength := congrArg String.length (qualify_inj he)
  rw [String.length_append] at hlength
  have : "_ref".length = 4 := rfl
  omega

/-- The stand-ins of names differ if the names do. -/
theorem stand_in_inj {other : String × String} (hlegal : Name.ofText name.1 = name.1)
    (hother : Name.ofText other.1 = other.1) (h : standInOf name = standInOf other) :
    fullOf name = fullOf other := by
  have appended : ∀ n : String × String, Name.ofText n.1 = n.1 → standInOf n = fullOf n ++ "_ref" := by
    intro n hn
    rw [stand_in_eq hn, fullOf, qualify, qualify]
    split
    · rfl
    · rw [String.append_assoc, String.append_assoc, String.append_assoc]
  rw [appended name hlegal, appended other hother, String.ext_iff, String.toList_append,
    String.toList_append] at h
  exact String.ext (List.append_cancel_right h)

theorem describes_gather {names : List String} (h : Describes o t) :
    Describes o (Registry.gather names t) := by
  obtain ⟨r, rfl, hprefix⟩ := h
  refine ⟨_, rfl, ?_⟩
  dsimp only
  rw [clear_field_names]
  exact hprefix

/-- A registered type comes from a schema that was given its name, and describes it if that is an
object schema and no constant. -/
def Provided (cfg : Setting) (c : Corpus) (t : AvroType) : Prop :=
  ∃ key f name, c.Gives cfg key f name ∧ t.qualifiedName? = some (fullOf name) ∧
    ∀ o, f = .obj o → ListsProperties o → Object.contains o "const" = false → Describes o t

theorem Provided.gather {names : List String} (h : Provided cfg c t) :
    Provided cfg c (Registry.gather names t) := by
  obtain ⟨key, f, name, hgives, hname, hdescribes⟩ := h
  refine ⟨key, f, name, hgives, ?_, fun o hf ho hconst => describes_gather (hdescribes o hf ho hconst)⟩
  rw [Registry.qualifiedName?_gather, hname]

/-- What an import registers. -/
theorem import_provides {i : Import} (hi : i.Valid cfg c) {levels : Nat} {names : List String}
    {s₀ s : State} (hkind : (t.isRecord || t.isEnum) = true)
    (hname : t.qualifiedName? = some (fullOf (i.typeName cfg)))
    (h : (nodeWithin cfg levels i.located.fragment (i.inner cfg)).Yields [] s₀ (some t) names s) :
    Provided cfg c t := by
  refine ⟨some i.key, i.located.fragment, i.typeName cfg, .reference hi, hname,
    fun o hf ho hconst => ?_⟩
  cases import_outcome ho hf h with
  | own hq hprefix => exact ⟨_, rfl, hprefix⟩
  | standIn hq =>
    have he : standInOf (i.typeName cfg) = fullOf (i.typeName cfg) :=
      hq.symm.trans (Option.some.inj hname)
    exact absurd he (stand_in_ne (i.type_name_legal cfg))
  | constant hc hq => simp [hc] at hconst
  | registered hn hm => simp [isRecord, isEnum] at hkind
  | nameless hnot href => simp [hnot] at hkind

/-- What a turn registers. -/
theorem turn_provides {baseUri : String} {turn : Turn} (hturn : c.turns baseUri turn) {d : Json}
    {s₀ s : State} (htop : s₀.frames = []) {names : List String} {u : AvroType}
    (h : (definitionType cfg turn.schema (turn.scope cfg d baseUri)).Yields s₀ (some t, names) s)
    (hu : (t.isRecord || t.isEnum) = true ∧ u = t ∨ (t.isRecord || t.isEnum) = false ∧
      u = valueRecord (turn.typeName cfg).1 (turn.typeName cfg).2 turn.schema t) :
    Provided cfg c ((u.withName (turn.typeName cfg).1).withNs (turn.typeName cfg).2) := by
  refine ⟨turn.key baseUri, turn.schema, turn.typeName cfg, .turn hturn, kept_qualified hu,
    fun o hf ho _ => ?_⟩
  rw [hf] at h
  obtain ⟨v, hv, hdescribes⟩ := definition_type_describes ho htop h
  obtain rfl := Option.some.inj hv
  obtain ⟨r, rfl, hprefix⟩ := hdescribes
  rcases hu with ⟨-, rfl⟩ | ⟨hkind, -⟩
  · exact ⟨_, rfl, hprefix⟩
  · simp [isRecord] at hkind

theorem registry_provided {a b : List Import × State} (h : Step cfg c a b)
    (ha : ∀ t ∈ a.2.registry, Provided cfg c t) : ∀ t ∈ b.2.registry, Provided cfg c t := by
  have added : ∀ {r : Registry} {t : AvroType} {names : List String},
      (∀ t ∈ r, Provided cfg c t) → Provided cfg c t →
      ∀ u ∈ (Registry.register r t names).2, Provided cfg c u := by
    intro r t names hr ht u hu
    rcases Registry.register_eq r t names with he | he
    · exact hr u (he ▸ hu)
    · rw [he, List.mem_append, List.mem_singleton] at hu
      rcases hu with hu | rfl
      · exact hr u hu
      · exact ht.gather
  cases h with
  | aside hi hr hw => exact fun t ht => ha t (hr ▸ ht)
  | begin hv hnew =>
    unfold Import.begun
    split <;> exact ha
  | settle hv hy ht h =>
    cases h with
    | registered hkind hname => exact added ha (import_provides hv hkind hname hy)
    | _ => exact ha
  | turn hd ht htop hy h =>
    cases h with
    | registered hu => exact added ha (turn_provides ht htop hy hu)
    | _ => exact ha

end Provided

/-- The reference leads to the schema and to nothing else. -/
def Corpus.Only (cfg : Setting) (c : Corpus) (key : String) (o : Object) : Prop :=
  ∀ f name, c.Gives cfg (some key) f name → f = .obj o

section Remembered

variable {cfg : Setting} {c : Corpus} {key : String} {o : Object}

/-- A reference to an object schema is remembered by a name that it gives to the schema, or by that
of a record that stands in for it. -/
def RememberedAs (cfg : Setting) (c : Corpus) (key : String) (o : Object) (s : State) : Prop :=
  ∀ n, (key, some (.named n)) ∈ s.imports → ∃ name, c.Gives cfg (some key) (.obj o) name ∧
    (n = fullOf name ∨ n = standInOf name)

theorem remembered_step (honly : c.Only cfg key o) (ho : ListsProperties o)
    {a b : List Import × State} (h : Step cfg c a b) (ha : RememberedAs cfg c key o a.2) :
    RememberedAs cfg c key o b.2 := by
  intro n hm
  have given : ∀ {f name}, c.Gives cfg (some key) f name → c.Gives cfg (some key) (.obj o) name :=
    fun hgives => honly _ _ hgives ▸ hgives
  have referred : ∀ {i : Import}, i.Valid cfg c → i.key = key →
      c.Gives cfg (some key) i.located.fragment (i.typeName cfg) :=
    fun hv hk => hk ▸ .reference hv
  have turned : ∀ {baseUri t}, c.turns baseUri t → t.key baseUri = some key →
      c.Gives cfg (some key) t.schema (t.typeName cfg) :=
    fun ht hk => hk ▸ .turn ht
  rcases h.adds hm with hm | hadds
  · exact ha n hm
  · cases hadds with
    | promised hv hk hn => exact ⟨_, given (referred hv hk), Or.inl hn⟩
    | registered hv hk hn => exact ⟨_, given (referred hv hk), Or.inl hn⟩
    | passed hv hk hy =>
      have gives := referred hv hk
      cases import_outcome ho (honly _ _ gives) hy with
      | registered hn hm => exact ⟨_, given gives, hn⟩
      | nameless hnot href => exact absurd rfl (href _)
    | turn ht hk hn => exact ⟨_, given (turned ht hk), Or.inl hn⟩
    | aliased ht hk htop hy =>
      -- a definition in its turn gets its record, as none is under construction
      rw [honly _ _ (turned ht hk)] at hy
      obtain ⟨u, hu, r, rfl, -⟩ := definition_type_describes ho htop hy
      simp at hu

end Remembered

deriving instance DecidableEq for Imported

/-- A reference is remembered by the name of a type. -/
def Resolved (s : State) (key name : String) : Prop := (key, some (.named name)) ∈ s.imports

instance (s : State) (key name : String) : Decidable (Resolved s key name) :=
  inferInstanceAs (Decidable (_ ∈ _))

section Resolved

variable {cfg : Setting} {node : NodeConverter} {scope : Scope} {s s' : State}
  {names names' : List String} {o : Object} {reference : String}

theorem settle_resolves {key expected n : String} {t : Option AvroType} {u : AvroType}
    (h : Settles key expected t u s s') (hu : u = .reference n) : Resolved s' key n := by
  cases h with
  | registered hkind hname =>
    obtain rfl := AvroType.reference.inj hu
    exact List.mem_cons_self ..
  | standIn hkind hname => simp [hu, isRecord, isEnum] at hkind
  | passed =>
    obtain rfl := AvroType.reference.inj hu
    exact List.mem_cons_self ..
  | inline hkind href => exact absurd hu (href n)
  | empty => simp [generic] at hu

/-- A bare reference that becomes a reference to a type is remembered by that type's name. -/
theorem reference_resolves (hs : Furnished cfg s)
    (href : (Object.get? o "$ref").bind asString? = some reference) (hbare : isBareReference o = true)
    {n : String} (h : (referenceType cfg node o scope).Yields names s (some (.reference n)) names' s') :
    Resolved s' (Location.resolve scope.baseUri reference) n := by
  unfold referenceType at h
  rw [href] at h
  dsimp only at h
  obtain ⟨i, names₁, s₁, hlift, hrest⟩ := Build.yields_bind.mp h
  obtain ⟨hi, rfl⟩ := Build.yields_lift.mp hlift
  obtain ⟨hi, rfl⟩ := Run.yields_imported.mp hi
  cases i with
  | some i =>
    obtain ⟨t, names₂, s₂, hreuse, hp⟩ := Build.yields_bind.mp hrest
    obtain ⟨ht, rfl, rfl⟩ := Build.yields_pure.mp hp
    obtain rfl := Option.some.inj ht
    have hm : (Location.resolve scope.baseUri reference, some i) ∈ s₁.imports :=
      mem_of_imported hi.symm
    cases i with
    | named name =>
      obtain ⟨_, names₃, s₃, hd, hp⟩ := Build.yields_bind.mp hreuse
      obtain ⟨rfl, rfl⟩ := Build.yields_depend.mp hd
      obtain ⟨ht, rfl, rfl⟩ := Build.yields_pure.mp hp
      obtain rfl := AvroType.reference.inj ht
      exact hm
    | inline t =>
      obtain ⟨rfl, -, -⟩ := Build.yields_pure.mp hreuse
      exact absurd rfl (hs.inline _ _ hm n)
  | none =>
    obtain ⟨located, names₂, s₂, hlift, hrest⟩ := Build.yields_bind.mp hrest
    rw [if_pos hbare] at hrest
    obtain ⟨t, names₃, s₃, himport, hp⟩ := Build.yields_bind.mp hrest
    obtain ⟨ht, rfl, rfl⟩ := Build.yields_pure.mp hp
    obtain rfl := Option.some.inj ht
    unfold importFragment at himport
    dsimp only at himport
    split at himport
    · obtain ⟨_, names₄, s₄, -, hrest⟩ := Build.yields_bind.mp himport
      obtain ⟨⟨u, more⟩, names₅, s₅, -, hsettle⟩ := Build.yields_bind.mp hrest
      exact settle_resolves (settle_settles hsettle) rfl
    · obtain ⟨⟨u, more⟩, names₄, s₄, -, hsettle⟩ := Build.yields_bind.mp himport
      exact settle_resolves (settle_settles hsettle) rfl

end Resolved

/-- The two names and those of the records that stand in for them are different. -/
def NamedApart (a b : String × String) : Prop :=
  fullOf a ≠ fullOf b ∧ fullOf a ≠ standInOf b ∧ standInOf a ≠ fullOf b

section Apart

variable {cfg : Setting} {calls : List Call} {k₁ k₂ n₁ n₂ : String} {o₁ o₂ : Object}

/-- References to two object schemas, whose names are apart, are remembered by different names. If
no other schema is given the name, what is registered under it describes the schema. -/
theorem references_named_apart (only₁ : (corpusOf cfg calls).Only cfg k₁ o₁)
    (only₂ : (corpusOf cfg calls).Only cfg k₂ o₂) (lists₁ : ListsProperties o₁)
    (lists₂ : ListsProperties o₂) (apart : ∀ a b, (corpusOf cfg calls).Gives cfg (some k₁) (.obj o₁) a →
      (corpusOf cfg calls).Gives cfg (some k₂) (.obj o₂) b → NamedApart a b)
    (resolved₁ : Resolved (reached cfg calls) k₁ n₁)
    (resolved₂ : Resolved (reached cfg calls) k₂ n₂) :
    n₁ ≠ n₂ ∧ ((∀ key f name, (corpusOf cfg calls).Gives cfg key f name → fullOf name = n₁ →
      f = .obj o₁) → Object.contains o₁ "const" = false →
      ∀ t ∈ (reached cfg calls).registry, t.qualifiedName? = some n₁ → Describes o₁ t) := by
  have remembered : ∀ {key : String} {o : Object} {n : String},
      (corpusOf cfg calls).Only cfg key o → ListsProperties o → Resolved (reached cfg calls) key n →
      ∃ name, (corpusOf cfg calls).Gives cfg (some key) (.obj o) name ∧
        (n = fullOf name ∨ n = standInOf name) := by
    intro key o n honly ho hn
    have kept : RememberedAs cfg (corpusOf cfg calls) key o (reached cfg calls) := by
      refine (reached_keeps ?_ fun _ _ => remembered_step honly ho).2
      intro n hm
      simp at hm
    exact kept n hn
  have provided : ∀ t ∈ (reached cfg calls).registry, Provided cfg (corpusOf cfg calls) t :=
    (@reached_keeps cfg calls (fun s => ∀ t ∈ s.registry, Provided cfg (corpusOf cfg calls) t)
      (by simp) fun _ _ => registry_provided).2
  obtain ⟨a, ha, hna⟩ := remembered only₁ lists₁ resolved₁
  obtain ⟨b, hb, hnb⟩ := remembered only₂ lists₂ resolved₂
  constructor
  · rintro rfl
    obtain ⟨hfull, hleft, hright⟩ := apart a b ha hb
    rcases hna with rfl | rfl
    · rcases hnb with h | h
      · exact hfull h
      · exact hleft h
    · rcases hnb with h | h
      · exact hright h
      · exact hfull (stand_in_inj ha.legal hb.legal h)
  · intro hsole hconst t ht hname
    obtain ⟨key, f, name, hgives, hq, hdescribes⟩ := provided t ht
    have hfull : fullOf name = n₁ := Option.some.inj (hq.symm.trans hname)
    exact hdescribes o₁ (hsole key f name hgives hfull) lists₁ hconst

end Apart

section Examples

theorem offline_unfetched {url : String} {d : Json} : ¬Fetched offline url d := by
  rintro ⟨place, content, -, hsource, -⟩
  simp [offline, Source.ofTexts] at hsource

/-- Without a source the names are those that the references within the document and the turns
give. -/
theorem offline_gives {j : Json} {ts : List Turn} (hts : documentTurns offline "" j = .ok ts)
    {key : Option String} {f : Json} {name : String × String}
    (h : (corpusOf offline [.document j ""]).Gives offline key f name) :
    (∃ r ∈ j.texts ++ ts.flatMap (·.schema.texts), key = some (Location.resolve "" r) ∧
      localFragment? j r = some f ∧ ∃ scope, name = referenceName offline r none scope) ∨
    ∃ t ∈ ts, key = t.key "" ∧ f = t.schema ∧ name = t.typeName offline := by
  cases h with
  | @reference i hi =>
    left
    obtain ⟨reference, scope, located⟩ := i
    obtain ⟨stands, written, leads⟩ := hi
    rcases stands with ⟨call, hcall, hbase, hsubject⟩ | hfetched
    · obtain rfl := List.mem_singleton.mp hcall
      change "" = scope.baseUri at hbase
      change j = scope.document at hsubject
      have hmem : reference ∈ j.texts ++ ts.flatMap (·.schema.texts) := by
        rw [List.mem_append, List.mem_flatMap]
        rcases written with ⟨call, hcall, ht⟩ | ⟨url, d, hfetched, -⟩ | ⟨call, hcall, us, hus, t, ht, htext⟩
        · obtain rfl := List.mem_singleton.mp hcall
          exact Or.inl ht
        · exact absurd hfetched offline_unfetched
        · obtain rfl := List.mem_singleton.mp hcall
          obtain rfl : ts = us := Except.ok.inj (hts.symm.trans hus)
          exact Or.inr ⟨t, ht, htext⟩
      change LeadsTo offline reference scope located at leads
      cases leads with
      | inside hl =>
        refine ⟨reference, hmem, ?_, ?_, scope, rfl⟩
        · rw [Import.key, ← hbase]
        · rw [hsubject]
          exact hl
      | across hlocal habsolute hfetched hpointer => exact absurd hfetched offline_unfetched
    · exact absurd hfetched offline_unfetched
  | @turn baseUri t ht =>
    right
    obtain ⟨call, hcall, hbase, us, hus, ht⟩ := ht
    obtain rfl := List.mem_singleton.mp hcall
    obtain rfl : ts = us := Except.ok.inj (hts.symm.trans hus)
    change "" = baseUri at hbase
    subst hbase
    exact ⟨t, ht, rfl, rfl, rfl⟩

theorem local_name (cfg : Setting) (reference : String) (scope : Scope) {name : String × String}
    (h : typeName? cfg.rootNs (fragmentPointer ((localPart? reference).getD "")) = some name) :
    referenceName cfg reference none scope = name := by
  unfold referenceName
  dsimp only
  split
  · next named hn => exact Option.some.inj (hn.symm.trans h)
  · next hn => simp [h] at hn

/-- The keys that a reference within the document goes along. -/
def localKeys? (reference : String) : Option (List String) :=
  (localPart? reference).bind fun fragment =>
    if (fragmentPointer fragment).toList.head? = some '/' then
      some (Pointer.keys (fragmentPointer fragment))
    else none

theorem local_fragment_along {j : Json} {keys : List String} {reference : String}
    (h : localKeys? reference = some keys) : localFragment? j reference = j.descend? keys := by
  obtain ⟨fragment, hpart, hkeys⟩ := Option.bind_eq_some_iff.mp h
  split at hkeys
  · next hslash =>
    obtain rfl := Option.some.inj hkeys
    obtain ⟨rest, hpointer⟩ := List.head?_eq_some_iff.mp hslash
    rw [localFragment?, hpart, Option.bind_some, pointer?, hpointer]
    rfl
  · simp at hkeys

def pairDefinitions : Object := [
  ("C", objectSchema [("a", definitionRef "A"), ("b", definitionRef "B")]),
  ("A", objectSchema [("x", .obj [("type", .str "string")])]),
  ("B", objectSchema [("y", .obj [("type", .str "string")])])]

/-- A record with a field for each of two other records. -/
def pair : Json := .obj [("definitions", .obj pairDefinitions)]

theorem pair_first : ("A", objectSchema [("x", .obj [("type", .str "string")])]) ∈ pairDefinitions := by
  simp [pairDefinitions]

theorem pair_second : ("B", objectSchema [("y", .obj [("type", .str "string")])]) ∈ pairDefinitions := by
  simp [pairDefinitions]

def pairTurn (e : String × Json) : Turn := ⟨e.1, e.2, some ("/definitions/" ++ e.1)⟩

theorem pair_turns : documentTurns offline "" pair = .ok (pairDefinitions.map pairTurn) := by rfl

/-- Each definition of the pair is given its own name only, and the name to nothing else. -/
theorem pair_gives {key : Option String} {f : Json} {name : String × String}
    (h : (corpusOf offline [.document pair ""]).Gives offline key f name) :
    ∃ e ∈ pairDefinitions, key = some ("#/definitions/" ++ e.1) ∧ f = e.2 ∧
      fullOf name = "ns." ++ e.1 ∧ standInOf name = "ns." ++ e.1 ++ "_ref" := by
  have references : ∀ r ∈ pair.texts ++ (pairDefinitions.map pairTurn).flatMap (·.schema.texts),
      (localFragment? pair r).isSome = true → r = "#/definitions/A" ∨ r = "#/definitions/B" := by
    decide +kernel
  have hA : localFragment? pair "#/definitions/A" =
      some (objectSchema [("x", .obj [("type", .str "string")])]) :=
    local_fragment_along (show _ = some ["definitions", "A"] by decide +kernel)
  have hB : localFragment? pair "#/definitions/B" =
      some (objectSchema [("y", .obj [("type", .str "string")])]) :=
    local_fragment_along (show _ = some ["definitions", "B"] by decide +kernel)
  have turns : ∀ e ∈ pairDefinitions, (pairTurn e).key "" = some ("#/definitions/" ++ e.1) ∧
      fullOf ((pairTurn e).typeName offline) = "ns." ++ e.1 ∧
      standInOf ((pairTurn e).typeName offline) = "ns." ++ e.1 ++ "_ref" := by decide +kernel
  rcases offline_gives pair_turns h with ⟨r, hr, hkey, hf, scope, hname⟩ | ⟨t, ht, hkey, hf, hname⟩
  · rcases references r hr (by rw [hf]; rfl) with rfl | rfl
    · rw [local_name offline _ scope (show _ = some ("A", "ns") by decide +kernel)] at hname
      refine ⟨_, pair_first, hkey, Option.some.inj (hf.symm.trans hA), ?_⟩
      rw [hname]
      decide +kernel
    · rw [local_name offline _ scope (show _ = some ("B", "ns") by decide +kernel)] at hname
      refine ⟨_, pair_second, hkey, Option.some.inj (hf.symm.trans hB), ?_⟩
      rw [hname]
      decide +kernel
  · obtain ⟨e, he, rfl⟩ := List.mem_map.mp ht
    obtain ⟨hk, hn⟩ := turns e he
    exact ⟨e, he, hkey.trans hk, hf, hname ▸ hn⟩

/-- The names in the pair tell the definitions apart. -/
theorem pair_unique {e e' : String × Json} (he : e ∈ pairDefinitions) (he' : e' ∈ pairDefinitions)
    (h : e.1 = e'.1) : e = e' :=
  List.inj_on_of_nodup_map (by decide : (pairDefinitions.map Prod.fst).Nodup) he he' h

theorem pair_only {e : String × Json} (he : e ∈ pairDefinitions) {o : Object} (ho : e.2 = .obj o) :
    (corpusOf offline [.document pair ""]).Only offline ("#/definitions/" ++ e.1) o := by
  intro f name h
  obtain ⟨e', he', hk, hf, -⟩ := pair_gives h
  have hsame : e'.1 = e.1 := (String.append_right_inj _).mp (Option.some.inj hk).symm
  rw [hf, pair_unique he' he hsame, ho]

theorem single_property_lists (name : String) : ListsProperties [("type", .str "object"),
    ("properties", .obj [(name, .obj [("type", .str "string")])])] where
  keys := by simp [Object.keys]
  plain := rfl
  own := rfl
  kind := rfl
  listed := rfl

/-- The fields of the pair's third record refer to different records. -/
theorem pair_named_apart : "ns.A" ≠ "ns.B" ∧
    ∀ t ∈ (reached offline [.document pair ""]).registry, t.qualifiedName? = some "ns.A" →
      Describes [("type", .str "object"),
        ("properties", .obj [("x", .obj [("type", .str "string")])])] t := by
  have apart : ∀ {a b : String × String} {f f' : Json},
      (corpusOf offline [.document pair ""]).Gives offline (some "#/definitions/A") f a →
      (corpusOf offline [.document pair ""]).Gives offline (some "#/definitions/B") f' b →
      NamedApart a b := by
    intro a b f f' ha hb
    obtain ⟨e, he, hk, -, hn, hr⟩ := pair_gives ha
    obtain ⟨e', he', hk', -, hn', hr'⟩ := pair_gives hb
    have hname : e.1 = "A" := (String.append_right_inj "#/definitions/").mp (Option.some.inj hk).symm
    have hname' : e'.1 = "B" := (String.append_right_inj "#/definitions/").mp (Option.some.inj hk').symm
    rw [NamedApart, hn, hr, hn', hr', hname, hname']
    decide
  obtain ⟨hne, hdescribes⟩ := references_named_apart (pair_only pair_first rfl) (pair_only pair_second rfl)
    (single_property_lists "x") (single_property_lists "y") (fun _ _ => apart)
    (show Resolved _ _ "ns.A" by decide +kernel) (show Resolved _ _ "ns.B" by decide +kernel)
  refine ⟨hne, hdescribes ?_ rfl⟩
  intro key f name h hname
  obtain ⟨e, he, -, hf, hn, -⟩ := pair_gives h
  have hsame : e.1 = "A" := (String.append_right_inj "ns.").mp (hn.symm.trans hname)
  rw [hf, pair_unique he pair_first hsame]
  rfl

/-- Two groups that define a record of the same name, and a field for each of the two. -/
def twins : Json := .obj [("type", .str "object"),
  ("properties", .obj [("a", definitionRef "Item"), ("b", .obj [("$ref", .str "#/$defs/Item")])]),
  ("definitions", .obj [("Item", objectSchema [("x", .obj [("type", .str "string")])])]),
  ("$defs", .obj [("Item", objectSchema [("y", .obj [("type", .str "string")])])])]

/-- Neither group counts in a name, so both fields refer to the record that is registered first. -/
theorem twin_definitions_share_name : ∃ o₁ o₂ : Object, ListsProperties o₁ ∧ ListsProperties o₂ ∧
    localFragment? twins "#/definitions/Item" = some (.obj o₁) ∧
    localFragment? twins "#/$defs/Item" = some (.obj o₂) ∧
    Object.keys (propertiesOf o₁) = ["x"] ∧ Object.keys (propertiesOf o₂) = ["y"] ∧
    Location.resolve "" "#/definitions/Item" ≠ Location.resolve "" "#/$defs/Item" ∧
    Resolved (reached offline [.document twins ""]) (Location.resolve "" "#/definitions/Item")
      "ns.Item" ∧
    Resolved (reached offline [.document twins ""]) (Location.resolve "" "#/$defs/Item") "ns.Item" ∧
    "ns.Item" ∈ definedNames (reached offline [.document twins ""]).registry := by
  refine ⟨_, _, single_property_lists "x", single_property_lists "y", ?_, ?_, rfl, rfl, ?_⟩
  · exact local_fragment_along (show _ = some ["definitions", "Item"] by decide +kernel)
  · exact local_fragment_along (show _ = some ["$defs", "Item"] by decide +kernel)
  · decide +kernel

end Examples

end AvroDerive.Convert
