import AvroDerive.Convert.Definition
import AvroDerive.Proofs.EmissionOrder
import AvroDerive.Proofs.KeywordType
import AvroDerive.Proofs.Outcome

/-! # Promised names

A conversion hands out names before their types are registered: the name that a reference gives to
a fragment, and the names of the records under construction. A state is sound if every name handed
out is registered, written in a document, pending, or one of those that the conversion promises
without keeping its word. -/
namespace AvroDerive.Convert

open AvroType

/-- The object schema without its conditional keywords, if it has any. -/
def unconditional (o : Object) : Object := (Schema.withoutConditionals? o).getD o

/-- Whether an object schema is no composition and no reference and lists no items, so that its
type is its own and not put together from others. -/
def isPlain (o : Object) : Bool :=
  !Schema.hasComposition o && !Object.contains o "$ref" &&
    (Object.contains o "const" ||
      match Object.get? o "type" with
      | some (.str type) => type != "array"
      | some (.arr types) => !types.any isStructured
      | some _ => true
      | none => Object.contains o "properties" ||
        ((Object.get? o "enum").bind Json.asArray?).isSome || !Object.contains o "items")

/-- A schema of a document whose type is its own: a plain one, or a composition that stands for a
single candidate of that kind. -/
inductive Direct (document : Json) : Json → Prop
  | value {schema} : (∀ o, schema ≠ .obj o) → Direct document schema
  | plain {o} : isPlain (unconditional o) = true → Direct document (.obj o)
  | single {o candidate} : Schema.hasComposition (unconditional o) = true →
    (Schema.expand document (unconditional o)).1 = [candidate] → Direct document candidate →
    Direct document (.obj o)

section Names

variable (cfg : Setting) (j : Json)

/-- A document that the source gives for a URL with the text. -/
def Fetched (url : String) (d : Json) : Prop :=
  ∃ place content, place.text = url ∧ cfg.source place = .ok content ∧
    Json.parse? content = some d

/-- The document that is converted, or one that the source gives. -/
def IsDocument (d : Json) : Prop := d = j ∨ ∃ url, Fetched cfg url d

/-- The name is a text that a document holds. -/
def Written (name : String) : Prop := ∃ d, IsDocument cfg j d ∧ name ∈ d.texts

/-- The name is written and no primitive type's, so that it is passed on as it is. A reference may
lead to any text of a document, and the text is a schema then. -/
def PassedOn (name : String) : Prop := Written cfg j name ∧ name ∉ Schema.primitiveNames

/-- A reference leads to the fragment of the document and gives the name to its type. -/
inductive Leads : Json → String → Json → Prop
  | inside {scope reference fragment} : IsDocument cfg j scope.document →
    Schema.localFragment? scope.document reference = some fragment →
    Leads scope.document (qualify (some (referenceName cfg reference none scope).2)
      (referenceName cfg reference none scope).1) fragment
  | across {scope reference url d fragment} : Fetched cfg url.withoutFragment.text d →
    d.pointer? ((url.fragment.map Schema.fragmentPointer).getD "") = some fragment →
    Leads d (qualify (some (referenceName cfg reference (some url) scope).2)
      (referenceName cfg reference (some url) scope).1) fragment

/-- The name is promised for a fragment that stands alone, but whose type is put together from
others, so that it need not be a record or an enumeration of that name. -/
def Unkept (name : String) : Prop :=
  ∃ document fragment, Leads cfg j document name fragment ∧ Schema.isStandalone fragment = true ∧
    ¬Direct document fragment

/-- A value of the document. -/
inductive Part : Json → Prop
  | whole : Part j
  | member {o m} : Part (.obj o) → m ∈ o → Part m.2
  | item {items i} : Part (.arr items) → i ∈ items → Part i

/-- The name is that of a record that need not be registered: one beneath another record, or one
inside a fragment or a definition whose type is put together from others. -/
inductive Inner : String → Prop
  | beneath {ns record name} : Inner (qualify (some (Namespace.compose [ns, record ++ "_types"])) name)
  | fragment {document name fragment} : Leads cfg j document name fragment →
    ¬Direct document fragment → Inner name
  | definition {schemaName schema} {pointer : Option String} : Part j schema →
    ¬Direct j schema →
    Inner (qualify
      (some ((pointer.bind (Schema.typeName? cfg.rootNs)).getD
        (Name.ofText schemaName, cfg.rootNs)).2)
      ((pointer.bind (Schema.typeName? cfg.rootNs)).getD (Name.ofText schemaName, cfg.rootNs)).1)

/-- The place of the reference by which a record for a cycle refers to the record `field` that it
stands in for. Merging may add to the name of the record. -/
def Closing (place : Place) (name : String) : Prop :=
  ∃ front field back ns, place = some (front ++ (field ++ "_ref") ++ back, field) ∧
    name = qualify (some ns) field

variable (pending : String → Prop) (s : State)

/-- The name is registered, passed on, pending, or promised without need. -/
def Known (name : String) : Prop :=
  name ∈ definedNames s.registry ∨ PassedOn cfg j name ∨ Unkept cfg j name ∨ pending name

/-- The name is known, or that of a record that stands inside another type. -/
def Anchored (name : String) : Prop := Known cfg j pending s name ∨ Inner cfg j name

/-- A type that references share without a name refers to the name. -/
def Shared (name : String) : Prop :=
  ∃ key t place, (key, some (.inline t)) ∈ s.imports ∧ Mention.refers place name ∈ t.mentions none

/-- A reference is to a known name among those that are gathered or shared, or closes a cycle. -/
def Fine (names : List String) (place : Place) (name : String) : Prop :=
  Known cfg j pending s name ∧ (name ∈ names ∨ Shared s name) ∨
    Closing place name ∧ Anchored cfg j pending s name

/-- Every name that the state holds is known, up to those that close cycles. -/
structure Sound : Prop where
  registered : ∀ t ∈ s.registry, t.AllRefer
    (Fine cfg j pending s (t.qualifiedName?.toList ++ t.ownDependencies)) none
  named : ∀ key name, Imports.get? s.imports key = some (.named name) →
    Known cfg j pending s name
  inline : ∀ key t, (key, some (.inline t)) ∈ s.imports →
    t.isRecord = false ∧ t.AllRefer (Fine cfg j pending s []) none
  frames : ∀ f ∈ s.frames, Name.ofText f.name = f.name ∧ Anchored cfg j pending s f.qualifiedName
  documents : ∀ e ∈ s.documents, Fetched cfg e.1 e.2

/-- A node is converted in a document, and inside a type whose name is anchored. -/
structure SoundScope (scope : Scope) : Prop where
  document : IsDocument cfg j scope.document
  home : Anchored cfg j pending s (qualify (some scope.ns) (Name.ofText scope.record))

end Names

/-- What is registered and what references stand for is kept. -/
structure Extends (s s' : State) : Prop where
  registry : s.registry <+: s'.registry
  imports : s.imports <:+ s'.imports

theorem Extends.refl (s : State) : Extends s s := ⟨List.prefix_refl _, List.suffix_refl _⟩

/-- A conversion extends the state and ends the records that it has begun. -/
structure Grows (s s' : State) : Prop extends Extends s s' where
  frames : s'.frames = s.frames

theorem Grows.refl (s : State) : Grows s s := ⟨.refl s, rfl⟩

theorem Grows.trans {s s' s'' : State} (h : Grows s s') (h' : Grows s' s'') : Grows s s'' :=
  ⟨⟨h.registry.trans h'.registry, h.imports.trans h'.imports⟩, h'.frames.trans h.frames⟩

theorem Extends.defined {s s' : State} (h : Extends s s') {name : String}
    (hn : name ∈ definedNames s.registry) : name ∈ definedNames s'.registry := by
  obtain ⟨t, ht, hname⟩ := mem_defined.mp hn
  exact mem_defined.mpr ⟨t, h.registry.subset ht, hname⟩

theorem Extends.shared {s s' : State} (h : Extends s s') {name : String} (hs : Shared s name) :
    Shared s' name := by
  obtain ⟨key, t, place, hm, hr⟩ := hs
  exact ⟨key, t, place, h.imports.subset hm, hr⟩

section Sound

variable {cfg : Setting} {j : Json} {pending pending' : String → Prop} {s s' : State}
  {names names' : List String} {name : String} {place : Place}

theorem Known.extend (hp : ∀ n, pending n → Known cfg j pending' s' n) (he : Extends s s')
    (h : Known cfg j pending s name) : Known cfg j pending' s' name := by
  rcases h with h | h | h | h
  · exact Or.inl (he.defined h)
  · exact Or.inr (Or.inl h)
  · exact Or.inr (Or.inr (Or.inl h))
  · exact hp name h

theorem Known.mono (he : Extends s s') (h : Known cfg j pending s name) :
    Known cfg j pending s' name :=
  h.extend (fun _ hp => Or.inr (Or.inr (Or.inr hp))) he

theorem Anchored.mono (he : Extends s s') (h : Anchored cfg j pending s name) :
    Anchored cfg j pending s' name :=
  h.imp_left fun h => h.mono he

theorem Fine.extend (hp : ∀ n, pending n → Known cfg j pending' s' n) (he : Extends s s')
    (hn : names ⊆ names') (h : Fine cfg j pending s names place name) :
    Fine cfg j pending' s' names' place name := by
  rcases h with ⟨hk, hm⟩ | ⟨hc, ha⟩
  · exact Or.inl ⟨hk.extend hp he, hm.imp (fun h => hn h) he.shared⟩
  · exact Or.inr ⟨hc, ha.imp_left fun h => h.extend hp he⟩

theorem Fine.mono (he : Extends s s') (hn : names ⊆ names')
    (h : Fine cfg j pending s names place name) : Fine cfg j pending s' names' place name :=
  h.extend (fun _ hp => Or.inr (Or.inr (Or.inr hp))) he hn

/-- Outside of records a reference is to a known name. -/
theorem Fine.known (h : Fine cfg j pending s names none name) : Known cfg j pending s name := by
  rcases h with h | ⟨⟨_, _, _, _, hc, _⟩, _⟩
  · exact h.1
  · simp at hc

theorem fine_movable : Movable (Fine cfg j pending s names) where
  into_field place name h := by
    rcases h with h | ⟨⟨_, _, _, _, hc, _⟩, _⟩
    · exact Or.inl h
    · simp at hc
  renamed front owner back field name h := by
    rcases h with h | ⟨⟨first, field', last, ns, hc, hn⟩, ha⟩
    · exact Or.inl h
    · obtain ⟨rfl, rfl⟩ := Prod.mk.inj (Option.some.inj hc)
      refine Or.inr ⟨⟨front ++ first, field, last ++ back, ns, ?_, hn⟩, ha⟩
      simp only [String.append_assoc]

/-- What is pending is known otherwise. -/
theorem Sound.settle (hs : Sound cfg j pending s)
    (hp : ∀ n, pending n → Known cfg j pending' s n) : Sound cfg j pending' s where
  registered t ht := (hs.registered t ht).imp fun _ _ h =>
    h.extend hp (.refl s) (List.Subset.refl _)
  named key name h := (hs.named key name h).extend hp (.refl s)
  inline key t h := ⟨(hs.inline key t h).1, (hs.inline key t h).2.imp fun _ _ h =>
    h.extend hp (.refl s) (List.Subset.refl _)⟩
  frames f hf := ⟨(hs.frames f hf).1, (hs.frames f hf).2.imp_left fun h => h.extend hp (.refl s)⟩
  documents := hs.documents

/-- A state stays sound if what is added to it is. -/
theorem Sound.extend (hs : Sound cfg j pending s) (he : Extends s s')
    (hr : ∀ t ∈ s'.registry, t ∈ s.registry ∨ t.AllRefer
      (Fine cfg j pending s' (t.qualifiedName?.toList ++ t.ownDependencies)) none)
    (hn : ∀ key name, Imports.get? s'.imports key = some (.named name) →
      Imports.get? s.imports key = some (.named name) ∨ Known cfg j pending s' name)
    (hi : ∀ key t, (key, some (.inline t)) ∈ s'.imports → (key, some (.inline t)) ∈ s.imports ∨
      t.isRecord = false ∧ t.AllRefer (Fine cfg j pending s' []) none)
    (hf : ∀ f ∈ s'.frames, f ∈ s.frames ∨
      Name.ofText f.name = f.name ∧ Anchored cfg j pending s' f.qualifiedName)
    (hd : ∀ e ∈ s'.documents, e ∈ s.documents ∨ Fetched cfg e.1 e.2) :
    Sound cfg j pending s' where
  registered t ht := by
    rcases hr t ht with h | h
    · exact (hs.registered t h).imp fun _ _ h => h.mono he (List.Subset.refl _)
    · exact h
  named key name h := by
    rcases hn key name h with h | h
    · exact (hs.named key name h).mono he
    · exact h
  inline key t h := by
    rcases hi key t h with h | h
    · obtain ⟨hr, ha⟩ := hs.inline key t h
      exact ⟨hr, ha.imp fun _ _ h => h.mono he (List.Subset.refl _)⟩
    · exact h
  frames f h := by
    rcases hf f h with h | h
    · exact ⟨(hs.frames f h).1, (hs.frames f h).2.mono he⟩
    · exact h
  documents e h := (hd e h).elim (hs.documents e) id

theorem Sound.warn (hs : Sound cfg j pending s) (ws : List Warning) :
    Sound cfg j pending { s with warnings := ws } :=
  ⟨hs.registered, hs.named, hs.inline, hs.frames, hs.documents⟩

/-- The second state differs from the first at most in its warnings, and in that a reference is
remembered by a name. -/
structure Differs (key : String) (s s' : State) : Prop where
  registry : s'.registry = s.registry
  frames : s'.frames = s.frames
  documents : s'.documents = s.documents
  imports : s'.imports = s.imports ∨ ∃ name, s'.imports = (key, some (.named name)) :: s.imports

theorem Differs.refl (key : String) (s : State) : Differs key s s :=
  ⟨rfl, rfl, rfl, Or.inl rfl⟩

theorem Differs.extends {key : String} (h : Differs key s s') : Extends s s' := by
  refine ⟨by rw [h.registry], ?_⟩
  rcases h.imports with h | ⟨name, h⟩
  · rw [h]
  · rw [h]
    exact List.suffix_cons _ _

/-- What a reference may stand for, if it stands for anything. -/
def Stands (cfg : Setting) (j : Json) (pending : String → Prop) (s : State) :
    Option Imported → Prop
  | none => True
  | some (.named name) => Known cfg j pending s name
  | some (.inline t) =>
    t.isRecord = false ∧ ∃ names, t.AllRefer (Fine cfg j pending s names) none

/-- What a reference stands for now counts, and not what it stood for before. -/
theorem Sound.supersede (hs : Sound cfg j pending s) {key : String} (hd : Differs key s s')
    {i : Option Imported} (hi : Stands cfg j pending s' i) :
    Sound cfg j pending { s' with imports := (key, i) :: s'.imports } := by
  have he : Extends s' { s' with imports := (key, i) :: s'.imports } :=
    ⟨List.prefix_refl _, List.suffix_cons _ _⟩
  have hall : Extends s { s' with imports := (key, i) :: s'.imports } :=
    ⟨hd.extends.registry, hd.extends.imports.trans he.imports⟩
  refine hs.extend hall ?_ ?_ ?_ ?_ ?_
  · exact fun t ht => Or.inl (hd.registry ▸ ht)
  · intro key' name h
    by_cases hk : key' = key
    · subst hk
      obtain rfl : i = some (.named name) := by simpa [Imports.get?] using h
      exact Or.inr (hi.mono he)
    · have hb : (key' == key) = false := by simpa using hk
      left
      rcases hd.imports with hd | ⟨name', hd⟩
      · simpa [Imports.get?, List.lookup_cons, hb, hd] using h
      · simpa [Imports.get?, List.lookup_cons, hb, hd] using h
  · intro key' t h
    rcases List.mem_cons.mp h with h | h
    · obtain ⟨rfl, rfl⟩ := Prod.mk.inj h
      obtain ⟨hr, names, ht⟩ := hi
      refine Or.inr ⟨hr, fun p n hm => ?_⟩
      rcases ht p n hm with h | h
      · exact Or.inl ⟨h.1.mono he, Or.inr ⟨key', t, p, List.mem_cons_self .., hm⟩⟩
      · exact Or.inr ⟨h.1, h.2.mono he⟩
    · left
      rcases hd.imports with hd | ⟨name', hd⟩
      · rwa [hd] at h
      · rw [hd] at h
        simpa using h
  · exact fun f hf => Or.inl (hd.frames ▸ hf)
  · exact fun e he => Or.inl (hd.documents ▸ he)

theorem contains_iff_defined {r : Registry} :
    Registry.contains r name = true ↔ name ∈ definedNames r := by
  rw [mem_defined]
  simp only [Registry.contains, Registry.findQualified?, List.find?_isSome, decide_eq_true_eq]

theorem register_extends (t : AvroType) (dependencies : List String) :
    s.registry <+: (Registry.register s.registry t dependencies).2 := by
  rcases Registry.register_eq s.registry t dependencies with h | h
  · rw [h]
  · rw [h]
    exact List.prefix_append _ _

theorem register_defined {t : AvroType} (dependencies : List String)
    (h : t.qualifiedName? = some name) :
    name ∈ definedNames (Registry.register s.registry t dependencies).2 := by
  have hc := Registry.contains_register s.registry t dependencies (by rw [h]; rfl)
  rw [contains_iff_defined] at hc
  simpa only [Registry.register, h, Option.getD_some] using hc

/-- A record that is registered keeps the names it depends on and those that are given. -/
theorem gather_names {r : Record AvroType} {dependencies : List String}
    (hn : name ∈ dependencies ∨ name ∈ r.dependencies) :
    name ∈ (Registry.gather dependencies (.record r)).qualifiedName?.toList ++
      (Registry.gather dependencies (.record r)).ownDependencies := by
  rw [List.mem_append]
  by_cases ho : name = qualify r.ns r.name
  · exact Or.inl (by simp [Registry.gather, qualifiedName?, name?, ns?, ho])
  · right
    simp only [Registry.gather, ownDependencies, List.mem_filter, mem_addAll, List.mem_append,
      decide_eq_true_eq]
    exact ⟨hn.symm.imp_right fun h => ⟨Or.inl h, ho⟩, ho⟩

theorem Sound.register (hs : Sound cfg j pending s) {t : AvroType} {dependencies : List String}
    (hnamed : t.isNamed = true)
    (ht : t.AllRefer (Fine cfg j pending s (dependencies ++ t.ownDependencies)) none) :
    Sound cfg j pending
      { s with registry := (Registry.register s.registry t dependencies).2 } := by
  have he : Extends s { s with registry := (Registry.register s.registry t dependencies).2 } :=
    ⟨register_extends t dependencies, List.suffix_refl _⟩
  refine hs.extend he ?_ (fun _ _ => Or.inl) (fun _ _ => Or.inl) (fun _ => Or.inl)
    (fun _ => Or.inl)
  intro u hu
  rcases Registry.register_eq s.registry t dependencies with h | h
  · rw [h] at hu
    exact Or.inl hu
  · rw [h] at hu
    rcases List.mem_append.mp hu with hu | hu
    · exact Or.inl hu
    · obtain rfl := List.mem_singleton.mp hu
      refine Or.inr ?_
      intro p n hm
      rw [mentions_gather] at hm
      have hfine := (ht p n hm).mono he (List.Subset.refl _)
      cases t with
      | record r =>
        refine hfine.mono (.refl _) fun m hm => ?_
        exact gather_names (List.mem_append.mp hm)
      | enum e => simp [mentions] at hm
      | fixed f => simp [mentions] at hm
      | _ => simp [isNamed] at hnamed

end Sound

end AvroDerive.Convert
