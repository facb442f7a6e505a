import AvroDerive.Proofs.RememberedName

/-! # Definitions are kept

After calls that succeed every schema that had a turn is accounted for. An object schema is
registered under a name that it was given, unless that is also another schema's. -/
namespace AvroDerive.Convert

open AvroType Json Schema

/-- Makes calls one after another, up to the first that fails. -/
def callAll (cfg : Setting) : List Call → Run Unit
  | [] => return ()
  | call :: calls => do
    call.run cfg
    callAll cfg calls

/-- In a run from one state to the other the schema has its turn. -/
def Taken (cfg : Setting) (c : Corpus) (baseUri : String) (t : Turn) (s s' : State) : Prop :=
  ∃ d n s₁ s₂, Steps cfg c ([], s) ([], s₁) ∧ s₁.frames = [] ∧
    (definition cfg d baseUri t.name t.schema t.pointer).Yields s₁ n s₂ ∧
    Steps cfg c ([], s₁) ([], s₂) ∧ Steps cfg c ([], s₂) ([], s')

section Taken

variable {cfg : Setting} {c : Corpus} {s s' : State} {d : Json} {baseUri : String}

theorem steps_done (hc : c.Closed cfg) {call : Call} (h : Covers cfg c call) (hs : Between cfg s)
    (hy : (call.run cfg).Yields s () s') : Between cfg s' ∧ Steps cfg c ([], s) ([], s') := by
  have run : (call.run cfg).run.run s = (.ok (), s') := hy
  have after : call.after cfg s = s' := by rw [Call.after, run]
  have between := (call_between hc h hs).1
  rw [after] at between
  have done := (call_traced hc h hs).done ()
  rw [run] at done
  exact ⟨between, (done rfl).1⟩

theorem turns_steps (hc : c.Closed cfg) (hd : c.stands baseUri d) (ts : List Turn)
    (ht : ∀ t ∈ ts, c.turns baseUri t) (hs : Between cfg s)
    (hy : (takeTurns cfg d baseUri ts).Yields s () s') : Steps cfg c ([], s) ([], s') := by
  have run : (takeTurns cfg d baseUri ts).run.run s = (.ok (), s') := hy
  have done := (take_turns_traced hc hd ts ht hs).done ()
  rw [run] at done
  exact (done rfl).1

theorem turns_taken (hc : c.Closed cfg) (hd : c.stands baseUri d) (ts : List Turn)
    (ht : ∀ t ∈ ts, c.turns baseUri t) (hs : Between cfg s)
    (hy : (takeTurns cfg d baseUri ts).Yields s () s') {t : Turn} (hm : t ∈ ts) :
    Taken cfg c baseUri t s s' := by
  induction ts generalizing s with
  | nil => simp at hm
  | cons u ts ih =>
    rw [List.forall_mem_cons] at ht
    rw [takeTurns] at hy
    obtain ⟨n, s₁, hu, hrest⟩ := Run.yields_bind.mp hy
    obtain ⟨hs₁, hsteps⟩ := definition_between hc hd ht.1 hs hu
    rcases List.mem_cons.mp hm with rfl | hm
    · exact ⟨d, n, s, s₁, .refl, hs.top, hu, hsteps, turns_steps hc hd ts ht.2 hs₁ hrest⟩
    · obtain ⟨d', n', s₂, s₃, hbefore, hrun⟩ := ih ht.2 hs₁ hrest hm
      exact ⟨d', n', s₂, s₃, hsteps.trans hbefore, hrun⟩

/-- Every turn of the calls is taken. -/
theorem calls_taken (hc : c.Closed cfg) (calls : List Call) (h : ∀ call ∈ calls, Covers cfg c call)
    (hs : Between cfg s) (hy : (callAll cfg calls).Yields s () s') :
    (Between cfg s' ∧ Steps cfg c ([], s) ([], s')) ∧
    ∀ call ∈ calls, ∀ ts, call.turns cfg = .ok ts → ∀ t ∈ ts, Taken cfg c call.baseUri t s s' := by
  induction calls generalizing s with
  | nil =>
    obtain ⟨-, rfl⟩ := Run.yields_pure.mp hy
    exact ⟨⟨hs, .refl⟩, by simp⟩
  | cons call calls ih =>
    rw [List.forall_mem_cons] at h
    rw [callAll] at hy
    obtain ⟨⟨⟩, s₁, hcall, hrest⟩ := Run.yields_bind.mp hy
    obtain ⟨hs₁, hfirst⟩ := steps_done hc h.1 hs hcall
    obtain ⟨⟨hs', hlater⟩, htaken⟩ := ih h.2 hs₁ hrest
    refine ⟨⟨hs', hfirst.trans hlater⟩, List.forall_mem_cons.mpr ⟨fun ts hts t ht => ?_, ?_⟩⟩
    · rw [call_turns_taken, hts] at hcall
      obtain ⟨d, n, s₂, s₃, hbefore, htop, hturn, hown, hafter⟩ :=
        turns_taken hc h.1.subject ts (h.1.turns ts hts) hs hcall ht
      exact ⟨d, n, s₂, s₃, hbefore, htop, hturn, hown, hafter.trans hlater⟩
    · intro call hmem ts hts t ht
      obtain ⟨d, n, s₂, s₃, hbefore, hrun⟩ := htaken call hmem ts hts t ht
      exact ⟨d, n, s₂, s₃, hfirst.trans hbefore, hrun⟩

end Taken

section Fulfilled

variable {cfg : Setting} {c : Corpus} {key : String} {o : Object}

/-- A name that is remembered for the reference is registered, or an import of it is under way. -/
def Fulfilled (key : String) (a : List Import × State) : Prop :=
  ∀ n, Imports.get? a.2.imports key = some (.named n) →
    n ∈ definedNames a.2.registry ∨ ∃ i ∈ a.1, i.key = key

/-- A step keeps what is remembered of the reference fulfilled. -/
theorem fulfilled_step (honly : c.Only cfg key o) (ho : ListsProperties o)
    {a b : List Import × State} (h : Step cfg c a b) (ha : Fulfilled key a) : Fulfilled key b := by
  intro n hn
  rcases h.finds hn with ⟨hold, hstay⟩ | hadds
  · rcases ha n hold with hm | ⟨i, hi, hk⟩
    · exact Or.inl (h.extends.defined hm)
    · exact Or.inr ⟨i, hstay i hi hk, hk⟩
  · cases hadds with
    | @promised i _ hv hk _ hbegins => exact Or.inr ⟨i, hbegins ▸ List.mem_cons_self .., hk⟩
    | registered _ _ _ hm => exact Or.inl hm
    | @passed i _ _ _ _ hv hk hy =>
      have gives : c.Gives cfg (some key) i.located.fragment (i.typeName cfg) := hk ▸ .reference hv
      cases import_outcome ho (honly _ _ gives) hy with
      | registered _ hm => exact Or.inl (h.extends.defined hm)
      | nameless _ href => exact absurd rfl (href _)
    | turn _ _ _ hm => exact Or.inl hm
    | aliased _ _ _ _ hm => exact Or.inl hm

end Fulfilled

section Registered

variable {cfg : Setting} {c : Corpus} {s : State} {o : Object}

/-- An object schema shares neither the references that lead to it nor the names that it is given
with another schema, and no schema has the name of a record that stands in for it. -/
structure Distinguished (cfg : Setting) (c : Corpus) (key : Option String) (o : Object) : Prop where
  only : ∀ k, key = some k → c.Only cfg k o
  sole : ∀ name, c.Gives cfg key (.obj o) name → ∀ key' f name', c.Gives cfg key' f name' →
    fullOf name' = fullOf name → f = .obj o
  free : ∀ name, c.Gives cfg key (.obj o) name → ∀ key' f name', c.Gives cfg key' f name' →
    fullOf name' ≠ standInOf name

/-- The registered type of a schema: it has a name that the schema was given, and its fields. -/
structure TypeOf (cfg : Setting) (c : Corpus) (key : Option String) (o : Object) (t : AvroType) :
    Prop where
  named : ∃ name, c.Gives cfg key (.obj o) name ∧ t.qualifiedName? = some (fullOf name)
  describes : Object.contains o "const" = false → Describes o t

/-- What holds between turns, as long as no call has failed. -/
structure Kept (cfg : Setting) (c : Corpus) (s : State) : Prop where
  provided : ∀ t ∈ s.registry, Provided cfg c t
  remembered : ∀ key o, c.Only cfg key o → ListsProperties o → RememberedAs cfg c key o s
  fulfilled : ∀ key o, c.Only cfg key o → ListsProperties o → Fulfilled key ([], s)

theorem kept_of_steps (h : Steps cfg c ([], {}) ([], s)) : Kept cfg c s where
  provided := by
    refine @steps_keep cfg c (fun s => ∀ t ∈ s.registry, Provided cfg c t)
      (fun _ _ => registry_provided) _ _ h ?_
    simp
  remembered key o honly ho := by
    refine @steps_keep cfg c (RememberedAs cfg c key o)
      (fun _ _ => remembered_step honly ho) _ _ h ?_
    intro n hm
    simp at hm
  fulfilled key o honly ho := by
    have start : Fulfilled key ([], {}) := by
      intro n hn
      simp [Imports.get?] at hn
    generalize hb : (([], s) : List Import × State) = b at h ⊢
    clear hb
    induction h with
    | refl => exact start
    | tail _ hlast ih => exact fulfilled_step honly ho hlast ih

/-- What is registered under a name of the schema is its type. -/
theorem type_of_registered (hs : Kept cfg c s) {key : Option String} (ho : ListsProperties o)
    (hd : Distinguished cfg c key o) {name : String × String} (hname : c.Gives cfg key (.obj o) name)
    (hm : fullOf name ∈ definedNames s.registry) : ∃ t ∈ s.registry, TypeOf cfg c key o t := by
  obtain ⟨t, ht, hq⟩ := mem_defined.mp hm
  obtain ⟨key', f, name', hgives, hq', hdescribes⟩ := hs.provided t ht
  have hsame : fullOf name' = fullOf name := Option.some.inj (hq'.symm.trans hq)
  exact ⟨t, ht, ⟨name, hname, hq⟩, hdescribes o (hd.sole name hname key' f name' hgives hsame) ho⟩

/-- After its turn an object schema has a registered type. -/
theorem object_registered {baseUri : String} {t : Turn} (hturn : c.turns baseUri t)
    (ht : t.schema = .obj o) (ho : ListsProperties o)
    (hd : Distinguished cfg c (t.key baseUri) o) (htaken : Taken cfg c baseUri t {} s) :
    ∃ u ∈ s.registry, TypeOf cfg c (t.key baseUri) o u := by
  obtain ⟨d, n, s₁, s₂, hbefore, htop, hy, hown, hafter⟩ := htaken
  have own : c.Gives cfg (t.key baseUri) (.obj o) (t.typeName cfg) := ht ▸ .turn hturn
  have kept : Kept cfg c s := kept_of_steps (hbefore.trans (hown.trans hafter))
  have grows : Extends s₂ s := steps_extend hafter
  rcases definition_yields hy with ⟨-, hsame, key, n, hkey, hn⟩ | ⟨r, names, s₃, htype, hkeeps⟩
  · have kept₁ : Kept cfg c s₁ := kept_of_steps hbefore
    have grows : Extends s₁ s := hsame ▸ grows
    have honly := hd.only key hkey
    rw [hkey] at hd ⊢
    have hm : n ∈ definedNames s₁.registry := by
      rcases kept₁.fulfilled key o honly ho n hn with hm | ⟨i, hi, -⟩
      · exact hm
      · simp at hi
    obtain ⟨name, hname, rfl | rfl⟩ := kept₁.remembered key o honly ho n (mem_of_imported hn)
    · exact type_of_registered kept ho hd hname (grows.defined hm)
    · obtain ⟨u, hu, hq⟩ := mem_defined.mp hm
      obtain ⟨key', f, name', hgives, hq', -⟩ := kept₁.provided u hu
      exact absurd (Option.some.inj (hq'.symm.trans hq)) (hd.free name hname key' f name' hgives)
  · rw [ht] at htype
    obtain ⟨u, hu, r', rfl, -⟩ := definition_type_describes ho htop htype
    subst hu
    refine type_of_registered kept ho hd own (grows.defined ?_)
    cases hkeeps with
    | registered hu => exact register_defined _ (kept_qualified hu)

end Registered

/-- The schema is known by a name: its own name is registered, or a reference has led to it and is
remembered by a name that is registered, passed on, or was promised in vain. -/
def KnownByName (cfg : Setting) (c : Corpus) (s : State) (key : String) (name : String × String) :
    Prop :=
  fullOf name ∈ definedNames s.registry ∨ ∃ n, Resolved s key n ∧ Accounted cfg c [] s n

section Named

variable {cfg : Setting} {c : Corpus} {s : State}

/-- After its turn a schema is known by a name, unless there is a warning. -/
theorem definition_known (hwarn : s.warnings = []) {baseUri : String} {t : Turn} {key : String}
    (hkey : t.key baseUri = some key) (htaken : Taken cfg c baseUri t {} s) :
    KnownByName cfg c s key (t.typeName cfg) := by
  obtain ⟨d, n, s₁, s₂, hbefore, htop, hy, hown, hafter⟩ := htaken
  have accounted : AllAccounted cfg c (fun _ => False) ([], s) := by
    refine steps_accounted (hbefore.trans (hown.trans hafter)) fun key name hm => ?_
    simp [Resolved] at hm
  have grows : Extends s₂ s := steps_extend hafter
  have resolved : ∀ n, Resolved s key n → KnownByName cfg c s key (t.typeName cfg) :=
    fun n hn => Or.inr ⟨n, hn, (accounted key n hn).resolve_left id⟩
  rcases definition_yields hy with ⟨-, hsame, key', n, hkey', hn⟩ | ⟨r, names, s₃, htype, hkeeps⟩
  · obtain rfl := Option.some.inj (hkey.symm.trans hkey')
    have grows : Extends s₁ s := hsame ▸ grows
    exact resolved n (grows.imports.subset (mem_of_imported hn))
  · rw [hkey] at hkeeps
    cases hkeeps with
    | registered hu => exact Or.inl (grows.defined (register_defined _ (kept_qualified hu)))
    | passed hc => exact resolved _ (grows.imports.subset (List.mem_cons_self ..))
    | empty =>
      have hlog := steps_log hafter
      simp [hwarn] at hlog

end Named

section Entries

variable {cfg : Setting} {node : NodeConverter} {scope : Scope} {s s' : State}
  {names names' : List String} {o : Object} {t : Option AvroType}

/-- A member of a list of definitions or, at any depth, of a group in it, with its pointer. -/
inductive ListEntry : String → Object → String → String → Json → Prop
  | here {pointer members name schema} : (name, schema) ∈ members →
    ListEntry pointer members (pointer ++ "/" ++ Pointer.escape name) name schema
  | inside {pointer members name group place inner schema} : (name, .obj group) ∈ members →
    isSchemaLike (.obj group) = false →
    ListEntry (pointer ++ "/" ++ Pointer.escape name) group place inner schema →
    ListEntry pointer members place inner schema

theorem mem_list_turns {pointer : String} {members : Object} {t : Turn} :
    t ∈ listTurns pointer members ↔
      ∃ m ∈ members, t ∈ memberTurns (pointer ++ "/" ++ Pointer.escape m.1) m.1 m.2 := by
  induction members with
  | nil => simp [listTurns]
  | cons m members ih =>
    obtain ⟨name, schema⟩ := m
    rw [listTurns, List.mem_append, ih, List.exists_mem_cons_iff]

theorem schema_turns {pointer name : String} {schema : Json} (h : isSchemaLike schema = true) :
    memberTurns pointer name schema = [⟨name, schema, some pointer⟩] := by
  cases schema with
  | obj o => rw [memberTurns, if_pos h]
  | _ => simp [isSchemaLike] at h

/-- Every entry that is a schema by its keywords has a turn. -/
theorem entry_turn {pointer place name : String} {members : Object} {schema : Json}
    (h : ListEntry pointer members place name schema) (hschema : isSchemaLike schema = true) :
    ⟨name, schema, some place⟩ ∈ listTurns pointer members := by
  induction h with
  | here hm =>
    refine mem_list_turns.mpr ⟨_, hm, ?_⟩
    rw [schema_turns hschema]
    exact List.mem_singleton_self _
  | inside hm hgroup _ ih =>
    refine mem_list_turns.mpr ⟨_, hm, ?_⟩
    rw [memberTurns, if_neg (by simp [hgroup])]
    exact ih hschema

theorem unconditional_lacks {key : String} (h : Object.contains o key = false) :
    Object.contains (unconditional o) key = false := by
  rw [← Bool.not_eq_true] at h ⊢
  exact fun hc => h (contains_of_subset (unconditional_members o) hc)

/-- The keywords that a schema has a type by. -/
def typeKeywords : List String :=
  ["type", "properties", "enum", "$ref", "allOf", "oneOf", "anyOf", "const", "items", "format"]

/-- An object without any of the keywords says nothing. -/
theorem object_says_nothing (hkeys : ∀ key ∈ typeKeywords, Object.contains o key = false)
    (hdepth : scope.depth ≤ cfg.options.maxDepth)
    (h : (Convert.node cfg (.obj o) scope).Yields names s t names' s') : t = none := by
  have lacks : ∀ key ∈ typeKeywords, Object.get? (unconditional o) key = none := by
    intro key hkey
    have := unconditional_lacks (hkeys key hkey)
    rwa [Object.contains, Option.isSome_eq_false_iff, Option.isNone_iff_eq_none] at this
  simp only [typeKeywords, List.forall_mem_cons] at lacks
  obtain ⟨htype, hproperties, henum, href, hall, hone, hany, hconst, hitems, hformat, -⟩ := lacks
  rw [Convert.node, nodeWithin] at h
  dsimp only at h
  rw [if_neg (by omega), Convert.step] at h
  have same : withObjectType (unconditional o) = unconditional o := by
    rw [withObjectType, if_neg (by simp [Object.contains, hproperties])]
  cases object_node_cases h with
  | composed hc => simp [hasComposition, Object.contains, hall, hone, hany] at hc
  | referred _ hr => simp [same, Object.contains, href] at hr
  | typed _ _ _ hk _ =>
    rw [same, (Says.silent hconst htype (by rw [henum]; rfl) (by rw [Object.contains, hitems]; rfl)
      (by rw [hformat]; rfl)).type_eq] at hk
    simpa using (Build.yields_pure.mp hk).1
  | silent => rfl

end Entries

/-- After calls that succeed, different object schemas that had a turn have different registered
types, if they are told apart by their names. Without a warning each entry of a list of definitions
that is a schema by its keywords is known by a name; any other object among the entries, which counts
as a group, converts to no type, or has it from `const`, `items` or `format`. -/
theorem definitions_kept {cfg : Setting} {calls : List Call} {s : State}
    (hrun : (callAll cfg calls).Yields {} () s) :
    (∀ baseUri₁ t₁ o₁ baseUri₂ t₂ o₂, (corpusOf cfg calls).turns baseUri₁ t₁ →
      (corpusOf cfg calls).turns baseUri₂ t₂ → t₁.schema = .obj o₁ → t₂.schema = .obj o₂ →
      ListsProperties o₁ → ListsProperties o₂ →
      Distinguished cfg (corpusOf cfg calls) (t₁.key baseUri₁) o₁ →
      Distinguished cfg (corpusOf cfg calls) (t₂.key baseUri₂) o₂ → o₁ ≠ o₂ →
      ∃ u₁ ∈ s.registry, ∃ u₂ ∈ s.registry, u₁.qualifiedName? ≠ u₂.qualifiedName? ∧
        TypeOf cfg (corpusOf cfg calls) (t₁.key baseUri₁) o₁ u₁ ∧
        TypeOf cfg (corpusOf cfg calls) (t₂.key baseUri₂) o₂ u₂) ∧
    ∀ call ∈ calls, ∀ pointer members, call.turns cfg = .ok (listTurns pointer members) →
      ∀ place name schema, ListEntry pointer members place name schema →
        (s.warnings = [] → isSchemaLike schema = true →
          KnownByName cfg (corpusOf cfg calls) s (pointerKey call.baseUri place)
            (Turn.typeName cfg ⟨name, schema, some place⟩)) ∧
        ∀ o scope names s t names' s', schema = .obj o → isSchemaLike schema = false →
          scope.depth ≤ cfg.options.maxDepth →
          (node cfg schema scope).Yields names s (some t) names' s' →
          Object.contains o "const" = true ∨ Object.contains o "items" = true ∨
            Object.contains o "format" = true := by
  have hc := corpus_closed cfg calls
  obtain ⟨-, taken⟩ := calls_taken hc calls (fun _ => corpus_covers) between_start hrun
  have hturn : ∀ {baseUri t}, (corpusOf cfg calls).turns baseUri t →
      Taken cfg (corpusOf cfg calls) baseUri t {} s := by
    rintro baseUri t ⟨call, hcall, rfl, ts, hts, ht⟩
    exact taken call hcall ts hts t ht
  constructor
  · intro baseUri₁ t₁ o₁ baseUri₂ t₂ o₂ ht₁ ht₂ hs₁ hs₂ ho₁ ho₂ hd₁ hd₂ hne
    obtain ⟨u₁, hm₁, hu₁⟩ := object_registered ht₁ hs₁ ho₁ hd₁ (hturn ht₁)
    obtain ⟨u₂, hm₂, hu₂⟩ := object_registered ht₂ hs₂ ho₂ hd₂ (hturn ht₂)
    refine ⟨u₁, hm₁, u₂, hm₂, fun hq => hne ?_, hu₁, hu₂⟩
    obtain ⟨name₁, hgives₁, hq₁⟩ := hu₁.named
    obtain ⟨name₂, hgives₂, hq₂⟩ := hu₂.named
    have hsame : fullOf name₂ = fullOf name₁ := by
      rw [hq₁, hq₂] at hq
      exact (Option.some.inj hq).symm
    exact (Json.obj.inj (hd₁.sole name₁ hgives₁ _ _ name₂ hgives₂ hsame)).symm
  · intro call hcall pointer members hts place name schema hentry
    constructor
    · intro hwarn hschema
      exact definition_known hwarn rfl (taken call hcall _ hts _ (entry_turn hentry hschema))
    · rintro o scope names s t names' s' rfl hgroup hdepth hy
      by_contra hno
      rw [not_or, not_or, Bool.not_eq_true, Bool.not_eq_true, Bool.not_eq_true] at hno
      have lacks : ∀ key ∈ typeKeywords, Object.contains o key = false := by
        simp only [isSchemaLike, hasComposition, Bool.or_eq_false_iff] at hgroup
        simp [typeKeywords, hgroup, hno]
      exact absurd (object_says_nothing lacks hdepth hy) (by simp)

section Examples

/-- A run whose outcome is known to be a success. -/
theorem yields_of_success {x : Run Unit} {s : State} (h : (x.run.run s).1.isOk = true) :
    x.Yields s () (x.run.run s).2 := by
  rcases hr : x.run.run s with ⟨r | ⟨⟩, s'⟩
  · simp [hr, Except.isOk, Except.toBool] at h
  · exact hr

theorem pair_distinguished {e : String × Json} (he : e ∈ pairDefinitions) {o : Object}
    (ho : e.2 = .obj o) : Distinguished offline (corpusOf offline [.document pair ""])
      (some ("#/definitions/" ++ e.1)) o := by
  have own : ∀ {f name}, (corpusOf offline [.document pair ""]).Gives offline
      (some ("#/definitions/" ++ e.1)) f name →
      fullOf name = "ns." ++ e.1 ∧ standInOf name = "ns." ++ e.1 ++ "_ref" := by
    intro f name h
    obtain ⟨e', he', hk, -, hn⟩ := pair_gives h
    rwa [(String.append_right_inj _).mp (Option.some.inj hk)]
  constructor
  · intro k hk
    rw [← Option.some.inj hk]
    exact pair_only he ho
  · intro name h key' f name' h' hsame
    obtain ⟨e', he', -, hf, hn, -⟩ := pair_gives h'
    have hname : e'.1 = e.1 := (String.append_right_inj "ns.").mp (hn ▸ hsame.trans (own h).1)
    rw [hf, pair_unique he' he hname, ho]
  · intro name h key' f name' h' hsame
    obtain ⟨e', he', -, -, hn, -⟩ := pair_gives h'
    have free : ∀ e ∈ pairDefinitions, ∀ e' ∈ pairDefinitions,
      "ns." ++ e'.1 ≠ "ns." ++ e.1 ++ "_ref" := by decide
    exact free e he e' he' (hn ▸ hsame.trans (own h).2)

/-- The records of the pair are registered. -/
theorem pair_kept : ∃ s, (callAll offline [.document pair ""]).Yields {} () s ∧
    ∃ u₁ ∈ s.registry, ∃ u₂ ∈ s.registry, u₁.qualifiedName? ≠ u₂.qualifiedName? ∧
      Describes [("type", .str "object"),
        ("properties", .obj [("x", .obj [("type", .str "string")])])] u₁ ∧
      Describes [("type", .str "object"),
        ("properties", .obj [("y", .obj [("type", .str "string")])])] u₂ := by
  have hrun := yields_of_success (x := callAll offline [.document pair ""]) (s := {})
    (by decide +kernel)
  have taken : ∀ e ∈ pairDefinitions, (corpusOf offline [.document pair ""]).turns "" (pairTurn e) :=
    fun e he => ⟨_, List.mem_singleton_self _, rfl, _, pair_turns, List.mem_map_of_mem he⟩
  have hkey : ∀ e ∈ pairDefinitions, (pairTurn e).key "" = some ("#/definitions/" ++ e.1) := by
    decide +kernel
  obtain ⟨u₁, hm₁, u₂, hm₂, hne, hu₁, hu₂⟩ := (definitions_kept hrun).1 "" _ _ "" _ _
    (taken _ pair_first) (taken _ pair_second) rfl rfl (single_property_lists "x") (single_property_lists "y")
    (hkey _ pair_first ▸ pair_distinguished pair_first rfl)
    (hkey _ pair_second ▸ pair_distinguished pair_second rfl) (by simp)
  exact ⟨_, hrun, u₁, hm₁, u₂, hm₂, hne, hu₁.describes rfl, hu₂.describes rfl⟩

/-- Two definitions whose names become the same one. -/
def alike : Json := .obj [("definitions", .obj [
  ("a-b", objectSchema [("x", .obj [("type", .str "string")])]),
  ("a_b", objectSchema [("y", .obj [("type", .str "string")])])])]

/-- Only the first of the two definitions is registered. -/
theorem alike_definition_dropped : ∃ s, (callAll offline [.document alike ""]).Yields {} () s ∧
    s.warnings = [] ∧ ∃ t, s.registry = [t] ∧ t.qualifiedName? = some "ns.a_b" ∧
      ¬Describes [("type", .str "object"),
        ("properties", .obj [("y", .obj [("type", .str "string")])])] t := by
  have registered : (((callAll offline [.document alike ""]).run.run {}).2.warnings = [] ∧
      ((callAll offline [.document alike ""]).run.run {}).2.registry = [.record {
        name := "a_b", ns := some "ns"
        fields := [{ name := "x", type := .union [.null, .primitive "string"] }] }]) := by
    decide +kernel
  refine ⟨_, yields_of_success (x := callAll offline [.document alike ""]) (s := {})
    (by decide +kernel), registered.1, _, registered.2, rfl, ?_⟩
  rintro ⟨r, hr, hprefix⟩
  rw [← AvroType.record.inj hr] at hprefix
  exact absurd hprefix (by decide)

/-- A definition with nothing but a format, beside a record. -/
def formatted : Json := .obj [("definitions", .obj [
  ("Id", .obj [("format", .str "uuid")]),
  ("Item", objectSchema [("x", .obj [("type", .str "string")])])])]

/-- The definition has a type, but it counts as a group, and nothing is registered for it. -/
theorem formatted_definition_lost : isSchemaLike (.obj [("format", .str "uuid")]) = false ∧
    (∃ t names s, (node offline (.obj [("format", .str "uuid")]) (.root "Id" "ns" formatted "")).Yields
      [] {} (some t) names s) ∧
    ∃ s, (callAll offline [.document formatted ""]).Yields {} () s ∧ s.warnings = [] ∧
      definedNames s.registry = ["ns.Item"] := by
  refine ⟨rfl, ?_, _, yields_of_success (x := callAll offline [.document formatted ""]) (s := {})
    (by decide +kernel), by decide +kernel⟩
  exact ⟨_, _, _, rfl⟩

end Examples

end AvroDerive.Convert
