import AvroDerive.Proofs.OrderlyNode
import AvroDerive.Proofs.OutputReference

/-! # The state between calls

A converter is called for documents, for single definitions and for lists of definitions, one after
another and in any order. Whether the calls succeed or fail, its state stays orderly, and what is
registered stays as it is. -/
namespace AvroDerive.Convert

open AvroType Json Schema

/-- The type of a definition lists its references, each once. At the top it may be renamed. -/
structure Ready (t : AvroType) (names : List String) (s : State) : Prop where
  refer : t.AllRefer (Listed s (names ++ t.ownDependencies)) none
  once : t.ownDependencies.Nodup
  top : s.frames = [] → ∀ r, t = .record r → FieldsMade r.fields (names ++ r.dependencies) s

section Definition

variable {cfg : Setting} {s s' : State} {names : List String} {t : AvroType}

theorem Made.ready (h : Made t names s) : Ready t names s where
  refer := h.refer.imp fun _ _ h => h.mono (.refl s) (List.subset_append_left _ _)
  once := h.own ▸ List.nodup_nil
  top ht r hr f hf := (h.top ht r hr f hf).imp fun _ _ h =>
    h.mono (.refl s) (List.subset_append_left _ _)

theorem RecordMade.ready {r : Record AvroType} (h : RecordMade r s) : Ready (.record r) [] s where
  refer := h.refer
  once := h.once
  top ht r' hr' := by
    obtain rfl := AvroType.record.inj hr'
    exact h.top ht

/-- At the top a type keeps its references listed under another name. -/
theorem Ready.renamed (h : Ready t names s) (htop : s.frames = []) (name ns : String) :
    ((t.withName name).withNs ns).ownDependencies = t.ownDependencies ∧
      ((t.withName name).withNs ns).AllRefer (Listed s (names ++ t.ownDependencies)) none := by
  cases t with
  | record r =>
    refine ⟨rfl, all_refer_record.mpr fun f hf => ?_⟩
    exact (h.top htop r rfl f hf).into_field listed_movable _
  | enum e => exact ⟨rfl, all_refer_enum⟩
  | fixed f => exact ⟨rfl, all_refer_fixed⟩
  | _ => exact ⟨rfl, h.refer⟩

theorem register_definition_orderly (key : Option String) (schema : Json) (name ns : String)
    (hs : Orderly s) (htop : s.frames = []) (hkind : (t.isRecord || t.isEnum) = true)
    (ht : Ready t names s) :
    StaysOrderly (registerDefinition key schema name ns t names) s fun _ _ => True := by
  obtain ⟨hown, hrefer⟩ := ht.renamed htop name ns
  have kind : (((t.withName name).withNs ns).isRecord || ((t.withName name).withNs ns).isEnum) =
      true := by
    cases t <;> simp_all [isRecord, isEnum, withName, withNs]
  rw [← hown] at hrefer
  unfold registerDefinition
  refine .bind (.register hs kind (hown ▸ ht.once) hrefer) ?_
  intro registered s₁ hs₁ _ _
  dsimp only
  split
  · split
    · refine .bind (.remember hs₁ _ (by simp)) ?_
      intro _ s₂ hs₂ _ _
      exact .pure hs₂ trivial
    · exact .pure hs₁ trivial
  · exact .pure hs₁ trivial

theorem keep_definition_orderly (key : Option String) (schemaName : String) (schema : Json)
    (name ns : String) {t : Option AvroType} (hs : Orderly s) (htop : s.frames = [])
    (ht : ∀ u, t = some u → Ready u names s) :
    StaysOrderly (keepDefinition key schemaName schema name ns t names) s fun _ _ => True := by
  have registered : ∀ u, (u.isRecord || u.isEnum) = true → Ready u names s →
      StaysOrderly (do return some (← registerDefinition key schema name ns u names)) s
        fun _ _ => True := by
    intro u hkind hu
    refine .bind (register_definition_orderly key schema name ns hs htop hkind hu) ?_
    intro _ s₁ hs₁ _ _
    exact .pure hs₁ trivial
  unfold keepDefinition
  cases t with
  | none =>
    refine .bind (.warn hs _) ?_
    intro _ s₁ hs₁ _ _
    exact .pure hs₁ trivial
  | some t =>
    dsimp only
    split
    · next hkind => exact registered t hkind (ht t rfl)
    · next hkind =>
      refine .bind (.get hs) ?_
      rintro _ _ - - ⟨rfl, rfl⟩
      split
      · split
        · refine .bind (.remember hs _ (by simp)) ?_
          intro _ s₁ hs₁ _ _
          exact .pure hs₁ trivial
        · exact .pure hs trivial
      · have plain : t.ownDependencies = [] := by
          cases t <;> simp_all [ownDependencies, isRecord]
        have fields : FieldsMade [{ name := "value", type := t }] names s := by
          have refer := (ht t rfl).refer
          rw [plain, List.append_nil] at refer
          exact List.forall_mem_singleton.mpr refer
        refine registered (valueRecord name ns schema t) rfl ⟨?_, List.nodup_nil, ?_⟩
        · refine all_refer_record.mpr fun f hf => ?_
          refine AllRefer.into_field listed_movable _ ?_
          exact (fields f hf).imp fun _ _ h => h.mono (.refl s) (List.subset_append_left _ _)
        · intro _ r hr
          obtain rfl := AvroType.record.inj hr
          exact fields.mono (.refl s) (List.subset_append_left _ _)

theorem definition_type_orderly (schema : Json) (scope : Scope) (hs : Orderly s)
    (htop : s.frames = []) : StaysOrderly (definitionType cfg schema scope) s fun r s' =>
      ∀ u, r.1 = some u → Ready u r.2 s' := by
  have converted : StaysOrderly (Build.apart (node cfg schema scope)) s fun r s' =>
      ∀ u, r.1 = some u → Ready u r.2 s' :=
    (StaysOrderly.apart (node_orderly cfg schema scope [] s hs)).imp
      fun _ _ _ _ ht u hu => (ht u hu).ready
  unfold definitionType
  split
  · split
    · refine .bind (object_record_orderly (node_orderly cfg) _ _ _ hs fun _ => htop) ?_
      intro t s₁ hs₁ _ ht
      refine .pure hs₁ fun u hu => ?_
      obtain ⟨r, rfl, hr⟩ := ht u hu
      exact hr.ready
    · exact converted
  · exact converted

theorem is_imported_orderly (key : Option String) (hs : Orderly s) :
    StaysOrderly (isImported key) s fun _ s' => s' = s := by
  unfold isImported
  split
  · refine .bind (.imported hs _) ?_
    rintro i _ - - ⟨-, rfl⟩
    split
    · exact .pure hs rfl
    · exact .pure hs rfl
  · exact .pure hs rfl

theorem definition_orderly (document : Json) (baseUri schemaName : String) (schema : Json)
    (pointer : Option String) (hs : Orderly s) (htop : s.frames = []) :
    StaysOrderly (definition cfg document baseUri schemaName schema pointer) s
      fun _ _ => True := by
  unfold definition
  refine .bind (is_imported_orderly _ hs) ?_
  rintro b _ - - rfl
  split
  · exact .pure hs trivial
  · refine .bind (definition_type_orderly _ _ hs htop) ?_
    rintro ⟨t, names⟩ s₁ hs₁ hg₁ ht
    exact keep_definition_orderly _ _ _ _ _ hs₁ (hg₁.frames.trans htop) ht

/-- One definition after another, each begun with no record under construction. -/
theorem StaysOrderly.then {α β : Type} {x : Run α} {y : Run β} (htop : s.frames = [])
    (hx : StaysOrderly x s fun _ _ => True)
    (hy : ∀ s', Orderly s' → s'.frames = [] → StaysOrderly y s' fun _ _ => True) :
    StaysOrderly (x >>= fun _ => y) s fun _ _ => True := by
  refine .bind hx ?_
  intro _ s₁ hs₁ hg₁ _
  exact hy s₁ hs₁ (hg₁.frames.trans htop)

mutual

theorem definition_or_group_orderly (document : Json) (baseUri pointer name : String)
    (schema : Json) (s : State) (hs : Orderly s) (htop : s.frames = []) :
    StaysOrderly (definitionOrGroup cfg document baseUri pointer name schema) s
      fun _ _ => True := by
  cases schema with
  | obj members =>
    rw [definitionOrGroup]
    split
    · exact .then htop (definition_orderly _ _ _ _ _ hs htop) fun s' hs' _ => .pure hs' trivial
    · exact definition_list_orderly document baseUri pointer members s hs htop
  | _ =>
    rw [definitionOrGroup]
    · exact .pure hs trivial
    · simp

theorem definition_list_orderly (document : Json) (baseUri pointer : String)
    (members : List (String × Json)) (s : State) (hs : Orderly s) (htop : s.frames = []) :
    StaysOrderly (definitionList cfg document baseUri pointer members) s fun _ _ => True := by
  cases members with
  | nil =>
    rw [definitionList]
    exact .pure hs trivial
  | cons m members =>
    obtain ⟨name, schema⟩ := m
    rw [definitionList]
    refine .then htop (definition_or_group_orderly document baseUri _ name schema s hs htop) ?_
    exact fun s' hs' htop' => definition_list_orderly document baseUri pointer members s' hs' htop'

end

theorem definition_items_orderly (document : Json) (baseUri : String) (index : Nat)
    (items : List Json) (hs : Orderly s) (htop : s.frames = []) :
    StaysOrderly (definitionItems cfg document baseUri index items) s fun _ _ => True := by
  induction items generalizing index s with
  | nil =>
    rw [definitionItems]
    exact .pure hs trivial
  | cons item items ih =>
    cases item with
    | obj o =>
      rw [definitionItems]
      exact .then htop (definition_orderly _ _ _ _ _ hs htop) fun s' hs' htop' => ih _ hs' htop'
    | _ => exact ih _ hs htop

theorem document_orderly (j : Json) (baseUri : String) (hs : Orderly s) (htop : s.frames = []) :
    StaysOrderly (document cfg j baseUri) s fun _ _ => True := by
  unfold document
  split
  · split
    · exact .then htop (definition_orderly _ _ _ _ _ hs htop) fun s' hs' _ => .pure hs' trivial
    · split
      · dsimp only
        split
        · exact definition_list_orderly _ _ _ _ s hs htop
        · exact .fail hs
      · exact .fail hs
  · exact definition_items_orderly _ _ 0 _ hs htop
  · exact .fail hs

end Definition

/-- A call on a converter. -/
inductive Call where
  | document (j : Json) (baseUri : String)
  | definition (j : Json) (baseUri schemaName : String) (schema : Json) (pointer : Option String)
  | definitionList (j : Json) (baseUri pointer : String) (members : Object)

/-- What a call does; it may fail. -/
def Call.run (cfg : Setting) : Call → Run Unit
  | .document j baseUri => Convert.document cfg j baseUri
  | .definition j baseUri schemaName schema pointer => do
    let _ ← Convert.definition cfg j baseUri schemaName schema pointer
  | .definitionList j baseUri pointer members =>
    Convert.definitionList cfg j baseUri pointer members

/-- The state after a call, whether it succeeds or fails. -/
def Call.after (cfg : Setting) (call : Call) (s : State) : State := ((call.run cfg).run.run s).2

/-- The state after a sequence of calls on a new converter. What the content source answers may
change from call to call. -/
def stateAfter (cfg : Setting) (calls : List (Source × Call)) : State :=
  calls.foldl (fun s c => c.2.after { cfg with source := c.1 } s) {}

section Calls

variable {cfg : Setting} {s : State}

theorem orderly_start : Orderly {} where
  entries := by simp
  distinct := by simp
  listed := by simp
  inline := by simp
  frames := by simp

/-- A call keeps the state orderly, and what was registered before it. -/
theorem call_orderly (call : Call) (hs : Orderly s) (htop : s.frames = []) :
    Orderly (call.after cfg s) ∧ Grows s (call.after cfg s) := by
  have stays : StaysOrderly (call.run cfg) s fun _ _ => True := by
    cases call with
    | document j baseUri => exact document_orderly j baseUri hs htop
    | definition j baseUri schemaName schema pointer =>
      exact .then htop (definition_orderly _ _ _ _ _ hs htop) fun s' hs' _ => .pure hs' trivial
    | definitionList j baseUri pointer members =>
      exact definition_list_orderly j baseUri pointer members s hs htop
  exact ⟨stays.1, stays.2.1⟩

/-- Every sequence of calls leads to an orderly state without records under construction. -/
theorem state_orderly (cfg : Setting) (calls : List (Source × Call)) :
    Orderly (stateAfter cfg calls) ∧ (stateAfter cfg calls).frames = [] := by
  have run : ∀ s, Orderly s → s.frames = [] →
      Orderly (calls.foldl (fun s c => c.2.after { cfg with source := c.1 } s) s) ∧
        (calls.foldl (fun s c => c.2.after { cfg with source := c.1 } s) s).frames = [] := by
    induction calls with
    | nil => exact fun s hs htop => ⟨hs, htop⟩
    | cons c calls ih =>
      intro s hs htop
      obtain ⟨hs', hg⟩ : Orderly (c.2.after { cfg with source := c.1 } s) ∧
        Grows s (c.2.after { cfg with source := c.1 } s) := call_orderly c.2 hs htop
      exact ih _ hs' (hg.frames.trans htop)
  exact run {} orderly_start rfl

/-- After every call, whether it succeeds or fails, no record is under construction, and what was
registered before is registered still, in front. What is registered are records and enumerations
of different names; a record depends neither on itself nor on a name twice, and the records inside
it list no dependencies. -/
theorem registry_grows_in_order (cfg : Setting) (calls : List (Source × Call)) (source : Source)
    (call : Call) :
    let s := stateAfter cfg calls
    let s' := stateAfter cfg (calls ++ [(source, call)])
    s'.frames = [] ∧ s.registry <+: s'.registry ∧
      (∀ t ∈ s'.registry, (t.isRecord || t.isEnum) = true) ∧ (definedNames s'.registry).Nodup ∧
      ∀ r, .record r ∈ s'.registry → qualify r.ns r.name ∉ r.dependencies ∧ r.dependencies.Nodup ∧
        ∀ d ∈ fieldDefinitions r.fields, d.ownDependencies = [] := by
  obtain ⟨hs, htop⟩ := state_orderly cfg calls
  obtain ⟨hs', htop'⟩ := state_orderly cfg (calls ++ [(source, call)])
  refine ⟨htop', ?_, fun t ht => (hs'.entries t ht).kind, hs'.distinct, fun r hr => ?_⟩
  · have step : stateAfter cfg (calls ++ [(source, call)]) =
        call.after { cfg with source } (stateAfter cfg calls) := List.foldl_append
    rw [step]
    exact (call_orderly call hs htop).2.registry
  · have entry := hs'.entries _ hr
    exact ⟨entry.apart _ rfl, entry.once, entry.gathered⟩

/-- What a registered type refers to is itself or listed among its dependencies, unless the
reference closes a cycle or a type that is shared without a name brings it along. -/
theorem registered_refers (cfg : Setting) (calls : List (Source × Call)) (t : AvroType)
    (place : Place) (name : String) (ht : t ∈ (stateAfter cfg calls).registry)
    (hm : Mention.refers place name ∈ t.mentions none) :
    t.qualifiedName? = some name ∨ name ∈ t.ownDependencies ∨ Closing place name ∨
      Shared (stateAfter cfg calls) name := by
  obtain ⟨hs, -⟩ := state_orderly cfg calls
  rcases hs.listed t ht place name hm with h | h | h
  · rcases List.mem_append.mp h with h | h
    · exact Or.inl (Option.mem_toList.mp h)
    · exact Or.inr (Or.inl h)
  · exact Or.inr (Or.inr (Or.inr h))
  · exact Or.inr (Or.inr (Or.inl h))

end Calls

/-- A converter is called for the whole document. -/
def wholeDocument (j : Json) : List (Source × Call) := [(offline.source, .document j "")]

theorem referring_registered_refers :
    ∃ t ∈ (stateAfter offline (wholeDocument referring)).registry,
      Mention.refers (some ("A", "b")) "ns.B" ∈ t.mentions none ∧
      (t.qualifiedName? = some "ns.B" ∨ "ns.B" ∈ t.ownDependencies ∨
        Closing (some ("A", "b")) "ns.B" ∨
        Shared (stateAfter offline (wholeDocument referring)) "ns.B") := by
  obtain ⟨t, ht, hm⟩ : ∃ t ∈ (stateAfter offline (wholeDocument referring)).registry,
      Mention.refers (some ("A", "b")) "ns.B" ∈ t.mentions none := by decide +kernel
  exact ⟨t, ht, hm, registered_refers _ _ t _ _ ht hm⟩

/-- Two records with a field for the same list, of records of a third kind. -/
def sharing : Json := .obj [("definitions", .obj [
  ("L", .obj [("type", .str "array"), ("items", definitionRef "Item")]),
  ("A", objectSchema [("l", definitionRef "L")]),
  ("B", objectSchema [("l", definitionRef "L")]),
  ("Item", objectSchema [("x", .obj [("type", .str "string")])])])]

/-- The second record takes over the list without the name that the list refers to. -/
theorem shared_list_unlisted :
    ∃ t ∈ (stateAfter offline (wholeDocument sharing)).registry,
      t.isRecord = true ∧ t.qualifiedName? = some "ns.B" ∧
      Mention.refers none "ns.Item" ∈ t.mentions none ∧ "ns.Item" ∉ t.ownDependencies ∧
      ¬Closing none "ns.Item" := by
  obtain ⟨t, ht, hrecord, hname, hm, hunlisted⟩ :
      ∃ t ∈ (stateAfter offline (wholeDocument sharing)).registry, t.isRecord = true ∧
        t.qualifiedName? = some "ns.B" ∧ Mention.refers none "ns.Item" ∈ t.mentions none ∧
        "ns.Item" ∉ t.ownDependencies := by decide +kernel
  exact ⟨t, ht, hrecord, hname, hm, hunlisted, by simp [Closing]⟩

end AvroDerive.Convert
