import AvroDerive.Proofs.CallStep
import AvroDerive.Proofs.NodeSpot
import AvroDerive.Proofs.RegularKeyword

/-! # What a conversion keeps

A law says something of the references that are remembered, of the nodes that are converted and of the
definitions that are made, and is kept by each step of a conversion. It holds then after every
computation, whether that succeeds or fails, and all types that are made are regular. -/
namespace AvroDerive.Convert

open AvroType Json Schema

/-- The definition is part of what is registered, or of a type that is shared without a name. -/
def Held (s : State) (d : AvroType) : Prop :=
  d.isNamed = true ∧ ((∃ t ∈ s.registry, d ∈ t.parts) ∨
    ∃ key t, (key, some (.inline t)) ∈ s.imports ∧ d ∈ t.parts)

/-- What is registered in a turn for a type. -/
def Turn.entry (cfg : Setting) (turn : Turn) (t : AvroType) : AvroType :=
  ((if t.isRecord || t.isEnum then t
    else valueRecord (turn.typeName cfg).1 (turn.typeName cfg).2 turn.schema t).withName
      (turn.typeName cfg).1).withNs (turn.typeName cfg).2

/-- Properties that the steps of a conversion keep. A key is free if what it stands for may change. -/
structure Law (cfg : Setting) where
  imports : Imports → Prop
  free : String → Prop
  documents : List (String × Json) → Prop
  spot : Spot → Prop
  turn : Json → String → Turn → Prop
  origin : AvroType → Prop
  unknown : ∀ {known key}, imports known → (∀ name, Imports.get? known key ≠ some (.named name)) →
    free key
  write : ∀ {known key}, imports known → free key → ∀ i, imports ((key, i) :: known)
  fetched : ∀ {known url d}, documents known → Fetched cfg url d → documents ((url, d) :: known)
  inner : ∀ {p q}, spot p → q ∈ p.inner → spot q
  target : ∀ {p reference located s s'}, spot p → p.reference? = some reference →
    documents s.documents → (locate cfg reference p.scope).Yields s located s' →
    spot (p.target cfg reference located)
  begins : ∀ {d baseUri t}, turn d baseUri t → spot ⟨t.schema, t.scope cfg d baseUri⟩
  beginsRecord : ∀ {d baseUri t o}, turn d baseUri t → t.schema = .obj o →
    ∀ q ∈ recordSpots (t.scope cfg d baseUri) (t.typeName cfg).1 (t.typeName cfg).2 o, spot q
  alike : ∀ {t u}, origin t → u.clearDependencies = t.clearDependencies → origin u
  joinedRecord : ∀ {level r s}, origin (.record r) → origin (.record s) →
    origin (.record (joinedRecord level r s))
  mergedEnum : ∀ {d e}, origin (.enum d) → origin (.enum e) → origin (.enum (mergeEnumPair none d e))
  listed : ∀ {p t u}, spot p → p.plain? = some t → (p.own = true → t.isNamed = false) →
    u ∈ t.parts → u.isNamed = true → origin u
  made : ∀ {p levels names s t names' s'}, spot p → p.own = true → (∀ d, Held s d → origin d) →
    (step cfg (nodeWithin cfg levels) p.schema p.scope).Yields names s (some t) names' s' →
    t.isNamed = true → origin t
  registered : ∀ {d baseUri turn' s t names s'}, turn d baseUri turn' → (∀ d, Held s d → origin d) →
    (definitionType cfg turn'.schema (turn'.scope cfg d baseUri)).Yields s (some t, names) s' →
    origin (turn'.entry cfg t)

namespace Law

section Types

variable {cfg : Setting} (L : Law cfg) {t u : AvroType}

/-- A regular type, whose origin the law admits if it is named. -/
def Fine (t : AvroType) : Prop := Regular t ∧ (t.isNamed = true → L.origin t)

/-- All parts of the type are fine. -/
def Good (t : AvroType) : Prop := AllParts L.Fine t

/-- The type is good but for its own origin. -/
def Draft (t : AvroType) : Prop := Regular t ∧ Inside L.Fine t

variable {L}

theorem good_iff : L.Good t ↔ L.Draft t ∧ (t.isNamed = true → L.origin t) := by
  rw [Good, all_parts_iff, Fine, Draft, and_right_comm]

theorem Good.draft (h : L.Good t) : L.Draft t := (good_iff.mp h).1

/-- What is not named has no origin to be admitted. -/
theorem Draft.good (h : L.Draft t) (ht : t.isNamed = false) : L.Good t :=
  good_iff.mpr ⟨h, by simp [ht]⟩

theorem Good.regular (h : L.Good t) : AllParts Regular t := h.imp fun _ hu => hu.1

theorem fine_unnamed (h : Regular t) (ht : t.isNamed = false) : L.Fine t := ⟨h, by simp [ht]⟩

theorem good_reference (name : String) : L.Good (.reference name) :=
  .leaf (fine_unnamed trivial rfl) rfl

theorem good_null : L.Good .null := .leaf (fine_unnamed trivial rfl) rfl

theorem fine_mergeable : Mergeable L.Fine where
  array _ := fine_unnamed trivial rfl
  map _ := fine_unnamed trivial rfl
  union _ hflat := fine_unnamed hflat rfl
  record level r s hr hs := ⟨regular_mergeable.record level r s hr.1 hs.1,
    fun _ => L.joinedRecord (hr.2 rfl) (hs.2 rfl)⟩
  enum d e hd he := ⟨regular_mergeable.enum d e hd.1 he.1,
    fun _ => L.mergedEnum (hd.2 rfl) (he.2 rfl)⟩

theorem Good.array (h : L.Good t) : L.Good (.array t) := AllParts.array (fine_mergeable.array t) h

theorem Good.map (h : L.Good t) : L.Good (.map t) := AllParts.map (fine_mergeable.map t) h

theorem Good.clear (h : L.Good t) : L.Good t.clearDependencies := by
  refine AllParts.clear (fun u hu => ⟨regular_clear u hu.1, fun hn => ?_⟩) h
  refine L.alike (hu.2 ?_) (clear_clear u)
  cases u <;> simp_all [clearDependencies, isNamed]

/-- A type of keywords that holds no definitions is good. -/
theorem good_of_unnamed (h : AllParts Regular t) (hn : ∀ u ∈ t.parts, u.isNamed = false) : L.Good t :=
  fun u hu => fine_unnamed (h u hu) (hn u hu)

theorem good_generic : L.Good .generic := by
  refine good_of_unnamed generic_regular ?_
  simp [generic, withContainers, simpleTypes, parts, branchParts, isNamed]

theorem good_or_generic {t : Option AvroType} (h : ∀ u ∈ t, L.Good u) : L.Good (orGeneric t) := by
  cases t with
  | none => exact good_generic
  | some u => exact h u rfl

theorem good_useful {t : Option AvroType} (h : ∀ u ∈ t, L.Good u) : L.Good (usefulOrGeneric t) :=
  useful_or_generic good_generic h

theorem good_nullable (h : L.Good t) : L.Good (makeNullable t) := by
  unfold makeNullable
  split
  · exact h
  · next hnull =>
    rw [Bool.not_eq_true] at hnull
    split
    · next branches =>
      have others : ∀ b ∈ branches, b.isNull = false := by simpa [containsNull] using hnull
      have flat : Flat branches := h.top.1
      refine AllParts.union (fine_mergeable.union _ (flat.cons_null others)) ?_
      exact List.forall_mem_cons.mpr ⟨good_null, inside_union.mp h.inside⟩
    · next hunion =>
      have simple : t.isUnion = false := by
        cases t with
        | union branches => exact absurd rfl (hunion branches)
        | _ => rfl
      have other : ∀ b ∈ [t], b.isNull = false := by
        rw [List.forall_mem_singleton]
        cases t with
        | union branches => exact absurd rfl (hunion branches)
        | _ => exact hnull
      refine AllParts.union (fine_mergeable.union _ ((flat_single simple).cons_null other)) ?_
      rw [List.forall_mem_cons, List.forall_mem_singleton]
      exact ⟨good_null, h⟩

end Types

section States

variable {cfg : Setting} (L : Law cfg)

/-- The law holds of a state. -/
structure Holds (s : State) : Prop where
  imports : L.imports s.imports
  documents : L.documents s.documents
  registry : ∀ t ∈ s.registry, L.Good t
  inline : ∀ key t, (key, some (.inline t)) ∈ s.imports → L.Good t

variable {L} {s : State}

theorem Holds.held (h : L.Holds s) (d : AvroType) (hd : Held s d) : L.origin d := by
  obtain ⟨hn, ⟨t, ht, hm⟩ | ⟨key, t, ht, hm⟩⟩ := hd
  · exact (h.registry t ht d hm).2 hn
  · exact (h.inline key t ht d hm).2 hn

/-- Warnings and the records under construction do not count. -/
theorem Holds.aside (h : L.Holds s) (ws : List Warning) (frames : Frames) :
    L.Holds { s with warnings := ws, frames } :=
  ⟨h.imports, h.documents, h.registry, h.inline⟩

/-- What a free key stands for may change. -/
theorem Holds.write (h : L.Holds s) {key : String} (hk : L.free key) {i : Option Imported}
    (hi : ∀ t, i = some (.inline t) → L.Good t) : L.Holds { s with imports := (key, i) :: s.imports } where
  imports := L.write h.imports hk i
  documents := h.documents
  registry := h.registry
  inline key' t ht := by
    rcases List.mem_cons.mp ht with ht | ht
    · exact hi t (Prod.mk.inj ht).2.symm
    · exact h.inline key' t ht

theorem good_gather (dependencies : List String) {t : AvroType} (h : L.Good t) :
    L.Good (Registry.gather dependencies t) := by
  have alike := clear_gather dependencies t
  cases t with
  | record r =>
    refine AllParts.record ⟨⟨h.top.1.1, clear_legal h.top.1.2⟩, fun _ => ?_⟩ ?_
    · exact L.alike (h.top.2 rfl) alike
    · dsimp only
      rw [clear_fields_eq]
      refine List.forall_mem_map.mpr fun f hf => ?_
      exact Good.clear (inside_record.mp h.inside f hf)
  | _ => exact h

theorem Holds.register (h : L.Holds s) {t : AvroType} (ht : L.Good t) (dependencies : List String) :
    L.Holds { s with registry := (Registry.register s.registry t dependencies).2 } where
  imports := h.imports
  documents := h.documents
  registry := by
    rcases Registry.register_eq s.registry t dependencies with he | he
    · dsimp only
      rw [he]
      exact h.registry
    · dsimp only
      rw [he, List.forall_mem_append, List.forall_mem_singleton]
      exact ⟨h.registry, good_gather dependencies ht⟩
  inline := h.inline

end States

end Law

/-- However the computation ends, the law holds; a value that it yields is as it is said. -/
def Lawful {cfg : Setting} (L : Law cfg) {α : Type} (x : Run α) (post : α → Prop) : Prop :=
  ∀ s, L.Holds s → L.Holds (x.run.run s).2 ∧ ∀ a, (x.run.run s).1 = .ok a → post a

/-- As `Lawful`, whatever names were gathered before. -/
def BuildsLawful {cfg : Setting} (L : Law cfg) {α : Type} (x : Build α) (post : α → Prop) : Prop :=
  ∀ names, Lawful L (x.run names) fun r => post r.1

section Lawful

variable {cfg : Setting} {L : Law cfg} {α β : Type} {x : Run α} {post : α → Prop}

theorem Lawful.pure {a : α} (h : post a) : Lawful L (pure a) post := by
  intro s hs
  refine ⟨hs, fun b hb => ?_⟩
  obtain rfl := Except.ok.inj hb
  exact h

theorem Lawful.fail {f : Failure} : Lawful L (Run.fail f : Run α) post := by
  intro s hs
  refine ⟨hs, fun a ha => ?_⟩
  have : Except.error f = Except.ok a := ha
  simp at this

theorem Lawful.bind {f : α → Run β} {post' : β → Prop} (hx : Lawful L x post)
    (hf : ∀ a, post a → Lawful L (f a) post') : Lawful L (x >>= f) post' := by
  intro s hs
  obtain ⟨hs₁, hpost⟩ := hx s hs
  rw [Run.run_bind]
  rcases h : x.run.run s with ⟨r, s₁⟩
  rw [h] at hs₁ hpost
  cases r with
  | error e => exact ⟨hs₁, by simp⟩
  | ok a => exact hf a (hpost a rfl) s₁ hs₁

theorem Lawful.imp {post' : α → Prop} (h : Lawful L x post) (hp : ∀ a, post a → post' a) :
    Lawful L x post' :=
  fun s hs => ⟨(h s hs).1, fun a ha => hp a ((h s hs).2 a ha)⟩

/-- A value that is yielded is one of the computation, from a state of which the law holds. -/
theorem Lawful.seen (h : Lawful L x post) :
    Lawful L x fun a => post a ∧ ∃ s s', L.Holds s ∧ x.Yields s a s' := by
  intro s hs
  refine ⟨(h s hs).1, fun a ha => ⟨(h s hs).2 a ha, s, (x.run.run s).2, hs, ?_⟩⟩
  exact Prod.ext ha rfl

/-- A step that only changes the state, into one of which the law holds. -/
theorem Lawful.modify {g : State → State} (h : ∀ s, L.Holds s → L.Holds (g s)) :
    Lawful L (modify g : Run PUnit) fun _ => True :=
  fun s hs => ⟨h s hs, fun _ _ => trivial⟩

theorem Lawful.get : Lawful L (get : Run State) L.Holds := by
  intro s hs
  refine ⟨hs, fun t ht => ?_⟩
  obtain rfl := Except.ok.inj ht
  exact hs

theorem Lawful.warn (w : Warning) : Lawful L (Run.warn w) fun _ => True :=
  .modify fun _ hs => hs.aside _ _

theorem Lawful.warnAll (ws : List Warning) : Lawful L (Run.warnAll ws) fun _ => True :=
  .modify fun _ hs => hs.aside _ _

theorem Lawful.remember {key : String} (hk : L.free key) {i : Imported}
    (hi : ∀ t, i = .inline t → L.Good t) : Lawful L (Run.remember key i) fun _ => True :=
  .modify fun _ hs => hs.write hk fun t ht => hi t (Option.some.inj ht)

theorem Lawful.forget {key : String} (hk : L.free key) : Lawful L (Run.forget key) fun _ => True :=
  .modify fun _ hs => hs.write hk (by simp)

theorem Lawful.register {t : AvroType} (ht : L.Good t) (names : List String) :
    Lawful L (Run.register t names) fun _ => True :=
  fun _ hs => ⟨hs.register ht names, fun _ _ => trivial⟩

/-- What is known of a key: a shared type is good, and without a name the key is free. -/
def Law.Known (L : Law cfg) (key : String) (i : Option Imported) : Prop :=
  (∀ t, i = some (.inline t) → L.Good t) ∧ ((∀ name, i ≠ some (.named name)) → L.free key)

theorem Lawful.imported (key : String) : Lawful L (Run.imported? key) (L.Known key) := by
  intro s hs
  refine ⟨hs, fun i hi => ?_⟩
  obtain rfl : Imports.get? s.imports key = i := Except.ok.inj hi
  refine ⟨fun t ht => ?_, L.unknown hs.imports⟩
  obtain ⟨before, after, hsplit, -⟩ := List.lookup_eq_some_iff.mp (Option.join_eq_some_iff.mp ht)
  exact hs.inline key t (by simp [hsplit])

theorem Lawful.within {f : Frame} (hx : Lawful L x post) : Lawful L (Run.within f x) post := by
  intro s hs
  obtain ⟨hs₁, hpost⟩ := hx _ (hs.aside s.warnings (f :: s.frames))
  exact ⟨hs₁.aside _ _, hpost⟩

end Lawful

section BuildsLawful

variable {cfg : Setting} {L : Law cfg} {α β : Type} {x : Build α} {post : α → Prop}

theorem BuildsLawful.pure {a : α} (h : post a) : BuildsLawful L (pure a) post :=
  fun _ => Lawful.pure h

theorem BuildsLawful.bind {f : α → Build β} {post' : β → Prop} (hx : BuildsLawful L x post)
    (hf : ∀ a, post a → BuildsLawful L (f a) post') : BuildsLawful L (x >>= f) post' := by
  intro names
  rw [StateT.run_bind]
  exact (hx names).bind fun r hr => hf r.1 hr r.2

theorem BuildsLawful.imp {post' : α → Prop} (h : BuildsLawful L x post)
    (hp : ∀ a, post a → post' a) : BuildsLawful L x post' :=
  fun names => (h names).imp fun r => hp r.1

theorem BuildsLawful.lift {x : Run α} (h : Lawful L x post) : BuildsLawful L (liftM x) post :=
  fun names => Lawful.bind (f := fun a => Pure.pure (a, names)) h fun _ ha => Lawful.pure ha

theorem Lawful.apart (h : BuildsLawful L x post) : Lawful L (Build.apart x) fun r => post r.1 := h []

/-- The names that are gathered do not count. -/
theorem BuildsLawful.gather (g : List String → List String) :
    BuildsLawful L (modify g : Build PUnit) fun _ => True :=
  fun names => Lawful.pure (a := (PUnit.unit, g names)) trivial

theorem BuildsLawful.getThe : BuildsLawful L (getThe State : Build State) L.Holds :=
  .lift .get

end BuildsLawful

end AvroDerive.Convert
