import AvroDerive.Proofs.CallStep
import AvroDerive.Proofs.GrowingRun
import AvroDerive.Proofs.PlaceName
import AvroDerive.Proofs.UnionBranch

/-! # Conversions give tidy types

If the type of a node is a union, its branches are flat and different. A reference may stand for a type
that is remembered, so this needs that the remembered types are tidy as well, which no step of a
conversion changes. -/
namespace AvroDerive

open AvroType

/-- The types that are remembered without a name are tidy. -/
def State.Tidy (s : State) : Prop := ∀ key t, (key, some (.inline t)) ∈ s.imports → t.Tidy

namespace Convert

open Json Schema

/-- The nodes are converted one after another. -/
def convertAll (node : NodeConverter) (spots : List Spot) : Build (List (Option AvroType)) :=
  spots.mapM fun p => node p.schema p.scope

/-- The types that say something. -/
def useful (ts : List (Option AvroType)) : List AvroType :=
  ts.filterMap fun t => t.filter (!·.isEmpty)

/-- What several alternatives come to. -/
def united : List AvroType → Option AvroType
  | [] => none
  | [t] => some t
  | types => some (.union (flatten types))

section Alternatives

variable (node : NodeConverter) (scope : Scope)

theorem useful_cons (t : Option AvroType) (ts : List (Option AvroType)) :
    useful (t :: ts) = (t.filter (!·.isEmpty)).toList ++ useful ts := by
  rw [useful, useful, List.filterMap_cons]
  cases t.filter (!·.isEmpty) <;> rfl

theorem mem_useful {u : AvroType} {ts : List (Option AvroType)} :
    u ∈ useful ts ↔ some u ∈ ts ∧ u.isEmpty = false := by
  simp only [useful, List.mem_filterMap, Option.filter_eq_some_iff]
  constructor
  · rintro ⟨_, hu, rfl, he⟩
    exact ⟨hu, by simpa using he⟩
  · rintro ⟨hu, he⟩
    exact ⟨_, hu, rfl, by simpa using he⟩

theorem convert_all_cons (p : Spot) (spots : List Spot) : convertAll node (p :: spots) = (do
    let t ← node p.schema p.scope
    let ts ← convertAll node spots
    return t :: ts) :=
  List.mapM_cons

/-- The types of alternatives are the useful ones of those that their nodes get in turn. -/
theorem alternative_types_eq (n : Nat) (candidates : List Json) :
    alternativeTypes node scope n candidates =
      useful <$> convertAll node (alternativeSpots scope n candidates) := by
  induction candidates generalizing n with
  | nil => rfl
  | cons candidate candidates ih =>
    rw [alternativeTypes, alternativeSpots, convert_all_cons, ih]
    simp [useful_cons]

/-- Several candidates are converted in turn and united. -/
theorem candidates_type_several (keepEmpty : Bool) {candidates : List Json}
    (several : ∀ candidate, candidates ≠ [candidate]) :
    candidatesType node keepEmpty scope candidates =
      (united ∘ useful) <$> convertAll node (candidateSpots scope candidates) := by
  rw [candidateSpots.eq_2 _ _ several]
  have unite : ∀ types : List AvroType, (match types with
      | [] => return none
      | [t] => return some t
      | types => return some (.union (flatten types)) : Build (Option AvroType)) =
        pure (united types) := by
    intro types
    unfold united
    split <;> rfl
  unfold candidatesType
  split
  · next candidate => exact absurd rfl (several candidate)
  · rw [alternative_types_eq]
    simp only [map_eq_pure_bind, bind_assoc, pure_bind, Function.comp_apply]
    exact bind_congr fun ts => unite (useful ts)

end Alternatives

section Tidy

variable {cfg : Setting} {node : NodeConverter} {scope : Scope} {o : Object}
  {names names' : List String} {s s' : State} {t : AvroType}

theorem tidy_generic : generic.Tidy :=
  have generic : Alternatives "" (withContainers (withContainers simpleTypes)) := generic_alternatives
  tidy_union generic.flat generic.distinct

theorem tidy_primitive (field : String) (format : Option String) (values : Option (List Json))
    (type : Json) : (primitiveType field format values type).1.Tidy := by
  obtain ⟨ts, hts, he⟩ := primitive_type_alternatives field format values type
  rw [he]
  exact tidy_unwrap hts.flat hts.distinct

theorem primitive_yields_tidy {format : Option String} {values : Option (List Json)} {type : Json}
    (h : (primitive scope format values type).Yields names s t names' s') : t.Tidy := by
  obtain ⟨rfl, -, -⟩ := primitive_yields h
  exact tidy_primitive _ _ _ _

theorem tidy_constant (scope : Scope) (constant : Json) : (constantType scope constant).Tidy := by
  apply tidy_of_simple
  cases constant with
  | num n => cases n <;> rfl
  | _ => rfl

theorem tidy_plain {p : Spot} (h : p.plain? = some t) : t.Tidy := by
  rcases p.is_plain h with ⟨constant, rfl⟩ | ⟨format, values, type, rfl⟩
  · exact tidy_constant _ _
  · exact tidy_primitive _ _ _ _

theorem tidy_of_named (h : t.isNamed = true) : t.Tidy :=
  tidy_of_simple (by cases t <;> simp_all [isNamed, isUnion])

theorem tidy_name_type (o : Object) (scope : Scope) (h : t.Tidy) : (nameType o scope t).Tidy := by
  cases hn : t.isNamed with
  | false => rwa [name_type_unnamed o hn]
  | true =>
    obtain ⟨name, hname⟩ := name_of_named hn
    obtain ⟨-, named⟩ := name_type_parts o scope hn
    rw [hname] at named
    split at named
    · exact tidy_of_named (named_of_name named)
    · exact tidy_of_named (named_of_name named)

theorem united_tidy {types : List AvroType} (h : ∀ t ∈ types, t.Tidy) (ht : united types = some t) :
    t.Tidy := by
  unfold united at ht
  split at ht
  · simp at ht
  · next u =>
    obtain rfl := Option.some.inj ht
    exact h u (List.mem_singleton_self u)
  · obtain rfl := Option.some.inj ht
    exact tidy_flatten _

/-- What is remembered is kept, so if it is tidy in the end it was tidy before. -/
theorem Extends.tidy (he : Extends s s') (h : s'.Tidy) : s.Tidy :=
  fun key t hm => h key t (he.imports.subset hm)

theorem Growing.yields {α : Type} {x : Run α} {a : α} (hx : Growing x) (h : x.Yields s a s') :
    Grows s s' := by
  have grows := hx s
  rwa [show x.run.run s = (.ok a, s') from h] at grows

/-- Whatever node it is given, the converter only adds to the state. -/
def GrowingNode (node : NodeConverter) : Prop :=
  ∀ schema scope names, Growing ((node schema scope).run names)

/-- If all types that are remembered in the end are tidy, the type that the converter gives is. -/
def GivesTidy (node : NodeConverter) : Prop :=
  ∀ {schema scope names s t names' s'}, (node schema scope).Yields names s (some t) names' s' →
    s'.Tidy → t.Tidy

theorem convert_all_growing (hgrow : GrowingNode node) (spots : List Spot) (names : List String) :
    Growing ((convertAll node spots).run names) := by
  induction spots generalizing names with
  | nil => exact .of_neutral (Build.Neutral.pure [] names)
  | cons p spots ih =>
    rw [convert_all_cons, StateT.run_bind]
    refine .bind (hgrow _ _ _) fun r => ?_
    rw [StateT.run_bind]
    exact .bind (ih _) fun r => .of_neutral (Build.Neutral.pure _ _)

theorem convert_all_tidy (hgrow : GrowingNode node) (hnode : GivesTidy node) {spots : List Spot}
    {ts : List (Option AvroType)} (h : (convertAll node spots).Yields names s ts names' s')
    (hs : s'.Tidy) : ∀ t, some t ∈ ts → t.Tidy := by
  induction spots generalizing ts names s with
  | nil =>
    obtain ⟨rfl, -, -⟩ := Build.yields_pure.mp h
    simp
  | cons p spots ih =>
    rw [convert_all_cons] at h
    obtain ⟨t, names₁, s₁, hfirst, h⟩ := Build.yields_bind.mp h
    obtain ⟨rest, names₂, s₂, hrest, h⟩ := Build.yields_bind.mp h
    obtain ⟨rfl, rfl, rfl⟩ := Build.yields_pure.mp h
    have later : Grows s₁ s' := (convert_all_growing hgrow spots names₁).yields hrest
    intro u hu
    rcases List.mem_cons.mp hu with rfl | hu
    · exact hnode hfirst (later.toExtends.tidy hs)
    · exact ih hrest u hu

theorem candidates_type_tidy (hgrow : GrowingNode node) (hnode : GivesTidy node) {keepEmpty : Bool}
    {candidates : List Json}
    (h : (candidatesType node keepEmpty scope candidates).Yields names s (some t) names' s')
    (hs : s'.Tidy) : t.Tidy := by
  by_cases hsingle : ∃ candidate, candidates = [candidate]
  · obtain ⟨candidate, rfl⟩ := hsingle
    obtain ⟨u, names₁, s₁, hu, hp⟩ := Build.yields_bind.mp h
    obtain ⟨ht, -, rfl⟩ := Build.yields_pure.mp hp
    split at ht
    · subst ht
      exact hnode hu hs
    · obtain rfl := Option.some.inj ht
      exact useful_or_generic tidy_generic fun v hv => hnode (hv ▸ hu) hs
  · rw [candidates_type_several _ _ _ (not_exists.mp hsingle), map_eq_pure_bind] at h
    obtain ⟨ts, names₁, s₁, hts, hp⟩ := Build.yields_bind.mp h
    obtain ⟨ht, -, rfl⟩ := Build.yields_pure.mp hp
    have tidy := convert_all_tidy hgrow hnode hts hs
    exact united_tidy (fun u hu => tidy u (mem_useful.mp hu).1) ht.symm

theorem sole_or_united_tidy (hgrow : GrowingNode node) (hnode : GivesTidy node)
    {candidates : List Json}
    (h : (soleOrUnited node scope candidates).Yields names s (some t) names' s') (hs : s'.Tidy) :
    t.Tidy := by
  unfold soleOrUnited at h
  split at h
  · exact hnode h hs
  · exact candidates_type_tidy hgrow hnode h hs

theorem listed_type_tidy (hgrow : GrowingNode node) (hnode : GivesTidy node) {types : List Json}
    (h : (listedType node types o scope).Yields names s (some t) names' s') (hs : s'.Tidy) :
    t.Tidy := by
  obtain ⟨-, u, ⟨⟩, hu⟩ | ⟨-, x, hx, ht⟩ := listed_type_cases h
  · exact primitive_yields_tidy hu
  · obtain rfl | ht := ht
    · exact sole_or_united_tidy hgrow hnode hx hs
    · obtain ⟨u, -, rfl⟩ := Option.map_eq_some_iff.mp ht.symm
      exact tidy_union_of _

theorem keyword_type_tidy (hgrow : GrowingNode node) (hnode : GivesTidy node)
    (h : (keywordType node o scope).Yields names s (some t) names' s') (hs : s'.Tidy) : t.Tidy := by
  obtain ⟨k, hk⟩ := said o
  rw [hk.type_eq] at h
  cases k with
  | constant value =>
    obtain ⟨⟨⟩, -, -⟩ := Build.yields_pure.mp h
    exact tidy_constant scope value
  | listed types => exact listed_type_tidy hgrow hnode h hs
  | array =>
    obtain ⟨u, ⟨⟩, hu⟩ := Build.yields_some.mp h
    have array := array_type_array hu
    refine tidy_of_simple ?_
    cases t <;> simp_all [isArray, isUnion]
  | object => exact tidy_of_named (inline_record_named h)
  | named type =>
    obtain ⟨u, ⟨⟩, hu⟩ := Build.yields_some.mp h
    exact primitive_yields_tidy hu
  | silent => simp [Keyword.type] at h

/-- A reference gets the type that its import settles for. -/
theorem Settles.tidy {key expected : String} {x : Option AvroType}
    (h : Settles key expected x t s s') (hx : ∀ u, x = some u → u.Tidy) : t.Tidy := by
  cases h with
  | registered => exact tidy_of_simple rfl
  | standIn => exact hx t rfl
  | passed => exact tidy_of_simple rfl
  | inline => exact hx t rfl
  | empty => exact tidy_generic

theorem reuse_imported_tidy {i : Imported} {key : String}
    (hi : Imports.get? s.imports key = some i)
    (h : (reuseImported i).Yields names s t names' s') (hs : s'.Tidy) : t.Tidy := by
  cases i with
  | named name =>
    obtain ⟨_, names₁, s₁, -, hp⟩ := Build.yields_bind.mp h
    obtain ⟨rfl, -, -⟩ := Build.yields_pure.mp hp
    exact tidy_of_simple rfl
  | inline u =>
    obtain ⟨rfl, -, rfl⟩ := Build.yields_pure.mp h
    exact hs key t (mem_of_imported hi)

theorem import_fragment_tidy (hnode : GivesTidy node) {key reference : String} {located : Located}
    (hkey : key = Location.resolve scope.baseUri reference)
    (h : (importFragment cfg node key reference located scope).Yields names s t names' s')
    (hs : s'.Tidy) : t.Tidy := by
  subst hkey
  have run := import_fragment_run cfg node ⟨reference, scope, located⟩ names s
  obtain ⟨⟨x, more⟩, s₁, hfragment, hsettle⟩ := Run.yields_bind.mp (run.symm.trans h)
  have settles := settle_settles hsettle
  refine settles.tidy fun u hu => ?_
  dsimp only at hu
  subst hu
  exact hnode hfragment (settles.extends.tidy hs)

theorem reference_type_tidy (hnode : GivesTidy node)
    (h : (referenceType cfg node o scope).Yields names s (some t) names' s') (hs : s'.Tidy) :
    t.Tidy := by
  unfold referenceType at h
  split at h
  · obtain ⟨_, names₁, s₁, -, hp⟩ := Build.yields_bind.mp h
    obtain ⟨ht, -, -⟩ := Build.yields_pure.mp hp
    obtain rfl := Option.some.inj ht
    exact tidy_generic
  · obtain ⟨i, names₁, s₁, hlift, hrest⟩ := Build.yields_bind.mp h
    obtain ⟨himported, rfl⟩ := Build.yields_lift.mp hlift
    obtain ⟨hi, rfl⟩ := Run.yields_imported.mp himported
    split at hrest
    · obtain ⟨u, names₂, s₂, hreuse, hp⟩ := Build.yields_bind.mp hrest
      obtain ⟨ht, -, rfl⟩ := Build.yields_pure.mp hp
      obtain rfl := Option.some.inj ht
      exact reuse_imported_tidy hi.symm hreuse hs
    · obtain ⟨located, names₂, s₂, -, hfound⟩ := Build.yields_bind.mp hrest
      split at hfound
      · obtain ⟨u, names₃, s₃, himport, hp⟩ := Build.yields_bind.mp hfound
        obtain ⟨ht, -, rfl⟩ := Build.yields_pure.mp hp
        obtain rfl := Option.some.inj ht
        exact import_fragment_tidy hnode rfl himport hs
      · obtain ⟨_, names₃, s₃, -, hmerged⟩ := Build.yields_bind.mp hfound
        exact hnode hmerged hs

theorem reuse_registered_tidy {u : AvroType} (hu : u.Tidy)
    (h : (reuseRegistered u).Yields names s t names' s') : t.Tidy := by
  obtain ⟨-, ⟨rfl, -⟩ | ⟨name, -, -, rfl, -⟩⟩ := reuse_registered_yields h
  · exact hu
  · exact tidy_of_simple rfl

theorem object_node_tidy (hgrow : GrowingNode node) (hnode : GivesTidy node)
    (h : (objectNode cfg node o scope).Yields names s (some t) names' s') (hs : s'.Tidy) :
    t.Tidy := by
  cases object_node_cases h with
  | composed _ _ hcandidates => exact candidates_type_tidy hgrow hnode hcandidates hs
  | referred _ _ _ href => exact reference_type_tidy hnode href hs
  | typed _ _ _ hkeyword hreuse =>
    obtain ⟨rfl, -⟩ := reuse_registered_yields hreuse
    exact reuse_registered_tidy (tidy_name_type _ _ (keyword_type_tidy hgrow hnode hkeyword hs)) hreuse

/-- A node that gets a type gets the generic one, has its type by itself, or is an object. -/
theorem node_within_cases {levels : Nat} {schema : Json}
    (h : (nodeWithin cfg levels schema scope).Yields names s (some t) names' s') :
    t = generic ∨ Spot.plain? ⟨schema, scope⟩ = some t ∨
      ∃ o fewer, schema = .obj o ∧ levels = fewer + 1 ∧
        (objectNode cfg (nodeWithin cfg fewer) o scope).Yields names s (some t) names' s' := by
  have warned : ∀ {w}, (do
      Run.warn w
      return some AvroType.generic : Build (Option AvroType)).Yields names s (some t) names' s' →
      t = generic := by
    intro w h
    obtain ⟨_, names₁, s₁, -, hp⟩ := Build.yields_bind.mp h
    exact Option.some.inj (Build.yields_pure.mp hp).1
  have alone : ∀ {type}, (do
      return some (← primitive scope none none type)).Yields names s (some t) names' s' →
      t = (primitiveType scope.localName none none type).1 := by
    intro type h
    obtain ⟨u, names₁, s₁, hu, hp⟩ := Build.yields_bind.mp h
    obtain ⟨_, names₂, s₂, -, hpure⟩ := Build.yields_bind.mp hu
    exact (Option.some.inj (Build.yields_pure.mp hp).1).trans (Build.yields_pure.mp hpure).1
  cases levels with
  | zero => exact Or.inl (warned h)
  | succ fewer =>
    rw [nodeWithin] at h
    dsimp only at h
    split at h
    · exact Or.inl (warned h)
    · cases schema with
      | bool b =>
        cases b with
        | true => exact Or.inl (Option.some.inj (Build.yields_pure.mp h).1)
        | false => exact absurd (Build.yields_pure.mp h).1 (by simp)
      | str text => exact Or.inr (Or.inl (congrArg some (alone h).symm))
      | arr items => exact Or.inr (Or.inl (congrArg some (alone h).symm))
      | obj o => exact Or.inr (Or.inr ⟨o, fewer, rfl, rfl, h⟩)
      | null => exact Or.inl (warned h)
      | num n => exact Or.inl (warned h)

theorem node_within_tidy (levels : Nat) : GivesTidy (nodeWithin cfg levels) := by
  induction levels using Nat.strong_induction_on with
  | _ levels ih =>
    intro schema scope names s t names' s' h hs
    rcases node_within_cases h with rfl | hplain | ⟨o, fewer, -, rfl, hobject⟩
    · exact tidy_generic
    · exact tidy_plain hplain
    · exact object_node_tidy (node_within_growing fewer) (ih fewer (by omega)) hobject hs

end Tidy

/-- A step leads from the first state to the second one, whatever imports are begun. -/
def Next (cfg : Setting) (s s' : State) : Prop := ∃ c is is', Step cfg c (is, s) (is', s')

/-- A converter can be in the state at some time: steps lead to it from the state that it begins in, and
the documents at hand are those that the source gives. -/
structure Underway (cfg : Setting) (s : State) : Prop where
  steps : Relation.ReflTransGen (Next cfg) {} s
  furnished : Furnished cfg s

section Underway

variable {cfg : Setting} {c : Corpus} {s : State}

/-- No step of a conversion remembers a type that is not tidy. -/
theorem Step.tidy {a b : List Import × State} (h : Step cfg c a b) (ha : a.2.Tidy) : b.2.Tidy := by
  intro key t hm
  rcases h.adds hm with hm | hadds
  · exact ha key t hm
  · cases hadds with
    | inline converted => exact node_within_tidy _ converted ha

/-- Whatever a converter remembers without a name is tidy. -/
theorem Underway.tidy (h : Underway cfg s) : s.Tidy := by
  obtain ⟨steps, -⟩ := h
  induction steps with
  | refl => simp [State.Tidy]
  | tail _ hstep ih =>
    obtain ⟨c, is, is', hstep⟩ := hstep
    exact hstep.tidy ih

theorem underway_start : Underway cfg {} := ⟨.refl, between_start.furnished⟩

/-- After any calls, also after failing ones, a converter goes on from such a state. -/
theorem reached_underway (cfg : Setting) (calls : List Call) : Underway cfg (reached cfg calls) := by
  have reaches : Between cfg (reached cfg calls) ∧
      Relation.ReflTransGen (Next cfg) {} (reached cfg calls) :=
    reached_keeps .refl fun _ _ hstep h => h.tail ⟨_, _, _, hstep⟩
  exact ⟨reaches.2, reaches.1.furnished⟩

/-- Every document, text and schema is in the corpus. -/
def Corpus.all : Corpus := ⟨fun _ _ => True, fun _ => True, fun _ _ => True⟩

theorem all_closed : Corpus.all.Closed cfg :=
  ⟨fun _ => trivial, fun _ _ _ => trivial, fun _ _ _ => trivial⟩

theorem all_schemas (schema : Json) : SchemaIn Corpus.all.written schema :=
  schema_in fun _ _ => trivial

/-- A conversion that goes from step to step leads to such a state again. -/
theorem Underway.traced {α : Type} {x : Build α} {names names' : List String} {s' : State} {a : α}
    {post : α → State → Prop} (h : Underway cfg s) (hx : BuildsTraced cfg c x names [] s post)
    (hy : x.Yields names s a names' s') : Underway cfg s' := by
  obtain ⟨furnished, done, -⟩ := hx
  have run : (x.run names).run.run s = (.ok (a, names'), s') := hy
  rw [run] at furnished done
  obtain ⟨steps, -⟩ := done _ rfl
  exact ⟨h.steps.trans (steps.lift Prod.snd fun _ _ hstep => ⟨_, _, _, hstep⟩), furnished⟩

end Underway

end Convert

end AvroDerive
