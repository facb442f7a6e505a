import AvroDerive.Proofs.BranchName
import AvroDerive.Proofs.OutputReference

/-! # Unions of alternatives

Several candidates come to nothing, to the one type that says something, or to the union of the branches
of all such types. Branches of different alternatives have different names, unless an alternative
strays. -/
namespace AvroDerive

namespace Convert

open AvroType Json Schema

section United

variable {types : List AvroType} {t : AvroType}

/-- A branch that has a name and does not define it is a reference. -/
theorem reference_of_name {b : AvroType} {name : String} (h : ¬ b.isNamed = true)
    (hname : b.fullName? = some name) : b = .reference name := by
  cases b <;> simp_all [fullName?, qualifiedName?, name?, isNamed]

theorem flatten_useful_ne_nil (h : types ≠ []) (hu : ∀ t ∈ types, t.isEmpty = false) :
    flatten types ≠ [] := by
  obtain ⟨t, ht⟩ := List.exists_mem_of_ne_nil _ h
  obtain ⟨b, hb⟩ := List.exists_mem_of_ne_nil _ (leaf_of_useful t (hu t ht))
  exact flatten_with_ne_nil (List.ne_nil_of_mem (mem_branch_leaves.mpr ⟨t, ht, hb⟩))

/-- A tidy type alone stays as it is: it is its own only branch, or the union of its branches. -/
theorem united_of_tidy (htidy : ∀ t ∈ types, t.Tidy) (h : types ≠ []) :
    (∃ t, types = [t] ∧ flatten types = [t]) ∨ united types = some (.union (flatten types)) := by
  match types with
  | [] => exact absurd rfl h
  | [t] =>
    have flattened := (htidy t (List.mem_singleton_self t)).flatten
    cases t with
    | union branches =>
      have simple := (htidy _ (List.mem_singleton_self _) branches rfl).1.simple
      rw [leaves, branch_leaves_of_simple simple] at flattened
      exact Or.inr (by rw [flattened, united])
    | _ => exact Or.inl ⟨_, rfl, flattened⟩
  | _ :: _ :: _ => exact Or.inr rfl

/-- The only branch of all types is bare if it is the only type, and a union by itself otherwise. -/
theorem united_of_single (htidy : ∀ t ∈ types, t.Tidy) (h : flatten types = [t]) :
    united types = some (if types = [t] then t else .union [t]) := by
  by_cases hone : types = [t]
  · rw [if_pos hone, hone, united]
  · have some : types ≠ [] := by
      rintro rfl
      simp [flatten, flattenWith, branchLeaves, distinct, addAll] at h
    rw [if_neg hone]
    rcases united_of_tidy htidy some with ⟨u, hu, hflat⟩ | hunion
    · rw [h] at hflat
      exact absurd (hu.trans hflat.symm) hone
    · rw [hunion, h]

/-- Several branches are a union. -/
theorem united_of_several (htidy : ∀ t ∈ types, t.Tidy) (h : types ≠ [])
    (hother : ∀ t, flatten types ≠ [t]) : united types = some (.union (flatten types)) := by
  rcases united_of_tidy htidy h with ⟨t, -, hflat⟩ | hunion
  · exact absurd hflat (hother t)
  · exact hunion

end United

/-- The branches of the union of alternatives that are converted at the nodes: several different ones,
with the names that the numbers of the alternatives give. A node that strays may bring in other names;
only then two branches have one name, and one of them defines it. -/
structure Separated (scope : Scope) (spots : List Spot) (ts : List (Option AvroType))
    (branches : List AvroType) : Prop where
  several : 2 ≤ branches.length
  different : branches.Nodup
  placed : ∀ b ∈ branches, ∀ name, b.fullName? = some name →
    (∃ n, 0 < n ∧ NamedAt (scope.alternative n) name) ∨ BroughtIn spots ts b
  namesakes : ∀ b ∈ branches, ∀ c ∈ branches, ∀ name, b ≠ c →
    b.fullName? = some name → c.fullName? = some name →
    (b.isNamed = true ∨ c.isNamed = true) ∧ (BroughtIn spots ts b ∨ BroughtIn spots ts c)

theorem Numbered.separated {scope : Scope} {spots : List Spot} {ts : List (Option AvroType)}
    (h : Numbered scope 0 spots ts) (hseveral : 2 ≤ (flatten (useful ts)).length) :
    Separated scope spots ts (flatten (useful ts)) where
  several := hseveral
  different := flatten_with_nodup _
  placed b hb name hname := h.named b (leaf_of_flatten hb (by simp [hname])) name hname
  namesakes b hb c hc name hne hname hname' := by
    refine ⟨?_, ?_⟩
    · by_contra hneither
      obtain ⟨hb, hc⟩ := not_or.mp hneither
      exact hne ((reference_of_name hb hname).trans (reference_of_name hc hname').symm)
    · exact (h.apart b (leaf_of_flatten hb (by simp [hname])) c
        (leaf_of_flatten hc (by simp [hname'])) name hname hname').resolve_left hne

section Candidates

variable {cfg : Setting} {levels : Nat} {keepEmpty : Bool} {scope : Scope} {candidates : List Json}
  {names names' : List String} {s s' : State} {result : Option AvroType}

/-- Several candidates are converted one after another. If no type says something there is none; if all
that do have one branch among them it is that one, in a union by itself if several of them have it; and
otherwise the union of all branches. -/
theorem alternatives_united (several : 2 ≤ candidates.length) (hs : Underway cfg s)
    (h : (candidatesType (nodeWithin cfg levels) keepEmpty scope candidates).Yields names s result
      names' s') :
    ∃ ts, (convertAll (nodeWithin cfg levels) (alternativeSpots scope 0 candidates)).Yields names s ts
        names' s' ∧
      (useful ts = [] → result = none) ∧
      (∀ t, flatten (useful ts) = [t] → t.isUnion = false ∧
        result = some (if useful ts = [t] then t else .union [t])) ∧
      (useful ts ≠ [] → (∀ t, flatten (useful ts) ≠ [t]) →
        result = some (.union (flatten (useful ts))) ∧
        Separated scope (alternativeSpots scope 0 candidates) ts (flatten (useful ts))) := by
  have two : ∀ candidate, candidates ≠ [candidate] := by
    rintro candidate rfl
    simp at several
  have tidy : s'.Tidy := (hs.traced (candidates_type_traced (node_within_traced all_closed levels)
    keepEmpty (fun candidate _ => all_schemas candidate) hs.furnished trivial) h).tidy
  rw [candidates_type_several _ _ _ two, candidateSpots.eq_2 _ _ two, map_eq_pure_bind] at h
  obtain ⟨ts, names₁, s₁, hts, hp⟩ := Build.yields_bind.mp h
  obtain ⟨rfl, rfl, rfl⟩ := Build.yields_pure.mp hp
  have numbered := alternatives_numbered (node_within_discernible levels) hts
  have types : ∀ t ∈ useful ts, t.Tidy := fun t ht =>
    convert_all_tidy (node_within_growing levels) (node_within_tidy levels) hts tidy t
      (mem_useful.mp ht).1
  refine ⟨ts, hts, fun hnone => ?_, fun t hone => ⟨?_, united_of_single types hone⟩,
    fun hsome hother => ⟨united_of_several types hsome hother, numbered.separated ?_⟩⟩
  · rw [Function.comp_apply, hnone, united]
  · have simple : ∀ u ∈ flatten (useful ts), u.isUnion = false := (flat_flatten_with _).simple
    exact simple t (hone ▸ List.mem_singleton_self t)
  · have there := List.length_pos_of_ne_nil
      (flatten_useful_ne_nil hsome fun t ht => (mem_useful.mp ht).2)
    have more : (flatten (useful ts)).length ≠ 1 := fun hone =>
      (List.length_eq_one_iff.mp hone).elim hother
    omega

end Candidates

section Examples

/-- The field `k` of the record `D`. -/
def choiceScope : Scope := (Scope.root "D" "ns" (objectSchema []) "").forField "k"

def textSchema : Json := .obj [("type", .str "string")]

/-- One of two objects, or a text. -/
def choices : List Json :=
  [objectSchema [("a", textSchema)], objectSchema [("b", textSchema)], textSchema]

theorem choices_united : 2 ≤ choices.length ∧ Underway offline {} ∧ ∃ branches names s ts,
    (candidatesType (node offline) false choiceScope choices).Yields [] {} (some (.union branches))
      names s ∧
    branches.map fullName? = [some "ns.D_types.k_1", some "ns.D_types.k_2", none] ∧
    Separated choiceScope (alternativeSpots choiceScope 0 choices) ts branches := by
  obtain ⟨branches, names, s, run, hnames⟩ : ∃ branches names s,
      (candidatesType (node offline) false choiceScope choices).Yields [] {} (some (.union branches))
        names s ∧
      branches.map fullName? = [some "ns.D_types.k_1", some "ns.D_types.k_2", none] :=
    ⟨_, _, _, rfl, by decide +kernel⟩
  have three := congrArg List.length hnames
  obtain ⟨ts, -, hnone, hsingle, hseveral⟩ := alternatives_united (by decide) underway_start run
  have some : useful ts ≠ [] := fun h => nomatch hnone h
  have other : ∀ t, flatten (useful ts) ≠ [t] := by
    intro t ht
    obtain ⟨simple, ht⟩ := hsingle t ht
    split at ht
    · obtain rfl := Option.some.inj ht
      simp [isUnion] at simple
    · obtain rfl := union.inj (Option.some.inj ht)
      simp at three
  obtain ⟨hbranches, separated⟩ := hseveral some other
  obtain rfl := union.inj (Option.some.inj hbranches)
  exact ⟨by decide, underway_start, _, names, s, ts, run, hnames, separated⟩

/-- References to an object, with properties of their own beside them. -/
def extensions : List Json := ["y", "z"].map fun name =>
  .obj [("$ref", .str "#"), ("properties", .obj [(name, textSchema)])]

/-- Two texts are no text but a union of one branch, and two references that are not bare come to
different records of one name. -/
theorem texts_wrapped_extensions_namesakes :
    ((convertAll (node offline) (alternativeSpots choiceScope 0 [textSchema, textSchema])).Yields [] {}
        [some (.primitive "string"), some (.primitive "string")] [] {} ∧
      flatten (useful [some (.primitive "string"), some (.primitive "string")]) =
        [.primitive "string"] ∧
      (candidatesType (node offline) false choiceScope [textSchema, textSchema]).Yields [] {}
        (some (.union [.primitive "string"])) [] {}) ∧
    ∃ first second names s, first ≠ second ∧ first.fullName? = some "ns.D" ∧
      second.fullName? = some "ns.D" ∧
      (candidatesType (node offline) false (Scope.root "D" "ns" (objectSchema []) "")
        extensions).Yields [] {} (some (.union [first, second])) names s :=
  ⟨⟨rfl, by decide +kernel, rfl⟩, _, _, _, _, by decide +kernel, by decide +kernel, by decide +kernel,
    rfl⟩

end Examples

end Convert

end AvroDerive
