import AvroDerive.Proofs.TidyConversion

/-! # Names of branches

A node may stand for alternatives, which are numbered. The branches that come from different numbers
have different names, unless an alternative refers elsewhere, so that it has no number, or has its type
from a `type` keyword that gives the names of types or several types of one name. -/
namespace AvroDerive

namespace Name

section Numbers

variable {text name : String} {n m : Nat}

/-- The characters of names that continue a numbered text: the text, the number, and either nothing or
more after an underscore. -/
theorem numbered_chars (h : Continues (ofText (text ++ "_" ++ toString n)) name) : ∃ rest,
    name.toList = ofChars ((text ++ "_").toList.map sanitizeChar) ++ (Nat.toDigits 10 n ++ rest) ∧
      rest.takeWhile (· ≠ '_') = [] := by
  have digits : (Nat.toDigits 10 n).map sanitizeChar = Nat.toDigits 10 n := by
    refine (List.map_congr_left fun c hc => ?_).trans (List.map_id _)
    have digit := Nat.isDigit_of_mem_toDigits (by decide) (by decide) hc
    simp [sanitizeChar, isPart, Char.isAlphanum, digit]
  have chars : ∀ head more : String, head ≠ "" → (ofText (head ++ toString n ++ more)).toList =
      ofChars (head.toList.map sanitizeChar) ++
        (Nat.toDigits 10 n ++ more.toList.map sanitizeChar) := by
    intro head more hhead
    simp only [ofText, String.toList_ofList, String.toList_append, List.map_append,
      List.append_assoc, Nat.toString_eq_ofList_toDigits, digits]
    cases hc : head.toList with
    | nil => exact absurd (String.toList_eq_nil_iff.mp hc) hhead
    | cons c rest =>
      simp only [List.map_cons, List.cons_append, ofChars]
      split <;> rfl
  have numbered : text ++ "_" ≠ "" := by simp [String.append_eq_empty_iff]
  rcases h with rfl | ⟨more, rfl⟩
  · refine ⟨[], ?_, rfl⟩
    rw [ofText_of_isLegal (isLegal_ofText _)]
    simpa using chars (text ++ "_") "" numbered
  · refine ⟨'_' :: more.toList.map sanitizeChar, ?_, by simp⟩
    have there : text ++ "_" ++ toString n ≠ "" := by simp [String.append_eq_empty_iff]
    rw [String.append_assoc, of_text_append there, chars _ _ numbered]
    simp [show sanitizeChar '_' = '_' by decide]

/-- Names that continue texts with different numbers are different. -/
theorem Continues.number (h : Continues (ofText (text ++ "_" ++ toString n)) name)
    (h' : Continues (ofText (text ++ "_" ++ toString m)) name) : n = m := by
  have number : ∀ {n : Nat} {rest : List Char}, rest.takeWhile (· ≠ '_') = [] →
      (Nat.toDigits 10 n ++ rest).takeWhile (· ≠ '_') = Nat.toDigits 10 n := by
    intro n rest hrest
    rw [List.takeWhile_append_of_pos, hrest, List.append_nil]
    intro c hc
    rw [decide_eq_true_iff]
    rintro rfl
    exact Nat.underscore_not_in_toDigits hc
  obtain ⟨rest, hchars, hrest⟩ := numbered_chars h
  obtain ⟨rest', hchars', hrest'⟩ := numbered_chars h'
  have same := List.append_cancel_left (hchars.symm.trans hchars')
  have digits : Nat.toDigits 10 n = Nat.toDigits 10 m := by
    rw [← number hrest, same, number hrest']
  calc
    n = Nat.ofDigitChars 10 (Nat.toDigits 10 n) 0 := Nat.ofDigitChars_ten_toDigits.symm
    _ = Nat.ofDigitChars 10 (Nat.toDigits 10 m) 0 := by rw [digits]
    _ = m := Nat.ofDigitChars_ten_toDigits

end Numbers

end Name

namespace Convert

open AvroType Json Schema

/-- The name is one for a type that is made at the scope. -/
def NamedAt (scope : Scope) (name : String) : Prop :=
  ∃ ns bare, name = qualify ns bare ∧ (∀ n, ns = some n → n = scope.typeNs ∨ n = scope.beneath) ∧
    Name.Continues scope.localName bare

namespace Spot

/-- The nodes that a node stands for: the candidates of its composition or of its list of types. -/
def alternatives (p : Spot) : List Spot :=
  match p.schema with
  | .obj o =>
    if hasComposition (unconditional o) then
      candidateSpots p.scope (expand p.scope.document (unconditional o)).1
    else
      match Object.get? (plainObject o) "const", Object.get? (plainObject o) "type" with
      | none, some (.arr types) =>
        if types.any isStructured then
          candidateSpots p.scope (listedCandidates types (plainObject o))
        else []
      | _, _ => []
  | _ => []

/-- The types of the node may have names of other places than its own: it refers elsewhere, a value of
its `type` keyword is the name of a type or stands for several types of one name, or one of its
alternatives is such a node. -/
inductive Strays : Spot → Prop
  | refers {p} : refersElsewhere p.schema = true → Strays p
  | typeName {p t name} : p.plain? = some t → .reference name ∈ t.leaves → Strays p
  | namesakes {p t b c name} : p.plain? = some t → b ∈ t.leaves → c ∈ t.leaves → b ≠ c →
    b.fullName? = some name → c.fullName? = some name → Strays p
  | alternative {p q} : q ∈ p.alternatives → Strays q → Strays p

end Spot

/-- The branches that have a name have one of the place, and different branches different ones. -/
structure Discernible (scope : Scope) (ts : List AvroType) : Prop where
  named : ∀ b ∈ ts, ∀ name, b.fullName? = some name → NamedAt scope name
  apart : ∀ b ∈ ts, ∀ c ∈ ts, ∀ name, b.fullName? = some name → c.fullName? = some name → b = c

section Discernible

variable {scope : Scope} {ts us : List AvroType} {t : AvroType} {name : String} {n m : Nat}

theorem continues_legal {text : String} (h : Name.Continues text name) : Name.isLegal name = true := by
  rcases h with rfl | ⟨more, rfl⟩
  · exact Name.isLegal_ofText _
  · exact Name.isLegal_ofText _

theorem Offered.named_at (h : Offered scope t) (hname : t.qualifiedName? = some name) :
    NamedAt scope name := by
  obtain ⟨bare, hbare, rfl⟩ := Option.map_eq_some_iff.mp hname
  exact ⟨t.ns?, bare, rfl, h.ns, h.name bare hbare⟩

/-- The name of a numbered alternative's type is one of the place itself. -/
theorem NamedAt.of_alternative (h : NamedAt (scope.alternative n) name) : NamedAt scope name := by
  obtain ⟨field, beneath⟩ := scope.alternative_named n
  obtain ⟨ns, bare, rfl, hns, hbare⟩ := h
  rw [beneath] at hns
  rw [field] at hbare
  exact ⟨ns, bare, rfl, fun k hk => Or.inr ((hns k hk).elim id id), hbare.trans⟩

/-- The types of differently numbered alternatives have different names. -/
theorem NamedAt.number (h : NamedAt (scope.alternative n) name)
    (h' : NamedAt (scope.alternative m) name) : n = m := by
  obtain ⟨ns, bare, rfl, -, hbare⟩ := h
  obtain ⟨ns', bare', he, -, hbare'⟩ := h'
  rw [qualify_absent ns, qualify_absent ns'] at he
  obtain ⟨-, rfl⟩ := qualify_legal (continues_legal hbare) (continues_legal hbare') he
  rw [(scope.alternative_named n).1] at hbare
  rw [(scope.alternative_named m).1] at hbare'
  exact hbare.number hbare'

theorem Discernible.of_named (h : Discernible scope ts)
    (hsub : ∀ b ∈ us, b.fullName? ≠ none → b ∈ ts) : Discernible scope us where
  named b hb name hname := h.named b (hsub b hb (by simp [hname])) name hname
  apart b hb c hc name hname hname' :=
    h.apart b (hsub b hb (by simp [hname])) c (hsub c hc (by simp [hname'])) name hname hname'

theorem discernible_unnamed (h : ∀ b ∈ ts, b.fullName? = none) : Discernible scope ts where
  named b hb name hname := by simp [h b hb] at hname
  apart b hb c hc name hname := by simp [h b hb] at hname

theorem discernible_single (h : ∀ name, t.fullName? = some name → NamedAt scope name) :
    Discernible scope [t] where
  named b hb name hname := by
    obtain rfl := List.mem_singleton.mp hb
    exact h name hname
  apart b hb c hc name _ _ := by
    obtain rfl := List.mem_singleton.mp hb
    exact (List.mem_singleton.mp hc).symm

theorem Discernible.of_deeper (h : Discernible scope.deeper ts) : Discernible scope ts := ⟨h.named, h.apart⟩

theorem Placed.discernible (h : Placed scope t) : Discernible scope t.leaves := by
  obtain ⟨name, hname, -⟩ := h.name
  have named := named_of_name hname
  cases t with
  | record r => exact discernible_single fun name hq => h.offered.named_at hq
  | enum e => exact discernible_single fun name hq => h.offered.named_at hq
  | fixed f => exact discernible_single fun name hq => h.offered.named_at hq
  | _ => simp [isNamed] at named

theorem discernible_generic : Discernible scope generic.leaves := by
  apply discernible_unnamed
  simp [generic, withContainers, simpleTypes, leaves, branchLeaves, fullName?, qualifiedName?, name?]

/-- The type that a node has by itself. -/
theorem plain_discernible {p : Spot} (hp : ¬ p.Strays) (ht : p.plain? = some t) :
    Discernible p.scope t.leaves where
  named b hb name hname := by
    have offered : Offered p.scope b := by
      rcases p.is_plain ht with ⟨constant, rfl⟩ | ⟨format, values, type, rfl⟩
      · have simple : (constantType p.scope constant).isUnion = false := by
          cases constant with
          | num n => cases n <;> rfl
          | _ => rfl
        rw [leaves_of_simple simple, List.mem_singleton] at hb
        subst hb
        exact constant_offered _ _
      · obtain ⟨hns, hname⟩ := (leaf_parts _ (primitive_type_named format values type) b hb).top
        exact ⟨by simp [hns], hname⟩
    cases b with
    | reference other => exact absurd (.typeName ht hb) hp
    | _ => exact offered.named_at hname
  apart b hb c hc name hname hname' := by
    by_contra hne
    exact hp (.namesakes ht hb hc hne hname hname')

end Discernible

/-- The converter tells apart the branches of nodes that do not stray. -/
def TellsApart (node : NodeConverter) : Prop :=
  ∀ {p names s t names' s'}, ¬ Spot.Strays p →
    (node p.schema p.scope).Yields names s (some t) names' s' → Discernible p.scope t.leaves

/-- One of the nodes strays, and the branch is one of its type. -/
def BroughtIn (spots : List Spot) (ts : List (Option AvroType)) (b : AvroType) : Prop :=
  ∃ p t, (p, some t) ∈ spots.zip ts ∧ p.Strays ∧ b ∈ t.leaves

/-- The branches of alternatives have names of their numbers, so that different branches have different
names. Those of a node that strays may have any name. -/
structure Numbered (scope : Scope) (n : Nat) (spots : List Spot) (ts : List (Option AvroType)) :
    Prop where
  named : ∀ b ∈ branchLeaves (useful ts), ∀ name, b.fullName? = some name →
    (∃ m, n < m ∧ NamedAt (scope.alternative m) name) ∨ BroughtIn spots ts b
  apart : ∀ b ∈ branchLeaves (useful ts), ∀ c ∈ branchLeaves (useful ts), ∀ name,
    b.fullName? = some name → c.fullName? = some name →
    b = c ∨ BroughtIn spots ts b ∨ BroughtIn spots ts c

section Alternatives

variable {cfg : Setting} {node : NodeConverter} {scope : Scope} {names names' : List String}
  {s s' : State} {t b : AvroType} {n : Nat} {p : Spot} {spots : List Spot}
  {ts : List (Option AvroType)}

theorem BroughtIn.later (h : BroughtIn spots ts b) (x : Option AvroType) :
    BroughtIn (p :: spots) (x :: ts) b := by
  obtain ⟨q, u, hm, hq, hb⟩ := h
  exact ⟨q, u, List.mem_cons_of_mem _ hm, hq, hb⟩

/-- The leaves of a useful type, and of those after it. -/
theorem leaf_of_useful_cons {x : Option AvroType} (h : b ∈ branchLeaves (useful (x :: ts))) :
    (∃ u, x = some u ∧ b ∈ u.leaves) ∨ b ∈ branchLeaves (useful ts) := by
  obtain ⟨u, hu, hb⟩ := mem_branch_leaves.mp h
  obtain ⟨hu, he⟩ := mem_useful.mp hu
  rcases List.mem_cons.mp hu with rfl | hu
  · exact Or.inl ⟨u, rfl, hb⟩
  · exact Or.inr (mem_branch_leaves.mpr ⟨u, mem_useful.mpr ⟨hu, he⟩, hb⟩)

/-- A first alternative is told apart from the later ones by its number. -/
theorem Numbered.cons {x : Option AvroType} (h : Numbered scope (n + 1) spots ts)
    (hx : ∀ u, x = some u → p.Strays ∨ Discernible (scope.alternative (n + 1)) u.leaves) :
    Numbered scope n (p :: spots) (x :: ts) := by
  have first : ∀ {u b}, x = some u → p.Strays → b ∈ u.leaves →
      BroughtIn (p :: spots) (x :: ts) b := by
    rintro u b rfl hp hb
    exact ⟨p, u, List.mem_cons_self, hp, hb⟩
  -- A branch of the first alternative and one of a later one.
  have across : ∀ {u b c name}, x = some u → b ∈ u.leaves → c ∈ branchLeaves (useful ts) →
      b.fullName? = some name → c.fullName? = some name →
      BroughtIn (p :: spots) (x :: ts) b ∨ BroughtIn (p :: spots) (x :: ts) c := by
    intro u b c name hu hb hc hname hname'
    rcases hx u hu with hp | told
    · exact Or.inl (first hu hp hb)
    · rcases h.named c hc name hname' with ⟨m, hm, later⟩ | hc
      · have same := (told.named b hb name hname).number later
        omega
      · exact Or.inr (hc.later x)
  constructor
  · intro b hb name hname
    rcases leaf_of_useful_cons hb with ⟨u, hu, hb⟩ | hb
    · rcases hx u hu with hp | told
      · exact Or.inr (first hu hp hb)
      · exact Or.inl ⟨n + 1, by omega, told.named b hb name hname⟩
    · rcases h.named b hb name hname with ⟨m, hm, later⟩ | hb
      · exact Or.inl ⟨m, by omega, later⟩
      · exact Or.inr (hb.later x)
  · intro b hb c hc name hname hname'
    rcases leaf_of_useful_cons hb with ⟨u, hu, hb⟩ | hb
    · rcases leaf_of_useful_cons hc with ⟨v, hv, hc⟩ | hc
      · obtain rfl := Option.some.inj (hu.symm.trans hv)
        rcases hx u hu with hp | told
        · exact Or.inr (Or.inl (first hu hp hb))
        · exact Or.inl (told.apart b hb c hc name hname hname')
      · exact Or.inr (across hu hb hc hname hname')
    · rcases leaf_of_useful_cons hc with ⟨v, hv, hc⟩ | hc
      · exact Or.inr (across hv hc hb hname' hname).symm
      · exact (h.apart b hb c hc name hname hname').imp_right (Or.imp (·.later x) (·.later x))

theorem alternatives_numbered (hnode : TellsApart node) {candidates : List Json}
    (h : (convertAll node (alternativeSpots scope n candidates)).Yields names s ts names' s') :
    Numbered scope n (alternativeSpots scope n candidates) ts := by
  induction candidates generalizing n ts names s with
  | nil =>
    obtain ⟨rfl, -, -⟩ := Build.yields_pure.mp h
    exact ⟨by simp [useful, branchLeaves], by simp [useful, branchLeaves]⟩
  | cons candidate candidates ih =>
    rw [alternativeSpots, convert_all_cons] at h
    obtain ⟨x, names₁, s₁, hfirst, h⟩ := Build.yields_bind.mp h
    obtain ⟨rest, names₂, s₂, hrest, h⟩ := Build.yields_bind.mp h
    obtain ⟨rfl, rfl, rfl⟩ := Build.yields_pure.mp h
    refine (ih hrest).cons fun u hu => ?_
    subst hu
    by_cases hp : Spot.Strays ⟨candidate, scope.forField (if refersElsewhere candidate then ""
      else Name.ofText (scope.localName ++ "_" ++ toString (n + 1)))⟩
    · exact Or.inl hp
    · have told := hnode hp hfirst
      rw [if_neg fun hr => hp (.refers hr)] at told
      exact Or.inr told

/-- If no alternative strays, all branches are told apart. -/
theorem Numbered.discernible (h : Numbered scope n spots ts) (hs : ∀ q ∈ spots, ¬ q.Strays) :
    Discernible scope (branchLeaves (useful ts)) := by
  have none : ∀ {b}, ¬ BroughtIn spots ts b := by
    rintro b ⟨p, t, hm, hp, -⟩
    exact hs p (List.of_mem_zip hm).1 hp
  constructor
  · intro b hb name hname
    obtain ⟨m, -, at_number⟩ := (h.named b hb name hname).resolve_right none
    exact at_number.of_alternative
  · intro b hb c hc name hname hname'
    exact (h.apart b hb c hc name hname hname').resolve_right (not_or.mpr ⟨none, none⟩)

/-- Uniting types makes up no branch that has a name. -/
theorem leaf_of_united {types : List AvroType} (h : united types = some t) (hb : b ∈ t.leaves)
    (hname : b.fullName? ≠ none) : b ∈ branchLeaves types := by
  unfold united at h
  split at h
  · simp at h
  · next u =>
    obtain rfl := Option.some.inj h
    exact mem_branch_leaves.mpr ⟨u, List.mem_singleton_self u, hb⟩
  · obtain rfl := Option.some.inj h
    have simple : ∀ u ∈ flatten types, u.isUnion = false := (flat_flatten_with types).simple
    rw [leaves, branch_leaves_of_simple simple] at hb
    exact leaf_of_flatten hb hname

end Alternatives

section Node

variable {cfg : Setting} {node : NodeConverter} {scope : Scope} {o : Object}
  {names names' : List String} {s s' : State} {t : AvroType}

theorem candidates_type_discernible (hnode : TellsApart node) {keepEmpty : Bool}
    {candidates : List Json}
    (hs : ∀ q ∈ candidateSpots scope candidates, ¬ q.Strays)
    (h : (candidatesType node keepEmpty scope candidates).Yields names s (some t) names' s') :
    Discernible scope t.leaves := by
  by_cases hsingle : ∃ candidate, candidates = [candidate]
  · obtain ⟨candidate, rfl⟩ := hsingle
    have own : ¬ Spot.Strays ⟨candidate, scope.deeper⟩ := hs _ (List.mem_singleton_self _)
    obtain ⟨u, names₁, s₁, hu, hp⟩ := Build.yields_bind.mp h
    obtain ⟨ht, -, -⟩ := Build.yields_pure.mp hp
    split at ht
    · subst ht
      exact (hnode own hu).of_deeper
    · obtain rfl := Option.some.inj ht
      exact useful_or_generic (p := fun u => Discernible scope u.leaves) discernible_generic
        fun v hv => (hnode own (hv ▸ hu)).of_deeper
  · have several := not_exists.mp hsingle
    rw [candidates_type_several _ _ _ several, map_eq_pure_bind] at h
    obtain ⟨ts, names₁, s₁, hts, hp⟩ := Build.yields_bind.mp h
    obtain ⟨ht, -, -⟩ := Build.yields_pure.mp hp
    rw [candidateSpots.eq_2 _ _ several] at hs hts
    have told := (alternatives_numbered hnode hts).discernible hs
    exact told.of_named fun b hb hname => leaf_of_united ht.symm hb hname

/-- With `null` beside it, a type has the same named branches. -/
theorem Discernible.with_null (h : Discernible scope t.leaves) :
    Discernible scope (AvroType.unionOf [.null, t]).leaves := by
  refine h.of_named fun b hb hname => ?_
  have flattened : b ∈ flatten [.null, t] := by
    unfold AvroType.unionOf unwrap at hb
    have simple : ∀ u ∈ flatten [.null, t], u.isUnion = false := (flat_flatten_with _).simple
    split at hb
    · next u hu =>
      rw [hu] at simple ⊢
      rwa [leaves_of_simple (simple u (List.mem_singleton_self u))] at hb
    · rwa [leaves, branch_leaves_of_simple simple] at hb
  have leaf := leaf_of_flatten flattened hname
  rw [branchLeaves, branchLeaves, branchLeaves, List.append_nil, List.mem_append] at leaf
  refine leaf.resolve_left fun hnull => hname ?_
  obtain rfl := List.mem_singleton.mp hnull
  rfl

theorem sole_or_united_discernible (hnode : TellsApart node) {candidates : List Json}
    (hs : ∀ q ∈ candidateSpots scope candidates, ¬ q.Strays)
    (h : (soleOrUnited node scope candidates).Yields names s (some t) names' s') :
    Discernible scope t.leaves := by
  unfold soleOrUnited at h
  split at h
  · exact (hnode (hs _ (List.mem_singleton_self _)) h).of_deeper
  · exact candidates_type_discernible hnode hs h

theorem listed_type_discernible (hnode : TellsApart node) {types : List Json}
    (hspots : types.any isStructured = true →
      ∀ q ∈ candidateSpots scope (listedCandidates types o), ¬ q.Strays)
    (hplain : types.any isStructured = false → Discernible scope (primitiveType scope.localName
      ((Object.get? o "format").bind asString?) ((Object.get? o "enum").bind asArray?)
      (.arr types)).1.leaves)
    (h : (listedType node types o scope).Yields names s (some t) names' s') :
    Discernible scope t.leaves := by
  obtain ⟨hs, u, ⟨⟩, hu⟩ | ⟨hs, x, hx, ht⟩ := listed_type_cases h
  · obtain ⟨rfl, -, -⟩ := primitive_yields hu
    exact hplain hs
  · obtain rfl | ht := ht
    · exact sole_or_united_discernible hnode (hspots hs) hx
    · obtain ⟨u, rfl, rfl⟩ := Option.map_eq_some_iff.mp ht.symm
      exact (sole_or_united_discernible hnode (hspots hs) hx).with_null

/-- Unless a keyword gives a named type, which is still to be named, the branches are told apart. -/
theorem keyword_type_discernible (hnode : TellsApart node)
    (hspots : ∀ types, Object.get? o "const" = none → Object.get? o "type" = some (.arr types) →
      types.any isStructured = true →
      ∀ q ∈ candidateSpots scope (listedCandidates types o), ¬ q.Strays)
    (hplain : ∀ u, plainKeyword? scope o = some u → Discernible scope u.leaves)
    (h : (keywordType node o scope).Yields names s (some t) names' s') (ht : t.isNamed = false) :
    Discernible scope t.leaves := by
  obtain ⟨k, hk⟩ := said o
  rw [hk.type_eq] at h
  rw [hk.plain_eq] at hplain
  cases k with
  | constant value =>
    obtain ⟨⟨⟩, -, -⟩ := Build.yields_pure.mp h
    exact hplain _ rfl
  | listed types =>
    cases hk with
    | listed hconst htype =>
      refine listed_type_discernible hnode (hspots types hconst htype) (fun hs => ?_) h
      rw [Keyword.plain?, if_neg (by simp [hs])] at hplain
      exact hplain _ rfl
  | array =>
    obtain ⟨u, ⟨⟩, hu⟩ := Build.yields_some.mp h
    have array := array_type_array hu
    cases t with
    | array items => exact discernible_unnamed (by simp [leaves, fullName?, qualifiedName?, name?])
    | _ => simp [isArray] at array
  | object =>
    rw [inline_record_named h] at ht
    simp at ht
  | named type =>
    obtain ⟨u, ⟨⟩, hu⟩ := Build.yields_some.mp h
    obtain ⟨rfl, -, -⟩ := primitive_yields hu
    exact hplain _ rfl
  | silent => simp [Keyword.type] at h

theorem object_node_discernible {levels : Nat} (hnode : TellsApart (nodeWithin cfg levels))
    (hp : ¬ Spot.Strays ⟨.obj o, scope⟩)
    (h : (objectNode cfg (nodeWithin cfg levels) o scope).Yields names s (some t) names' s') :
    Discernible scope t.leaves := by
  have alternatives : ∀ q ∈ Spot.alternatives ⟨.obj o, scope⟩, ¬ q.Strays :=
    fun q hq hs => hp (.alternative hq hs)
  have plain : ∀ u, Spot.plain? ⟨.obj o, scope⟩ = some u → Discernible scope u.leaves :=
    fun u hu => plain_discernible hp hu
  have here : Object.contains (Spot.plainObject o) "$ref" = false := by
    have absent : Object.contains o "$ref" = false := by
      rw [← Bool.not_eq_true]
      exact fun hr => hp (.refers hr)
    rw [Spot.plainObject, contains_with_object _ (by decide)]
    exact unconditional_lacks absent
  unfold Spot.alternatives at alternatives
  unfold Spot.plain? at plain
  dsimp only at alternatives plain
  cases object_node_cases h with
  | composed hc _ hcandidates =>
    rw [if_pos hc] at alternatives
    exact candidates_type_discernible hnode alternatives hcandidates
  | referred _ hr => exact absurd (here.symm.trans hr) (by simp)
  | @typed _ u _ _ _ _ _ hc _ _ hkeyword hreuse =>
    have own : Spot.isOwn o = true := own_iff.mpr ⟨hc, here⟩
    rw [if_neg (by simp [hc])] at alternatives
    rw [if_neg (by simp [hc, here])] at plain
    cases hu : u.isNamed with
    | true =>
      have offered : Offered scope u := keyword_type_offered (node_within_places cfg levels)
        (fun type => ⟨own_insert own type, own_refers_nowhere own type⟩) hkeyword
      have placed := name_type_placed (Spot.plainObject o) offered hu
      obtain ⟨-, ⟨rfl, -⟩ | ⟨full, hfull, -, rfl, -⟩⟩ := reuse_registered_yields hreuse
      · exact placed.discernible
      · refine discernible_single fun name hname => ?_
        obtain rfl := Option.some.inj hname
        exact placed.offered.named_at hfull
    | false =>
      have told : Discernible scope u.leaves := by
        refine keyword_type_discernible hnode (fun types hconst htype hs => ?_) plain hkeyword hu
        simp only [hconst, htype, if_pos hs] at alternatives
        exact alternatives
      rw [name_type_unnamed _ hu] at hreuse
      obtain ⟨-, ⟨rfl, -⟩ | ⟨full, hfull, -⟩⟩ := reuse_registered_yields hreuse
      · exact told
      · have unnamed : u.name? = none := by cases u <;> simp_all [isNamed, name?]
        simp [qualifiedName?, unnamed] at hfull

/-- Through any number of levels, the branches of nodes that do not stray are told apart. -/
theorem node_within_discernible (levels : Nat) : TellsApart (nodeWithin cfg levels) := by
  induction levels using Nat.strong_induction_on with
  | _ levels ih =>
    rintro ⟨schema, scope⟩ names s t names' s' hp h
    rcases node_within_cases h with rfl | hplain | ⟨o, fewer, rfl, rfl, hobject⟩
    · exact discernible_generic
    · exact plain_discernible hp hplain
    · exact object_node_discernible (ih fewer (by omega)) hp hobject

end Node

end Convert

end AvroDerive
