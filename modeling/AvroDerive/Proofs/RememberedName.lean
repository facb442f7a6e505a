import AvroDerive.Proofs.NamedReference

/-! # Remembered names are accounted for

A name that is remembered for a reference is registered or passed on, or it was promised for a
fragment that stands alone: the import of the fragment is under way, or has given another type. -/
namespace AvroDerive.Convert

open AvroType Json Schema

/-- While the fragment is converted, references to it have the name. -/
def Import.Promises (cfg : Setting) (i : Import) (name : String) : Prop :=
  isStandalone i.located.fragment = true ∧ name = fullOf (i.typeName cfg)

/-- The name was promised for a fragment, but the type of that is no record or enumeration of the
name. -/
def Import.GivesUp (cfg : Setting) (c : Corpus) (i : Import) (name : String) : Prop :=
  i.Valid cfg c ∧ i.Promises cfg name ∧ ∃ levels s t names s',
    (nodeWithin cfg levels i.located.fragment (i.inner cfg)).Yields [] s t names s' ∧
    ∀ u, t = some u → (u.isRecord || u.isEnum) = true → u.qualifiedName? ≠ some name

/-- What a remembered name stands for, while the imports are under way. -/
inductive Accounted (cfg : Setting) (c : Corpus) (is : List Import) (s : State) (name : String) :
    Prop
  | registered : name ∈ definedNames s.registry → Accounted cfg c is s name
  | passed : c.PassedOn name → Accounted cfg c is s name
  | promised {i} : i ∈ is → i.Promises cfg name → Accounted cfg c is s name
  | givenUp {i} : Import.GivesUp cfg c i name → Accounted cfg c is s name

/-- Every name that is remembered is accounted for, up to the old ones. -/
def AllAccounted (cfg : Setting) (c : Corpus) (old : String → Prop) (a : List Import × State) :
    Prop :=
  ∀ key name, Resolved a.2 key name → old name ∨ Accounted cfg c a.1 a.2 name

section Step

variable {cfg : Setting} {c : Corpus} {is is' : List Import} {s s' : State} {name : String}

theorem Accounted.mono (h : Accounted cfg c is s name) (he : Extends s s') (hi : is ⊆ is') :
    Accounted cfg c is' s' name := by
  cases h with
  | registered hm => exact .registered (he.defined hm)
  | passed hp => exact .passed hp
  | promised hm hp => exact .promised (hi hm) hp
  | givenUp hg => exact .givenUp hg

/-- An import that is settled has kept its promise or given it up. -/
theorem promise_settled {i : Import} (hv : i.Valid cfg c) {levels : Nat} {names : List String}
    {s₀ : State} {t : Option AvroType} {u : AvroType}
    (hy : (nodeWithin cfg levels i.located.fragment (i.inner cfg)).Yields [] s₀ t names s)
    (h : Settles i.key (fullOf (i.typeName cfg)) t u s s') (hp : i.Promises cfg name) :
    Accounted cfg c is s' name := by
  have gives : (∀ u, t = some u → (u.isRecord || u.isEnum) = true →
      u.qualifiedName? ≠ some name) → Accounted cfg c is s' name :=
    fun hno => .givenUp ⟨hv, hp, levels, s₀, t, names, s, hy, hno⟩
  have hname := hp.2
  cases h with
  | registered hkind hq =>
    rw [hname]
    exact .registered (register_defined _ hq)
  | standIn hkind hq =>
    refine gives fun u hu _ => ?_
    obtain rfl := Option.some.inj hu
    rw [hname]
    exact hq
  | passed =>
    refine gives fun u hu hkind => ?_
    obtain rfl := Option.some.inj hu
    simp [isRecord, isEnum] at hkind
  | inline hkind href =>
    refine gives fun u hu hkind' => ?_
    obtain rfl := Option.some.inj hu
    simp [hkind] at hkind'
  | empty => exact gives (by simp)

/-- A name that is accounted for stays so. -/
theorem Accounted.step {a b : List Import × State} (h : Step cfg c a b)
    (ha : Accounted cfg c a.1 a.2 name) : Accounted cfg c b.1 b.2 name := by
  have grows := h.extends
  cases h with
  | aside => exact ha.mono grows (List.Subset.refl _)
  | begin => exact ha.mono grows (List.subset_cons_self _ _)
  | turn => exact ha.mono grows (List.Subset.refl _)
  | settle hv hy _ hs =>
    cases ha with
    | registered hm => exact .registered (grows.defined hm)
    | passed hp => exact .passed hp
    | givenUp hg => exact .givenUp hg
    | promised hm hp =>
      rcases List.mem_cons.mp hm with rfl | hm
      · exact promise_settled hv hy hs hp
      · exact .promised hm hp

theorem accounted_step {old : String → Prop} {a b : List Import × State} (h : Step cfg c a b)
    (ha : AllAccounted cfg c old a) : AllAccounted cfg c old b := by
  have before : ∀ {key name}, Resolved a.2 key name → old name ∨ Accounted cfg c b.1 b.2 name :=
    fun hm => (ha _ _ hm).imp_right (.step h)
  intro key name hm
  rcases h.adds hm with hm | hadds
  · exact before hm
  · cases hadds with
    | promised _ _ given begins alone =>
      exact Or.inr (.promised (begins ▸ List.mem_cons_self ..) ⟨alone, given⟩)
    | registered _ _ _ defined => exact Or.inr (.registered defined)
    | passed _ _ _ handed =>
      rcases handed with defined | ⟨k, remembered⟩ | passed
      · exact Or.inr (.registered (h.extends.defined defined))
      · exact before remembered
      · exact Or.inr (.passed passed)
    | turn _ _ _ defined => exact Or.inr (.registered defined)
    | aliased _ _ _ _ defined => exact Or.inr (.registered defined)

theorem steps_accounted {old : String → Prop} {a b : List Import × State} (h : Steps cfg c a b)
    (ha : AllAccounted cfg c old a) : AllAccounted cfg c old b := by
  induction h with
  | refl => exact ha
  | tail _ hlast ih => exact accounted_step hlast ih

end Step

end AvroDerive.Convert
