import AvroDerive.Proofs.Mention
import Mathlib.Data.List.Nodup

/-! # Reading definitions and references in order

Mentions are read in order, from a list of names that are defined already. They read well if no name is
defined twice and each reference comes behind a definition of its name or is excused. -/
namespace AvroDerive

/-- Mentions read from the first list of names to the second: each definition is the first one of
its name, and each reference is to a name defined before or satisfies the condition. -/
inductive Reads (q : Place → String → Prop) : List String → List Mention → List String → Prop
  | nil (defined) : Reads q defined [] defined
  | define {defined ms defined' name} : name ∉ defined → Reads q (name :: defined) ms defined' →
    Reads q defined (.defines name :: ms) defined'
  | refer {defined ms defined' place name} : name ∈ defined ∨ q place name →
    Reads q defined ms defined' → Reads q defined (.refers place name :: ms) defined'

namespace Reads

variable {q : Place → String → Prop} {defined defined' defined'' : List String}
  {ms ns : List Mention} {name : String}

theorem append (h : Reads q defined ms defined') (h' : Reads q defined' ns defined'') :
    Reads q defined (ms ++ ns) defined'' := by
  induction h with
  | nil => exact h'
  | define hn _ ih => exact .define hn (ih h')
  | refer hq _ ih => exact .refer hq (ih h')

theorem single (hn : name ∉ defined) : Reads q defined [.defines name] (name :: defined) :=
  .define hn (.nil _)

theorem refer_single {place : Place} (h : name ∈ defined ∨ q place name) :
    Reads q defined [.refers place name] defined :=
  .refer h (.nil _)

theorem defined_eq (h : Reads q defined ms defined') :
    defined' = (introduced ms).reverse ++ defined := by
  induction h with
  | nil => rfl
  | define _ _ ih => rw [ih, introduced_defines, List.reverse_cons, List.append_assoc]; rfl
  | refer _ _ ih => rw [ih, introduced_refers]

theorem mem_defined (h : Reads q defined ms defined') :
    name ∈ defined' ↔ name ∈ introduced ms ∨ name ∈ defined := by
  rw [h.defined_eq, List.mem_append, List.mem_reverse]

theorem subset (h : Reads q defined ms defined') : defined ⊆ defined' := by
  rw [h.defined_eq]
  exact List.subset_append_right _ _

/-- A reference comes behind a definition of its name or satisfies the condition. -/
theorem behind (h : Reads q defined ms defined') {before after : List Mention} {place : Place}
    (hs : ms = before ++ .refers place name :: after) :
    name ∈ defined ∨ name ∈ introduced before ∨ q place name := by
  induction h generalizing before with
  | nil => simp at hs
  | define _ _ ih =>
    cases before with
    | nil => simp at hs
    | cons m before =>
      obtain ⟨rfl, hrest⟩ := List.cons.inj hs
      rw [introduced_defines]
      rcases ih hrest with h | h | h
      · rcases List.mem_cons.mp h with rfl | h
        · exact Or.inr (Or.inl (List.mem_cons_self ..))
        · exact Or.inl h
      · exact Or.inr (Or.inl (List.mem_cons_of_mem _ h))
      · exact Or.inr (Or.inr h)
  | refer hq _ ih =>
    cases before with
    | nil =>
      obtain ⟨hm, -⟩ := List.cons.inj hs
      obtain ⟨rfl, rfl⟩ := Mention.refers.inj hm
      exact hq.imp_right Or.inr
    | cons m before =>
      obtain ⟨rfl, hrest⟩ := List.cons.inj hs
      rw [introduced_refers]
      exact ih hrest

/-- What is read can be read in two parts. -/
theorem split (h : Reads q defined (ms ++ ns) defined') :
    ∃ known, Reads q defined ms known ∧ Reads q known ns defined' := by
  induction ms generalizing defined with
  | nil => exact ⟨defined, .nil _, h⟩
  | cons m ms ih =>
    cases h with
    | define hn h =>
      obtain ⟨known, h, h'⟩ := ih h
      exact ⟨known, .define hn h, h'⟩
    | refer hq h =>
      obtain ⟨known, h, h'⟩ := ih h
      exact ⟨known, .refer hq h, h'⟩

theorem nodup (h : Reads q defined ms defined') (hd : defined.Nodup) : defined'.Nodup := by
  induction h with
  | nil => exact hd
  | define hn _ ih => exact ih (List.nodup_cons.mpr ⟨hn, hd⟩)
  | refer _ _ ih => exact ih hd

theorem imp {q' : Place → String → Prop} (h : Reads q defined ms defined')
    (hq : ∀ place name, q place name → q' place name) : Reads q' defined ms defined' := by
  induction h with
  | nil => exact .nil _
  | define hn _ ih => exact .define hn ih
  | refer hr _ ih => exact .refer (hr.imp_right (hq _ _)) ih

/-- Names that are read from the start are defined once. -/
theorem introduced_nodup (h : Reads q [] ms defined') : (introduced ms).Nodup := by
  have hnodup := h.nodup List.nodup_nil
  rw [h.defined_eq, List.append_nil] at hnodup
  exact List.nodup_reverse.mp hnodup

end Reads

/-- Each reference to a name that is defined at all comes behind a definition of the name. -/
def DefinedAhead (ms : List Mention) : Prop :=
  ∀ before place name after, ms = before ++ .refers place name :: after →
    name ∈ introduced ms → name ∈ introduced before

/-- Reading from the known names, each reference to one of the names comes behind a definition. -/
def Heralded (names : List String) : List String → List Mention → Prop
  | _, [] => True
  | known, .defines name :: ms => Heralded names (name :: known) ms
  | known, .refers _ name :: ms => (name ∈ names → name ∈ known) ∧ Heralded names known ms

section Reading

variable {q : Place → String → Prop} {names known defined defined' : List String}
  {ms ns : List Mention}

theorem heralded_append : Heralded names known (ms ++ ns) ↔
    Heralded names known ms ∧ Heralded names ((introduced ms).reverse ++ known) ns := by
  induction ms generalizing known with
  | nil => simp [Heralded]
  | cons m ms ih =>
    cases m with
    | defines name =>
      rw [List.cons_append, Heralded, Heralded, ih, introduced_defines, List.reverse_cons,
        List.append_assoc]
      rfl
    | refers place name =>
      rw [List.cons_append, Heralded, Heralded, ih, introduced_refers, and_assoc]

/-- Without names to look for there is nothing to herald. -/
theorem heralded_nil : Heralded [] known ms := by
  induction ms generalizing known with
  | nil => trivial
  | cons m ms ih =>
    cases m with
    | defines name => exact ih
    | refers place name => exact ⟨fun h => absurd h List.not_mem_nil, ih⟩

theorem heralded_of_ahead (h : DefinedAhead ms) : Heralded (introduced ms) [] ms := by
  have split : ∀ front back, ms = front ++ back →
      Heralded (introduced ms) (introduced front).reverse back := by
    intro front back
    induction back generalizing front with
    | nil => exact fun _ => trivial
    | cons m back ih =>
      intro hms
      have next := ih (front ++ [m]) (by rw [hms, List.append_assoc, List.singleton_append])
      cases m with
      | defines name =>
        rwa [introduced_append, List.reverse_append] at next
      | refers place name =>
        rw [introduced_append, introduced_refers, introduced_nil, List.append_nil] at next
        exact ⟨fun hn => List.mem_reverse.mpr (h front place name back hms hn), next⟩
  exact split [] ms rfl

theorem ahead_of_heralded (h : Heralded (introduced ms) [] ms) : DefinedAhead ms := by
  intro before place name after hms hn
  have hsplit : Heralded (introduced ms) [] (before ++ .refers place name :: after) := hms ▸ h
  obtain ⟨-, hlast, -⟩ := heralded_append.mp hsplit
  simpa using hlast hn

instance decidableHeralded (names : List String) : (known : List String) → (ms : List Mention) →
    Decidable (Heralded names known ms)
  | _, [] => isTrue trivial
  | known, .defines name :: ms => decidableHeralded names (name :: known) ms
  | known, .refers _ name :: ms =>
    have := decidableHeralded names known ms
    inferInstanceAs (Decidable ((name ∈ names → name ∈ known) ∧ Heralded names known ms))

instance (ms : List Mention) : Decidable (DefinedAhead ms) :=
  decidable_of_iff _ ⟨ahead_of_heralded, heralded_of_ahead⟩

theorem Reads.ahead (h : Reads (fun _ name => name ∉ introduced ms) [] ms defined') :
    DefinedAhead ms := by
  intro before place name after hms hn
  rcases h.behind hms with h | h | h
  · simp at h
  · exact h
  · exact absurd hn h

end Reading

end AvroDerive
