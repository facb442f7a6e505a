import AvroDerive.Proofs.PlaceName
import Mathlib.Data.List.Find

/-! # Looking up registered types

A registered type is looked up by its name and its namespace, or by its qualified name. A qualified name is
cut at its last point, so the two ways agree where no name has a point, whatever the namespaces are. -/
namespace AvroDerive.Registry

/-- The registry after a list of registrations, each of a type with the names it depends on. -/
def registerAll (calls : List (AvroType × List String)) : Registry :=
  calls.foldl (fun r call => (register r call.1 call.2).2) []

/-- Whether a type has the name in the namespace. -/
def isAt (name : String) (ns : Option String) (t : AvroType) : Bool :=
  decide (t.name? = some name) && sameNs t.ns? ns

/-- What is registered in the first of the calls that is for the name in the namespace. -/
def firstAt (name : String) (ns : Option String) (calls : List (AvroType × List String)) :
    Option AvroType :=
  (calls.find? fun call => isAt name ns call.1).map fun call => gather call.2 call.1

/-- A named type whose name has no point. -/
def Dotless (t : AvroType) : Prop := ∃ name, t.name? = some name ∧ '.' ∉ name.toList

section Lookup

variable {r : Registry} {t : AvroType} {name : String} {ns ns' : Option String}

theorem same_ns_iff : sameNs ns ns' = true ↔ ns.getD "" = ns'.getD "" := by
  have filtered : ∀ ns : Option String,
      ns.filter (· ≠ "") = if ns.getD "" = "" then none else some (ns.getD "") := by
    intro ns
    cases ns with
    | none => rfl
    | some ns => by_cases h : ns = "" <;> simp [Option.filter_some, h]
  rw [sameNs, beq_iff_eq, filtered, filtered]
  by_cases h : ns.getD "" = "" <;> by_cases h' : ns'.getD "" = "" <;> simp [h, h', eq_comm]

/-- The qualified name of a type tells its name and its namespace. -/
theorem is_at_iff (ht : Dotless t) (hname : '.' ∉ name.toList) :
    isAt name ns t = true ↔ t.qualifiedName? = some (qualify ns name) := by
  obtain ⟨own, hown, hdot⟩ := ht
  rw [isAt, Bool.and_eq_true, decide_eq_true_eq, same_ns_iff, AvroType.qualifiedName?, hown,
    Option.map_some, Option.some.injEq, Option.some.injEq, Convert.qualify_absent t.ns?,
    Convert.qualify_absent ns]
  constructor
  · rintro ⟨rfl, hns⟩
    rw [hns]
  · intro h
    obtain ⟨hns, rfl⟩ := Convert.qualify_dotless hdot hname h
    exact ⟨rfl, hns⟩

theorem find_agrees (hr : ∀ t ∈ r, Dotless t) (hname : '.' ∉ name.toList) :
    find? r name ns = findQualified? r (qualify ns name) :=
  List.find?_congr fun t ht =>
    Bool.eq_iff_iff.mpr ((is_at_iff (hr t ht) hname).trans decide_eq_true_iff.symm)

theorem find_of_filter {found : Option AvroType} (h : r.filter (isAt name ns) = found.toList) :
    find? r name ns = found := by
  have head : find? r name ns = (r.filter (isAt name ns)).head? := List.head?_filter.symm
  rw [head, h, Option.head?_toList]

end Lookup

section Registered

variable {calls : List (AvroType × List String)} {name : String} {ns : Option String}

theorem name_gather (names : List String) (t : AvroType) : (gather names t).name? = t.name? := by
  cases t <;> rfl

theorem is_at_gather (names : List String) (t : AvroType) :
    isAt name ns (gather names t) = isAt name ns t := by
  cases t <;> rfl

theorem register_all_concat (calls : List (AvroType × List String))
    (call : AvroType × List String) :
    registerAll (calls ++ [call]) = (register (registerAll calls) call.1 call.2).2 := by
  simp [registerAll]

theorem register_all_dotless (hcalls : ∀ call ∈ calls, Dotless call.1) :
    ∀ t ∈ registerAll calls, Dotless t := by
  induction calls using List.reverseRecOn with
  | nil => simp [registerAll]
  | append_singleton calls call ih =>
    rw [List.forall_mem_append, List.forall_mem_singleton] at hcalls
    rw [register_all_concat]
    rcases register_eq (registerAll calls) call.1 call.2 with h | h
    · rw [h]
      exact ih hcalls.1
    · rw [h, List.forall_mem_append, List.forall_mem_singleton]
      refine ⟨ih hcalls.1, ?_⟩
      rw [Dotless, name_gather]
      exact hcalls.2

/-- The registry keeps the first type that is registered for a name in a namespace, and no other. -/
theorem filter_registered (hcalls : ∀ call ∈ calls, Dotless call.1) (hname : '.' ∉ name.toList) :
    (registerAll calls).filter (isAt name ns) = (firstAt name ns calls).toList := by
  induction calls using List.reverseRecOn with
  | nil => rfl
  | append_singleton calls call ih =>
    rw [List.forall_mem_append, List.forall_mem_singleton] at hcalls
    have earlier := ih hcalls.1
    rw [register_all_concat, firstAt, List.find?_append, List.find?_singleton]
    by_cases hat : isAt name ns call.1 = true
    · -- The name is taken just if a type of it and its namespace is found.
      have qualified := (is_at_iff hcalls.2 hname).mp hat
      have taken : contains (registerAll calls) (qualify ns name) = (firstAt name ns calls).isSome := by
        rw [contains, ← find_agrees (register_all_dotless hcalls.1) hname, find_of_filter earlier]
      rw [register, qualified, Option.getD_some, taken, if_pos hat]
      unfold firstAt at earlier ⊢
      cases hfirst : calls.find? fun call => isAt name ns call.1 with
      | some first =>
        rw [hfirst] at earlier
        exact earlier
      | none =>
        rw [hfirst] at earlier
        simp [List.filter_append, earlier, is_at_gather, hat]
    · rw [if_neg hat, Option.or_none]
      rcases register_eq (registerAll calls) call.1 call.2 with h | h
      · rw [h]
        exact earlier
      · rw [h, List.filter_append, earlier, List.filter_cons_of_neg (by rwa [is_at_gather]),
          List.filter_nil, List.append_nil]
        rfl

/-- After any registrations of types whose names have no point, looking up a name in a namespace finds the
same as looking up the qualified name: the type that was registered first for them, or nothing if there was
none. No other registered type has that name in that namespace. -/
theorem look_ups_agree (hcalls : ∀ call ∈ calls, Dotless call.1) (hname : '.' ∉ name.toList)
    (ns : Option String) :
    find? (registerAll calls) name ns = findQualified? (registerAll calls) (qualify ns name) ∧
    find? (registerAll calls) name ns = firstAt name ns calls ∧
    (registerAll calls).filter (isAt name ns) = (find? (registerAll calls) name ns).toList := by
  have only : (registerAll calls).filter (isAt name ns) = (firstAt name ns calls).toList :=
    filter_registered hcalls hname
  have found := find_of_filter only
  exact ⟨find_agrees (register_all_dotless hcalls) hname, found, found ▸ only⟩

/-- One name in a namespace with a point, in the empty namespace, and twice in none. -/
def namesakes : List (AvroType × List String) :=
  [(.record { name := "A", ns := some "a.b" }, []), (.enum { name := "A", ns := some "", symbols := [] }, []),
    (.fixed { name := "A", ns := none, size := 2 }, []), (.record { name := "A", ns := none }, ["B"])]

theorem namesakes_agree : (∀ call ∈ namesakes, Dotless call.1) ∧ '.' ∉ "A".toList ∧
    findQualified? (registerAll namesakes) "A" = some (.enum { name := "A", ns := some "", symbols := [] }) ∧
    findQualified? (registerAll namesakes) "a.b.A" = some (.record { name := "A", ns := some "a.b" }) := by
  have dotless : ∀ call ∈ namesakes, Dotless call.1 := by simp [namesakes, Dotless, AvroType.name?]
  have point : '.' ∉ "A".toList := by decide
  have inNone := look_ups_agree dotless point none
  have inNs := look_ups_agree dotless point (some "a.b")
  exact ⟨dotless, point, inNone.1.symm.trans inNone.2.1, inNs.1.symm.trans inNs.2.1⟩

end Registered

end AvroDerive.Registry
