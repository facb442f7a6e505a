import AvroDerive.Avro.Inline
import AvroDerive.Proofs.InlinedTree

/-! # Reading a type with its dependencies inlined

Each definition that a reference is replaced by defines a further name of the list. So the
traversal never ends for lack of depth, and the references that it leaves are to names that are
defined before or are not in the list. -/
namespace AvroDerive.AvroType

section Inline

variable {types : List AvroType} {q : Place → String → Prop}

/-- How many names of the list, with repetitions, are not defined yet. -/
def pending (types : List AvroType) (defined : List String) : Nat :=
  ((definedNames types).filter (· ∉ defined)).length

theorem pending_antitone {defined defined' : List String} (h : defined ⊆ defined') :
    pending types defined' ≤ pending types defined := by
  refine List.Sublist.length_le (List.monotone_filter_right _ ?_)
  intro name hn
  rw [decide_eq_true_eq] at hn ⊢
  exact fun hd => hn (h hd)

theorem pending_define {defined : List String} {name : String} (hk : name ∈ definedNames types)
    (hn : name ∉ defined) : pending types (name :: defined) < pending types defined := by
  have split : (definedNames types).filter (· ∉ name :: defined) =
      ((definedNames types).filter (· ∉ defined)).filter (· ≠ name) := by
    rw [List.filter_filter]
    refine List.filter_congr fun other _ => ?_
    simp [List.mem_cons, not_or]
  unfold pending
  rw [split]
  refine List.length_filter_lt_length_iff_exists.mpr ⟨name, ?_, by simp⟩
  rw [List.mem_filter]
  exact ⟨hk, by simpa using hn⟩

/-- What following a reference gives, as long as no more names are missing than given. -/
def FollowInlines (types : List AvroType) (depth : Nat) (follow : Follow) : Prop :=
  ∀ defined name, pending types defined ≤ depth → name ∉ defined →
    Inlined types defined (.reference name) (follow defined name).1 (follow defined name).2

mutual

theorem inline_with_inlined {depth : Nat} {follow : Follow} (hf : FollowInlines types depth follow)
    (defined : List String) (hd : pending types defined ≤ depth) : (t : AvroType) →
    Inlined types defined t (inlineWith follow defined t).1 (inlineWith follow defined t).2
  | .record r => by
    rw [inlineWith]
    split
    · next hn => exact .repeated rfl hn
    · next hn =>
      have hd' : pending types (qualify r.ns r.name :: defined) ≤ depth :=
        (pending_antitone (List.subset_cons_self _ _)).trans hd
      exact .record hn (inline_fields_inlined hf _ hd' r.fields)
  | .enum e => by
    rw [inlineWith]
    split
    · next hn => exact .repeated rfl hn
    · next hn => exact .enum hn
  | .fixed f => by
    rw [inlineWith]
    split
    · next hn => exact .repeated rfl hn
    · next hn => exact .fixed hn
  | .reference name => by
    rw [inlineWith]
    split
    · next hn => exact .behind hn
    · next hn => exact hf defined name hd hn
  | .array items => .array (inline_with_inlined hf defined hd items)
  | .map values => .map (inline_with_inlined hf defined hd values)
  | .union branches => .union (inline_branches_inlined hf defined hd branches)
  | .primitive _ => .primitive
  | .logical _ _ => .logical

theorem inline_fields_inlined {depth : Nat} {follow : Follow}
    (hf : FollowInlines types depth follow) (defined : List String)
    (hd : pending types defined ≤ depth) : (fs : List (Field AvroType)) →
    FieldsInlined types defined fs (inlineFields follow defined fs).1
      (inlineFields follow defined fs).2
  | [] => .nil
  | f :: fs => by
    have first := inline_with_inlined hf defined hd f.type
    have hd' := (pending_antitone first.subset).trans hd
    exact .cons first (inline_fields_inlined hf _ hd' fs)

theorem inline_branches_inlined {depth : Nat} {follow : Follow}
    (hf : FollowInlines types depth follow) (defined : List String)
    (hd : pending types defined ≤ depth) : (ts : List AvroType) →
    BranchesInlined types defined ts (inlineBranches follow defined ts).1
      (inlineBranches follow defined ts).2
  | [] => .nil
  | t :: ts => by
    have first := inline_with_inlined hf defined hd t
    have hd' := (pending_antitone first.subset).trans hd
    exact .cons first (inline_branches_inlined hf _ hd' ts)

end

/-- Following defines the name before it goes on, so one name less is missing inside. -/
theorem follow_at_inlined (types : List AvroType) (depth : Nat) :
    FollowInlines types depth (followAt types depth) := by
  induction depth with
  | zero =>
    intro defined name hd hn
    refine .foreign hn (lookup_eq_none fun hk => ?_)
    have := pending_define hk hn
    omega
  | succ depth ih =>
    intro defined name hd hn
    simp only [followAt]
    cases hl : lookup? types name with
    | none => exact .foreign hn hl
    | some t =>
      have hk : name ∈ definedNames types := lookup_isSome_iff.mp (by rw [hl]; rfl)
      have hd' : pending types (name :: defined) ≤ depth := by
        have := pending_define hk hn
        omega
      obtain ⟨-, hname⟩ := name_of_lookup hl
      refine .follow hn hl ?_
      cases t with
      | record r =>
        obtain rfl : qualify r.ns r.name = name := Option.some.inj hname
        simp only [inlineWith, if_neg hn]
        exact .record hn (inline_fields_inlined ih _ hd' r.fields)
      | enum e =>
        obtain rfl : qualify e.ns e.name = name := Option.some.inj hname
        simp only [inlineWith, if_neg hn]
        exact .enum hn
      | fixed f =>
        obtain rfl : qualify f.ns f.name = name := Option.some.inj hname
        simp only [inlineWith, if_neg hn]
        exact .fixed hn
      | _ => simp [qualifiedName?, name?] at hname

/-- The depth that is given to inlining is enough, so it ends on its own. -/
theorem inline_inlined (types : List AvroType) (root : AvroType) :
    ∃ defined, Inlined types [] root (inline types root) defined := by
  refine ⟨_, inline_with_inlined (follow_at_inlined types types.length) [] ?_ root⟩
  exact (List.length_filter_le _ _).trans (List.length_filterMap_le _ _)

/-- The inlined type reads well, up to names that are not in the list. -/
theorem inline_reads (ht : ∀ t ∈ types, AllRefer q none t) {root : AvroType}
    (hr : AllRefer q none root) :
    ∃ defined, Reads (fun p n => q p n ∧ n ∉ definedNames types) []
      ((inline types root).mentions none) defined := by
  obtain ⟨defined, h⟩ := inline_inlined types root
  exact ⟨defined, h.reads ht none hr⟩

end Inline

end AvroDerive.AvroType
