import AvroDerive.Proofs.ConverterState
import AvroDerive.Proofs.StandaloneFragment

/-! # The call of a conversion

A conversion is one call to a new converter, for the whole document or for the definition at a
fragment. It gives the types that are registered then, ordered and with each name defined once, or one
of them with the others inside. -/
namespace AvroDerive.Convert

open AvroType Json Schema

variable {cfg : Setting} {j : Json} {location : String}

/-- The call for the definition at a fragment. -/
def fragmentCall (cfg : Setting) (j : Json) (baseUri fragment : String) (schema : Json) : Call :=
  .definition j baseUri (((typeName? cfg.rootNs (fragmentPointer fragment)).map Prod.fst).getD
    cfg.options.rootName) schema (some (fragmentPointer fragment))

/-- The call that a conversion makes; none if the fragment is not in the document. -/
def conversionCall? (cfg : Setting) (j : Json) (location : String) : Option Call :=
  match addressed cfg location with
  | (uri, some (c :: rest)) =>
    (j.pointer? (fragmentPointer (String.ofList (c :: rest)))).map
      (fragmentCall cfg j (String.ofList uri) (String.ofList (c :: rest)))
  | (uri, _) => some (.document j (String.ofList uri))

/-- The types that are registered in the call, in their order. -/
def Call.sortedTypes (cfg : Setting) (call : Call) : List AvroType :=
  (order (call.after cfg {}).registry).types

theorem mem_sorted_types {call : Call} {t : AvroType} :
    t ∈ call.sortedTypes cfg ↔ t ∈ (call.after cfg {}).registry :=
  (order_perm _).mem_iff

/-- What a conversion gives comes from the types of its call. -/
inductive Call.Emits (cfg : Setting) (call : Call) : Output → Prop
  | types : Emits cfg call (.types (evict (call.sortedTypes cfg)))
  | fragment {root} : root ∈ call.sortedTypes cfg →
    Emits cfg call (.fragment (inline (call.sortedTypes cfg) root))

theorem Call.sorted_after {call : Call} {u : Unit} {s : State} (h : (call.run cfg).Yields {} u s) :
    call.sortedTypes cfg = (order s.registry).types := by
  have after : call.after cfg {} = s :=
    congrArg Prod.snd (show (call.run cfg).run.run {} = (.ok u, s) from h)
  rw [Call.sortedTypes, after]

theorem document_output_emits {baseUri : String} {out : Output} {s : State}
    (h : (documentOutput cfg j baseUri).Yields {} out s) :
    (Call.document j baseUri).Emits cfg out := by
  unfold documentOutput at h
  obtain ⟨_, s₁, hdocument, hrest⟩ := Run.yields_bind.mp h
  have sorted : (Call.document j baseUri).sortedTypes cfg = (order s₁.registry).types :=
    Call.sorted_after hdocument
  obtain ⟨_, _, hget, htypes⟩ := Run.yields_bind.mp hrest
  obtain ⟨rfl, rfl⟩ := Run.yields_get.mp hget
  split at htypes
  · exact absurd htypes Run.yields_fail
  · obtain ⟨sorted, s₂, hordered, hp⟩ := Run.yields_bind.mp htypes
    obtain ⟨rfl, -⟩ := ordered_types_yields hordered
    obtain ⟨rfl, -⟩ := Run.yields_pure.mp hp
    rw [← sorted]
    exact .types

theorem fragment_output_emits {baseUri fragment : String} {out : Output} {s : State}
    (h : (fragmentOutput cfg j baseUri fragment).Yields {} out s) :
    ∃ schema, j.pointer? (fragmentPointer fragment) = some schema ∧
      (fragmentCall cfg j baseUri fragment schema).Emits cfg out := by
  unfold fragmentOutput at h
  dsimp only at h
  split at h
  · exact absurd h Run.yields_fail
  · next schema hschema =>
    refine ⟨schema, hschema, ?_⟩
    obtain ⟨r, s₁, hdefinition, hrest⟩ := Run.yields_bind.mp h
    have run : ((fragmentCall cfg j baseUri fragment schema).run cfg).Yields {} () s₁ :=
      Run.yields_bind.mpr ⟨r, s₁, hdefinition, Run.yields_pure.mpr ⟨rfl, rfl⟩⟩
    have sorted := Call.sorted_after run
    split at hrest
    · exact absurd hrest Run.yields_fail
    · obtain ⟨ts, s₂, hordered, hlookup⟩ := Run.yields_bind.mp hrest
      obtain ⟨rfl, -⟩ := ordered_types_yields hordered
      split at hlookup
      · next root hroot =>
        obtain ⟨rfl, -⟩ := Run.yields_pure.mp hlookup
        obtain ⟨hmem, -⟩ := name_of_lookup hroot
        rw [← sorted] at hmem ⊢
        exact .fragment hmem
      · exact absurd hlookup Run.yields_fail

/-- A conversion that succeeds makes a call, and gives what the call registers. -/
theorem convert_emits {out : Output} {ws : List Warning}
    (h : convert cfg j location = (.ok out, ws)) :
    ∃ call, conversionCall? cfg j location = some call ∧ call.Emits cfg out := by
  have succeeds : (convert cfg j location).1 = .ok out := by rw [h]
  obtain ⟨s, hy⟩ := convert_yields succeeds
  rcases haddress : addressed cfg location with ⟨uri, fragment⟩
  have whole : (∀ c rest, fragment ≠ some (c :: rest)) →
      ∃ call, conversionCall? cfg j location = some call ∧ call.Emits cfg out := by
    intro hfragment
    refine ⟨.document j (String.ofList uri), ?_, document_output_emits (s := s) ?_⟩
    · unfold conversionCall?
      rw [haddress]
      split
      · next c rest heq => exact absurd (Prod.mk.inj heq).2 (hfragment c rest)
      · next heq => rw [(Prod.mk.inj heq).1]
    · unfold output at hy
      unfold addressed at haddress
      dsimp only at hy
      rw [haddress] at hy
      split at hy
      · next c rest heq => exact absurd heq (hfragment c rest)
      · exact hy
  match fragment with
  | none => exact whole (by simp)
  | some [] => exact whole (by simp)
  | some (c :: rest) =>
    rw [output_at_fragment haddress] at hy
    obtain ⟨schema, hschema, hemits⟩ := fragment_output_emits hy
    refine ⟨_, ?_, hemits⟩
    simp only [conversionCall?, haddress, hschema, Option.map_some]

end AvroDerive.Convert
