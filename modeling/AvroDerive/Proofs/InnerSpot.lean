import AvroDerive.Proofs.NodeSpot
import AvroDerive.Proofs.WrittenReference

/-! # Nodes inside a node

The nodes inside a node stand in the same document, one or two levels deeper, and hold no references
but those of the node and of its document. -/
namespace AvroDerive

open Json Schema

/-- The scope of a node inside another one: in the same document, and one or two levels deeper. -/
structure Scope.Below (outer inner : Scope) : Prop where
  document : inner.document = outer.document
  baseUri : inner.baseUri = outer.baseUri
  deeper : outer.depth < inner.depth
  near : inner.depth ≤ outer.depth + 2

namespace Convert

/-- The node is inside one at the scope, and its references satisfy a condition. -/
structure Nested (w : String → Prop) (scope : Scope) (q : Spot) : Prop where
  below : scope.Below q.scope
  refers : RefersIn w q.schema

section Inner

variable {w : String → Prop} {scope : Scope} {o : Object}

theorem below_deeper : scope.Below scope.deeper :=
  ⟨rfl, rfl, Nat.lt_succ_self _, Nat.le_succ _⟩

theorem below_field (field : String) : scope.Below (scope.forField field) :=
  ⟨rfl, rfl, Nat.lt_succ_self _, Nat.le_succ _⟩

theorem below_record (record ns field : String) :
    scope.Below ((scope.forRecord record ns).forField field) :=
  ⟨rfl, rfl, Nat.lt_succ_of_lt (Nat.lt_succ_self _), Nat.le_refl _⟩

theorem candidate_spots_nested {candidates : List Json} (hc : ∀ c ∈ candidates, RefersIn w c) :
    ∀ q ∈ candidateSpots scope candidates, Nested w scope q := by
  have alternatives : ∀ (candidates : List Json) (n : Nat), (∀ c ∈ candidates, RefersIn w c) →
      ∀ q ∈ alternativeSpots scope n candidates, Nested w scope q := by
    intro candidates
    induction candidates with
    | nil => simp [alternativeSpots]
    | cons candidate candidates ih =>
      intro n hc
      rw [List.forall_mem_cons] at hc
      rw [alternativeSpots, List.forall_mem_cons]
      exact ⟨⟨below_field _, hc.1⟩, ih (n + 1) hc.2⟩
  unfold candidateSpots
  split
  · rw [List.forall_mem_singleton]
    exact ⟨below_deeper, hc _ (List.mem_singleton_self _)⟩
  · exact alternatives candidates 0 hc

theorem item_spots_nested (ho : ObjectRefersIn w o) : ∀ q ∈ itemSpots scope o, Nested w scope q := by
  unfold itemSpots
  split
  · next tuple hitems =>
    refine List.forall_mem_map.mpr fun item hi => ⟨below_deeper, ?_⟩
    exact list_refers ho hitems item hi
  · next items _ hitems =>
    rw [List.forall_mem_singleton]
    exact ⟨below_deeper, ho.get hitems⟩
  · simp

/-- The values of the members of a member that is an object. -/
theorem member_values_refer (ho : ObjectRefersIn w o) (key : String) :
    ∀ m ∈ ((Object.get? o key).bind asObject?).getD [], RefersIn w m.2 := by
  cases hg : Object.get? o key with
  | none => simp
  | some v =>
    cases v with
    | obj members => exact fun m hm => (refers_in_obj.mp (ho.get hg) m hm).2
    | _ => simp [asObject?]

theorem field_spots_nested (record ns : String) (ho : ObjectRefersIn w o) :
    ∀ q ∈ fieldSpots (scope.forRecord record ns) o, Nested w scope q := by
  have single : ∀ key field : String, ∀ v ∈ (Object.get? o key).toList,
      Nested w scope ⟨v, (scope.forRecord record ns).forField field⟩ := fun key field v hv =>
    ⟨below_record record ns field, ho.get (Option.mem_toList.mp hv)⟩
  simp only [fieldSpots, List.forall_mem_append, List.forall_mem_map]
  refine ⟨⟨⟨fun m hm => ?_, fun v hv => single _ _ v hv⟩, fun m hm => ?_⟩,
    fun v hv => single _ _ v hv⟩
  · exact ⟨below_record record ns m.1, member_values_refer ho "properties" m hm⟩
  · exact ⟨below_record record ns _, member_values_refer ho "patternProperties" m hm⟩

theorem unconditional_refers (ho : ObjectRefersIn w o) : ObjectRefersIn w (unconditional o) :=
  fun m hm => ho m (unconditional_members o m hm)

theorem record_spots_nested (name ns : String) (ho : ObjectRefersIn w o) :
    ∀ q ∈ recordSpots scope name ns o, Nested w scope q := by
  unfold recordSpots
  split
  · rw [List.forall_mem_singleton]
    exact ⟨below_record name ns "value", (unconditional_refers ho).json⟩
  · exact field_spots_nested (Name.ofText name) ns (unconditional_refers ho)

theorem keyword_spots_nested (ho : ObjectRefersIn w o) :
    ∀ q ∈ keywordSpots scope o, Nested w scope q := by
  intro q hq
  rcases keyword_spots_cases hq with ⟨types, htype, hq⟩ | hq | hq
  · refine candidate_spots_nested (fun c hc => ?_) q hq
    obtain ⟨type, hm, rfl⟩ := List.mem_map.mp hc
    have refers : RefersIn w type :=
      refers_in_arr.mp (ho.get htype) type (List.mem_of_mem_filter hm)
    exact (ho.insert (RefersIn.member (by decide) refers)).json
  · exact item_spots_nested ho q hq
  · exact record_spots_nested _ _ ho q hq

theorem plain_object_refers (ho : ObjectRefersIn w o) : ObjectRefersIn w (Spot.plainObject o) := by
  unfold Spot.plainObject withObjectType
  split
  · exact (unconditional_refers ho).insert (RefersIn.member (by decide) (refers_in_str _))
  · exact unconditional_refers ho

/-- The nodes inside a node hold references of the node and of the document around it only. -/
theorem inner_nested {p : Spot} (hd : RefersIn w p.scope.document) (hp : RefersIn w p.schema) :
    ∀ q ∈ p.inner, Nested w p.scope q := by
  obtain ⟨schema, scope⟩ := p
  cases schema with
  | obj o =>
    have ho : ObjectRefersIn w o := refers_in_obj.mp hp
    simp only [Spot.inner]
    split
    · exact candidate_spots_nested (expand_refers hd (unconditional_refers ho))
    · split
      · simp
      · exact keyword_spots_nested (plain_object_refers ho)
  | _ => simp [Spot.inner]

/-- Whatever is written, the nodes inside a node are below it. -/
theorem inner_below {p q : Spot} (hq : q ∈ p.inner) : p.scope.Below q.scope :=
  (inner_nested (w := fun _ => True) (fun _ _ => trivial) (fun _ _ => trivial) q hq).below

theorem record_spots_below (name ns : String) {q : Spot} (hq : q ∈ recordSpots scope name ns o) :
    scope.Below q.scope :=
  (record_spots_nested (w := fun _ => True) name ns (fun _ _ => ⟨fun _ _ _ => trivial,
    fun _ _ => trivial⟩) q hq).below

end Inner

/-- What a value refers to, its members and items refer to. -/
theorem inherits_references {w : String → Prop} : Inherits (RefersIn w) :=
  ⟨fun ho m hm => (refers_in_obj.mp ho m hm).2, fun ha => refers_in_arr.mp ha⟩

section Target

variable {cfg : Setting} {p : Spot} {reference : String} {located : Located}

/-- The keys beside the reference that a node is, if they shape the type. -/
def Spot.siblings? (p : Spot) : Option Json :=
  match p.schema with
  | .obj o =>
    if isBareReference (Spot.plainObject o) then none
    else some (.obj (Object.erase (Spot.plainObject o) "$ref"))
  | _ => none

/-- The reference that a node is stands in it. -/
theorem reference_refers {w : String → Prop} (hp : RefersIn w p.schema)
    (h : p.reference? = some reference) : w reference := by
  obtain ⟨schema, scope⟩ := p
  cases schema with
  | obj o =>
    simp only [Spot.reference?] at h
    split at h
    · simp at h
    · obtain ⟨v, hv, htext⟩ := Option.bind_eq_some_iff.mp h
      cases v with
      | str text =>
        obtain rfl := Option.some.inj htext
        exact (plain_object_refers (refers_in_obj.mp hp) _ (Object.mem_of_get? hv)).1 _ rfl rfl
      | _ => simp [asString?] at htext
  | _ => simp [Spot.reference?] at h

/-- The references of a fragment are written in the document that it was found in. -/
theorem LeadsTo.refers {scope : Scope} (h : LeadsTo cfg reference scope located) :
    RefersIn (· ∈ located.document.references) located.fragment := by
  cases h with
  | inside hf =>
    obtain ⟨part, -, hp⟩ := Option.bind_eq_some_iff.mp hf
    exact RefersIn.pointer (fun _ hr => hr) hp
  | across _ _ _ hp => exact RefersIn.pointer (fun _ hr => hr) hp

/-- What is converted for a reference stands in the document that the reference leads to. -/
theorem target_document (hr : p.reference? = some reference) :
    (p.target cfg reference located).scope.document = located.document := by
  obtain ⟨schema, scope⟩ := p
  cases schema with
  | obj o =>
    simp only [Spot.target, referenceSpot]
    split <;> rfl
  | _ => simp [Spot.reference?] at hr

/-- The references of what is converted for a reference are those of the fragment and those beside. -/
theorem target_refers {w : String → Prop} (hr : p.reference? = some reference)
    (hf : RefersIn w located.fragment)
    (hs : ∀ siblings, p.siblings? = some siblings → RefersIn w siblings) :
    RefersIn w (p.target cfg reference located).schema := by
  obtain ⟨schema, scope⟩ := p
  cases schema with
  | obj o =>
    simp only [Spot.target, referenceSpot]
    split
    · exact hf
    · next hbare =>
      refine (merge_all_refers ?_).json
      rw [List.forall_mem_cons, List.forall_mem_singleton]
      exact ⟨hs _ (by simp only [Spot.siblings?, if_neg hbare]), hf⟩
  | _ => simp [Spot.reference?] at hr

theorem siblings_refer {w : String → Prop} {siblings : Json} (hp : RefersIn w p.schema)
    (h : p.siblings? = some siblings) : RefersIn w siblings := by
  obtain ⟨schema, scope⟩ := p
  cases schema with
  | obj o =>
    simp only [Spot.siblings?] at h
    split at h
    · simp at h
    · obtain rfl := Option.some.inj h
      exact ((plain_object_refers (refers_in_obj.mp hp)).erase "$ref").json
  | _ => simp [Spot.siblings?] at h

end Target

end Convert

end AvroDerive
