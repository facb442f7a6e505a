import AvroDerive.Proofs.PlaceName
import AvroDerive.Proofs.RegularOutput
import AvroDerive.Proofs.StandaloneFragment

/-! # Where definitions come from

Every definition, at any depth, was made by the conversion of a node that a call leads to and is named
for its place, unless it stands in a list of types or was put together from others. So definitions of
one name that differ were made by two conversions at one place: beneath one record, for fields whose
names continue each other. -/
namespace AvroDerive

open AvroType

/-- A name continues both texts. -/
def Name.Meet (text text' : String) : Prop := ∃ name, Continues text name ∧ Continues text' name

/-- Types of one qualified name may be made in both scopes. -/
structure Scope.OnePlace (a b : Scope) : Prop where
  ns : a.typeNs = b.typeNs ∨ a.typeNs = b.beneath ∨ a.beneath = b.typeNs ∨ a.beneath = b.beneath
  field : Name.Meet a.localName b.localName

namespace Convert

open Json Schema

section Origin

variable (cfg : Setting) (call : Call)

/-- The call takes the turn. -/
def Call.Takes (turn : Turn) : Prop := ∃ turns, call.turns cfg = .ok turns ∧ turn ∈ turns

/-- The place of the definition that has its turn. -/
def Turn.spot (turn : Turn) : Spot := ⟨turn.schema, turn.scope cfg call.subject call.baseUri⟩

/-- The nodes that a call may lead to. -/
inductive Visited : Spot → Prop
  | turn {turn} : call.Takes cfg turn → Visited (turn.spot cfg call)
  | record {turn o q} : call.Takes cfg turn → turn.schema = .obj o →
    q ∈ recordSpots (turn.spot cfg call).scope (turn.typeName cfg).1 (turn.typeName cfg).2 o → Visited q
  | inner {p q} : Visited p → q ∈ p.inner → Visited q
  | target {p reference located} : Visited p → p.reference? = some reference →
    LeadsTo cfg reference p.scope located → Visited (p.target cfg reference located)

/-- A conversion by which a definition may be made: that of a node, or of a definition in its turn. -/
inductive Conversion where
  | node (p : Spot) (levels : Nat) (names : List String) (s : State)
  | turn (turn : Turn) (s : State)

namespace Conversion

/-- The state in which the conversion begins. -/
def start : Conversion → State
  | node _ _ _ s => s
  | turn _ s => s

def scope : Conversion → Scope
  | node p _ _ _ => p.scope
  | turn t _ => (t.spot cfg call).scope

/-- The conversion is one of a node by its own keywords, or of a turn that the call takes. -/
def Visits : Conversion → Prop
  | node p _ _ _ => Visited cfg call p ∧ p.own = true
  | turn t _ => call.Takes cfg t

/-- The node gets the type, or the type is registered in the turn. -/
def Gives : Conversion → AvroType → Prop
  | node p levels names s, t => ∃ names' s',
    (step cfg (nodeWithin cfg levels) p.schema p.scope).Yields names s (some t) names' s'
  | turn t s, u => ∃ v names s', u = t.entry cfg v ∧
    (definitionType cfg t.schema (t.spot cfg call).scope).Yields s (some v, names) s'

end Conversion

/-- The definition is a type, or part of a type, that a node has by itself and that is not named for
its place. -/
def OfTypeList (t : AvroType) : Prop :=
  ∃ p u, Visited cfg call p ∧ p.plain? = some u ∧ (p.own = true → u.isNamed = false) ∧
    ∃ part ∈ u.parts, t.clearDependencies = part.clearDependencies

/-- Where a definition comes from, up to the dependencies that are listed in it. A conversion begins in
a state whose definitions come from somewhere. -/
inductive Origin : AvroType → Prop
  | made {c : Conversion} {t u : AvroType} : c.Visits cfg call → (∀ d, Held c.start d → Origin d) →
    c.Gives cfg call t → t.isNamed = true → u.clearDependencies = t.clearDependencies → Origin u
  | listed {t} : OfTypeList cfg call t → Origin t
  | joined {level r s u} : Origin (.record r) → Origin (.record s) →
    u.clearDependencies = (record (joinedRecord level r s)).clearDependencies → Origin u
  | merged {d e u} : Origin (.enum d) → Origin (.enum e) →
    u.clearDependencies = (enum (mergeEnumPair none d e)).clearDependencies → Origin u

/-- The definition is what the conversion gives. -/
structure ComesFrom (c : Conversion) (u : AvroType) : Prop where
  visits : c.Visits cfg call
  start : ∀ d, Held c.start d → Origin cfg call d
  gives : ∃ t, c.Gives cfg call t ∧ t.isNamed = true ∧ u.clearDependencies = t.clearDependencies

/-- The definition was put together from two others. -/
def PutTogether (t : AvroType) : Prop :=
  (∃ level r s, Origin cfg call (.record r) ∧ Origin cfg call (.record s) ∧
    t.clearDependencies = (record (joinedRecord level r s)).clearDependencies) ∨
  ∃ d e, Origin cfg call (.enum d) ∧ Origin cfg call (.enum e) ∧
    t.clearDependencies = (enum (mergeEnumPair none d e)).clearDependencies

end Origin

section Place

variable {cfg : Setting} {call : Call} {c : Conversion} {t u : AvroType}

/-- What is registered in a turn has the name and the namespace of the turn. -/
theorem entry_placed (cfg : Setting) (call : Call) (turn : Turn) (t : AvroType) :
    Placed (turn.spot cfg call).scope (turn.entry cfg t) := by
  have named : ∀ {u : AvroType}, (u.isRecord || u.isEnum) = true →
      ((u.withName (turn.typeName cfg).1).withNs (turn.typeName cfg).2).name? =
        some (turn.typeName cfg).1 ∧
      ((u.withName (turn.typeName cfg).1).withNs (turn.typeName cfg).2).ns? =
        some (turn.typeName cfg).2 := by
    intro u hu
    cases u <;> simp_all [isRecord, isEnum, withName, withNs, name?, ns?]
  have legal : Name.ofText (turn.typeName cfg).1 = (turn.typeName cfg).1 :=
    Name.ofText_of_isLegal (turn_name_legal cfg turn)
  have kind : ((if t.isRecord || t.isEnum then t
      else valueRecord (turn.typeName cfg).1 (turn.typeName cfg).2 turn.schema t).isRecord ||
      (if t.isRecord || t.isEnum then t
      else valueRecord (turn.typeName cfg).1 (turn.typeName cfg).2 turn.schema t).isEnum) = true := by
    split
    · assumption
    · rfl
  obtain ⟨hname, hns⟩ := named kind
  exact ⟨Or.inl hns, _, hname, Or.inl legal.symm⟩

/-- A conversion names its type for the place. -/
theorem Conversion.gives_placed (hvisits : c.Visits cfg call) (h : c.Gives cfg call t)
    (ht : t.isNamed = true) : Placed (c.scope cfg call) t := by
  cases c with
  | node p levels names s =>
    obtain ⟨schema, scope⟩ := p
    obtain ⟨names', s', hy⟩ := h
    cases schema with
    | obj o => exact object_node_placed (node_within_places cfg levels) hvisits.2 hy ht
    | _ => simp [Conversion.Visits, Spot.own] at hvisits
  | turn t s =>
    obtain ⟨u, names, s', rfl, -⟩ := h
    exact entry_placed cfg call t u

/-- A conversion gives one type. -/
theorem Conversion.gives_unique (h : c.Gives cfg call t) (h' : c.Gives cfg call u) : t = u := by
  cases c with
  | node p levels names s =>
    obtain ⟨names₁, s₁, hy⟩ := h
    obtain ⟨names₂, s₂, hy'⟩ := h'
    have same := Except.ok.inj (Prod.mk.inj (hy.symm.trans hy')).1
    exact Option.some.inj (Prod.mk.inj same).1
  | turn t s =>
    obtain ⟨v, names₁, s₁, rfl, hy⟩ := h
    obtain ⟨w, names₂, s₂, rfl, hy'⟩ := h'
    have same := Except.ok.inj (Prod.mk.inj (hy.symm.trans hy')).1
    rw [Option.some.inj (Prod.mk.inj same).1]

theorem Placed.alike {scope : Scope} (h : Placed scope t)
    (hu : u.clearDependencies = t.clearDependencies) : Placed scope u := by
  have name : u.name? = t.name? := by rw [← clear_name u, hu, clear_name]
  have ns : u.ns? = t.ns? := by rw [← clear_ns u, hu, clear_ns]
  exact ⟨ns ▸ h.ns, name ▸ h.name⟩

theorem Origin.alike (h : Origin cfg call t) (hu : u.clearDependencies = t.clearDependencies) :
    Origin cfg call u := by
  cases h with
  | made hv hs hg hn he => exact .made hv hs hg hn (hu.trans he)
  | listed hl =>
    obtain ⟨p, plain, hp, hplain, hbare, part, hm, he⟩ := hl
    exact .listed ⟨p, plain, hp, hplain, hbare, part, hm, hu.trans he⟩
  | joined hr hs he => exact .joined hr hs (hu.trans he)
  | merged hd he hm => exact .merged hd he (hu.trans hm)

/-- The law that definitions come from somewhere. -/
def Law.places (cfg : Setting) (call : Call) : Law cfg where
  imports _ := True
  free _ := True
  documents known := ∀ e ∈ known, Fetched cfg e.1 e.2
  spot := Visited cfg call
  turn d baseUri turn := d = call.subject ∧ baseUri = call.baseUri ∧ call.Takes cfg turn
  origin := Origin cfg call
  unknown _ _ := trivial
  write _ _ _ := trivial
  fetched hknown hf := List.forall_mem_cons.mpr ⟨hf, hknown⟩
  inner := .inner
  target hp href hd hl := .target hp href (locate_leads hd hl)
  begins := by
    rintro _ _ turn ⟨rfl, rfl, h⟩
    exact .turn h
  beginsRecord := by
    rintro _ _ turn o ⟨rfl, rfl, h⟩ ho q hq
    exact .record h ho hq
  alike := Origin.alike
  joinedRecord hr hs := .joined hr hs rfl
  mergedEnum hd he := .merged hd he rfl
  listed hp hplain hbare hu _ := .listed ⟨_, _, hp, hplain, hbare, _, hu, rfl⟩
  made {p levels names s t names' s'} hp hown hheld hy hn :=
    have visits : (Conversion.node p levels names s).Visits cfg call := ⟨hp, hown⟩
    .made visits hheld ⟨names', s', hy⟩ hn rfl
  registered := by
    rintro _ _ turn s t names s' ⟨rfl, rfl, h⟩ hheld hy
    have visits : (Conversion.turn turn s).Visits cfg call := h
    obtain ⟨-, name, hname, -⟩ := entry_placed cfg call turn t
    exact .made visits hheld ⟨t, names, s', rfl, hy⟩ (named_of_name hname) rfl

/-- Definitions of one qualified name that are named for their places have one place. -/
theorem Placed.one_place {a b : Scope} (ht : Placed a t) (hu : Placed b u)
    (hlegal : ∀ name, t.name? = some name → Name.isLegal name = true)
    (hlegal' : ∀ name, u.name? = some name → Name.isLegal name = true)
    (h : t.qualifiedName? = u.qualifiedName?) : a.OnePlace b := by
  obtain ⟨hns, name, hname, hc⟩ := ht
  obtain ⟨hns', name', hname', hc'⟩ := hu
  have same : ∀ {ns ns'}, t.ns? = some ns → u.ns? = some ns' → ns = ns' ∧ name = name' := by
    intro ns ns' hn hn'
    rw [qualifiedName?, qualifiedName?, hname, hname', hn, hn'] at h
    exact qualify_legal (hlegal name hname) (hlegal' name' hname') (Option.some.inj h)
  have field : name = name' → Name.Meet a.localName b.localName := by
    rintro rfl
    exact ⟨name, hc, hc'⟩
  rcases hns with hns | hns <;> rcases hns' with hns' | hns' <;> obtain ⟨he, hn⟩ := same hns hns'
  · exact ⟨Or.inl he, field hn⟩
  · exact ⟨Or.inr (Or.inl he), field hn⟩
  · exact ⟨Or.inr (Or.inr (Or.inl he)), field hn⟩
  · exact ⟨Or.inr (Or.inr (Or.inr he)), field hn⟩

end Place

section Registered

mutual

/-- Definitions are parts. -/
theorem definitions_parts : (t : AvroType) → ∀ d ∈ t.definitions, d ∈ t.parts
  | .record r, d, h => by
    rw [definitions, List.mem_cons] at h
    rw [parts, List.mem_cons]
    exact h.imp_right (field_definitions_parts r.fields d)
  | .array items, d, h => List.mem_cons_of_mem _ (definitions_parts items d h)
  | .map values, d, h => List.mem_cons_of_mem _ (definitions_parts values d h)
  | .union branches, d, h => List.mem_cons_of_mem _ (branch_definitions_parts branches d h)
  | .enum _, _, h | .fixed _, _, h => h

theorem field_definitions_parts : (fs : List (Field AvroType)) →
    ∀ d ∈ fieldDefinitions fs, d ∈ fieldParts fs
  | f :: fs, d, h => by
    rw [fieldDefinitions, List.mem_append] at h
    rw [fieldParts, List.mem_append]
    exact h.imp (definitions_parts f.type d) (field_definitions_parts fs d)

theorem branch_definitions_parts : (ts : List AvroType) →
    ∀ d ∈ branchDefinitions ts, d ∈ branchParts ts
  | t :: ts, d, h => by
    rw [branchDefinitions, List.mem_append] at h
    rw [branchParts, List.mem_append]
    exact h.imp (definitions_parts t d) (branch_definitions_parts ts d)

end

variable {cfg : Setting} {call : Call} {t d e : AvroType}

/-- All types that are held after a call are regular, and come from somewhere if they are named. -/
theorem held_part_origin (ht : t ∈ (call.after cfg {}).registry) (hd : d ∈ t.parts) :
    Regular d ∧ (d.isNamed = true → Origin cfg call d) := by
  have start : (Law.places cfg call).Holds {} := ⟨trivial, by simp [Law.places], by simp, by simp⟩
  have turns : ∀ turns, call.turns cfg = .ok turns →
      ∀ turn ∈ turns, (Law.places cfg call).turn call.subject call.baseUri turn :=
    fun turns hturns turn hturn => ⟨rfl, rfl, turns, hturns, hturn⟩
  have holds : (Law.places cfg call).Holds (call.after cfg {}) := (call_lawful turns {} start).1
  exact holds.registry t ht d hd

/-- All definitions that are held after a call have legal names and come from somewhere. -/
theorem held_origin (ht : t ∈ (call.after cfg {}).registry) (hd : d ∈ t.definitions) :
    Regular d ∧ Origin cfg call d :=
  (held_part_origin ht (definitions_parts t d hd)).imp_right fun h => h (definition_named t d hd)

theorem ComesFrom.placed {c : Conversion} (h : ComesFrom cfg call c d) :
    Placed (c.scope cfg call) d := by
  obtain ⟨t, hg, hn, he⟩ := h.gives
  exact (Conversion.gives_placed h.visits hg hn).alike he

/-- What comes from one conversion is alike. -/
theorem ComesFrom.alike {c : Conversion} (hd : ComesFrom cfg call c d) (he : ComesFrom cfg call c e) :
    d.clearDependencies = e.clearDependencies := by
  obtain ⟨t, ht, -, hdt⟩ := hd.gives
  obtain ⟨u, hu, -, heu⟩ := he.gives
  rw [hdt, heu, Conversion.gives_unique ht hu]

/-- A definition was put together, stands in a list of types, or comes from a conversion. -/
theorem Origin.cases (h : Origin cfg call d) :
    PutTogether cfg call d ∨ OfTypeList cfg call d ∨ ∃ c, ComesFrom cfg call c d := by
  cases h with
  | made hv hs hg hn he => exact Or.inr (Or.inr ⟨_, hv, hs, _, hg, hn, he⟩)
  | listed hl => exact Or.inr (Or.inl hl)
  | joined hr hs he => exact Or.inl (Or.inl ⟨_, _, _, hr, hs, he⟩)
  | merged hd he hm => exact Or.inl (Or.inr ⟨_, _, hd, he, hm⟩)

end Registered

section Output

variable {cfg : Setting} {j : Json} {location : String}

/-- The call for a whole document that is found at the location. -/
def wholeCall (cfg : Setting) (j : Json) (location : String) : Call :=
  .document j (String.ofList (addressed cfg location).1)

/-- The types of a document in their order, before repeated definitions are replaced. -/
def sortedTypes (cfg : Setting) (j : Json) (location : String) : List AvroType :=
  (order ((wholeCall cfg j location).after cfg {}).registry).types

/-- A conversion that gives several types gives the sorted ones, with each name defined once. -/
theorem convert_evicts {ts : List AvroType} {ws : List Warning}
    (h : convert cfg j location = (.ok (.types ts), ws)) : ts = evict (sortedTypes cfg j location) := by
  have succeeds : (convert cfg j location).1 = .ok (.types ts) := by rw [h]
  obtain ⟨s, hy⟩ := convert_yields succeeds
  have whole : ∀ baseUri, (documentOutput cfg j baseUri).Yields {} (.types ts) s →
      ts = evict (order ((Call.document j baseUri).after cfg {}).registry).types := by
    intro baseUri hd
    unfold documentOutput at hd
    obtain ⟨_, s₁, hdocument, hrest⟩ := Run.yields_bind.mp hd
    have after : (Call.document j baseUri).after cfg {} = s₁ :=
      congrArg Prod.snd (show (document cfg j baseUri).run.run {} = (.ok _, s₁) from hdocument)
    rw [after]
    obtain ⟨_, _, hget, htypes⟩ := Run.yields_bind.mp hrest
    obtain ⟨rfl, rfl⟩ := Run.yields_get.mp hget
    split at htypes
    · exact absurd htypes Run.yields_fail
    · obtain ⟨sorted, s₂, hordered, hp⟩ := Run.yields_bind.mp htypes
      obtain ⟨rfl, -⟩ := ordered_types_yields hordered
      exact Output.types.inj (Run.yields_pure.mp hp).1
  unfold output at hy
  dsimp only at hy
  split at hy
  · obtain ⟨s', -, root, -, he⟩ := fragment_output_yields hy
    simp at he
  · exact whole _ hy

/-- Definitions of one qualified name, at any depth, are the same up to the dependencies that are listed
in them. Unless they come from two conversions at one place, beneath one record for fields whose names
continue each other, or one of them was put together from others or stands in a list of types, where it
has no namespace. Of the sorted types themselves no two have one name. -/
theorem namesakes_alike_or_one_place {ts : List AvroType} {ws : List Warning}
    (h : convert cfg j location = (.ok (.types ts), ws)) :
    let call := wholeCall cfg j location
    let sorted := sortedTypes cfg j location
    ts = evict sorted ∧ (definedNames sorted).Nodup ∧
    ∀ d ∈ sorted.flatMap definitions, ∀ e ∈ sorted.flatMap definitions,
      d.qualifiedName? = e.qualifiedName? →
      d.clearDependencies = e.clearDependencies ∨
      (∃ a b, a ≠ b ∧ ComesFrom cfg call a d ∧ ComesFrom cfg call b e ∧
        (a.scope cfg call).OnePlace (b.scope cfg call)) ∨
      (PutTogether cfg call d ∨ PutTogether cfg call e) ∨
      (OfTypeList cfg call d ∨ OfTypeList cfg call e) := by
  have perm := order_perm ((wholeCall cfg j location).after cfg {}).registry
  have origin : ∀ d ∈ (sortedTypes cfg j location).flatMap definitions,
      Regular d ∧ Origin cfg (wholeCall cfg j location) d := by
    intro d hd
    obtain ⟨t, ht, hd⟩ := List.mem_flatMap.mp hd
    exact held_origin (perm.subset ht) hd
  refine ⟨convert_evicts h, ?_, ?_⟩
  · have distinct : (definedNames ((wholeCall cfg j location).after cfg {}).registry).Nodup :=
      (call_orderly _ orderly_start rfl).1.distinct
    exact (perm.filterMap qualifiedName?).nodup_iff.mpr distinct
  · intro d hd e he hname
    obtain ⟨hlegal, horigin⟩ := origin d hd
    obtain ⟨hlegal', horigin'⟩ := origin e he
    rcases horigin.cases with hd | hd | ⟨a, ha⟩
    · exact Or.inr (Or.inr (Or.inl (Or.inl hd)))
    · exact Or.inr (Or.inr (Or.inr (Or.inl hd)))
    · rcases horigin'.cases with he | he | ⟨b, hb⟩
      · exact Or.inr (Or.inr (Or.inl (Or.inr he)))
      · exact Or.inr (Or.inr (Or.inr (Or.inr he)))
      · by_cases same : a = b
        · subst same
          exact Or.inl (ha.alike hb)
        · exact Or.inr (Or.inl ⟨a, b, same, ha, hb,
            ha.placed.one_place hb.placed hlegal.name hlegal'.name hname⟩)

end Output

/-- A record with a tuple of two records. -/
def pairing : Json := .obj [("definitions", .obj [("D", objectSchema [("k", .obj [
  ("type", .str "array"), ("items", .arr [
    objectSchema [("x", .obj [("type", .str "string")])],
    objectSchema [("y", .obj [("type", .str "string")])]])])])])]

/-- The record of an item of the tuple. -/
def pairRecord (field : String) : AvroType :=
  .record { name := "k", ns := some "ns.D_types",
            fields := [{ name := field, type := .union [.null, .primitive "string"] }] }

def isList : Output → Bool
  | .types _ => true
  | .fragment _ => false

theorem tuple_records_one_place : ∃ ts ws, convert offline pairing "" = (.ok (.types ts), ws) ∧
    pairRecord "x" ∈ (sortedTypes offline pairing "").flatMap definitions ∧
    pairRecord "y" ∈ (sortedTypes offline pairing "").flatMap definitions ∧
    ((pairRecord "x").clearDependencies = (pairRecord "y").clearDependencies ∨
      (∃ a b, a ≠ b ∧ ComesFrom offline (wholeCall offline pairing "") a (pairRecord "x") ∧
        ComesFrom offline (wholeCall offline pairing "") b (pairRecord "y") ∧
        (a.scope offline (wholeCall offline pairing "")).OnePlace
          (b.scope offline (wholeCall offline pairing ""))) ∨
      (PutTogether offline (wholeCall offline pairing "") (pairRecord "x") ∨
        PutTogether offline (wholeCall offline pairing "") (pairRecord "y")) ∨
      (OfTypeList offline (wholeCall offline pairing "") (pairRecord "x") ∨
        OfTypeList offline (wholeCall offline pairing "") (pairRecord "y"))) := by
  obtain ⟨out, hout, htypes⟩ := output_of_any
    (show (convert offline pairing "").1.toOption.any isList = true by decide +kernel)
  cases out with
  | fragment t => simp [isList] at htypes
  | types ts =>
    have hx : pairRecord "x" ∈ (sortedTypes offline pairing "").flatMap definitions := by
      decide +kernel
    have hy : pairRecord "y" ∈ (sortedTypes offline pairing "").flatMap definitions := by
      decide +kernel
    exact ⟨ts, _, hout, hx, hy, (namesakes_alike_or_one_place hout).2.2 _ hx _ hy (by decide)⟩

/-- The records of the tuple have one name and differ. -/
theorem tuple_records_differ : (convert offline pairing "").1.isOk = true ∧
    ¬Consistent (((sortedTypes offline pairing "").flatMap definitions).map clearDependencies) :=
  ⟨by decide +kernel, by decide +kernel⟩

end Convert

end AvroDerive
