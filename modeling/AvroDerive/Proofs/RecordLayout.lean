import AvroDerive.Proofs.GrowingRun
import AvroDerive.Proofs.RecordField

/-! # The layout of a record

The record of an object schema is laid out by the schema: first its properties in order, then the map
for further ones, then a map for each pattern. The nodes there are converted one after another, each
from the state that the one before left, and each field holds what its own node came to. -/
namespace AvroDerive.Convert

open AvroType Json Schema

/-- A type with `null` put first. -/
def withNullFirst : AvroType → AvroType
  | .union branches => .union (.null :: branches)
  | t => .union [.null, t]

/-- The field for a property whose node came to a type, or to none. A required one has that type; any
other one admits `null`. -/
structure PropertyField (required : List String) (m : String × Json) (t : Option AvroType)
    (f : Field AvroType) : Prop where
  name : f.name = Name.ofText m.1
  doc : f.doc = m.2.asObject?.bind description?
  given : m.1 ∈ required → f.type = orGeneric t
  nullable : m.1 ∉ required → f.type.containsNull = true
  kept : m.1 ∉ required → (orGeneric t).containsNull = true → f.type = orGeneric t
  widened : m.1 ∉ required → (orGeneric t).containsNull = false → f.type = withNullFirst (orGeneric t)

/-- The field for properties that are not listed by name: a map to the type of their node, or to the
generic one if that says nothing. -/
def MapField (name : String) (t : Option AvroType) (f : Field AvroType) : Prop :=
  f = { name, type := .map (usefulOrGeneric t) }

/-- A node of an object schema, and how the field looks that is made of its type. -/
structure FieldPlan where
  spot : Spot
  Fits : Option AvroType → Field AvroType → Prop

def isSchema : Json → Bool
  | .obj _ | .bool _ => true
  | _ => false

/-- The properties whose schema is an object or a boolean. -/
def schemaProperties (o : Object) : List (String × Json) :=
  (propertiesOf o).filter fun m => isSchema m.2

def propertyPlans (scope : Scope) (o : Object) : List FieldPlan :=
  (schemaProperties o).map fun m => ⟨⟨m.2, scope.forField m.1⟩, PropertyField (required o) m⟩

/-- The plan for further properties as a field of the given name, if `additionalProperties` holds an
object. -/
def furtherPlans (name : String) (scope : Scope) (o : Object) : List FieldPlan :=
  match Object.get? o "additionalProperties" with
  | some (.obj schema) =>
    [⟨⟨.obj schema, scope.forField (scope.record ++ "_extensions")⟩, MapField name⟩]
  | _ => []

/-- The plan for `additionalProperties`, if that holds an object. -/
def additionalPlans (scope : Scope) (o : Object) : List FieldPlan :=
  match Object.get? o "additionalProperties" with
  | some (.obj schema) =>
    [⟨⟨.obj schema, scope.forField (scope.record ++ "_extensions")⟩, MapField "additionalProperties"⟩]
  | _ => []

def patternPlans (scope : Scope) (o : Object) : List FieldPlan :=
  (patternsOf o).map fun m =>
    ⟨⟨m.2, scope.forField (patternName m.1)⟩, MapField (Name.ofText (patternName m.1))⟩

/-- The fields of the record for an object schema that lists properties, in order. -/
def recordPlans (scope : Scope) (o : Object) : List FieldPlan :=
  propertyPlans scope o ++ additionalPlans scope o ++ patternPlans scope o

/-- The nodes are converted one after another, and each gives one field that fits. -/
inductive LaidOut (node : NodeConverter) :
    List FieldPlan → List String → State → List (Field AvroType) → List String → State → Prop
  | nil {names s} : LaidOut node [] names s [] names s
  | cons {p ps t f fs names names₁ names' s s₁ s'} :
    (node p.spot.schema p.spot.scope).Yields names s t names₁ s₁ → p.Fits t f →
    LaidOut node ps names₁ s₁ fs names' s' → LaidOut node (p :: ps) names s (f :: fs) names' s'

section Layout

variable {node : NodeConverter} {scope : Scope} {o : Object} {s s' s₁ : State}
  {names names' names₁ : List String} {fields : List (Field AvroType)}

theorem LaidOut.append {ps qs : List FieldPlan} {fs gs : List (Field AvroType)}
    (h : LaidOut node ps names s fs names₁ s₁) (h' : LaidOut node qs names₁ s₁ gs names' s') :
    LaidOut node (ps ++ qs) names s (fs ++ gs) names' s' := by
  induction h with
  | nil => exact h'
  | cons hy hfit _ ih => exact .cons hy hfit (ih h')

theorem make_nullable_eq (t : AvroType) :
    makeNullable t = if t.containsNull then t else withNullFirst t := by
  unfold makeNullable withNullFirst
  split
  · rfl
  · cases t <;> rfl

theorem contains_null_first (t : AvroType) : (withNullFirst t).containsNull = true := by
  cases t <;> rfl

/-- The field of a property has the type of its node, or that type with `null`. -/
theorem property_field_fits (required : List String) (m : String × Json) (t : Option AvroType) :
    PropertyField required m t
      { name := Name.ofText m.1,
        type := if m.1 ∈ required then orGeneric t else makeNullable (orGeneric t),
        doc := m.2.asObject?.bind description? } where
  name := rfl
  doc := rfl
  given h := if_pos h
  nullable h := by
    rw [if_neg h, make_nullable_eq]
    split
    · assumption
    · exact contains_null_first _
  kept h hn := by rw [if_neg h, make_nullable_eq, if_pos hn]
  widened h hn := by rw [if_neg h, make_nullable_eq, if_neg (by simp [hn])]

theorem property_fields_laid_out {required : List String} {properties : Object}
    (h : (propertyFields node required scope properties).Yields names s fields names' s') :
    LaidOut node ((properties.filter fun m => isSchema m.2).map fun m =>
      ⟨⟨m.2, scope.forField m.1⟩, PropertyField required m⟩) names s fields names' s' := by
  induction properties generalizing names s fields with
  | nil =>
    obtain ⟨rfl, rfl, rfl⟩ := Build.yields_pure.mp h
    exact .nil
  | cons m properties ih =>
    obtain ⟨name, schema⟩ := m
    have field : isSchema schema = true → (do
        let t := orGeneric (← node schema (scope.forField name))
        let field : Field AvroType :=
          { name := Name.ofText name, type := if name ∈ required then t else makeNullable t,
            doc := schema.asObject?.bind description? }
        return field :: (← propertyFields node required scope properties) :
          Build (List (Field AvroType))).Yields names s fields names' s' →
        LaidOut node ((((name, schema) :: properties).filter fun m => isSchema m.2).map fun m =>
          ⟨⟨m.2, scope.forField m.1⟩, PropertyField required m⟩) names s fields names' s' := by
      intro hschema h
      obtain ⟨t, names₁, s₁, hnode, hrest⟩ := Build.yields_bind.mp h
      obtain ⟨rest, names₂, s₂, hfields, hp⟩ := Build.yields_bind.mp hrest
      obtain ⟨rfl, rfl, rfl⟩ := Build.yields_pure.mp hp
      rw [List.filter_cons, if_pos hschema, List.map_cons]
      exact .cons hnode (property_field_fits required (name, schema) t) (ih hfields)
    cases schema with
    | obj o => exact field rfl h
    | bool b => exact field rfl h
    | _ =>
      rw [List.filter_cons, if_neg (by simp [isSchema])]
      exact ih h

theorem additional_field_laid_out {name : String}
    (h : (additionalField node name scope o).Yields names s fields names' s') :
    LaidOut node (furtherPlans name scope o) names s fields names' s' := by
  unfold additionalField at h
  split at h
  · next schema hschema =>
    obtain ⟨t, names₁, s₁, hnode, hp⟩ := Build.yields_bind.mp h
    obtain ⟨rfl, rfl, rfl⟩ := Build.yields_pure.mp hp
    rw [furtherPlans, hschema]
    exact .cons hnode rfl .nil
  · next hschema =>
    obtain ⟨rfl, rfl, rfl⟩ := Build.yields_pure.mp h
    unfold furtherPlans
    split
    · next schema hs => exact absurd hs (hschema schema)
    · exact .nil

theorem pattern_fields_laid_out {patterns : Object}
    (h : (patternFields node scope patterns).Yields names s fields names' s') :
    LaidOut node (patterns.map fun m => ⟨⟨m.2, scope.forField (patternName m.1)⟩,
      MapField (Name.ofText (patternName m.1))⟩) names s fields names' s' := by
  induction patterns generalizing names s fields with
  | nil =>
    obtain ⟨rfl, rfl, rfl⟩ := Build.yields_pure.mp h
    exact .nil
  | cons m patterns ih =>
    obtain ⟨t, names₁, s₁, hnode, hrest⟩ := Build.yields_bind.mp h
    obtain ⟨rest, names₂, s₂, hfields, hp⟩ := Build.yields_bind.mp hrest
    obtain ⟨rfl, rfl, rfl⟩ := Build.yields_pure.mp hp
    exact .cons hnode rfl (ih hfields)

theorem record_fields_laid_out
    (hlisted : ((Object.get? o "properties").bind asObject?).any (!·.isEmpty) = true)
    (h : (recordFields node scope o).Yields names s fields names' s') :
    LaidOut node (recordPlans scope o) names s fields names' s' := by
  unfold recordFields at h
  unfold recordPlans propertyPlans schemaProperties propertiesOf
  rcases hp : (Object.get? o "properties").bind asObject? with _ | (_ | ⟨m, properties⟩)
  · simp [hp] at hlisted
  · simp [hp] at hlisted
  · rw [hp] at h
    obtain ⟨own, names₁, s₁, hown, hrest⟩ := Build.yields_bind.mp h
    obtain ⟨additional, names₂, s₂, hadditional, hrest⟩ := Build.yields_bind.mp hrest
    obtain ⟨patterns, names₃, s₃, hpatterns, hpure⟩ := Build.yields_bind.mp hrest
    obtain ⟨rfl, rfl, rfl⟩ := Build.yields_pure.mp hpure
    rw [List.append_assoc, List.append_assoc]
    exact (property_fields_laid_out hown).append
      ((additional_field_laid_out hadditional).append (pattern_fields_laid_out hpatterns))

/-- Conditional keywords do not count in the layout. -/
theorem record_plans_unconditional (h : (Object.keys o).Nodup) (scope : Scope) :
    recordPlans scope (unconditional o) = recordPlans scope o := by
  unfold recordPlans propertyPlans additionalPlans patternPlans schemaProperties propertiesOf
    patternsOf required
  rw [get_unconditional h (by decide), get_unconditional h (by decide),
    get_unconditional h (by decide), get_unconditional h (by decide)]

end Layout

/-- The state in which the fields of a record are begun: it is under construction, and a warning is
given for the conditional keywords of its schema. -/
def recordBegun (frame : Frame) (o : Object) (s : State) : State :=
  { s with
    frames := frame :: s.frames
    warnings := s.warnings ++ if (withoutConditionals? o).isSome then [.conditional] else [] }

/-- An object schema that lists properties becomes a record, if its conversion succeeds and no record of
the name is under construction. Its fields are those planned by the schema, in that order; each is made
of the type that its node came to, converted in its turn while the record is under construction. Whether
the conversion succeeds or fails, the records under construction are those that were. -/
theorem object_record_laid_out (cfg : Setting) (name ns : String) (o : Object) (scope : Scope)
    (s : State) (hkeys : (Object.keys o).Nodup) (hplain : hasComposition o = false)
    (hlisted : ((Object.get? o "properties").bind asObject?).any (!·.isEmpty) = true)
    (hnew : Frames.find? s.frames (Name.ofText name) = none) :
    ((objectRecord (node cfg) name ns o scope).run.run s).2.frames = s.frames ∧
    ∀ t s', (objectRecord (node cfg) name ns o scope).Yields s t s' →
      ∃ r names s₁, t = some (.record r) ∧
        r.name = Name.ofText name ∧ r.ns = (if ns = "" then none else some ns) ∧
        r.doc = description? o ∧ r.dependencies = distinct names ∧
        LaidOut (node cfg) (recordPlans (scope.forRecord (Name.ofText name) ns) o) []
          (recordBegun ⟨Name.ofText name, ns⟩ o s) r.fields names s₁ ∧
        s' = { s₁ with frames := s.frames } := by
  have same : ∀ key, key ∉ conditionalKeywords →
      Object.get? (unconditional o) key = Object.get? o key := fun _ => get_unconditional hkeys
  have plain : hasComposition (unconditional o) = false := by
    rw [← hplain]
    simp only [hasComposition, Object.contains]
    rw [same _ (by decide), same _ (by decide), same _ (by decide)]
  have kept : ((objectRecord (node cfg) name ns o scope).run.run s).2.frames = s.frames :=
    (object_record_growing name ns o scope s).frames
  refine ⟨kept, fun t s' h => ?_⟩
  rw [show (objectRecord (node cfg) name ns o scope).run.run s = (.ok t, s') from h] at kept
  unfold objectRecord at h
  rw [without_conditionals_eq, bind_assoc] at h
  obtain ⟨_, s₀, hwarn, h⟩ := Run.yields_bind.mp h
  obtain rfl := Run.yields_warnAll.mp hwarn
  rw [pure_bind, if_neg (by simp [plain])] at h
  obtain ⟨_, _, hget, h⟩ := Run.yields_bind.mp h
  obtain ⟨rfl, rfl⟩ := Run.yields_get.mp hget
  rw [hnew] at h
  obtain ⟨s₁, hb, rfl⟩ := Run.yields_within.mp h
  unfold buildRecord at hb
  obtain ⟨⟨fields, names⟩, s₂, hfields, hrecord⟩ := Run.yields_bind.mp hb
  dsimp only at hrecord
  rw [same _ (by decide), hlisted, if_neg (by simp)] at hrecord
  obtain ⟨rfl, rfl⟩ := Run.yields_pure.mp hrecord
  have laid := record_fields_laid_out (by rwa [same _ (by decide)]) (Build.yields_apart.mp hfields)
  rw [record_plans_unconditional hkeys] at laid
  refine ⟨_, names, s₁, rfl, rfl, rfl, ?_, rfl, laid, ?_⟩
  · show description? (unconditional o) = description? o
    rw [description?, description?, same _ (by decide)]
  · rw [← kept]

/-- A schema that requires one of its two properties and admits further ones, with one that is no
schema in between. -/
def bagSchema : Object :=
  [("properties", .obj [("x", .obj [("type", .str "string")]), ("odd", .str "string"),
      ("y", .obj [("type", .str "integer")])]),
    ("required", .arr [.str "x"]), ("if", .bool true),
    ("additionalProperties", .obj [("type", .str "number")]),
    ("patternProperties", .obj [("^ext-", .bool true)])]

/-- The record of the bag is begun inside another one. -/
def insideOuter : State := { frames := [⟨"Outer", "ns"⟩] }

theorem bag_laid_out : ∃ r names s₁,
    (objectRecord (node offline) "Bag" "ns" bagSchema (.root "Bag" "ns" .null "")).Yields insideOuter
      (some (.record r)) { s₁ with frames := insideOuter.frames } ∧
    r.fields.map Field.name = ["x", "y", "additionalProperties", "_ext_"] ∧
    LaidOut (node offline)
      (recordPlans ((Scope.root "Bag" "ns" .null "").forRecord (Name.ofText "Bag") "ns") bagSchema) []
      (recordBegun ⟨Name.ofText "Bag", "ns"⟩ bagSchema insideOuter) r.fields names s₁ := by
  rcases h : (objectRecord (node offline) "Bag" "ns" bagSchema
    (.root "Bag" "ns" .null "")).run.run insideOuter with ⟨result, s'⟩
  have fields : ((objectRecord (node offline) "Bag" "ns" bagSchema
      (.root "Bag" "ns" .null "")).run.run insideOuter).1.toOption.any (fun t =>
        decide (fieldNamesOf t = ["x", "y", "additionalProperties", "_ext_"])) = true := by
    decide +kernel
  rw [h] at fields
  cases result with
  | error e => simp [Except.toOption] at fields
  | ok t =>
    obtain ⟨r, names, s₁, rfl, -, -, -, -, laid, rfl⟩ := (object_record_laid_out offline "Bag" "ns"
      bagSchema (.root "Bag" "ns" .null "") insideOuter (by decide) (by decide) (by decide)
      (by decide)).2 t s' h
    exact ⟨r, names, s₁, h, of_decide_eq_true fields, laid⟩

end AvroDerive.Convert
