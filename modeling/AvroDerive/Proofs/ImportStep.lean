import AvroDerive.Proofs.Turn
import Mathlib.Logic.Relation

/-! # Imports step by step

Whatever a converter is called for, what it remembers and registers changes in few ways. An import
begins, which may promise a name; it is settled once its fragment is converted; and a definition that
has its turn is kept. A call that fails leaves the imports that it was in the middle of begun and not
settled. -/
namespace AvroDerive.Convert

open AvroType Json Schema

/-- What the conversions of a converter come across: documents under the base URIs they stand at,
the texts that schemas hold, and the schemas that have a turn in a document of a base URI. -/
structure Corpus where
  stands : String → Json → Prop
  written : String → Prop
  turns : String → Turn → Prop

/-- Fetched documents belong to the corpus, and so do the texts of all documents and schemas. -/
structure Corpus.Closed (cfg : Setting) (c : Corpus) : Prop where
  fetched : ∀ {url d}, Fetched cfg url d → c.stands url d
  texts : ∀ {baseUri d}, c.stands baseUri d → TextsIn c.written d
  schemas : ∀ {baseUri t}, c.turns baseUri t → TextsIn c.written t.schema

/-- A text that is no primitive type's name is passed on where a type is expected. -/
def Corpus.PassedOn (c : Corpus) (name : String) : Prop := c.written name ∧ name ∉ primitiveNames

/-- Where a reference leads to that stands at a scope. -/
inductive LeadsTo (cfg : Setting) (reference : String) (scope : Scope) : Located → Prop
  | inside {fragment} : localFragment? scope.document reference = some fragment →
    LeadsTo cfg reference scope ⟨fragment, scope.document, scope.baseUri, none⟩
  | across {url d fragment} : localPart? reference = none →
    absolute reference scope.baseUri = .ok url → Fetched cfg url.withoutFragment.text d →
    d.pointer? ((url.fragment.map fragmentPointer).getD "") = some fragment →
    LeadsTo cfg reference scope ⟨fragment, d, url.withoutFragment.text, some url⟩

/-- The full name of a type, from its name and its namespace. -/
def fullOf (name : String × String) : String := qualify (some name.2) name.1

/-- The full name of the record that stands in for one of the name. -/
def standInOf (name : String × String) : String :=
  qualify (some name.2) (Name.ofText (name.1 ++ "_ref"))

/-- A reference whose fragment is converted, at the scope where it stands. -/
structure Import where
  reference : String
  scope : Scope
  located : Located

namespace Import

def key (i : Import) : String := Location.resolve i.scope.baseUri i.reference

/-- The name and the namespace that the reference gives to the type of the fragment. -/
def typeName (cfg : Setting) (i : Import) : String × String :=
  referenceName cfg i.reference i.located.url i.scope

/-- The scope at which the fragment is converted. -/
def inner (cfg : Setting) (i : Import) : Scope :=
  { record := (i.typeName cfg).1, ns := (i.typeName cfg).2, document := i.located.document,
    baseUri := i.located.baseUri, depth := i.scope.depth + 1 }

/-- The state in which the fragment is converted: if it stands alone, its name is promised. -/
def begun (cfg : Setting) (i : Import) (s : State) : State :=
  if isStandalone i.located.fragment then
    { s with imports := Imports.insert s.imports i.key (.named (fullOf (i.typeName cfg))) }
  else s

structure Valid (cfg : Setting) (c : Corpus) (i : Import) : Prop where
  stands : c.stands i.scope.baseUri i.scope.document
  written : c.written i.reference
  leads : LeadsTo cfg i.reference i.scope i.located

end Import

/-- A fragment gets a name, from a reference that leads to it or in its own turn. With the key under
which references to it are remembered, if there can be any. -/
inductive Corpus.Gives (cfg : Setting) (c : Corpus) :
    Option String → Json → String × String → Prop
  | reference {i : Import} : i.Valid cfg c → c.Gives cfg (some i.key) i.located.fragment
    (i.typeName cfg)
  | turn {baseUri t} : c.turns baseUri t → c.Gives cfg (t.key baseUri) t.schema (t.typeName cfg)

/-- What becomes of an import when the type of its fragment is there: the type that the reference
gets, and the state. -/
inductive Settles (key expected : String) : Option AvroType → AvroType → State → State → Prop
  | registered {t names s} : (t.isRecord || t.isEnum) = true → t.qualifiedName? = some expected →
    Settles key expected (some t) (.reference expected) s
      { s with registry := (Registry.register s.registry t names).2
               imports := Imports.insert s.imports key (.named expected) }
  | standIn {t s} : (t.isRecord || t.isEnum) = true → t.qualifiedName? ≠ some expected →
    Settles key expected (some t) t s { s with imports := Imports.erase s.imports key }
  | passed {name s} : Settles key expected (some (.reference name)) (.reference name) s
      { s with imports := Imports.insert s.imports key (.named name) }
  | inline {t s} : (t.isRecord || t.isEnum) = false → (∀ name, t ≠ .reference name) →
    Settles key expected (some t) t s
      { s with imports := Imports.insert s.imports key (.inline t) }
  | empty {s w} : Settles key expected none .generic s
      { s with imports := Imports.erase s.imports key, warnings := s.warnings ++ [w] }

/-- What becomes of a definition in its turn when its type is there: the name that it leads to, if
it has any, and the state. -/
inductive Keeps (key : Option String) (schema : Json) (name : String × String) :
    Option AvroType → Option String → State → State → Prop
  | registered {t u names s} : (t.isRecord || t.isEnum) = true ∧ u = t ∨
      (t.isRecord || t.isEnum) = false ∧ u = valueRecord name.1 name.2 schema t →
    Keeps key schema name (some t) (some (fullOf name)) s
      { s with registry := (Registry.register s.registry ((u.withName name.1).withNs name.2)
                 names).2
               imports := ((key.filter fun _ => isStandalone schema).map
                 (·, some (.named (fullOf name)))).toList ++ s.imports }
  | passed {target s} : Registry.contains s.registry target = true →
    Keeps key schema name (some (.reference target)) (some target) s
      { s with imports := (key.map (·, some (.named target))).toList ++ s.imports }
  | empty {s w} : Keeps key schema name none none s { s with warnings := s.warnings ++ [w] }

/-- The name is registered, has been remembered, or is passed on. -/
def Handed (c : Corpus) (s : State) (name : String) : Prop :=
  name ∈ definedNames s.registry ∨ (∃ key, (key, some (.named name)) ∈ s.imports) ∨
    c.PassedOn name

/-- A step of a conversion, which has begun some imports, innermost first. -/
inductive Step (cfg : Setting) (c : Corpus) : List Import × State → List Import × State → Prop
  | aside {is s s'} : s'.imports = s.imports → s'.registry = s.registry →
    s.warnings <+: s'.warnings → Step cfg c (is, s) (is, s')
  | begin {is i s} : i.Valid cfg c → Imports.get? s.imports i.key = none →
    Step cfg c (is, s) (i :: is, i.begun cfg s)
  | settle {is i levels names t u s s₀ s'} : i.Valid cfg c →
    (nodeWithin cfg levels i.located.fragment (i.inner cfg)).Yields [] s₀ t names s →
    (∀ name, t = some (.reference name) → Handed c s name) →
    Settles i.key (fullOf (i.typeName cfg)) t u s s' → Step cfg c (i :: is, s) (is, s')
  | turn {baseUri d t r names n s s₀ s'} : c.stands baseUri d → c.turns baseUri t →
    s₀.frames = [] →
    (definitionType cfg t.schema (.root (t.typeName cfg).1 (t.typeName cfg).2 d baseUri)).Yields s₀
      (r, names) s →
    Keeps (t.key baseUri) t.schema (t.typeName cfg) r n s s' → Step cfg c ([], s) ([], s')

/-- What a step adds for a reference that is remembered. An import that begins promises a name; one that
is settled has registered that name, was passed another one or a type, or is forgotten; and a turn leads to
a name that is registered. -/
inductive Adds (cfg : Setting) (c : Corpus) (a b : List Import × State) (key : String) :
    Option Imported → Prop
  | promised {i : Import} {name : String} (valid : i.Valid cfg c) (leads : i.key = key)
      (given : name = fullOf (i.typeName cfg)) (begins : b.1 = i :: a.1)
      (alone : isStandalone i.located.fragment = true) : Adds cfg c a b key (some (.named name))
  | registered {i : Import} {name : String} (valid : i.Valid cfg c) (leads : i.key = key)
      (given : name = fullOf (i.typeName cfg)) (defined : name ∈ definedNames b.2.registry) :
      Adds cfg c a b key (some (.named name))
  | passed {i : Import} {levels : Nat} {target : String} {names : List String} {s₀ : State}
      (valid : i.Valid cfg c) (leads : i.key = key)
      (converted : (nodeWithin cfg levels i.located.fragment (i.inner cfg)).Yields [] s₀
        (some (.reference target)) names a.2)
      (handed : Handed c a.2 target) : Adds cfg c a b key (some (.named target))
  | inline {i : Import} {levels : Nat} {t : AvroType} {names : List String} {s₀ : State}
      (converted : (nodeWithin cfg levels i.located.fragment (i.inner cfg)).Yields [] s₀
        (some t) names a.2) : Adds cfg c a b key (some (.inline t))
  | forgotten : Adds cfg c a b key none
  | turn {baseUri name : String} {t : Turn} (turn : c.turns baseUri t)
      (leads : t.key baseUri = some key) (given : name = fullOf (t.typeName cfg))
      (defined : name ∈ definedNames b.2.registry) : Adds cfg c a b key (some (.named name))
  | aliased {baseUri target : String} {d : Json} {t : Turn} {names : List String} {s₀ : State}
      (turn : c.turns baseUri t) (leads : t.key baseUri = some key) (top : s₀.frames = [])
      (converted : (definitionType cfg t.schema (.root (t.typeName cfg).1 (t.typeName cfg).2 d
        baseUri)).Yields s₀ (some (.reference target), names) a.2)
      (defined : target ∈ definedNames b.2.registry) : Adds cfg c a b key (some (.named target))

/-- Any number of steps. -/
abbrev Steps (cfg : Setting) (c : Corpus) : List Import × State → List Import × State → Prop :=
  Relation.ReflTransGen (Step cfg c)

theorem get_cons_ne {imports : Imports} {key other : String} (o : Option Imported)
    (h : other ≠ key) : Imports.get? ((key, o) :: imports) other = Imports.get? imports other := by
  rw [Imports.get?, List.lookup_cons, beq_eq_false_iff_ne.mpr h, Imports.get?]

theorem get_cons_self (imports : Imports) (key : String) (o : Option Imported) :
    Imports.get? ((key, o) :: imports) key = o := by
  rw [Imports.get?, List.lookup_cons_self, Option.join_some]

section Inversion

variable {s s' : State} {key reference expected : String} {scope : Scope} {t : Option AvroType}
  {u : AvroType} {names more more' : List String}

/-- Settling an import does one of the things that it may do. -/
theorem settle_settles
    (h : (settle key reference expected scope t names).Yields more s u more' s') :
    Settles key expected t u s s' := by
  unfold settle at h
  cases t with
  | none =>
    obtain ⟨_, _, s₁, hlift, hrest⟩ := Build.yields_bind.mp h
    obtain ⟨hforget, rfl⟩ := Build.yields_lift.mp hlift
    obtain rfl := Run.yields_forget.mp hforget
    obtain ⟨_, _, s₂, hlift, hpure⟩ := Build.yields_bind.mp hrest
    obtain ⟨hwarn, rfl⟩ := Build.yields_lift.mp hlift
    obtain rfl := Run.yields_warn.mp hwarn
    obtain ⟨rfl, -, rfl⟩ := Build.yields_pure.mp hpure
    exact .empty
  | some t =>
    dsimp only at h
    split at h
    · next hkind =>
      split at h
      · next hname =>
        obtain ⟨_, _, s₁, hlift, hrest⟩ := Build.yields_bind.mp h
        obtain ⟨hregister, rfl⟩ := Build.yields_lift.mp hlift
        obtain ⟨rfl, rfl⟩ := Run.yields_register.mp hregister
        obtain ⟨_, _, s₂, hlift, hrest⟩ := Build.yields_bind.mp hrest
        obtain ⟨hremember, rfl⟩ := Build.yields_lift.mp hlift
        obtain rfl := Run.yields_remember.mp hremember
        obtain ⟨_, _, s₃, hdepend, hpure⟩ := Build.yields_bind.mp hrest
        obtain ⟨-, rfl⟩ := Build.yields_depend.mp hdepend
        obtain ⟨rfl, -, rfl⟩ := Build.yields_pure.mp hpure
        rw [hname, Option.getD_some]
        exact .registered hkind hname
      · next hname =>
        obtain ⟨_, _, s₁, hlift, hrest⟩ := Build.yields_bind.mp h
        obtain ⟨hforget, rfl⟩ := Build.yields_lift.mp hlift
        obtain rfl := Run.yields_forget.mp hforget
        obtain ⟨_, _, s₂, hdepend, hpure⟩ := Build.yields_bind.mp hrest
        obtain ⟨-, rfl⟩ := Build.yields_dependAll.mp hdepend
        obtain ⟨rfl, -, rfl⟩ := Build.yields_pure.mp hpure
        exact .standIn hkind hname
    · next hkind =>
      rw [Bool.not_eq_true] at hkind
      have remembered : ∀ i : Imported, (do
          Run.remember key i
          Build.dependAll names
          return t : Build AvroType).Yields more s u more' s' →
          u = t ∧ s' = { s with imports := Imports.insert s.imports key i } := by
        intro i h
        obtain ⟨_, _, s₁, hlift, hrest⟩ := Build.yields_bind.mp h
        obtain ⟨hremember, rfl⟩ := Build.yields_lift.mp hlift
        obtain rfl := Run.yields_remember.mp hremember
        obtain ⟨_, _, s₂, hdepend, hpure⟩ := Build.yields_bind.mp hrest
        obtain ⟨-, rfl⟩ := Build.yields_dependAll.mp hdepend
        obtain ⟨rfl, -, rfl⟩ := Build.yields_pure.mp hpure
        exact ⟨rfl, rfl⟩
      cases t with
      | reference name =>
        obtain ⟨rfl, rfl⟩ := remembered _ h
        exact .passed
      | _ =>
        obtain ⟨rfl, rfl⟩ := remembered _ h
        exact .inline hkind (by simp)

theorem register_definition_yields {key : Option String} {schema : Json} {name ns n : String}
    {t : AvroType} (ht : (t.isRecord || t.isEnum) = true)
    (h : (registerDefinition key schema name ns t names).Yields s n s') : n = qualify (some ns) name ∧
      s' = { s with
        registry := (Registry.register s.registry ((t.withName name).withNs ns) names).2
        imports := ((key.filter fun _ => isStandalone schema).map
          (·, some (.named (qualify (some ns) name)))).toList ++ s.imports } := by
  have hname : ((t.withName name).withNs ns).qualifiedName? = some (qualify (some ns) name) := by
    cases t <;> simp_all [isRecord, isEnum, withName, withNs, qualifiedName?, name?, ns?]
  unfold registerDefinition at h
  obtain ⟨_, s₁, hregister, hrest⟩ := Run.yields_bind.mp h
  obtain ⟨rfl, rfl⟩ := Run.yields_register.mp hregister
  rw [hname, Option.getD_some] at hrest
  cases key with
  | none =>
    obtain ⟨rfl, rfl⟩ := Run.yields_pure.mp hrest
    exact ⟨rfl, rfl⟩
  | some key =>
    dsimp only at hrest
    split at hrest
    · next hs =>
      obtain ⟨_, s₂, hremember, hpure⟩ := Run.yields_bind.mp hrest
      obtain rfl := Run.yields_remember.mp hremember
      obtain ⟨rfl, rfl⟩ := Run.yields_pure.mp hpure
      refine ⟨rfl, ?_⟩
      simp [Option.filter_some, hs, Imports.insert]
    · next hs =>
      obtain ⟨rfl, rfl⟩ := Run.yields_pure.mp hrest
      refine ⟨rfl, ?_⟩
      simp [Option.filter_some, hs]

theorem kept_qualified {t u : AvroType} {schema : Json} {name : String × String}
    (hu : (t.isRecord || t.isEnum) = true ∧ u = t ∨
      (t.isRecord || t.isEnum) = false ∧ u = valueRecord name.1 name.2 schema t) :
    ((u.withName name.1).withNs name.2).qualifiedName? = some (fullOf name) := by
  rcases hu with ⟨hkind, rfl⟩ | ⟨-, rfl⟩
  · cases u <;> simp_all [isRecord, isEnum, withName, withNs, qualifiedName?, name?, ns?, fullOf]
  · rfl

theorem alias_of {r : Registry} {t : AvroType} {target : String}
    (h : aliasOf? r t = some target) : t = .reference target ∧ Registry.contains r target = true := by
  unfold aliasOf? at h
  split at h
  · split at h
    · next hc =>
      obtain rfl := Option.some.inj h
      exact ⟨rfl, hc⟩
    · simp at h
  · simp at h

/-- Keeping a definition does one of the things that it may do. -/
theorem keep_definition_keeps {key : Option String} {schemaName : String} {schema : Json}
    {name : String × String} {n : Option String}
    (h : (keepDefinition key schemaName schema name.1 name.2 t names).Yields s n s') :
    Keeps key schema name t n s s' := by
  unfold keepDefinition at h
  cases t with
  | none =>
    obtain ⟨_, s₁, hwarn, hpure⟩ := Run.yields_bind.mp h
    obtain rfl := Run.yields_warn.mp hwarn
    obtain ⟨rfl, rfl⟩ := Run.yields_pure.mp hpure
    exact .empty
  | some t =>
    dsimp only at h
    split at h
    · next hkind =>
      obtain ⟨_, s₁, hregister, hpure⟩ := Run.yields_bind.mp h
      obtain ⟨rfl, rfl⟩ := register_definition_yields hkind hregister
      obtain ⟨rfl, rfl⟩ := Run.yields_pure.mp hpure
      exact .registered (Or.inl ⟨hkind, rfl⟩)
    · next hkind =>
      rw [Bool.not_eq_true] at hkind
      obtain ⟨_, _, hget, hrest⟩ := Run.yields_bind.mp h
      obtain ⟨rfl, rfl⟩ := Run.yields_get.mp hget
      split at hrest
      · next target htarget =>
        obtain ⟨rfl, hc⟩ := alias_of htarget
        cases key with
        | none =>
          obtain ⟨rfl, rfl⟩ := Run.yields_pure.mp hrest
          exact .passed hc
        | some key =>
          obtain ⟨_, s₂, hremember, hpure⟩ := Run.yields_bind.mp hrest
          obtain rfl := Run.yields_remember.mp hremember
          obtain ⟨rfl, rfl⟩ := Run.yields_pure.mp hpure
          exact .passed hc
      · obtain ⟨_, s₁, hregister, hpure⟩ := Run.yields_bind.mp hrest
        obtain ⟨rfl, rfl⟩ := register_definition_yields (t := valueRecord name.1 name.2 schema t)
          rfl hregister
        obtain ⟨rfl, rfl⟩ := Run.yields_pure.mp hpure
        exact .registered (Or.inr ⟨hkind, rfl⟩)

end Inversion

end AvroDerive.Convert
