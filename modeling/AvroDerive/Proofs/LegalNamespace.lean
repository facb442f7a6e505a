import AvroDerive.Proofs.FieldName

/-! # Legal namespaces

A namespace is composed from the root namespace, keys of pointers and names of records. Each key is made
a namespace of its own, in which dots stay and only the first character is looked at. So a key with
nothing between two of its dots, or with a digit behind one, makes a namespace that is not legal; nothing
else does. -/
namespace AvroDerive

namespace Namespace

/-- Legal names, with dots between them. -/
def isLegal (ns : String) : Bool := (Text.split '.' ns).all Name.isLegal

/-- Between the dots of a key there is always something, and none but the first part starts with a
digit. -/
def isSeparable (key : String) : Bool :=
  match Text.splitOn '.' key.toList with
  | [] => false
  | first :: rest => !first.isEmpty && rest.all fun part => part.head?.any (!·.isDigit)

theorem legal_iff {ns : String} :
    isLegal ns = true ↔ ∀ part ∈ Text.splitOn '.' ns.toList, Name.isLegalChars part = true := by
  simp [isLegal, Text.split, Name.isLegal]

theorem splitOn_sanitized (cs : List Char) : Text.splitOn '.' (cs.map sanitizeChar) =
    (Text.splitOn '.' cs).map (List.map sanitizeChar) := by
  have dot : ∀ c, sanitizeChar c = '.' ↔ c = '.' := by
    intro c
    unfold sanitizeChar
    split
    · rfl
    · next h =>
      rw [Bool.or_eq_true, not_or, decide_eq_true_eq] at h
      exact iff_of_false (by decide) h.2
  induction cs with
  | nil => rfl
  | cons c cs ih =>
    simp only [List.map_cons, Text.splitOn, dot, ih]
    split
    · rfl
    · cases Text.splitOn '.' cs <;> rfl

theorem isPart_sanitized {c : Char} (h : c ≠ '.') : Name.isPart (sanitizeChar c) = true := by
  unfold sanitizeChar
  split
  · next hc => simpa [h] using hc
  · decide

theorem start_no_digit {c : Char} (h : Name.isStart c = true) : c.isDigit = false := by
  by_contra hd
  rw [Bool.not_eq_false] at hd
  have alpha : c.isAlpha = (decide ('A'.val ≤ c.val ∧ c.val ≤ 'Z'.val) ||
      decide ('a'.val ≤ c.val) && decide (c.val ≤ 'z'.val)) := rfl
  simp only [Name.isStart, alpha, Char.isDigit, Bool.or_eq_true, Bool.and_eq_true, decide_eq_true_eq,
    ge_iff_le, UInt32.le_iff_toNat_le] at h hd
  rcases h with (h | h) | rfl
  · exact absurd (h.1.trans hd.2) (by decide)
  · exact absurd (h.1.trans hd.2) (by decide)
  · exact absurd hd (by decide)

/-- What is no digit starts a name when it is sanitized. -/
theorem isStart_sanitized {c : Char} (h : c ≠ '.') :
    Name.isStart (sanitizeChar c) = !c.isDigit := by
  have part : Name.isPart c = true → Name.isStart c = !c.isDigit := by
    intro hp
    cases hd : c.isDigit with
    | true =>
      cases hs : Name.isStart c with
      | false => rfl
      | true => simp [start_no_digit hs] at hd
    | false => simpa [Name.isPart, Char.isAlphanum, hd, Name.isStart] using hp
  have other : ¬Name.isPart c = true → c.isDigit = false := by
    intro hp
    by_contra hd
    exact hp (by simp [Name.isPart, Char.isAlphanum, hd])
  unfold sanitizeChar
  simp only [h, decide_false, Bool.or_false]
  split
  · next hp => exact part hp
  · next hp => rw [other hp]; decide

/-- A part that has no dot makes a legal name, unless it is empty or starts with a digit. -/
theorem legal_sanitized {part : List Char} (h : '.' ∉ part) :
    Name.isLegalChars (part.map sanitizeChar) = part.head?.any (!·.isDigit) := by
  cases part with
  | nil => rfl
  | cons c rest =>
    rw [List.mem_cons, not_or] at h
    have parts : (rest.map sanitizeChar).all Name.isPart = true := by
      rw [List.all_map, List.all_eq_true]
      exact fun d hd => isPart_sanitized fun he => h.2 (he ▸ hd)
    rw [List.map_cons, Name.isLegalChars, parts, Bool.and_true, isStart_sanitized (Ne.symm h.1)]
    rfl

theorem digit_sanitized (c : Char) : (sanitizeChar c).isDigit = c.isDigit := by
  unfold sanitizeChar
  split
  · rfl
  · next hc =>
    simp only [Name.isPart, Char.isAlphanum, Bool.or_eq_true, not_or, Bool.not_eq_true] at hc
    rw [hc.1.1.2]
    decide

/-- The first part makes a legal name, with an underscore in front if it starts with a digit. -/
theorem legal_sanitized_first {c : Char} {part : List Char} (h : '.' ∉ c :: part) :
    Name.isLegalChars ((if c.isDigit then ['_'] else []) ++ (c :: part).map sanitizeChar) = true := by
  split
  · have parts : ((c :: part).map sanitizeChar).all Name.isPart = true := by
      rw [List.all_map, List.all_eq_true]
      exact fun d hd => isPart_sanitized fun he => h (he ▸ hd)
    rw [List.singleton_append, Name.isLegalChars, parts]
    decide
  · next hd =>
    rw [List.nil_append, legal_sanitized h]
    simpa using hd

theorem split_of_text {key : String} {c : Char} {cs : List Char} (h : key.toList = c :: cs) :
    Text.splitOn '.' (ofText key).toList =
      Text.splitOn '.' ((if c.isDigit then ['_'] else []) ++ (c :: cs).map sanitizeChar) := by
  simp only [ofText, h, List.map_cons, String.toList_ofList, digit_sanitized]
  split
  · rfl
  · rfl

theorem splitOn_cons {c : Char} {cs part : List Char} {parts : List (List Char)} (hc : c ≠ '.')
    (h : Text.splitOn '.' cs = part :: parts) :
    Text.splitOn '.' (c :: cs) = (c :: part) :: parts := by
  rw [Text.splitOn, if_neg hc, h]

/-- A key makes a legal namespace just if it is separable. -/
theorem of_text_legal (key : String) : isLegal (ofText key) = isSeparable key := by
  have later : ∀ parts : List (List Char), (∀ part ∈ parts, '.' ∉ part) →
      ((∀ part ∈ parts.map (List.map sanitizeChar), Name.isLegalChars part = true) ↔
        parts.all (fun part => part.head?.any (!·.isDigit)) = true) := by
    intro parts hp
    rw [List.forall_mem_map, List.all_eq_true]
    exact forall₂_congr fun part hm => by rw [legal_sanitized (hp part hm)]
  rw [Bool.eq_iff_iff, legal_iff]
  unfold isSeparable
  cases hk : key.toList with
  | nil =>
    have empty : ofText key = "" := by simp [ofText, hk]
    rw [empty]
    decide
  | cons c cs =>
    rw [split_of_text hk]
    by_cases hc : c = '.'
    · subst hc
      simp [Text.splitOn, sanitizeChar, Name.isLegalChars, Name.isPart]
    · cases hs : Text.splitOn '.' cs with
      | nil => exact absurd hs (Text.splitOn_ne_nil _ _)
      | cons part parts =>
        have whole := splitOn_cons hc hs
        have dotless : ∀ p ∈ (c :: part) :: parts, '.' ∉ p :=
          fun p hp => Text.not_mem_of_mem_splitOn (whole ▸ hp)
        rw [List.forall_mem_cons] at dotless
        have sanitized : Text.splitOn '.' ((c :: cs).map sanitizeChar) =
            (c :: part).map sanitizeChar :: parts.map (List.map sanitizeChar) := by
          rw [splitOn_sanitized, whole, List.map_cons]
        have split : Text.splitOn '.' ((if c.isDigit then ['_'] else []) ++
            (c :: cs).map sanitizeChar) =
            ((if c.isDigit then ['_'] else []) ++ (c :: part).map sanitizeChar) ::
              parts.map (List.map sanitizeChar) := by
          split
          · exact splitOn_cons (by decide) sanitized
          · exact sanitized
        rw [split, whole, List.forall_mem_cons, later parts dotless.2]
        exact and_iff_right (legal_sanitized_first dotless.1)

/-- A legal namespace is made one once more when it is composed with further parts. -/
theorem separable_of_legal {ns : String} (h : isLegal ns = true) : isSeparable ns = true := by
  rw [legal_iff] at h
  unfold isSeparable
  cases hs : Text.splitOn '.' ns.toList with
  | nil => exact absurd hs (Text.splitOn_ne_nil _ _)
  | cons first rest =>
    rw [hs, List.forall_mem_cons] at h
    dsimp only
    rw [Bool.and_eq_true, List.all_eq_true]
    refine ⟨?_, fun part hp => ?_⟩
    · cases first with
      | nil => simp [Name.isLegalChars] at h
      | cons c cs => rfl
    · have legal := h.2 part hp
      cases part with
      | nil => simp [Name.isLegalChars] at legal
      | cons c cs =>
        rw [Name.isLegalChars, Bool.and_eq_true] at legal
        simp [start_no_digit legal.1]

theorem legal_ne {ns : String} (h : isLegal ns = true) : ns ≠ "" := by
  rintro rfl
  exact absurd h (by decide)

/-- A legal name is a namespace of one part. -/
theorem legal_of_name {name : String} (h : Name.isLegal name = true) : isLegal name = true := by
  rw [legal_iff, Text.splitOn_of_not_mem (Convert.dotless_of_legal h), List.forall_mem_singleton]
  exact h

theorem legal_join {a b : String} (ha : isLegal a = true) (hb : isLegal b = true) :
    isLegal (a ++ "." ++ b) = true := by
  rw [legal_iff] at ha hb ⊢
  have dot : ".".toList = ['.'] := rfl
  rw [String.toList_append, String.toList_append, dot, List.append_assoc, List.singleton_append,
    Text.splitOn_append, List.forall_mem_append]
  exact ⟨ha, hb⟩

theorem intercalate_legal {parts : List String} (hne : parts ≠ [])
    (h : ∀ part ∈ parts, isLegal part = true) : isLegal (".".intercalate parts) = true := by
  induction parts with
  | nil => exact absurd rfl hne
  | cons part parts ih =>
    rw [List.forall_mem_cons] at h
    cases parts with
    | nil => simpa using h.1
    | cons next parts =>
      rw [String.intercalate_cons_cons]
      exact legal_join h.1 (ih (by simp) h.2)

/-- The parts that are not empty make a legal namespace together, if each is separable. -/
theorem compose_legal {parts : List String} (h : ∀ part ∈ parts, part ≠ "" → isSeparable part = true) :
    isLegal (compose parts) = true ∨ compose parts = "" ∧ ∀ part ∈ parts, part = "" := by
  unfold compose
  by_cases hne : parts.filter (· ≠ "") = []
  · refine Or.inr ⟨by rw [hne]; rfl, fun part hp => ?_⟩
    simpa using List.filter_eq_nil_iff.mp hne part hp
  · refine Or.inl (intercalate_legal (by simpa using hne) (List.forall_mem_map.mpr fun part hp => ?_))
    obtain ⟨hm, hfull⟩ := List.mem_filter.mp hp
    rw [of_text_legal]
    exact h part hm (by simpa using hfull)

/-- Legal, or empty under an empty root namespace. -/
def LegalUnder (root ns : String) : Prop := isLegal ns = true ∨ ns = "" ∧ root = ""

theorem LegalUnder.separable {root ns : String} (h : LegalUnder root ns) (hne : ns ≠ "") :
    isSeparable ns = true :=
  separable_of_legal (h.resolve_right fun he => hne he.1)

/-- What is composed beneath a legal name is legal. -/
theorem LegalUnder.beneath {root ns name : String} (h : LegalUnder root ns)
    (hname : Name.isLegal name = true) : isLegal (compose [ns, name ++ "_types"]) = true := by
  have single : isLegal (name ++ "_types") = true :=
    legal_of_name (Convert.legal_append hname (by decide))
  refine (compose_legal ?_).resolve_right fun he => ?_
  · simp only [List.forall_mem_cons]
    exact ⟨h.separable, fun _ => separable_of_legal single, fun _ hpart => (List.not_mem_nil hpart).elim⟩
  · exact legal_ne single (he.2 _ (by simp))

end Namespace

namespace Convert

open AvroType Json Schema

/-- The keys of a pointer that become parts of a namespace. -/
def namespaceKeys (pointer : String) : List String :=
  (Pointer.keys pointer).dropLast.filter (· ∉ definitionGroups)

/-- The pointer that the type of a reference is named for. -/
def referencePointer (reference : String) (url : Option Url) : String :=
  fragmentPointer (match url with
    | some url => url.fragment.getD ""
    | none => (localPart? reference).getD "")

section Keys

variable (cfg : Setting) (call : Call)

/-- The keys from which a call composes namespaces: those of the pointers that its definitions stand at
and that its references hold. -/
inductive ComposesKey : String → Prop
  | turn {turn pointer key} : call.Takes cfg turn → turn.pointer = some pointer →
    key ∈ namespaceKeys pointer → ComposesKey key
  | reference {p reference located key} : Visited cfg call p → p.reference? = some reference →
    LeadsTo cfg reference p.scope located → key ∈ namespaceKeys (referencePointer reference located.url) →
    ComposesKey key

/-- All keys that are composed make legal namespaces. -/
def KeysSeparable : Prop :=
  ∀ key, ComposesKey cfg call key → key ≠ "" → Namespace.isSeparable key = true

end Keys

/-- The scope is inside a type with a legal name and a legal namespace. -/
structure LegalHome (cfg : Setting) (scope : Scope) : Prop where
  record : Name.isLegal scope.record = true
  ns : Namespace.LegalUnder cfg.rootNs scope.ns

section Scopes

variable {cfg : Setting} {call : Call} {scope : Scope}

/-- A pointer gives a legal namespace if its keys are separable. -/
theorem type_name_namespace {root pointer : String} {p : String × String}
    (h : typeName? root pointer = some p) (hroot : Namespace.LegalUnder root root)
    (hkeys : ∀ key ∈ namespaceKeys pointer, key ≠ "" → Namespace.isSeparable key = true) :
    Namespace.LegalUnder root p.2 := by
  simp only [typeName?, typeNameOfKeys?, Option.map_eq_some_iff] at h
  obtain ⟨last, -, rfl⟩ := h
  refine (Namespace.compose_legal (List.forall_mem_cons.mpr ⟨hroot.separable, hkeys⟩)).imp_right ?_
  exact fun he => ⟨he.1, he.2 _ List.mem_cons_self⟩

theorem turn_legal_home (hroot : Namespace.LegalUnder cfg.rootNs cfg.rootNs)
    (hkeys : KeysSeparable cfg call) {turn : Turn} (ht : call.Takes cfg turn) :
    LegalHome cfg (turn.spot cfg call).scope := by
  refine ⟨turn_name_legal cfg turn, ?_⟩
  show Namespace.LegalUnder cfg.rootNs (turn.typeName cfg).2
  unfold Turn.typeName
  cases hp : turn.pointer.bind (typeName? cfg.rootNs) with
  | none => exact hroot
  | some p =>
    obtain ⟨pointer, hpointer, hp⟩ := Option.bind_eq_some_iff.mp hp
    exact type_name_namespace hp hroot fun key hk => hkeys key (.turn ht hpointer hk)

theorem reference_name_namespace (reference : String) (url : Option Url)
    (hroot : Namespace.LegalUnder cfg.rootNs cfg.rootNs)
    (hkeys : ∀ key ∈ namespaceKeys (referencePointer reference url), key ≠ "" →
      Namespace.isSeparable key = true) :
    Namespace.LegalUnder cfg.rootNs (referenceName cfg reference url scope).2 := by
  unfold referenceName
  dsimp only
  split
  · next p hp => exact type_name_namespace hp hroot hkeys
  · exact hroot

/-- A fragment is converted inside the type that its reference names. -/
theorem import_legal_home (i : Import) (hroot : Namespace.LegalUnder cfg.rootNs cfg.rootNs)
    (hkeys : ∀ key ∈ namespaceKeys (referencePointer i.reference i.located.url), key ≠ "" →
      Namespace.isSeparable key = true) : LegalHome cfg (i.inner cfg) := by
  have legal : Name.isLegal (i.typeName cfg).1 = true := by
    rw [← i.type_name_legal cfg]
    exact Name.isLegal_ofText _
  have ns : Namespace.LegalUnder cfg.rootNs (i.typeName cfg).2 :=
    reference_name_namespace i.reference i.located.url hroot hkeys
  constructor
  · dsimp only [Import.inner]
    exact legal
  · dsimp only [Import.inner]
    exact ns

theorem LegalHome.type_ns (h : LegalHome cfg scope) :
    Namespace.LegalUnder cfg.rootNs scope.typeNs := by
  unfold Scope.typeNs
  split
  · exact h.ns
  · exact Or.inl (h.ns.beneath h.record)

/-- The fields of a record are at home in it. -/
theorem field_spots_legal_home {o : Object} (h : LegalHome cfg scope) :
    ∀ q ∈ fieldSpots scope o, LegalHome cfg q.scope := by
  simp only [fieldSpots, List.forall_mem_append, List.forall_mem_map]
  exact ⟨⟨⟨fun _ _ => ⟨h.record, h.ns⟩, fun _ _ => ⟨h.record, h.ns⟩⟩,
    fun _ _ => ⟨h.record, h.ns⟩⟩, fun _ _ => ⟨h.record, h.ns⟩⟩

theorem record_spots_legal_home {o : Object} {name ns : String}
    (hname : hasComposition (unconditional o) = true → Name.isLegal name = true)
    (hns : Namespace.LegalUnder cfg.rootNs ns) :
    ∀ q ∈ recordSpots scope name ns o, LegalHome cfg q.scope := by
  unfold recordSpots
  split
  · next hc =>
    rw [List.forall_mem_singleton]
    exact ⟨hname hc, hns⟩
  · have home : LegalHome cfg (scope.forRecord (Name.ofText name) ns) :=
      ⟨Name.isLegal_ofText name, hns⟩
    exact field_spots_legal_home home

theorem candidate_spots_legal_home (h : LegalHome cfg scope) (candidates : List Json) :
    ∀ q ∈ candidateSpots scope candidates, LegalHome cfg q.scope := by
  have alternatives : ∀ (candidates : List Json) (n : Nat),
      ∀ q ∈ alternativeSpots scope n candidates, LegalHome cfg q.scope := by
    intro candidates
    induction candidates with
    | nil => simp [alternativeSpots]
    | cons candidate candidates ih =>
      intro n
      rw [alternativeSpots, List.forall_mem_cons]
      exact ⟨⟨h.record, h.ns⟩, ih (n + 1)⟩
  unfold candidateSpots
  split
  · rw [List.forall_mem_singleton]
    exact ⟨h.record, h.ns⟩
  · exact alternatives candidates 0

theorem item_spots_legal_home (h : LegalHome cfg scope) (o : Object) :
    ∀ q ∈ itemSpots scope o, LegalHome cfg q.scope := by
  unfold itemSpots
  split
  · exact List.forall_mem_map.mpr fun _ _ => ⟨h.record, h.ns⟩
  · rw [List.forall_mem_singleton]
    exact ⟨h.record, h.ns⟩
  · simp

theorem inner_legal_home {p q : Spot} (h : LegalHome cfg p.scope) (hq : q ∈ p.inner) :
    LegalHome cfg q.scope := by
  obtain ⟨schema, scope⟩ := p
  cases schema with
  | obj o =>
    simp only [Spot.inner] at hq
    split at hq
    · exact candidate_spots_legal_home h _ q hq
    · next hc =>
      split at hq
      · simp at hq
      · next hr =>
        have plain := own_composes_nothing (own_iff.mpr ⟨by simpa using hc, by simpa using hr⟩)
        rcases keyword_spots_cases hq with ⟨types, -, hq⟩ | hq | hq
        · exact candidate_spots_legal_home h _ q hq
        · exact item_spots_legal_home h _ q hq
        · exact record_spots_legal_home (by simp [plain]) h.type_ns q hq
  | _ => simp [Spot.inner] at hq

/-- Every node that a call leads to is inside a type with a legal name and a legal namespace. -/
theorem visited_legal_home (hroot : Namespace.LegalUnder cfg.rootNs cfg.rootNs)
    (hkeys : KeysSeparable cfg call) {p : Spot} (hp : Visited cfg call p) : LegalHome cfg p.scope := by
  induction hp with
  | turn ht => exact turn_legal_home hroot hkeys ht
  | record ht _ hq =>
    have home := turn_legal_home hroot hkeys ht
    exact record_spots_legal_home (fun _ => home.record) home.ns _ hq
  | inner _ hq ih => exact inner_legal_home ih hq
  | @target p reference located hp hr hl ih =>
    have home := import_legal_home ⟨reference, p.scope, located⟩ hroot
      fun key hk => hkeys key (.reference hp hr hl hk)
    obtain ⟨schema, scope⟩ := p
    cases schema with
    | obj o =>
      simp only [Spot.target, referenceSpot]
      split
      · exact home
      · exact ⟨ih.record, ih.ns⟩
    | _ => exact ih

end Scopes

section Types

variable {cfg : Setting} {call : Call} {t u : AvroType}

/-- The namespace of the type, if it has one, is legal. -/
def NsLegal (cfg : Setting) (t : AvroType) : Prop :=
  ∀ ns, t.ns? = some ns → Namespace.LegalUnder cfg.rootNs ns

theorem NsLegal.alike (h : NsLegal cfg t) (hu : u.clearDependencies = t.clearDependencies) :
    NsLegal cfg u := by
  intro ns hns
  rw [← clear_ns, hu, clear_ns] at hns
  exact h ns hns

theorem Placed.ns_legal {scope : Scope} (h : Placed scope t) (home : LegalHome cfg scope) :
    NsLegal cfg t := by
  intro ns hns
  rcases h.ns with he | he
  · obtain rfl := Option.some.inj (hns.symm.trans he)
    exact home.type_ns
  · obtain rfl := Option.some.inj (hns.symm.trans he)
    exact Or.inl (home.ns.beneath home.record)

/-- A type that keywords have by themselves has no namespace, and neither have its parts. -/
theorem plain_parts_ns {p : Spot} (h : p.plain? = some t) : ∀ u ∈ t.parts, u.ns? = none := by
  have generic : ∀ u ∈ AvroType.generic.parts, u.ns? = none := by decide
  rcases p.is_plain h with ⟨constant, rfl⟩ | ⟨format, values, type, rfl⟩
  · cases constant with
    | num n => cases n <;> simp [constantType, parts, ns?]
    | arr items => exact List.forall_mem_cons.mpr ⟨rfl, generic⟩
    | obj o => exact List.forall_mem_cons.mpr ⟨rfl, generic⟩
    | _ => simp [constantType, parts, ns?, AvroType.null]
  · exact fun u hu => (primitive_type_named format values type u hu).1

/-- Wherever a definition comes from, its namespace is legal if the keys are separable. -/
theorem Origin.ns_legal (hroot : Namespace.LegalUnder cfg.rootNs cfg.rootNs)
    (hkeys : KeysSeparable cfg call) (h : Origin cfg call t) : NsLegal cfg t := by
  induction h with
  | @made c t u hv _ hg hn he _ =>
    refine NsLegal.alike ?_ he
    refine (Conversion.gives_placed hv hg hn).ns_legal ?_
    cases c with
    | node p levels names s => exact visited_legal_home hroot hkeys hv.1
    | turn turn s => exact turn_legal_home hroot hkeys hv
  | listed hl =>
    obtain ⟨p, plain, -, hplain, -, part, hm, he⟩ := hl
    refine NsLegal.alike (fun ns hns => ?_) he
    rw [plain_parts_ns hplain part hm] at hns
    simp at hns
  | @joined level r s u _ _ he hr hs =>
    refine NsLegal.alike (fun ns hns => ?_) he
    have either : r.ns.or s.ns = some ns := hns
    rcases Option.or_eq_some_iff.mp either with h | ⟨-, h⟩
    · exact hr ns h
    · exact hs ns h
  | merged _ _ hm hd _ =>
    refine NsLegal.alike (fun ns hns => ?_) hm
    exact hd ns hns

theorem ns_legal_inlinable : Inlinable (NsLegal cfg) where
  reference _ := nofun
  array _ := nofun
  map _ := nofun
  record _ _ _ h := h
  union _ _ := nofun

end Types

section Output

variable {cfg : Setting} {j : Json} {location : String}

/-- All namespaces that a conversion gives are legal, if the root namespace is; under an empty one they
may be empty too. Unless one is composed from a key that has nothing between two of its dots, or a digit
behind one: a key of the pointer of a definition or of a reference, apart from the last key, which names
the type. -/
theorem output_namespaces_legal {out : Output} {ws : List Warning}
    (h : convert cfg j location = (.ok out, ws))
    (hroot : Namespace.isLegal cfg.rootNs = true ∨ cfg.rootNs = "") :
    ∃ call, conversionCall? cfg j location = some call ∧
      ((∀ t ∈ out.parts, ∀ ns, t.ns? = some ns →
          Namespace.isLegal ns = true ∨ ns = "" ∧ cfg.rootNs = "") ∨
        ∃ key, ComposesKey cfg call key ∧ key ≠ "" ∧ Namespace.isSeparable key = false) := by
  obtain ⟨call, hcall, hemits⟩ := convert_emits h
  refine ⟨call, hcall, ?_⟩
  by_cases hkeys : KeysSeparable cfg call
  · refine Or.inl (hemits.all_parts ns_legal_inlinable fun t ht u hu ns hns => ?_)
    have named : u.isNamed = true := by cases u <;> simp_all [ns?, isNamed]
    have root : Namespace.LegalUnder cfg.rootNs cfg.rootNs := hroot.imp_right fun he => ⟨he, he⟩
    exact ((held_part_origin ht hu).2 named).ns_legal root hkeys ns hns
  · right
    unfold KeysSeparable at hkeys
    push Not at hkeys
    obtain ⟨key, hk, hne, hs⟩ := hkeys
    exact ⟨key, hk, hne, by simpa using hs⟩

end Output

/-- A group of one definition, whose record holds another one. -/
def grouped (group : String) : Json := .obj [("definitions", .obj [(group, .obj [
  ("X", objectSchema [("k", objectSchema [("x", .obj [("type", .str "string")])])])])])]

theorem grouped_namespaces_legal : ∃ out ws,
    convert offline (grouped "com.example-1") "" = (.ok out, ws) ∧
    Namespace.isLegal offline.rootNs = true ∧
    out.parts.filterMap ns? = ["ns.com.example_1", "ns.com.example_1.X_types"] ∧
    ∃ call, conversionCall? offline (grouped "com.example-1") "" = some call ∧
      ((∀ t ∈ out.parts, ∀ ns, t.ns? = some ns →
          Namespace.isLegal ns = true ∨ ns = "" ∧ offline.rootNs = "") ∨
        ∃ key, ComposesKey offline call key ∧ key ≠ "" ∧ Namespace.isSeparable key = false) := by
  obtain ⟨out, hout, hns⟩ := output_of_any
    (r := convert offline (grouped "com.example-1") "")
    (p := fun out => out.parts.filterMap ns? = ["ns.com.example_1", "ns.com.example_1.X_types"])
    (by decide +kernel)
  exact ⟨out, _, hout, by decide, of_decide_eq_true hns,
    output_namespaces_legal hout (Or.inl (by decide))⟩

/-- A group key with two dots in a row gives its definition a namespace that is not legal. -/
theorem doubled_dot_namespace : Namespace.isLegal offline.rootNs = true ∧
    ∃ out ws t, convert offline (grouped "a..b") "" = (.ok out, ws) ∧ t ∈ out.parts ∧
      t.isRecord = true ∧ t.ns? = some "ns.a..b" ∧ Namespace.isLegal "ns.a..b" = false := by
  obtain ⟨out, hout, hany⟩ := output_of_any (r := convert offline (grouped "a..b") "")
    (p := fun out => out.parts.any fun t => t.isRecord && t.ns? == some "ns.a..b")
    (by decide +kernel)
  obtain ⟨t, ht, hkind⟩ := List.any_eq_true.mp hany
  simp only [Bool.and_eq_true, beq_iff_eq] at hkind
  exact ⟨by decide, out, _, t, hout, ht, hkind.1, hkind.2, by decide⟩

end Convert

end AvroDerive
