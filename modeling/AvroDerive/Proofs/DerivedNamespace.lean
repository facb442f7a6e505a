import AvroDerive.Proofs.LegalNamespace
import AvroDerive.Schema.Namespace
import Mathlib.Data.List.TakeWhile

/-! # Derived namespaces

A document without an explicit namespace gets one from its `$id`, or from the name of its file. What it is
composed of has been cut at slashes and dots, so that no piece holds a dot, and each piece becomes a name
of its own. -/
namespace AvroDerive

namespace Text

theorem toList_of_mem_split {sep : Char} {text piece : String} (h : piece ∈ split sep text) :
    piece.toList ∈ splitOn sep text.toList := by
  obtain ⟨cs, hcs, rfl⟩ := List.mem_map.mp h
  rwa [String.toList_ofList]

theorem mem_joinChars {sep c : Char} {pieces : List (List Char)} (hc : c ≠ sep) :
    c ∈ joinChars sep pieces ↔ ∃ piece ∈ pieces, c ∈ piece := by
  induction pieces with
  | nil => simp [joinChars]
  | cons piece pieces ih =>
    cases pieces with
    | nil => simp [joinChars]
    | cons next pieces =>
      rw [joinChars_cons (List.cons_ne_nil _ _), List.mem_append, List.mem_cons, ih]
      simp [hc]

/-- The characters of a text that are no separators stand in its pieces. -/
theorem mem_splitOn_iff {sep c : Char} {cs : List Char} (hc : c ≠ sep) :
    c ∈ cs ↔ ∃ piece ∈ splitOn sep cs, c ∈ piece := by
  conv_lhs => rw [← joinChars_splitOn sep cs]
  exact mem_joinChars hc

theorem not_mem_before (sep : Char) (text : String) : sep ∉ (before sep text).toList := by
  rw [before, String.toList_ofList]
  intro h
  simpa using List.mem_takeWhile_imp h

/-- Replacing one character by another brings no third one in. -/
theorem not_mem_replaceChar {old new c : Char} {text : String} (hnew : c ≠ new)
    (h : c ∉ text.toList) : c ∉ (replaceChar old new text).toList := by
  rw [replaceChar, String.toList_ofList, List.mem_map]
  rintro ⟨d, hd, he⟩
  split at he
  · exact hnew he.symm
  · exact h (he ▸ hd)

end Text

namespace Namespace

theorem sanitized_eq {cs : List Char} (h : '.' ∉ cs) :
    cs.map sanitizeChar = cs.map Name.sanitizeChar := by
  refine List.map_congr_left fun c hc => ?_
  have hne : c ≠ '.' := fun he => h (he ▸ hc)
  simp [sanitizeChar, Name.sanitizeChar, hne]

/-- A text without dots makes the same namespace as name, unless it is empty. -/
theorem of_text_name {text : String} (hne : text ≠ "") (h : '.' ∉ text.toList) :
    ofText text = Name.ofText text := by
  unfold ofText Name.ofText
  rw [← sanitized_eq h]
  cases hc : text.toList with
  | nil => exact absurd (String.toList_eq_nil_iff.mp hc) hne
  | cons c rest =>
    rw [hc, List.mem_cons, not_or] at h
    have start := isStart_sanitized (Ne.symm h.1)
    simp only [List.map_cons, Name.ofChars, digit_sanitized, start]
    cases c.isDigit <;> rfl

/-- Texts without dots are composed to their names, with dots between them. -/
theorem compose_names {parts : List String} (h : ∀ part ∈ parts, '.' ∉ part.toList) :
    compose parts = ".".intercalate ((parts.filter (· ≠ "")).map Name.ofText) := by
  unfold compose
  congr 1
  refine List.map_congr_left fun part hp => ?_
  obtain ⟨hm, hfull⟩ := List.mem_filter.mp hp
  exact of_text_name (by simpa using hfull) (h part hm)

/-- A legal namespace stays as it is. -/
theorem of_text_of_legal {ns : String} (h : isLegal ns = true) : ofText ns = ns := by
  rw [legal_iff] at h
  have stays : ∀ c ∈ ns.toList, sanitizeChar c = c := by
    intro c hc
    unfold sanitizeChar
    by_cases hdot : c = '.'
    · simp [hdot]
    · obtain ⟨piece, hp, hm⟩ := (Text.mem_splitOn_iff hdot).mp hc
      rw [Name.isPart_of_isLegalChars (h piece hp) c hm]
      rfl
  unfold ofText
  rw [List.map_congr_left stays, List.map_id']
  cases hc : ns.toList with
  | nil => exact (String.toList_eq_nil_iff.mp hc).symm
  | cons c rest =>
    have digit : c.isDigit = false := by
      rcases eq_or_ne c '.' with rfl | hdot
      · decide
      · cases hs : Text.splitOn '.' rest with
        | nil => exact absurd hs (Text.splitOn_ne_nil _ _)
        | cons piece pieces =>
          rw [hc, splitOn_cons hdot hs, List.forall_mem_cons, Name.isLegalChars,
            Bool.and_eq_true] at h
          exact start_no_digit h.1.1
    simp only [digit, Bool.false_eq_true, if_false]
    rw [← hc, String.ofList_toList]

/-- Two lists of legal names, each joined by dots, are composed to one. -/
theorem compose_joined {names names' : List String} (h : ∀ name ∈ names, Name.isLegal name = true)
    (h' : ∀ name ∈ names', Name.isLegal name = true) :
    compose [".".intercalate names, ".".intercalate names'] = ".".intercalate (names ++ names') := by
  have joined : ∀ names : List String, names ≠ [] → (∀ name ∈ names, Name.isLegal name = true) →
      isLegal (".".intercalate names) = true := fun names hne h =>
    intercalate_legal hne fun name hm => legal_of_name (h name hm)
  unfold compose
  by_cases hn : names = []
  · by_cases hn' : names' = []
    · subst hn hn'
      rfl
    · have legal := joined names' hn' h'
      have keeps := of_text_of_legal legal
      have full := legal_ne legal
      subst hn
      simp [full, keeps]
  · have legal := joined names hn h
    by_cases hn' : names' = []
    · subst hn'
      simp [legal_ne legal, of_text_of_legal legal]
    · have legal' := joined names' hn' h'
      rw [String.intercalate_append_of_ne_nil hn hn']
      simp [legal_ne legal, of_text_of_legal legal, legal_ne legal', of_text_of_legal legal']

end Namespace

namespace Schema

/-- The labels of a host, top domain first. -/
def hostParts (host : String) : List String := ((Text.split '.' host).reverse).filter (· ≠ "")

/-- The segments of a path up to its first dot, inner ones first. -/
def pathParts (path : String) : List String :=
  let trimmed := Text.trimEnds (· = '/') path.toList
  let stem := Text.replaceChar '-' '_' (Text.before '.' (String.ofList trimmed))
  ((Text.split '/' stem).reverse).filter (· ≠ "")

/-- What a host, if there is one, and a path give a namespace. -/
def locatedParts (host : Option String) (path : String) : List String :=
  (host.map hostParts).getD [] ++ pathParts path

/-- The name of the file at a location up to its first dot, unless that is empty. -/
def fileParts (location : String) : List String :=
  let path := Text.replaceChar '-' '_' (Text.replaceChar '\\' '/' (Text.before '#' location))
  [Text.before '.' ((Text.split '/' path).getLast?.getD "")].filter (· ≠ "")

/-- What an `$id` gives a namespace; nothing if it is no URL. -/
def idParts (id : String) : List String :=
  match Url.parse id with
  | .ok url => locatedParts url.hostText? url.path
  | .error _ => []

/-- The texts that the namespace of a document is made of. -/
def derivedParts (schema : Json) (location : String) : List String :=
  match (((schema.get? "$id").bind Json.asString?).map idParts).getD [] with
  | [] => fileParts location
  | parts => parts

/-- The names of texts with dots between them. -/
def joinNames (parts : List String) : String := ".".intercalate (parts.map Name.ofText)

theorem join_names_legal {parts : List String} (hne : parts ≠ []) :
    Namespace.isLegal (joinNames parts) = true := by
  refine Namespace.intercalate_legal (by simpa using hne) (List.forall_mem_map.mpr fun part _ => ?_)
  exact Namespace.legal_of_name (Name.isLegal_ofText part)

theorem join_names_empty {parts : List String} : joinNames parts = "" ↔ parts = [] := by
  constructor
  · intro h
    by_contra hne
    exact Namespace.legal_ne (join_names_legal hne) h
  · rintro rfl
    rfl

theorem host_namespace_names (host : String) : hostNamespace host = joinNames (hostParts host) := by
  refine Namespace.compose_names fun part hp => ?_
  exact Text.not_mem_of_mem_splitOn (Text.toList_of_mem_split (List.mem_reverse.mp hp))

theorem path_namespace_names (path : String) : pathNamespace path = joinNames (pathParts path) := by
  refine Namespace.compose_names fun part hp hdot => ?_
  have piece := Text.toList_of_mem_split (List.mem_reverse.mp hp)
  have stem := (Text.mem_splitOn_iff (by decide)).mpr ⟨part.toList, piece, hdot⟩
  exact Text.not_mem_replaceChar (by decide) (Text.not_mem_before '.' _) stem

theorem file_namespace_names (location : String) :
    fileNamespace location = joinNames (fileParts location) := by
  unfold fileNamespace fileParts
  dsimp only
  generalize (Text.split '/' _).getLast?.getD "" = file
  by_cases h : Text.before '.' file = ""
  · rw [h]
    rfl
  · rw [Namespace.of_text_name h (Text.not_mem_before '.' file), List.filter_cons_of_pos (by simpa using h)]
    simp [joinNames]

/-- Any host and any path are made names part by part. -/
theorem located_namespace_names (host : Option String) (path : String) :
    Namespace.compose [(host.map hostNamespace).getD "", pathNamespace path] =
      joinNames (locatedParts host path) := by
  have host : (host.map hostNamespace).getD "" = joinNames ((host.map hostParts).getD []) := by
    cases host with
    | none => rfl
    | some host => exact host_namespace_names host
  have legal : ∀ parts : List String, ∀ name ∈ parts.map Name.ofText, Name.isLegal name = true :=
    fun parts => List.forall_mem_map.mpr fun part _ => Name.isLegal_ofText part
  rw [host, path_namespace_names, joinNames, joinNames, Namespace.compose_joined (legal _) (legal _),
    ← List.map_append]
  rfl

theorem id_namespace_names (id : String) : idNamespace id = joinNames (idParts id) := by
  unfold idNamespace idParts
  cases Url.parse id with
  | ok url => exact located_namespace_names _ _
  | error _ => rfl

theorem derived_namespace_names (schema : Json) (location : String) {explicit : Option String}
    (h : explicit = none ∨ explicit = some "") :
    deriveNamespace schema location explicit = joinNames (derivedParts schema location) := by
  have absent : explicit.filter (· ≠ "") = none := by
    rcases h with rfl | rfl <;> rfl
  unfold deriveNamespace derivedParts
  rw [absent]
  cases (schema.get? "$id").bind Json.asString? with
  | none => exact file_namespace_names location
  | some id =>
    rw [Option.map_some, Option.map_some, Option.getD_some, id_namespace_names]
    cases hparts : idParts id with
    | nil => exact file_namespace_names location
    | cons part parts =>
      have full : joinNames (part :: parts) ≠ "" := join_names_empty.not.mpr (by simp)
      rw [Option.filter_some, if_pos (by simpa using full)]

/-- Without an explicit namespace, a document gets the names of the labels of its host and the segments of
its path, or of its file, joined by dots. That is a legal namespace, or empty if there is nothing to
name. What is made of a host and a path is legal or empty whatever texts they are. -/
theorem derived_namespace_legal (schema : Json) (location : String) {explicit : Option String}
    (h : explicit = none ∨ explicit = some "") :
    deriveNamespace schema location explicit = joinNames (derivedParts schema location) ∧
    (Namespace.isLegal (deriveNamespace schema location explicit) = true ∨
      deriveNamespace schema location explicit = "" ∧ derivedParts schema location = []) ∧
    ∀ (host : Option String) (path : String),
      let ns := Namespace.compose [(host.map hostNamespace).getD "", pathNamespace path]
      Namespace.isLegal ns = true ∨ ns = "" := by
  have legal : ∀ parts : List String,
      Namespace.isLegal (joinNames parts) = true ∨ joinNames parts = "" ∧ parts = [] := by
    intro parts
    by_cases hne : parts = []
    · exact Or.inr ⟨join_names_empty.mpr hne, hne⟩
    · exact Or.inl (join_names_legal hne)
  have names := derived_namespace_names schema location h
  refine ⟨names, ?_, fun host path => ?_⟩
  · rw [names]
    exact legal _
  · dsimp only
    rw [located_namespace_names]
    exact (legal _).imp_right And.left

/-- An address for a host, and a path with a blank and two dots. -/
def addressedSchema : Json := .obj [("$id", .str "https://127.0.0.1/2024/my schema.v1.json")]

theorem addressed_namespace_legal :
    deriveNamespace addressedSchema "a.json" (some "") = "_1._0._0._127.my_20schema._2024" ∧
    Namespace.isLegal (deriveNamespace addressedSchema "a.json" (some "")) = true := by
  have ns : deriveNamespace addressedSchema "a.json" (some "") =
      "_1._0._0._127.my_20schema._2024" := by decide +kernel
  refine ⟨ns, (derived_namespace_legal addressedSchema "a.json" (Or.inr rfl)).2.1.resolve_right ?_⟩
  rw [ns]
  exact fun h => absurd h.1 (by decide)

end Schema

end AvroDerive
