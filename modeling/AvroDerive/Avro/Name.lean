/-! # Avro names and namespaces

A legal name starts with an ASCII letter or `_` and goes on with letters, digits and `_`; every
text is turned into one by replacing what is not allowed.
-/

namespace AvroDerive

namespace Name

def isStart (c : Char) : Bool := c.isAlpha || c = '_'

def isPart (c : Char) : Bool := c.isAlphanum || c = '_'

def isLegalChars : List Char → Bool
  | [] => false
  | c :: rest => isStart c && rest.all isPart

/-- A non-empty text of name characters that does not start with a digit. -/
def isLegal (text : String) : Bool := isLegalChars text.toList

def sanitizeChar (c : Char) : Char := if isPart c then c else '_'

/-- Every character that no name may hold becomes `_`. -/
def sanitize (text : String) : String := String.ofList (text.toList.map sanitizeChar)

def ofChars (cs : List Char) : List Char :=
  match cs with
  | c :: rest => if isStart c then c :: rest else '_' :: c :: rest
  | [] => ['_']

/-- The name for a text: sanitized, with `_` in front of a digit and for the empty text. -/
def ofText (text : String) : String :=
  String.ofList (ofChars (text.toList.map sanitizeChar))

theorem isPart_of_isStart {c : Char} (h : isStart c = true) : isPart c = true := by
  simp only [isStart, isPart, Char.isAlphanum, Bool.or_eq_true] at *
  exact h.imp_left Or.inl

theorem isPart_of_isLegalChars {cs : List Char} (h : isLegalChars cs = true) :
    ∀ c ∈ cs, isPart c = true := by
  cases cs with
  | nil => simp [isLegalChars] at h
  | cons c rest =>
    rw [isLegalChars, Bool.and_eq_true, List.all_eq_true] at h
    intro d hd
    rcases List.mem_cons.1 hd with rfl | hd
    · exact isPart_of_isStart h.1
    · exact h.2 d hd

theorem isPart_sanitizeChar (c : Char) : isPart (sanitizeChar c) = true := by
  unfold sanitizeChar
  split
  · assumption
  · decide

theorem isLegalChars_ofChars {cs : List Char} (h : ∀ c ∈ cs, isPart c = true) :
    isLegalChars (ofChars cs) = true := by
  cases cs with
  | nil => decide
  | cons c rest =>
    simp only [ofChars]
    split
    · next hc =>
      simp only [isLegalChars, hc, Bool.true_and, List.all_eq_true]
      exact fun x hx => h x (by simp [hx])
    · have h_ : isStart '_' = true := by decide
      simp only [isLegalChars, h_, Bool.true_and, List.all_eq_true]
      exact h

/-- Every text gets a legal name. -/
theorem isLegal_ofText (text : String) : isLegal (ofText text) = true := by
  simp only [isLegal, ofText, String.toList_ofList]
  exact isLegalChars_ofChars fun c hc => by
    obtain ⟨d, _, rfl⟩ := List.mem_map.1 hc
    exact isPart_sanitizeChar d

/-- A legal name holds none of the other characters. -/
theorem not_mem_of_isLegal {text : String} {c : Char} (h : isLegal text = true)
    (hc : isPart c = false) : c ∉ text.toList := fun hm =>
  Bool.false_ne_true (hc.symm.trans (isPart_of_isLegalChars h c hm))

/-- Legal names stay as they are. -/
theorem ofText_of_isLegal {text : String} (h : isLegal text = true) : ofText text = text := by
  have part : ∀ cs : List Char, (∀ c ∈ cs, isPart c = true) → cs.map sanitizeChar = cs := by
    intro cs hcs
    induction cs with
    | nil => rfl
    | cons c rest ih =>
      simp only [List.map_cons, sanitizeChar, hcs c (by simp), if_true]
      rw [ih fun x hx => hcs x (by simp [hx])]
  rw [isLegal] at h
  rw [ofText, part _ (isPart_of_isLegalChars h)]
  cases ht : text.toList with
  | nil => simp [ht, isLegalChars] at h
  | cons c rest =>
    rw [ht, isLegalChars, Bool.and_eq_true] at h
    rw [ofChars, if_pos h.1, ← ht, String.ofList_toList]

end Name

namespace Namespace

def sanitizeChar (c : Char) : Char := if Name.isPart c || c = '.' then c else '_'

/-- Dots stay as separators; other characters that no name may hold become `_`, and a leading
digit gets a `_` in front. -/
def ofText (text : String) : String :=
  match text.toList.map sanitizeChar with
  | c :: rest => String.ofList (if c.isDigit then '_' :: c :: rest else c :: rest)
  | [] => ""

/-- The non-empty parts, each made a namespace, joined by dots. -/
def compose (parts : List String) : String :=
  ".".intercalate ((parts.filter (· ≠ "")).map ofText)

end Namespace

end AvroDerive
