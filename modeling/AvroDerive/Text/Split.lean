/-! # Splitting a text at a character

The pieces, joined with that character, give the text back, and no piece holds the character.
-/

namespace AvroDerive.Text

/-- The pieces between the occurrences of `sep`; there is always at least one. -/
def splitOn {α : Type} [DecidableEq α] (sep : α) : List α → List (List α)
  | [] => [[]]
  | c :: rest =>
    if c = sep then [] :: splitOn sep rest
    else
      match splitOn sep rest with
      | [] => [[c]]
      | piece :: pieces => (c :: piece) :: pieces

def joinChars (sep : Char) : List (List Char) → List Char
  | [] => []
  | [piece] => piece
  | piece :: pieces => piece ++ sep :: joinChars sep pieces

def split (sep : Char) (text : String) : List String :=
  (splitOn sep text.toList).map String.ofList

/-- The part before the first `sep`, and the part after it when there is one. -/
def cut (sep : Char) : List Char → List Char × Option (List Char)
  | [] => ([], none)
  | c :: rest =>
    if c = sep then ([], some rest)
    else
      let (before, after) := cut sep rest
      (c :: before, after)

/-- The text before the first `sep`, or all of it. -/
def before (sep : Char) (text : String) : String :=
  String.ofList (text.toList.takeWhile (· ≠ sep))

def replaceChar (old new : Char) (text : String) : String :=
  String.ofList (text.toList.map fun c => if c = old then new else c)

def trimEnds (p : Char → Bool) (cs : List Char) : List Char :=
  ((cs.dropWhile p).reverse.dropWhile p).reverse

theorem splitOn_ne_nil (sep : Char) (cs : List Char) : splitOn sep cs ≠ [] := by
  cases cs with
  | nil => simp [splitOn]
  | cons c rest =>
    simp only [splitOn]
    split
    · simp
    · split <;> simp

theorem joinChars_cons {sep : Char} {piece : List Char} {pieces : List (List Char)}
    (h : pieces ≠ []) :
    joinChars sep (piece :: pieces) = piece ++ sep :: joinChars sep pieces := by
  cases pieces with
  | nil => exact absurd rfl h
  | cons _ _ => rfl

theorem joinChars_splitOn (sep : Char) (cs : List Char) :
    joinChars sep (splitOn sep cs) = cs := by
  induction cs with
  | nil => rfl
  | cons c rest ih =>
    simp only [splitOn]
    split
    · next h => rw [joinChars_cons (splitOn_ne_nil sep rest), ih, h]; rfl
    · split
      · next h => exact absurd h (splitOn_ne_nil sep rest)
      · next piece pieces h =>
        rw [h] at ih
        cases pieces with
        | nil => simpa [joinChars] using ih
        | cons p ps => simpa [joinChars] using ih

/-- A separator between two texts sets their pieces apart. -/
theorem splitOn_append (sep : Char) (cs ds : List Char) :
    splitOn sep (cs ++ sep :: ds) = splitOn sep cs ++ splitOn sep ds := by
  induction cs with
  | nil => simp [splitOn]
  | cons c cs ih =>
    simp only [List.cons_append, splitOn, ih]
    split
    · rfl
    · cases h : splitOn sep cs with
      | nil => exact absurd h (splitOn_ne_nil sep cs)
      | cons _ _ => rfl

theorem splitOn_of_not_mem {sep : Char} {cs : List Char} (h : sep ∉ cs) :
    splitOn sep cs = [cs] := by
  induction cs with
  | nil => rfl
  | cons c cs ih =>
    have hc : c ≠ sep := fun he => h (by simp [he])
    simp [splitOn, hc, ih fun hm => h (by simp [hm])]

theorem not_mem_of_mem_splitOn {sep : Char} {cs piece : List Char}
    (h : piece ∈ splitOn sep cs) : sep ∉ piece := by
  induction cs generalizing piece with
  | nil => simp_all [splitOn]
  | cons c rest ih =>
    simp only [splitOn] at h
    split at h
    · rcases List.mem_cons.1 h with rfl | h
      · simp
      · exact ih h
    · next hc =>
      split at h
      · simp only [List.mem_singleton] at h
        subst h
        simpa using Ne.symm hc
      · next first pieces hs =>
        rcases List.mem_cons.1 h with rfl | h
        · have := @ih first (by simp [hs])
          simp [Ne.symm hc, this]
        · exact ih (by simp [hs, h])

end AvroDerive.Text
