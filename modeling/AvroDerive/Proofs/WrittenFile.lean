import AvroDerive.FileSystem
import AvroDerive.Proofs.DerivedNamespace
import AvroDerive.Proofs.FlattenedUnion

/-! # Written files

A file that is put somewhere changes nothing elsewhere. Files written to a directory stay below it, one for
each name, with the text that was written last. -/
namespace AvroDerive

namespace Path

variable {directory file : String}

theorem relative_of_slashless (hslash : '/' ∉ file.toList) : isAbsolute file = false := by
  unfold isAbsolute
  cases hc : file.toList with
  | nil => rfl
  | cons c rest =>
    rw [hc, List.mem_cons, not_or] at hslash
    simpa using Ne.symm hslash.1

/-- A file in a directory stands behind the slash that the directory ends in, or behind one more. -/
theorem join_cases (directory : String) (hslash : '/' ∉ file.toList) :
    directory = "" ∧ join directory file = file ∨
      ∃ front, (join directory file).toList = front ++ '/' :: file.toList ∧
        (directory.toList = front ∧ front ≠ [] ∨ directory.toList = front ++ ['/']) := by
  unfold join
  rw [relative_of_slashless hslash, Bool.false_or]
  split
  · next he => exact Or.inl ⟨of_decide_eq_true he, rfl⟩
  · next hne =>
    right
    split
    · next hlast =>
      obtain ⟨front, hfront⟩ := List.getLast?_eq_some_iff.mp hlast
      exact ⟨front, by simp [hfront], Or.inr hfront⟩
    · refine ⟨directory.toList, by simp, Or.inl ⟨rfl, fun he => hne ?_⟩⟩
      exact decide_eq_true (String.toList_eq_nil_iff.mp he)

/-- The pieces of a path to a file are those of the directory and the file. -/
theorem split_join (directory : String) (hslash : '/' ∉ file.toList) (hfile : file ≠ "") :
    (Text.split '/' (join directory file)).filter (· ≠ "") =
      (Text.split '/' directory).filter (· ≠ "") ++ [file] := by
  have single : (Text.splitOn '/' file.toList).map String.ofList = [file] := by
    rw [Text.splitOn_of_not_mem hslash, List.map_singleton, String.ofList_toList]
  have last : [file].filter (· ≠ "") = [file] := List.filter_cons_of_pos (by simpa using hfile)
  unfold Text.split
  rcases join_cases directory hslash with ⟨rfl, hjoin⟩ | ⟨front, hjoin, hdirectory⟩
  · rw [hjoin, single, last]
    rfl
  · rw [hjoin, Text.splitOn_append, List.map_append, single, List.filter_append, last]
    rcases hdirectory with ⟨hfront, -⟩ | hfront
    · rw [hfront]
    · rw [hfront, Text.splitOn_append, List.map_append, List.filter_append]
      simp [Text.splitOn]

theorem join_absolute (hslash : '/' ∉ file.toList) :
    isAbsolute (join directory file) = isAbsolute directory := by
  rcases join_cases directory hslash with ⟨rfl, hjoin⟩ | ⟨front, hjoin, hdirectory⟩
  · rw [hjoin, relative_of_slashless hslash]
    rfl
  · unfold isAbsolute
    rw [hjoin]
    rcases hdirectory with ⟨hfront, hne⟩ | hfront
    · rw [hfront, List.head?_append_of_ne_nil _ hne]
    · rw [hfront, List.head?_append, List.head?_append]
      rfl

theorem mem_join {c : Char} (hslash : '/' ∉ file.toList) (hc : c ∈ (join directory file).toList) :
    c = '/' ∨ c ∈ directory.toList ∨ c ∈ file.toList := by
  rcases join_cases directory hslash with ⟨rfl, hjoin⟩ | ⟨front, hjoin, hdirectory⟩
  · rw [hjoin] at hc
    exact Or.inr (Or.inr hc)
  · rw [hjoin, List.mem_append, List.mem_cons] at hc
    rcases hdirectory with ⟨rfl, -⟩ | hfront
    · tauto
    · rw [hfront, List.mem_append]
      tauto

theorem join_last (hslash : '/' ∉ file.toList) (hfile : file ≠ "") :
    (join directory file).toList.getLast? ≠ some '/' := by
  have last : file.toList.getLast? ≠ some '/' := fun h => hslash (List.mem_of_getLast? h)
  have full : file.toList ≠ [] := String.toList_eq_nil_iff.not.mpr hfile
  rcases join_cases directory hslash with ⟨rfl, hjoin⟩ | ⟨front, hjoin, -⟩
  · rwa [hjoin]
  · rwa [hjoin, List.getLast?_append_of_ne_nil _ (List.cons_ne_nil _ _),
      List.getLast?_cons_of_ne_nil full]

end Path

namespace FileSystem

section Put

variable {fs fs' : FileSystem} {here place : List String} {entry : Entry}

theorem lookup_cons_if {α β : Type} [DecidableEq α] [BEq α] [LawfulBEq α] (key : α) (e : α × β)
    (es : List (α × β)) : (e :: es).lookup key = if key = e.1 then some e.2 else es.lookup key := by
  rw [List.lookup_cons]
  by_cases h : key = e.1
  · rw [if_pos h, beq_iff_eq.mpr h]
  · rw [if_neg h, beq_eq_false_iff_ne.mpr h]

theorem lookup_replaced (entries : List (List String × Entry)) :
    (entries.map fun e => if e.1 = here then (here, entry) else e).lookup place =
      if place = here then (entries.lookup here).map fun _ => entry else entries.lookup place := by
  induction entries with
  | nil => simp
  | cons e entries ih =>
    rw [List.map_cons, lookup_cons_if, lookup_cons_if, lookup_cons_if, ih]
    grind

/-- Where a file or a directory is put, there it is; all other places stay as they are. -/
theorem entry_put (hne : here ≠ []) : entry? (fs.put here entry) place =
    if place = here then some entry else fs.entry? place := by
  have looked : (fs.put here entry).entries.lookup place =
      if place = here then some entry else fs.entries.lookup place := by
    unfold put
    split
    · next there =>
      obtain ⟨old, hold⟩ := Option.isSome_iff_exists.mp there
      rw [lookup_replaced, hold]
      rfl
    · next absent =>
      rw [Option.not_isSome_iff_eq_none] at absent
      rw [List.lookup_append]
      split
      · next he => rw [he, absent, Option.none_or, lookup_cons_if, if_pos rfl]
      · next he => rw [lookup_cons_if, if_neg he, List.lookup_nil, Option.or_none]
  unfold entry?
  rw [looked]
  by_cases hp : place = here
  · simp [hp, hne]
  · simp [hp]

theorem entry_put_file (file : String) : entry? (fs.put (here ++ [file]) entry) place =
    if place = here ++ [file] then some entry else fs.entry? place :=
  entry_put (List.append_ne_nil_of_right_ne_nil _ (List.cons_ne_nil _ _))

/-- The root is a directory. -/
theorem ne_root_of_free (hfree : fs.entry? here ≠ some .directory) : here ≠ [] := by
  rintro rfl
  exact hfree rfl

theorem working_directory_put : (fs.put here entry).workingDirectory = fs.workingDirectory := by
  unfold put
  split <;> rfl

/-- The places of all that is below the root. -/
def places (fs : FileSystem) : List (List String) := fs.entries.map Prod.fst

theorem mem_places : here ∈ fs.places ↔ (fs.entries.lookup here).isSome = true := by
  rw [Option.isSome_iff_ne_none, ne_eq, List.lookup_eq_none_iff, places, List.mem_map]
  grind

theorem places_put : (fs.put here entry).places = addNew fs.places here := by
  unfold put addNew
  split
  · next h =>
    rw [if_pos (mem_places.mpr h), places, List.map_map]
    refine List.map_congr_left fun e _ => ?_
    dsimp only [Function.comp]
    split
    · next he => exact he.symm
    · rfl
  · next h =>
    rw [if_neg (mem_places.not.mpr h), places, places, List.map_append]
    rfl

/-- The places of what a directory holds, at any depth. -/
def below (fs : FileSystem) (here : List String) : List (List String) :=
  fs.places.filter fun place => here.isPrefixOf place && place ≠ here

theorem entry_of_vacant (h : fs.below here = []) (name : String) : fs.entry? (here ++ [name]) = none := by
  have absent : here ++ [name] ∉ fs.places := by
    intro hm
    refine List.filter_eq_nil_iff.mp h _ hm ?_
    simp
  rw [mem_places, Option.not_isSome_iff_eq_none] at absent
  unfold entry?
  rw [absent]
  simp

end Put

section Walk

variable {fs fs' : FileSystem} {here place : List String} {steps : List Step}

/-- Every directory of the first file system is one of the second. -/
def KeepsDirectories (fs fs' : FileSystem) : Prop :=
  ∀ place, fs.entry? place = some .directory → fs'.entry? place = some .directory

/-- What is put where no directory is leaves all directories. -/
theorem put_keeps {entry : Entry} (hfree : fs.entry? here ≠ some .directory) :
    KeepsDirectories fs (fs.put here entry) := by
  intro place hplace
  rw [entry_put (ne_root_of_free hfree), if_neg]
  · exact hplace
  · rintro rfl
    exact hfree hplace

/-- Where one step leads from a place. -/
def stepFrom (fs : FileSystem) (here : List String) (step : Step) : Except Error (List String) :=
  match fs.entry? here with
  | some .directory =>
    if step.name = "." then .ok here
    else if step.name = ".." then .ok here.dropLast
    else if nameLimit < step.size then .error .nameTooLong
    else .ok (here ++ [step.name])
  | some (.file _) => .error .notDirectory
  | none => .error .missing

theorem walk_cons (step : Step) :
    fs.walk here (step :: steps) = (fs.stepFrom here step).bind (fs.walk · steps) := by
  rw [walk, stepFrom]
  cases fs.entry? here with
  | none => rfl
  | some entry =>
    cases entry with
    | file text => rfl
    | directory =>
      dsimp only
      split_ifs <;> rfl

theorem walk_append (steps more : List Step) :
    fs.walk here (steps ++ more) = (fs.walk here steps).bind (fs.walk · more) := by
  induction steps generalizing here with
  | nil => rfl
  | cons step steps ih =>
    rw [List.cons_append, walk_cons, walk_cons]
    cases fs.stepFrom here step with
    | error e => rfl
    | ok next => exact ih

theorem step_keeps {step : Step} (hk : KeepsDirectories fs fs') (h : fs.stepFrom here step = .ok place) :
    fs'.stepFrom here step = .ok place := by
  unfold stepFrom at h ⊢
  split at h
  · next hdirectory => rwa [hk here hdirectory]
  · simp at h
  · simp at h

/-- A walk goes on as before where directories are kept. -/
theorem walk_keeps (hk : KeepsDirectories fs fs') (h : fs.walk here steps = .ok place) :
    fs'.walk here steps = .ok place := by
  induction steps generalizing here with
  | nil => exact h
  | cons step steps ih =>
    rw [walk_cons] at h ⊢
    cases hstep : fs.stepFrom here step with
    | error e =>
      rw [hstep] at h
      exact absurd h (by simp [Except.bind])
    | ok next =>
      rw [hstep] at h
      rw [step_keeps hk hstep]
      exact ih h

/-- The last step of a walk enters a name in a directory. -/
theorem walk_to_name {name : String} (h : fs.walk here steps = .ok place)
    (hdirectory : fs.entry? place = some .directory) (hname : name ∉ [".", ".."])
    (hshort : name.utf8ByteSize ≤ nameLimit) :
    fs.walk here (steps ++ [.ofText name]) = .ok (place ++ [name]) := by
  rw [List.mem_cons, List.mem_singleton, not_or] at hname
  rw [walk_append, h]
  show fs.walk place [.ofText name] = _
  rw [walk_cons, stepFrom, hdirectory]
  simp only [Step.ofText, hname, Nat.not_lt.mpr hshort, if_false, Except.bind, walk]

end Walk

section Directory

variable {fs fs' : FileSystem} {path file text : String} {here : List String}

/-- Where the way of a path begins. -/
def start (fs : FileSystem) (path : String) : List String :=
  if Path.isAbsolute path then [] else fs.workingDirectory

theorem place_of_path {steps : List Step} (hnul : '\x00' ∉ path.toList) (hfull : path ≠ "")
    (hshort : path.utf8ByteSize ≤ pathLimit) :
    fs.place (Route.ofText path) steps = fs.walk (fs.start path) steps := by
  have full : path.utf8ByteSize ≠ 0 := fun h => hfull (String.utf8ByteSize_eq_zero_iff.mp h)
  have nulless : ¬ path.toList.contains '\x00' = true := fun h => hnul (List.contains_iff_mem.mp h)
  unfold place Route.ofText
  rw [if_neg nulless, if_neg full, if_neg (Nat.not_lt.mpr hshort)]
  rfl

/-- A path leads to a directory. -/
structure Opens (fs : FileSystem) (path : String) (here : List String) : Prop where
  nulless : '\x00' ∉ path.toList
  short : path.utf8ByteSize ≤ pathLimit
  reached : fs.walk (fs.start path) (Route.ofText path).steps = .ok here
  directory : fs.entry? here = some .directory

/-- A name that a file in a directory can have. -/
structure Fits (path file : String) : Prop where
  slashless : '/' ∉ file.toList
  nulless : '\x00' ∉ file.toList
  plain : file ∉ ["", ".", ".."]
  short : file.utf8ByteSize ≤ nameLimit
  pathShort : (Path.join path file).utf8ByteSize ≤ pathLimit

theorem Opens.put (h : fs.Opens path here) (hfree : fs.entry? (here ++ [file]) ≠ some .directory) :
    (fs.put (here ++ [file]) (.file text)).Opens path here := by
  have keeps : KeepsDirectories fs (fs.put (here ++ [file]) (.file text)) := put_keeps hfree
  refine ⟨h.nulless, h.short, ?_, keeps here h.directory⟩
  have begins : (fs.put (here ++ [file]) (.file text)).start path = fs.start path := by
    unfold start
    rw [working_directory_put]
  rw [begins]
  exact walk_keeps keeps h.reached

/-- A file that is written to a directory stands under its name there. -/
theorem write_in_directory (ho : fs.Opens path here) (hf : Fits path file)
    (hfree : fs.entry? (here ++ [file]) ≠ some .directory) (text : String) :
    fs.write (Path.join path file) text = .ok (fs.put (here ++ [file]) (.file text)) := by
  have plain := hf.plain
  rw [List.mem_cons, not_or] at plain
  have full : Path.join path file ≠ "" := by
    intro h
    have last := Path.split_join path hf.slashless plain.1
    rw [h] at last
    simp [Text.split, Text.splitOn] at last
  have nulless : '\x00' ∉ (Path.join path file).toList := by
    intro h
    rcases Path.mem_join hf.slashless h with h | h | h
    · simp at h
    · exact ho.nulless h
    · exact hf.nulless h
  have ends : (Route.ofText (Path.join path file)).endsInSlash = false :=
    beq_eq_false_iff_ne.mpr (Path.join_last hf.slashless plain.1)
  have steps : (Route.ofText (Path.join path file)).steps =
      (Route.ofText path).steps ++ [.ofText file] := by
    simp only [Route.ofText, Path.split_join path hf.slashless plain.1, List.map_append, List.map_singleton]
  have begins : fs.start (Path.join path file) = fs.start path := by
    rw [start, Path.join_absolute hf.slashless, start]
  have reached : fs.place (Route.ofText (Path.join path file))
      (Route.ofText (Path.join path file)).steps = .ok (here ++ [file]) := by
    rw [place_of_path nulless full hf.pathShort, begins, steps]
    exact walk_to_name ho.reached ho.directory plain.2 hf.short
  unfold write
  dsimp only
  rw [ends, if_neg Bool.false_ne_true, reached]
  dsimp only [bind, Except.bind]
  split
  · next h => exact absurd h hfree
  · rfl

/-- Making a directory that is there changes nothing. -/
theorem make_directory_there (h : fs.Opens path here) : fs.makeDirectory path = (fs, none) := by
  unfold makeDirectory
  split
  · rfl
  · next hpath =>
    have there : fs.makeOne path = (fs, none) := by
      have reached : fs.place (Route.ofText path) (Route.ofText path).steps = .ok here := by
        rw [place_of_path h.nulless hpath h.short]
        exact h.reached
      unfold makeOne
      simp only [reached, h.directory]
    rw [makeAfter, there]

end Directory

section Files

variable {fs : FileSystem} {path : String} {here : List String} {files : List (String × String)}

/-- Files put in a directory, one after the other. -/
def putFiles (fs : FileSystem) (here : List String) (files : List (String × String)) : FileSystem :=
  files.foldl (fun fs f => fs.put (here ++ [f.1]) (.file f.2)) fs

/-- The file of a name is the last that was put there. -/
theorem entry_putFiles (name : String) : entry? (fs.putFiles here files) (here ++ [name]) =
    match files.reverse.lookup name with
    | some text => some (.file text)
    | none => fs.entry? (here ++ [name]) := by
  induction files generalizing fs with
  | nil => rfl
  | cons f files ih =>
    rw [putFiles, List.foldl_cons]
    refine ih.trans ?_
    rw [List.reverse_cons, List.lookup_append, lookup_cons_if, List.lookup_nil, entry_put_file]
    cases files.reverse.lookup name with
    | some text => rfl
    | none => by_cases hn : name = f.1 <;> simp [hn]

theorem places_putFiles : (fs.putFiles here files).places =
    addAll fs.places (files.map fun f => here ++ [f.1]) := by
  induction files generalizing fs with
  | nil => rfl
  | cons f files ih =>
    rw [List.map_cons, addAll_cons, ← places_put]
    exact ih

theorem below_putFiles : (fs.putFiles here files).below here =
    addAll (fs.below here) (files.map fun f => here ++ [f.1]) := by
  rw [below, places_putFiles, filter_addAll, ← below]
  congr 1
  refine List.filter_eq_self.mpr fun place hplace => ?_
  obtain ⟨f, -, rfl⟩ := List.mem_map.mp hplace
  simp

end Files

end FileSystem

end AvroDerive
