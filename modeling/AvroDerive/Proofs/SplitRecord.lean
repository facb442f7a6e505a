import AvroDerive.Job
import AvroDerive.Proofs.ConversionCall
import AvroDerive.Proofs.WrittenFile

/-! # Records in files of their own

The records of a conversion have different full names, but their files are called by the name alone. So
all of them are written, and of those with one name the last remains. -/
namespace AvroDerive

namespace AvroType

/-- The record that a type is. -/
def record? : AvroType → Option (Record AvroType)
  | .record r => some r
  | _ => none

theorem record_of_mem {ts : List AvroType} {r : Record AvroType} (h : r ∈ ts.filterMap record?) :
    .record r ∈ ts := by
  obtain ⟨t, ht, hr⟩ := List.mem_filterMap.mp h
  cases t with
  | record r' => exact Option.some.inj hr ▸ ht
  | _ => simp [record?] at hr

/-- Types that remain after eviction keep their names and their order. -/
theorem evict_from_names (defined : List String) (ts : List AvroType) :
    (definedNames (evictFrom defined ts)).Sublist (definedNames ts) := by
  induction ts generalizing defined with
  | nil => exact List.Sublist.refl _
  | cons t ts ih =>
    rw [evictFrom, defined_cons]
    split
    · exact (ih defined).trans (List.sublist_append_right _ _)
    · next h =>
      rw [Bool.not_eq_true] at h
      rw [defined_cons, evict_in_name h]
      exact (List.Sublist.refl _).append (ih _)

end AvroType

open AvroType

/-- The types of a conversion that stand in no other. -/
def Output.top : Output → List AvroType
  | .types ts => ts
  | .fragment t => [t]

def Output.records (out : Output) : List (Record AvroType) := out.top.filterMap record?

namespace Convert

section Top

variable {cfg : Setting} {j : Json} {location : String} {out : Output} {ws : List Warning}

theorem Call.sorted_entry {call : Call} {t : AvroType} (h : t ∈ call.sortedTypes cfg) : Entry t :=
  (call_orderly call orderly_start rfl).1.entries t (mem_sorted_types.mp h)

theorem Call.sorted_distinct (call : Call) : (definedNames (call.sortedTypes cfg)).Nodup :=
  ((order_perm _).filterMap qualifiedName?).nodup_iff.mpr
    (call_orderly call orderly_start rfl).1.distinct

/-- All types at the top have names. -/
theorem top_named (h : convert cfg j location = (.ok out, ws)) :
    ∀ t ∈ out.top, ∃ name, t.qualifiedName? = some name := by
  have named : ∀ {call : Call} {t}, t ∈ call.sortedTypes cfg → ∃ name, t.qualifiedName? = some name := by
    intro call t ht
    have kind := (Call.sorted_entry ht).kind
    cases t with
    | record r => exact ⟨_, rfl⟩
    | enum e => exact ⟨_, rfl⟩
    | _ => simp [isRecord, isEnum] at kind
  obtain ⟨call, -, hemits⟩ := convert_emits h
  intro u hu
  cases hemits with
  | types =>
    obtain ⟨us, vs, hsplit⟩ := List.append_of_mem hu
    obtain ⟨before, t, after, known, hsorted, rfl, hknown, -⟩ := evict_from_split hsplit
    rw [evict_in_name hknown]
    exact named (hsorted ▸ List.mem_append_right _ List.mem_cons_self)
  | fragment hroot =>
    obtain rfl := List.mem_singleton.mp hu
    obtain ⟨name, hname⟩ := named hroot
    exact ⟨name, inline_name _ _ hname⟩

/-- No two types at the top have one full name. -/
theorem top_names_distinct (h : convert cfg j location = (.ok out, ws)) :
    (definedNames out.top).Nodup := by
  obtain ⟨call, -, hemits⟩ := convert_emits h
  cases hemits with
  | types => exact (Call.sorted_distinct call).sublist (evict_from_names [] _)
  | fragment =>
    rw [Output.top, defined_cons, definedNames, List.filterMap_nil, List.append_nil]
    exact Option.toList_nodup _

theorem record_names_distinct (h : convert cfg j location = (.ok out, ws)) :
    (out.records.map fun r => qualify r.ns r.name).Nodup := by
  refine (top_names_distinct h).sublist ?_
  unfold Output.records definedNames
  induction out.top with
  | nil => exact List.Sublist.refl _
  | cons t ts ih =>
    cases t with
    | record r => exact ih.cons_cons _
    | enum e => exact ih.cons _
    | fixed f => exact ih.cons _
    | _ => exact ih

theorem record_name_legal (h : convert cfg j location = (.ok out, ws)) :
    ∀ r ∈ out.records, Name.isLegal r.name = true := by
  intro r hr
  have part : AvroType.record r ∈ out.parts := by
    have top := record_of_mem hr
    have itself : AvroType.record r ∈ (AvroType.record r).parts := by
      rw [parts]
      exact List.mem_cons_self
    cases out with
    | types ts => exact List.mem_flatMap.mpr ⟨_, top, itself⟩
    | fragment t => exact List.mem_singleton.mp top ▸ itself
  exact (convert_regular h _ part).name r.name rfl

end Top

end Convert

theorem distinct_length_iff {α : Type} [DecidableEq α] {xs : List α} :
    (distinct xs).length = xs.length ↔ xs.Nodup := by
  constructor
  · intro h
    have kept : (distinct xs).Subperm xs :=
      List.subperm_of_subset (distinct_nodup xs) fun x => mem_distinct.mp
    exact (kept.perm_of_length_le h.ge).nodup_iff.mp (distinct_nodup xs)
  · intro h
    rw [distinct_of_nodup h]

namespace Job

open FileSystem

/-- The name of the file of a record. -/
def fileName (r : Record AvroType) : String := r.name ++ ".avsc"

/-- What the file of a record holds. -/
def fileText (r : Record AvroType) : String := (AvroType.record r).toJson.pretty

/-- The files of the records of a conversion, in the order in which they are written. -/
def recordFiles (out : Output) : List (String × String) :=
  out.records.map fun r => (fileName r, fileText r)

section Actions

variable {job : Job} {out : Output}

/-- Of a printed type only a record has the name of one. -/
theorem record_name_printed (t : AvroType) : recordName? t.toJson = (record? t).map Record.name := by
  cases t with
  | logical base logicalType =>
    unfold recordName?
    split <;> rfl
  | _ => rfl

theorem printed_single {t : AvroType} (h : ∃ name, t.qualifiedName? = some name) :
    ∃ members, t.toJson = .obj members := by
  obtain ⟨name, hname⟩ := h
  cases t with
  | record | enum | fixed => exact ⟨_, rfl⟩
  | _ => simp [qualifiedName?, name?] at hname

/-- The types at the top are printed as a list, or a single one as an object. -/
theorem printed_top (htop : ∀ t ∈ out.top, ∃ name, t.qualifiedName? = some name) :
    out.toJson = .arr (out.top.map toJson) ∨
      ∃ members, out.toJson = .obj members ∧ out.top.map toJson = [.obj members] := by
  match out, htop with
  | .fragment t, htop | .types [t], htop =>
    obtain ⟨members, hmembers⟩ := printed_single (htop t List.mem_cons_self)
    exact Or.inr ⟨members, hmembers, congrArg (fun j => [j]) hmembers⟩
  | .types [], _ | .types (_ :: _ :: _), _ => exact Or.inl rfl

/-- The files of the records are written in their order, after their directory is made. -/
theorem actions_of_split (hsplit : job.options.splitRecords = true)
    (htop : ∀ t ∈ out.top, ∃ name, t.qualifiedName? = some name) :
    actions job out.toJson = .makeDirectory job.output ::
      (recordFiles out).map fun f => .write (Path.join job.output f.1) f.2 := by
  have written : actions job out.toJson = .makeDirectory job.output ::
      (out.top.map toJson).filterMap fun item =>
        (recordName? item).map fun name => .write (recordFile job.output name) item.pretty := by
    unfold actions
    rw [if_pos hsplit]
    rcases printed_top htop with h | ⟨members, h, ht⟩
    · rw [h]
    · rw [h, ht]
  rw [written, List.filterMap_map, recordFiles, List.map_map, Output.records, List.map_filterMap]
  congr 1
  refine List.filterMap_congr fun t _ => ?_
  dsimp only [Function.comp]
  rw [record_name_printed]
  cases t <;> rfl

end Actions

section Writes

variable {job : Job} {fs : FileSystem} {path : String} {here : List String}
  {files : List (String × String)}

/-- All files are written if no directory stands where one of them is to be. -/
theorem perform_files (ho : fs.Opens path here) (hfit : ∀ f ∈ files, Fits path f.1)
    (hfree : ∀ f ∈ files, fs.entry? (here ++ [f.1]) ≠ some .directory) :
    performAll perform job fs (files.map fun f => .write (Path.join path f.1) f.2) =
      (fs.putFiles here files,
        files.flatMap fun f => announce job (.write (Path.join path f.1) f.2), none) := by
  induction files generalizing fs with
  | nil => rfl
  | cons f files ih =>
    rw [List.forall_mem_cons] at hfit hfree
    have written : perform fs (.write (Path.join path f.1) f.2) =
        (fs.put (here ++ [f.1]) (.file f.2), none) := by
      simp only [perform, write_in_directory ho hfit.1 hfree.1]
    have free : ∀ g ∈ files,
        entry? (fs.put (here ++ [f.1]) (.file f.2)) (here ++ [g.1]) ≠ some .directory := by
      intro g hg
      rw [entry_put_file]
      split
      · simp
      · exact hfree.2 g hg
    rw [List.map_cons, performAll, written]
    simp only [ih (ho.put hfree.1) hfit.2 free]
    rfl

theorem file_name_fits {r : Record AvroType} (hlegal : Name.isLegal r.name = true)
    (hshort : (fileName r).utf8ByteSize ≤ nameLimit)
    (hpath : (Path.join path (fileName r)).utf8ByteSize ≤ pathLimit) : Fits path (fileName r) := by
  have apart : ∀ c, Name.isPart c = false → c ∉ ".avsc".toList → c ∉ (fileName r).toList := by
    intro c hc hend
    rw [fileName, String.toList_append, List.mem_append, not_or]
    exact ⟨Name.not_mem_of_isLegal hlegal hc, hend⟩
  have long : 5 ≤ (fileName r).length := by
    rw [fileName, String.length_append]
    exact Nat.le_add_left _ _
  have plain : fileName r ∉ ["", ".", ".."] := by
    intro h
    simp only [List.mem_cons, List.not_mem_nil, or_false] at h
    rcases h with h | h | h <;> exact absurd (h ▸ long) (by decide)
  exact ⟨apart _ (by decide) (by decide), apart _ (by decide) (by decide), plain, hshort, hpath⟩

theorem file_name_eq {r r' : Record AvroType} : fileName r = fileName r' ↔ r.name = r'.name :=
  String.append_left_inj _

theorem lookup_file (records : List (Record AvroType)) (r : Record AvroType) :
    (records.map fun r => (fileName r, fileText r)).lookup (fileName r) =
      (records.find? fun r' => r'.name = r.name).map fileText := by
  induction records with
  | nil => rfl
  | cons r' records ih =>
    rw [List.map_cons, lookup_cons_if, List.find?_cons, ih]
    simp only [file_name_eq]
    by_cases hname : r'.name = r.name
    · simp [hname]
    · simp [hname, Ne.symm hname]

end Writes

/-- Every record has a file that holds just this record, and there are as many files as records. -/
structure Lossless (out : Output) (files : FileSystem) (here : List String) : Prop where
  kept : ∀ r ∈ out.records, ∃ place ∈ files.below here, files.entry? place = some (.file (fileText r))
  counted : (files.below here).length = out.records.length

section Split

variable {cfg : Setting} {j : Json} {location : String} {out : Output} {ws : List Warning}
  {job : Job} {fs : FileSystem} {here : List String}

theorem last_record {r : Record AvroType} (hr : r ∈ out.records) :
    ∃ last, out.records.reverse.find? (fun r' => r'.name = r.name) = some last ∧
      last ∈ out.records ∧ last.name = r.name := by
  have found : (out.records.reverse.find? fun r' => r'.name = r.name).isSome = true :=
    List.find?_isSome.mpr ⟨r, List.mem_reverse.mpr hr, by simp⟩
  obtain ⟨last, hlast⟩ := Option.isSome_iff_exists.mp found
  refine ⟨last, hlast, List.mem_reverse.mp (List.mem_of_find?_eq_some hlast), ?_⟩
  simpa using List.find?_some hlast

theorem entry_recordFiles {r last : Record AvroType}
    (h : out.records.reverse.find? (fun r' => r'.name = r.name) = some last) :
    entry? (fs.putFiles here (recordFiles out)) (here ++ [fileName r]) =
      some (.file (fileText last)) := by
  rw [entry_putFiles, recordFiles, ← List.map_reverse, lookup_file, h]
  rfl

theorem below_recordFiles (hvacant : fs.below here = []) :
    (fs.putFiles here (recordFiles out)).below here =
      distinct (out.records.map fun r => here ++ [fileName r]) := by
  rw [below_putFiles, hvacant, recordFiles, List.map_map]
  rfl

/-- The files hold all records just if no two of these have the same name. -/
theorem lossless_iff (hvacant : fs.below here = []) :
    Lossless out (fs.putFiles here (recordFiles out)) here ↔ (out.records.map Record.name).Nodup := by
  have places : (out.records.map fun r => here ++ [fileName r]) =
      (out.records.map Record.name).map fun name => here ++ [name ++ ".avsc"] := by
    rw [List.map_map]
    rfl
  constructor
  · intro h
    have counted := h.counted
    rw [below_recordFiles hvacant, ← List.length_map (fun r => here ++ [fileName r]),
      distinct_length_iff, places] at counted
    exact counted.of_map
  · intro h
    have apart : (out.records.map fun r => here ++ [fileName r]).Nodup := by
      rw [places]
      refine h.map fun name name' he => ?_
      have file := List.singleton_inj.mp (List.append_cancel_left he)
      exact (String.append_left_inj _).mp file
    constructor
    · intro r hr
      refine ⟨here ++ [fileName r], ?_, ?_⟩
      · rw [below_recordFiles hvacant, mem_distinct]
        exact List.mem_map_of_mem hr
      · obtain ⟨last, hlast, hmem, hname⟩ := last_record hr
        rw [entry_recordFiles hlast, List.inj_on_of_nodup_map h hmem hr hname]
    · rw [below_recordFiles hvacant, distinct_length_iff.mpr apart, List.length_map]

/-- All records that a conversion gives are written to a directory that is empty, if their names are not
too long. A file then holds the last record of its name, and none is lost just if no two records have the
same name. -/
theorem records_split_by_name (h : Convert.convert cfg j location = (.ok out, ws))
    (hsplit : job.options.splitRecords = true) (ho : fs.Opens job.output here)
    (hvacant : fs.below here = [])
    (hshort : ∀ r ∈ out.records, (fileName r).utf8ByteSize ≤ nameLimit ∧
      (Path.join job.output (fileName r)).utf8ByteSize ≤ pathLimit) :
    (out.records.map fun r => qualify r.ns r.name).Nodup ∧
    ∃ files events, performAll perform job fs (actions job out.toJson) = (files, events, none) ∧
      files.below here = distinct (out.records.map fun r => here ++ [fileName r]) ∧
      (∀ r ∈ out.records, ∃ last,
        out.records.reverse.find? (fun r' => r'.name = r.name) = some last ∧
        files.entry? (here ++ [fileName r]) = some (.file (fileText last))) ∧
      (Lossless out files here ↔ (out.records.map Record.name).Nodup) := by
  have fits : ∀ f ∈ recordFiles out, Fits job.output f.1 := by
    intro f hf
    obtain ⟨r, hr, rfl⟩ := List.mem_map.mp hf
    exact file_name_fits (Convert.record_name_legal h r hr) (hshort r hr).1 (hshort r hr).2
  have free : ∀ f ∈ recordFiles out, fs.entry? (here ++ [f.1]) ≠ some .directory := by
    intro f _
    rw [entry_of_vacant hvacant]
    simp
  have made : perform fs (.makeDirectory job.output) = (fs, none) := by
    simp only [perform, make_directory_there ho, Option.map_none]
  have run : performAll perform job fs (actions job out.toJson) =
      (fs.putFiles here (recordFiles out), (recordFiles out).flatMap fun f =>
        announce job (.write (Path.join job.output f.1) f.2), none) := by
    rw [actions_of_split hsplit (Convert.top_named h), performAll, made]
    simp only [perform_files ho fits free]
    rfl
  refine ⟨Convert.record_names_distinct h, _, _, run, below_recordFiles hvacant, fun r hr => ?_,
    lossless_iff hvacant⟩
  obtain ⟨last, hlast, -⟩ := last_record hr
  exact ⟨last, hlast, entry_recordFiles hlast⟩

end Split

section Examples

open AvroDerive.Convert (offline objectSchema output_of_any)

def emptyDirectory : FileSystem := { entries := [(["out"], .directory)] }

def splitJob : Job := { input := "d.json", output := "/out", options := { splitRecords := true } }

theorem empty_directory_opens : emptyDirectory.Opens "/out" ["out"] where
  nulless := by decide
  short := by decide
  reached := by decide
  directory := by decide

/-- Two groups with a definition each. -/
def grouped (first second : String) : Json :=
  .obj [("definitions", .obj [
    ("a", .obj [(first, objectSchema [("p", .obj [("type", .str "string")])])]),
    ("b", .obj [(second, objectSchema [("q", .obj [("type", .str "integer")])])])])]

theorem other_names_split : ∃ out ws, Convert.convert offline (grouped "X" "Y") "" = (.ok out, ws) ∧
    out.records.map Record.name = ["X", "Y"] ∧
    ∃ files events,
      performAll perform splitJob emptyDirectory (actions splitJob out.toJson) = (files, events, none) ∧
      Lossless out files ["out"] := by
  obtain ⟨out, hout, hp⟩ := output_of_any (r := Convert.convert offline (grouped "X" "Y") "")
    (p := fun out => decide (out.records.map Record.name = ["X", "Y"]) &&
      out.records.all fun r => decide ((fileName r).utf8ByteSize ≤ nameLimit ∧
        (Path.join "/out" (fileName r)).utf8ByteSize ≤ pathLimit)) (by decide +kernel)
  rw [Bool.and_eq_true, decide_eq_true_eq, List.all_eq_true] at hp
  have splits : splitJob.options.splitRecords = true := rfl
  obtain ⟨-, files, events, hrun, -, -, hlossless⟩ := records_split_by_name hout splits
    empty_directory_opens (by decide) fun r hr => of_decide_eq_true (hp.2 r hr)
  refine ⟨out, _, hout, hp.1, files, events, hrun, hlossless.mpr ?_⟩
  rw [hp.1]
  decide

/-- Of two records that differ in their namespaces, one is lost. -/
theorem same_names_overwritten : emptyDirectory.below ["out"] = [] ∧
    ∃ out ws, Convert.convert offline (grouped "X" "X") "" = (.ok out, ws) ∧
    (out.records.map fun r => qualify r.ns r.name) = ["ns.a.X", "ns.b.X"] ∧
    ∃ files events,
      performAll perform splitJob emptyDirectory (actions splitJob out.toJson) = (files, events, none) ∧
      files.below ["out"] = [["out", "X.avsc"]] ∧ ¬Lossless out files ["out"] := by
  obtain ⟨out, hout, hp⟩ := output_of_any (r := Convert.convert offline (grouped "X" "X") "")
    (p := fun out =>
      decide ((out.records.map fun r => qualify r.ns r.name) = ["ns.a.X", "ns.b.X"]) &&
      let run := performAll perform splitJob emptyDirectory (actions splitJob out.toJson)
      decide (run.1.below ["out"] = [["out", "X.avsc"]] ∧ run.2.2 = none)) (by decide +kernel)
  rw [Bool.and_eq_true, decide_eq_true_eq] at hp
  obtain ⟨hnames, hrun⟩ := hp
  obtain ⟨hbelow, hrefusal⟩ := of_decide_eq_true hrun
  refine ⟨by decide, out, _, hout, hnames, _, _, Prod.ext rfl (Prod.ext rfl hrefusal), hbelow, ?_⟩
  intro h
  have counted := h.counted
  have two := congrArg List.length hnames
  rw [List.length_map, ← counted, hbelow] at two
  exact absurd two (by decide)

end Examples

end Job

end AvroDerive
