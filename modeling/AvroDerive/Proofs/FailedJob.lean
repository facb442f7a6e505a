import AvroDerive.Proofs.MadeDirectory
import AvroDerive.Proofs.SplitRecord

/-! # Failed jobs

A job that fails before its first write leaves the files as they are, and so does one that writes a single
file. Where records are split, a refused write comes behind others, and these stay. -/
namespace AvroDerive

namespace Job

open FileSystem

/-- A device that changes nothing where it refuses to write. Where it cannot make a directory, it may have
made some of those that this one stands in. -/
structure Clean (device : Device) : Prop where
  write : ∀ {fs files path text refusal},
    device fs (.write path text) = (files, some refusal) → files = fs
  directory : ∀ {fs files path refusal},
    device fs (.makeDirectory path) = (files, some refusal) → Makes fs files (Path.parents path)

theorem perform_clean : Clean perform where
  write {fs files path text refusal} h := by
    dsimp only [perform] at h
    cases hwrite : fs.write path text with
    | ok written => simp [hwrite] at h
    | error e =>
      rw [hwrite] at h
      exact (Prod.mk.inj h).1.symm
  directory {fs files path refusal} h := by
    obtain ⟨hfiles, hrefusal⟩ := Prod.mk.inj h
    obtain ⟨e, he, -⟩ := Option.map_eq_some_iff.mp hrefusal
    exact make_directory_refused (Prod.ext hfiles he)

/-- A run of actions of which none is refused. -/
inductive Performed (device : Device) : FileSystem → List Action → FileSystem → Prop
  | nil {fs} : Performed device fs [] fs
  | cons {fs between files a rest} : device fs a = (between, none) →
    Performed device between rest files → Performed device fs (a :: rest) files

section Run

variable {device : Device} {job : Job} {source : Source} {fs : FileSystem} {todo : List Action}
  {refusal : Refusal} {f : Failure}

/-- The refused action is the last that a run starts; those before it are performed. -/
theorem performAll_refused (h : (performAll device job fs todo).2.2 = some refusal) :
    ∃ done a rest between, todo = done ++ a :: rest ∧ Performed device fs done between ∧
      device between a = ((performAll device job fs todo).1, some refusal) := by
  induction todo generalizing fs with
  | nil => simp [performAll] at h
  | cons a rest ih =>
    rcases hstep : device fs a with ⟨next, refused⟩
    rw [performAll, hstep] at h ⊢
    cases refused with
    | some refused =>
      obtain rfl := Option.some.inj h
      exact ⟨[], a, rest, fs, rfl, .nil, hstep⟩
    | none =>
      obtain ⟨done, a', rest', between, rfl, hdone, hrefused⟩ := ih h
      exact ⟨a :: done, a', rest', between, rfl, .cons hstep hdone, hrefused⟩

/-- A job makes a directory only before all else. -/
theorem directory_first {schema : Json} {done rest : List Action} {path : String}
    (h : actions job schema = done ++ .makeDirectory path :: rest) : done = [] := by
  cases done with
  | nil => rfl
  | cons first done =>
    have later : Action.makeDirectory path ∈ done ++ .makeDirectory path :: rest :=
      List.mem_append_right _ List.mem_cons_self
    rw [List.cons_append] at h
    unfold actions at h
    split at h
    · rw [← (List.cons.inj h).2, List.mem_filterMap] at later
      obtain ⟨item, -, hitem⟩ := later
      obtain ⟨name, -, hname⟩ := Option.map_eq_some_iff.mp hitem
      exact Action.noConfusion hname
    · rw [← (List.cons.inj h).2] at later
      simp at later

theorem actions_of_whole {schema : Json} (h : job.options.splitRecords = false) :
    actions job schema = [.write job.output schema.pretty] := by
  unfold actions
  rw [h, if_neg Bool.false_ne_true]

/-- The actions of a run are performed up to one that is refused, and this leaves the files as they are. The
directory for the records is made before there are files to write. -/
inductive CutShort (device : Device) (fs : FileSystem) (todo : List Action) (files : FileSystem)
    (refusal : Refusal) : Prop
  | directory {path rest} : todo = .makeDirectory path :: rest →
    device fs (.makeDirectory path) = (files, some refusal) → Makes fs files (Path.parents path) →
    CutShort device fs todo files refusal
  | file {done path text rest} : todo = done ++ .write path text :: rest → Performed device fs done files →
    device files (.write path text) = (files, some refusal) → CutShort device fs todo files refusal

theorem refused_cuts_short (hc : Clean device) {schema : Json}
    (h : (performAll device job fs (actions job schema)).2.2 = some refusal) :
    CutShort device fs (actions job schema) (performAll device job fs (actions job schema)).1 refusal := by
  obtain ⟨done, a, rest, between, htodo, hdone, hrefused⟩ := performAll_refused h
  cases a with
  | makeDirectory path =>
    obtain rfl := directory_first htodo
    cases hdone
    exact .directory htodo hrefused (hc.directory hrefused)
  | write path text =>
    have hfiles := hc.write hrefused
    rw [hfiles] at hrefused ⊢
    exact .file htodo hdone hrefused

theorem CutShort.of_single {path text : String} {files : FileSystem}
    (h : CutShort device fs [.write path text] files refusal) : files = fs := by
  cases h with
  | directory htodo => simp at htodo
  | @file done _ _ _ htodo hdone =>
    cases done with
    | nil =>
      cases hdone
      rfl
    | cons => simp at htodo

/-- A run that fails leaves the files as they were, unless records are split and an action is refused. Then
just the actions before that one are performed. -/
theorem failed_run_leaves (hc : Clean device) (h : (runOn device fs source job).result = .error f) :
    (runOn device fs source job).files = fs ∨
    job.options.splitRecords = true ∧ ∃ path e schema, f = .write path e ∧
      (prepare ("/" ++ "/".intercalate fs.workingDirectory) source job).1 = .ok schema ∧
      CutShort device fs (actions job schema) (runOn device fs source job).files (path, e) := by
  unfold runOn at h ⊢
  dsimp only at h ⊢
  rcases hprepared : prepare ("/" ++ "/".intercalate fs.workingDirectory) source job with ⟨result, told⟩
  rw [hprepared] at h
  cases result with
  | error g => exact Or.inl rfl
  | ok schema =>
    dsimp only at h ⊢
    cases hrefusal : (performAll device job fs (actions job schema)).2.2 with
    | none =>
      rw [hrefusal] at h
      simp at h
    | some refusal =>
      rw [hrefusal] at h
      obtain rfl := Except.error.inj h
      have cut := refused_cuts_short hc hrefusal
      by_cases hsplit : job.options.splitRecords = true
      · exact Or.inr ⟨hsplit, _, _, schema, rfl, rfl, cut⟩
      · rw [Bool.not_eq_true] at hsplit
        rw [actions_of_whole hsplit] at cut ⊢
        exact Or.inl cut.of_single

end Run

section Examples

/-- A directory in which the file of the record `B` cannot be written. -/
def blocked : FileSystem :=
  { entries := [(["out"], .directory), (["out", "B.avsc"], .directory)] }

def remoteJob : Job :=
  { input := "https://example.com/s.json", output := "/out", options := { splitRecords := true } }

def remote : Source := .ofTexts [("https://example.com/s.json", (grouped "A" "B").compact)]

/-- Why a run failed. -/
def Outcome.failure? (o : Outcome) : Option Failure :=
  match o.result with
  | .error f => some f
  | .ok _ => none

theorem Outcome.result_of_failure {o : Outcome} {f : Failure} (h : o.failure? = some f) :
    o.result = .error f := by
  unfold failure? at h
  split at h
  · next hresult => rw [hresult, Option.some.inj h]
  · simp at h

theorem blocked_run :
    (runOn perform blocked remote remoteJob).failure? =
      some (.write "/out/B.avsc" .isDirectory) ∧
    FileSystem.entry? (runOn perform blocked remote remoteJob).files ["out", "A.avsc"] ≠ none := by
  decide +kernel

theorem blocked_run_cut_short : Clean perform ∧
    (runOn perform blocked remote remoteJob).result = .error (.write "/out/B.avsc" .isDirectory) ∧
    ((runOn perform blocked remote remoteJob).files = blocked ∨
      remoteJob.options.splitRecords = true ∧ ∃ path e schema,
        .write "/out/B.avsc" .isDirectory = Failure.write path e ∧
        (prepare "/" remote remoteJob).1 = .ok schema ∧
        CutShort perform blocked (actions remoteJob schema)
          (runOn perform blocked remote remoteJob).files (path, e)) := by
  have fails := Outcome.result_of_failure blocked_run.1
  exact ⟨perform_clean, fails, failed_run_leaves perform_clean fails⟩

/-- The file of the first record stays, although the second cannot be written. -/
theorem first_record_left :
    (runOn perform blocked remote remoteJob).result = .error (.write "/out/B.avsc" .isDirectory) ∧
    blocked.Opens remoteJob.output ["out"] ∧ blocked.entry? ["out", "A.avsc"] = none ∧
    FileSystem.entry? (runOn perform blocked remote remoteJob).files ["out", "A.avsc"] ≠ none := by
  have output : blocked.Opens remoteJob.output ["out"] :=
    ⟨by decide, by decide, by decide, by decide⟩
  exact ⟨Outcome.result_of_failure blocked_run.1, output, by decide, blocked_run.2⟩

end Examples

end Job

end AvroDerive
