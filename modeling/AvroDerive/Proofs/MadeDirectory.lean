import AvroDerive.Proofs.WrittenFile

/-! # Made directories

A directory is made together with those that it stands in, each where nothing was. Where it cannot be made,
only of these some are there. -/
namespace AvroDerive

namespace FileSystem

variable {fs files files' : FileSystem} {path : String} {paths shorter : List String}

/-- Where a path leads. -/
def placeOf (fs : FileSystem) (path : String) : Except Error (List String) :=
  fs.place (.ofText path) (Route.ofText path).steps

/-- Nothing changes but that directories are made where some of the paths lead. -/
structure Makes (fs files : FileSystem) (paths : List String) : Prop where
  workingDirectory : files.workingDirectory = fs.workingDirectory
  entries : ∀ place, files.entry? place = fs.entry? place ∨
    fs.entry? place = none ∧ files.entry? place = some .directory ∧
      ∃ path ∈ paths, files.placeOf path = .ok place

theorem Makes.refl (fs : FileSystem) (paths : List String) : Makes fs fs paths :=
  ⟨rfl, fun _ => Or.inl rfl⟩

theorem Makes.keeps (h : Makes fs files paths) : KeepsDirectories fs files := by
  intro place hplace
  rcases h.entries place with he | ⟨hnone, -⟩
  · exact he.trans hplace
  · exact absurd (hnone.symm.trans hplace) (by simp)

theorem place_of_kept {place : List String} (hk : KeepsDirectories fs files)
    (hw : files.workingDirectory = fs.workingDirectory) (hp : fs.placeOf path = .ok place) :
    files.placeOf path = .ok place := by
  unfold placeOf FileSystem.place at hp ⊢
  rw [hw]
  split_ifs at hp ⊢
  all_goals exact walk_keeps hk hp

theorem Makes.mono (h : Makes fs files shorter) (hs : shorter ⊆ paths) : Makes fs files paths where
  workingDirectory := h.workingDirectory
  entries place := (h.entries place).imp_right
    fun ⟨hnone, hmade, path, hpath, hp⟩ => ⟨hnone, hmade, path, hs hpath, hp⟩

theorem Makes.trans (h : Makes fs files paths) (h' : Makes files files' paths) : Makes fs files' paths where
  workingDirectory := h'.workingDirectory.trans h.workingDirectory
  entries place := by
    rcases h'.entries place with he' | ⟨hnone', made'⟩
    · rcases h.entries place with he | ⟨hnone, hmade, path, hpath, hp⟩
      · exact Or.inl (he'.trans he)
      · exact Or.inr ⟨hnone, he'.trans hmade, path, hpath, place_of_kept h'.keeps h'.workingDirectory hp⟩
    · rcases h.entries place with he | ⟨-, hmade, -⟩
      · exact Or.inr ⟨he ▸ hnone', made'⟩
      · exact absurd (hmade.symm.trans hnone') (by simp)

/-- A directory is made where nothing is, or nothing is made. -/
theorem make_one_cases (fs : FileSystem) (path : String) : (fs.makeOne path).1 = fs ∨
    ∃ here, fs.placeOf path = .ok here ∧ fs.entry? here = none ∧
      fs.makeOne path = (fs.put here .directory, none) := by
  unfold makeOne
  dsimp only
  rw [← placeOf]
  cases hplace : fs.placeOf path with
  | error e => exact Or.inl rfl
  | ok here =>
    dsimp only
    split
    · exact Or.inl rfl
    · exact Or.inl rfl
    · next hnone => exact Or.inr ⟨here, rfl, hnone, rfl⟩

theorem make_one_makes (fs : FileSystem) (path : String) : Makes fs (fs.makeOne path).1 [path] := by
  rcases make_one_cases fs path with h | ⟨here, hplace, hnone, h⟩
  · rw [h]
    exact .refl fs _
  · have free : fs.entry? here ≠ some .directory := by simp [hnone]
    have hne := ne_root_of_free free
    rw [h]
    refine ⟨working_directory_put, fun place => ?_⟩
    by_cases he : place = here
    · subst he
      refine Or.inr ⟨hnone, by rw [entry_put hne, if_pos rfl], path, List.mem_cons_self, ?_⟩
      exact place_of_kept (put_keeps free) working_directory_put hplace
    · left
      rw [entry_put hne, if_neg he]

theorem make_one_refused {e : Error} (h : fs.makeOne path = (files, some e)) : files = fs := by
  rcases make_one_cases fs path with hsame | ⟨here, -, -, hmade⟩
  · exact (congrArg Prod.fst h).symm.trans hsame
  · rw [hmade] at h
    simp at h

theorem make_after_makes (fs : FileSystem) (paths : List String) : Makes fs (fs.makeAfter paths).1 paths := by
  induction paths with
  | nil => exact .refl fs _
  | cons path shorter ih =>
    have last : ∀ fs : FileSystem, Makes fs (fs.makeOne path).1 (path :: shorter) := fun fs =>
      (make_one_makes fs path).mono (List.cons_subset_cons _ (List.nil_subset _))
    have before := ih.mono (List.subset_cons_self path shorter)
    unfold makeAfter
    split
    · split
      · next hmade =>
        rw [hmade] at before
        exact before.trans (last _)
      · exact before
    · exact last fs

/-- Where the first of the paths is refused, directories are made on the way to it only. -/
theorem make_after_refused {e : Error} (h : fs.makeAfter (path :: shorter) = (files, some e)) :
    Makes fs files shorter := by
  have before := make_after_makes fs shorter
  unfold makeAfter at h
  split at h
  · split at h
    · next hmade =>
      rw [hmade] at before
      rwa [make_one_refused h]
    · rwa [h] at before
  · rw [make_one_refused h]
    exact .refl fs _

theorem make_directory_refused {e : Error} (h : fs.makeDirectory path = (files, some e)) :
    Makes fs files (Path.parents path) := by
  unfold makeDirectory at h
  split at h
  · simp at h
  · exact make_after_refused h

end FileSystem

end AvroDerive
