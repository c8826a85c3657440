import Retarget.Proofs.Change.Operations
import Retarget.Proofs.Path.Base

/-!
Making a directory with its missing ancestors. In whatever order the ancestors are tried, each step
makes one of them, so what such steps keep the operation keeps. Where it succeeds, the path leads to
a directory.
-/
namespace Retarget

/-- A path on the way to another starts where the other does and takes its first steps. -/
structure Path.OnWay (parent path : Path) : Prop where
  absolute : parent.isAbsolute = path.isAbsolute
  steps : parent.openSteps <+: path.openSteps

theorem Path.OnWay.start {parent path : Path} (onWay : parent.OnWay path) (cwd : Place) :
    parent.start cwd = path.start cwd := by
  rw [Path.start, onWay.absolute, Path.start]

theorem Path.onWay_of_mem_ancestorsFrom {count : Nat} {parent path : Path}
    (member : parent ∈ ancestorsFrom count path) :
    parent.OnWay path := by
  induction count generalizing path with
  | zero => cases member
  | succ count ih =>
    unfold ancestorsFrom at member
    rcases List.mem_cons.1 member with rfl | above
    · exact ⟨rfl, List.prefix_refl _⟩
    · split at above
      · cases above
      · rename_i next given
        obtain ⟨absolute, steps⟩ := openSteps_parent given
        have further := ih above
        exact ⟨further.absolute.trans absolute, further.steps.trans steps⟩

/-- An ancestor of a path that leads on lacks a step of it that leads on. -/
theorem Path.steps_of_mem_ancestors {parent path : Path} (member : parent ∈ path.ancestors)
    (goes : ¬Path.Idle path.openSteps) :
    parent = path ∨ ∃ tail, path.openSteps = parent.openSteps ++ tail ∧ ¬Path.Idle tail := by
  unfold ancestors ancestorsFrom at member
  rcases List.mem_cons.1 member with rfl | above
  · exact .inl rfl
  · right
    split at above
    · cases above
    · rename_i next given
      rcases parent?_cases path with ⟨idle, _⟩ | ⟨found, last, before, after, same, _, steps, _, _,
        moves, _⟩
      · exact absurd idle goes
      · obtain rfl : found = next := Option.some.inj (same.symm.trans given)
        obtain ⟨more, whole⟩ := (onWay_of_mem_ancestorsFrom above).steps
        rw [← whole, List.append_assoc] at steps
        exact ⟨_, steps, fun idle => moves (idle last (by simp))⟩

namespace FileSystem

variable {files after : FileSystem} {path : Path}

/-! ## One directory -/

/-- A new directory is the only change, and the path names it. -/
theorem makeDirectory_ok (made : files.makeDirectory path = .ok after) :
    ∃ place name, files.Names path place name ∧ files.root.entry? (place ++ [name]) = none ∧
    after.cwd = files.cwd ∧
      ∀ query, after.root.entry? query = if query = place ++ [name] then some .directory else
      files.root.entry? query := by
  obtain ⟨place, name, names, free, rfl⟩ := create_ok made
  exact ⟨place, name, names, free, rfl,
    entry?_put_directory names.directory (Tree.bare_of_none free)⟩

/-- A later state that has every entry of an earlier one. -/
structure Grows (files after : FileSystem) : Prop where
  cwd : after.cwd = files.cwd
  kept : ∀ place entry, files.root.entry? place = some entry → after.root.entry? place = some entry

theorem Grows.refl (files : FileSystem) : files.Grows files := ⟨rfl, fun _ _ held => held⟩

theorem Grows.trans {middle : FileSystem} (first : files.Grows middle)
    (second : middle.Grows after) : files.Grows after :=
  ⟨second.cwd.trans first.cwd, fun place entry held =>
    second.kept place entry (first.kept place entry held)⟩

theorem Grows.ways (grows : files.Grows after) : files.root.WaysIn after.root :=
    fun place entry held _ => grows.kept place entry held

theorem grows_of_makeDirectory (made : files.makeDirectory path = .ok after) :
    files.Grows after := by
  obtain ⟨place, name, _, free, cwd, entries⟩ := makeDirectory_ok made
  refine ⟨cwd, fun query entry held => ?_⟩
  rw [entries, if_neg, held]
  rintro rfl
  rw [free] at held
  cases held

theorem opens_of_makeDirectory (made : files.makeDirectory path = .ok after) :
    ∃ place, after.Opens path place := by
  have grows := grows_of_makeDirectory made
  obtain ⟨place, name, names, free, cwd, entries⟩ := makeDirectory_ok made
  have there : after.root.entry? (place ++ [name]) = some .directory := by rw [entries, if_pos rfl]
  exact ⟨place ++ [name], (names.carry grows.ways grows.cwd).opens there⟩

/-- A path that is refused outright is not looked for. -/
theorem makeDirectory_refused {cause : OsError} (refused : path.check = .error cause) :
    files.makeDirectory path = .error cause := by
  simp [makeDirectory, create, lastStep, spot, refused, bind, Except.bind]

/-! ## With its ancestors -/

section Keeping

variable {keeps : FileSystem → Prop} {above absent left : List Path}

theorem missing_keeps
    (step : ∀ now parent after, parent ∈ above → keeps now →
      now.makeDirectory parent = .ok after → keeps after)
    (start : keeps files) (found : files.missing above absent = .ok (left, after)) :
    keeps after ∧ ∀ parent ∈ left, parent ∈ above ∨ parent ∈ absent := by
  induction above generalizing absent with
  | nil =>
    cases found
    exact ⟨start, fun _ => .inr⟩
  | cons parent rest ih =>
    unfold FileSystem.missing at found
    split at found
    · cases found
      exact ⟨start, fun _ => .inr⟩
    · split at found
      · rename_i made
        cases found
        exact ⟨step _ _ _ (by simp) start made, fun _ => .inr⟩
      · obtain ⟨kept, origin⟩ :=
          ih (fun now other after member => step now other after (by simp [member])) found
        refine ⟨kept, fun other member => ?_⟩
        rcases origin other member with further | waiting
        · exact .inl (List.mem_cons_of_mem _ further)
        · rcases List.mem_cons.1 waiting with rfl | old
          · exact .inl List.mem_cons_self
          · exact .inr old
      · split at found
        · cases found
          exact ⟨start, fun _ => .inr⟩
        · cases found

theorem makeAll_keeps {paths : List Path}
    (step : ∀ now parent after, parent ∈ paths → keeps now →
      now.makeDirectory parent = .ok after → keeps after)
    (start : keeps files) : keeps (FileSystem.makeAll paths files).2 := by
  induction paths generalizing files with
  | nil => exact start
  | cons parent rest ih =>
    have further : ∀ now other after, other ∈ rest → keeps now →
        now.makeDirectory other = .ok after → keeps after :=
      fun now other after member => step now other after (by simp [member])
    unfold FileSystem.makeAll
    split
    · rename_i made
      exact ih further (step _ _ _ (by simp) start made)
    · split
      · exact ih further start
      · exact start

/-- What making any ancestor of a path keeps, making the path keeps. -/
theorem makeDirectories_keeps_ancestors (keeps : FileSystem → Prop)
    (step : ∀ now parent after, parent ∈ path.ancestors → keeps now →
      now.makeDirectory parent = .ok after → keeps after)
    (start : keeps files) : keeps (files.makeDirectories path).2 := by
  unfold FileSystem.makeDirectories
  split
  · exact start
  · split
    · exact start
    · rename_i absent middle found
      obtain ⟨kept, origin⟩ := missing_keeps step start found
      refine makeAll_keeps (fun now parent after member => step now parent after ?_) kept
      rcases origin parent member with given | none
      · exact given
      · cases none

/-- What making any directory on the way to a path keeps, making the path keeps. -/
theorem makeDirectories_keeps (keeps : FileSystem → Prop)
    (step : ∀ now parent after, parent.OnWay path → keeps now →
      now.makeDirectory parent = .ok after → keeps after)
    (start : keeps files) : keeps (files.makeDirectories path).2 :=
  makeDirectories_keeps_ancestors keeps
    (fun now parent after member => step now parent after (Path.onWay_of_mem_ancestorsFrom member))
    start

end Keeping

theorem grows_of_makeDirectories : files.Grows (files.makeDirectories path).2 :=
  makeDirectories_keeps files.Grows
  (fun _ _ _ _ grown made => grown.trans (grows_of_makeDirectory made)) (.refl files)

/-- What is there after a path was made was there before, or is a directory. -/
theorem of_makeDirectories {query : Place} {entry : Entry}
    (held : (files.makeDirectories path).2.root.entry? query = some entry) :
    files.root.entry? query = some entry ∨ entry = .directory := by
  refine makeDirectories_keeps (fun now => ∀ query entry, now.root.entry? query = some entry →
    files.root.entry? query = some entry ∨ entry = .directory) ?_ (fun _ _ => .inl) query entry held
  intro now parent after _ kept made query entry held
  obtain ⟨place, name, _, _, _, entries⟩ := makeDirectory_ok made
  rw [entries] at held
  split at held
  · exact .inr (Option.some.inj held).symm
  · exact kept query entry held

/-! ## Success -/

theorem missing_concat {above absent left : List Path}
    (found : files.missing above (absent ++ [path]) = .ok (left, after)) :
    ∃ front, left = front ++ [path] := by
  induction above generalizing absent with
  | nil =>
    cases found
    exact ⟨absent, rfl⟩
  | cons parent rest ih =>
    unfold FileSystem.missing at found
    split at found
    · cases found
      exact ⟨absent, rfl⟩
    · split at found
      · cases found
        exact ⟨absent, rfl⟩
      · rw [← List.cons_append] at found
        exact ih found
      · split at found
        · cases found
          exact ⟨absent, rfl⟩
        · cases found

theorem makeAll_concat {front : List Path}
    (made : FileSystem.makeAll (front ++ [path]) files = (.ok (), after)) :
    ∃ place, after.Opens path place := by
  induction front generalizing files with
  | nil =>
    unfold FileSystem.makeAll at made
    simp only [List.nil_append] at made
    split at made
    · rename_i here
      cases made
      exact opens_of_makeDirectory here
    · split at made
      · rename_i present
        cases made
        exact isDirectory_iff.1 present.2
      · cases made
  | cons parent rest ih =>
    unfold FileSystem.makeAll at made
    simp only [List.cons_append] at made
    split at made
    · exact ih made
    · split at made
      · exact ih made
      · cases made

theorem ancestors_eq_cons (path : Path) : ∃ above, path.ancestors = path :: above := ⟨_, rfl⟩

/-- Where a directory can be made at once, nothing else is made. -/
theorem makeDirectories_of_makeDirectory (goes : ¬Path.Idle path.openSteps)
    (made : files.makeDirectory path = .ok after) :
    files.makeDirectories path = (.ok (), after) := by
  have written : path.bytes ≠ [] := by
    intro none
    refine goes fun step member => ?_
    simp [Path.openSteps, none, Path.step?] at member
  obtain ⟨parent, given⟩ : ∃ parent, path.parent? = some parent := by
    rcases Path.parent?_cases path with ⟨idle, _⟩ | ⟨parent, _, _, _, given, _⟩
    · exact absurd idle goes
    · exact ⟨parent, given⟩
  obtain ⟨above, chain⟩ := ancestors_eq_cons path
  simp [FileSystem.makeDirectories, Path.components_ne_nil written, chain, FileSystem.missing,
    written, given, made, makeAll]

/-- A path that was made leads to a directory, unless it is the root however it is written. -/
theorem makeDirectories_ok (written : path.bytes ≠ [])
    (made : files.makeDirectories path = (.ok (), after)) :
    (∃ place, after.Opens path place) ∨ path.isAbsolute = true ∧ Path.Idle path.openSteps := by
  obtain ⟨above, chain⟩ := ancestors_eq_cons path
  unfold FileSystem.makeDirectories at made
  rw [if_neg (Path.components_ne_nil written), chain] at made
  unfold FileSystem.missing at made
  split at made
  · cases made
  · rename_i absent middle found
    split at found
    · rename_i top
      exact .inr (Path.root_of_parent?_eq_none written (top.resolve_left written))
    · left
      split at found
      · rename_i here
        cases found
        cases made
        exact opens_of_makeDirectory here
      · rw [← List.nil_append [path]] at found
        obtain ⟨front, rfl⟩ := missing_concat found
        exact makeAll_concat made
      · split at found
        · rename_i present
          cases found
          cases made
          exact isDirectory_iff.1 present.2
        · cases found

/-- Nothing is made on the way to a path that is refused outright. -/
theorem makeDirectories_refused {cause : OsError} (refused : path.check = .error cause)
    (other : cause ≠ .notFound) :
    (files.makeDirectories path).2 = files := by
  obtain ⟨above, chain⟩ := ancestors_eq_cons path
  unfold FileSystem.makeDirectories
  split
  · rfl
  · rw [chain, FileSystem.missing, makeDirectory_refused refused]
    split
    · rename_i found
      split at found <;> rfl
    · rename_i absent middle found
      split at found
      · cases found
        rfl
      · split at found
        · rename_i same
          cases same
        · rename_i same
          exact absurd (Except.error.inj same) other
        · split at found
          · cases found
            rfl
          · cases found

end FileSystem
end Retarget
