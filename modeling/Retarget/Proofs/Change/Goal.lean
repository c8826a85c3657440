import Retarget.Proofs.Change.Directories

/-!
Bounding what making a path with its ancestors does. A goal is a file system with some directories
more, in which every name that the path steps into is taken. On the way only directories of the goal
are made, and where the operation succeeds the path leads to one.
-/
namespace Retarget.FileSystem

variable {files goal after : FileSystem} {path : Path}

/-- A file system that lacks some directories of a goal and nothing else. -/
structure Within (files goal : FileSystem) : Prop where
  cwd : files.cwd = goal.cwd
  same : ∀ place entry, files.root.entry? place = some entry → goal.root.entry? place = some entry
  missing : ∀ place entry, goal.root.entry? place = some entry → files.root.entry? place = none →
      entry = .directory

theorem Within.ways (within : files.Within goal) : files.root.WaysIn goal.root :=
    fun place entry held _ => within.same place entry held

theorem Within.refl (files : FileSystem) : files.Within files :=
    ⟨rfl, fun _ _ held => held, fun _ _ held absent => by
  rw [absent] at held
  cases held⟩

/-- Every name that steps from a path can be taken in a directory is taken there. -/
def Holds (goal : FileSystem) (path : Path) : Prop :=
  ∀ before name after, path.openSteps = before ++ .into name :: after →
    ∀ place, Leads goal.root true linkLimit (path.start goal.cwd) before (.found place) →
      goal.root.entry? place = some .directory → goal.root.entry? (place ++ [name]) ≠ none

theorem Opens.holds {place : Place} (opens : goal.Opens path place) : goal.Holds path := by
  intro before name after steps middle there _
  have led := opens.leads
  rw [steps] at led
  exact led.taken there

/-- A directory is made on the way to a path only where the goal has one. -/
theorem Within.makeDirectory (within : files.Within goal) (holds : goal.Holds path) {parent : Path}
    (onWay : parent.OnWay path)
    (made : files.makeDirectory parent = .ok after) : after.Within goal := by
  obtain ⟨place, name, names, free, cwd, entries⟩ := makeDirectory_ok made
  obtain ⟨before, steps, led⟩ := (names.carry within.ways within.cwd.symm).steps
  obtain ⟨more, whole⟩ := onWay.steps
  have taken := holds before name more (by rw [← whole, steps]; simp) place
    (onWay.start goal.cwd ▸ led)
    (within.same _ _ names.directory)
  obtain ⟨entry, held⟩ := Option.ne_none_iff_exists'.1 taken
  obtain rfl := within.missing _ _ held free
  refine ⟨cwd.trans within.cwd, fun query found => ?_, fun query found there => ?_⟩
  · rw [entries]
    split
    · rename_i here
      rintro same
      rw [here, held, same]
    · exact within.same query found
  · rw [entries]
    split
    · exact fun absent => by cases absent
    · exact within.missing query found there

/-- Making a path goes no further than the goal. -/
theorem Within.makeDirectories (within : files.Within goal) (holds : goal.Holds path) :
    (files.makeDirectories path).2.Within goal :=
  makeDirectories_keeps (·.Within goal) (fun _ _ _ onWay held made =>
    held.makeDirectory holds onWay made) within

/-! ## A chain of directories -/

/-- Directories one in the other. -/
def nest : Place → Tree
  | [] => .empty
  | name :: rest => .branch name (nest rest) .empty

theorem entry?_nest (names query : Place) : Tree.entry? (nest names) query = if query <+:
    names then some .directory else none := by
  induction names generalizing query with
  | nil => simp [nest, Tree.entry?_empty]
  | cons name rest ih =>
    cases query with
    | nil => simp
    | cons first below =>
      rw [Tree.entry?_cons]
      by_cases same : name = first
      · simp [nest, Tree.find?, same, Node.entry?_branch, ih]
      · simp [nest, Tree.find?, same, Ne.symm same]

/-- The files with a chain of directories laid in a directory. -/
def lay (files : FileSystem) (place : Place) (first : Bytes) (rest : Place) : FileSystem :=
  files.put (place ++ [first]) (.branch (nest rest))

theorem entry?_lay {place rest : Place} {first : Bytes}
    (directory : files.root.entry? place = some .directory)
    (free : files.root.entry? (place ++ [first]) = none) (query : Place) :
    (files.lay place first rest).root.entry? query =
      if place ++ [first] <+: query ∧ query <+: place ++ first ::
          rest then some .directory else files.root.entry? query := by
  obtain ⟨inner, found⟩ := Tree.entry?_eq_directory.1 directory
  have regrouped : place ++ first :: rest = place ++ [first] ++ rest := by simp
  rw [lay, put_root]
  by_cases inside : place ++ [first] <+: query
  · obtain ⟨below, rfl⟩ := inside
    rw [Tree.entry?_set_inside found, Node.entry?_branch, entry?_nest, regrouped,
      Tree.entry?_append_of_none free]
    simp only [List.prefix_append, List.prefix_append_right_inj, true_and]
  · rw [Tree.entry?_set_outside found inside, if_neg fun both => inside both.1]

theorem within_lay {place rest : Place} {first : Bytes}
    (directory : files.root.entry? place = some .directory)
    (free : files.root.entry? (place ++ [first]) = none) :
    files.Within (files.lay place first rest) := by
  refine ⟨rfl, fun query entry held => ?_, fun query entry held absent => ?_⟩
  · rw [entry?_lay directory free, if_neg, held]
    rintro ⟨⟨below, rfl⟩, _⟩
    rw [Tree.entry?_append_of_none free] at held
    cases held
  · rw [entry?_lay directory free] at held
    split at held
    · exact (Option.some.inj held).symm
    · rw [absent] at held
      cases held

end Retarget.FileSystem
