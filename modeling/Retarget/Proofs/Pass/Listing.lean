import Retarget.Pass.Files
import Retarget.Proofs.Change.Operations
import Retarget.Proofs.Tree.Walk

/-!
What a pass finds before it starts: the regular files below a directory, each once, with the path
that leads to it. A walk that gives a fingerprint is unbroken and has read every file.
-/
namespace Retarget.FileSystem

variable {files : FileSystem} {directory : Path}

/-- A list of all regular files below a directory. -/
structure Lists (files : FileSystem) (directory : Path) (place : Place) (listed : List Found) :
    Prop where
  opens : files.Opens directory place
  descends : ∀ found ∈ listed, found.path = directory.descend found.place
  held : ∀ found ∈ listed, ∃ contents, found.entry = .leaf (.file contents) ∧
    files.root.entry? (place ++ found.place) = some (.leaf (.file contents))
  complete : ∀ below contents, files.root.entry? (place ++ below) = some (.leaf (.file contents)) →
    ∃ found ∈ listed, found.place = below
  distinct : (listed.map Found.place).Nodup

theorem Lists.legal {place : Place} {listed : List Found}
    (lists : files.Lists directory place listed)
    (wellFormed : files.root.WellFormed) {found : Found} (member : found ∈ listed) :
    ∀ name ∈ found.place, Tree.Legal name := by
  obtain ⟨contents, _, held⟩ := lists.held found member
  exact fun name inside => wellFormed.legal held name (List.mem_append_right _ inside)

/-- A listed file stands under a name, in a directory. -/
theorem Lists.above {place : Place} {listed : List Found}
    (lists : files.Lists directory place listed) {found : Found}
    (member : found ∈ listed) : ∃ above name, found.place = above ++ [name] ∧ found.name = name ∧
      files.root.entry? (place ++ above) = some .directory := by
  obtain ⟨contents, _, held⟩ := lists.held found member
  obtain ⟨above, name, whole⟩ := lists.opens.concat_of_leaf held
  refine ⟨above, name, whole, by simp [Found.name, whole], ?_⟩
  rw [whole, ← List.append_assoc] at held
  exact Tree.directory_above held (by simp)

/-! ## Walks -/

theorem unbroken_ok {walk : List (Except WalkError Found)} {listed : List Found} :
    unbroken walk = .ok listed ↔ walk = listed.map .ok := by
  induction walk generalizing listed with
  | nil => cases listed <;> simp [unbroken]
  | cons item rest ih =>
    cases item with
    | error error => cases listed <;> simp [unbroken]
    | ok found =>
      simp only [unbroken]
      cases listed with
      | nil => cases unbroken rest <;> simp [Except.map]
      | cons first others =>
        rw [List.map_cons, List.cons.injEq, Except.ok.injEq, ← ih]
        cases unbroken rest <;> simp [Except.map]

/-- A walk from a directory that does not break off is the walk of its tree, with a path to each
place. -/
theorem walkFrom_unbroken {inner : Tree} {top : Path} {listed : List Found}
    (whole : inner.walkFrom top = listed.map .ok) :
    listed = inner.walk.map fun visit => ⟨top.descend visit.1, visit.1, visit.2⟩ := by
  unfold Tree.walkFrom at whole
  generalize inner.walk = visits at whole
  induction visits generalizing listed with
  | nil => simpa using whole.symm
  | cons visit rest ih =>
    obtain ⟨place, entry⟩ := visit
    rw [List.flatMap_cons] at whole
    simp only at whole
    split at whole
    · obtain ⟨first, others, rfl, same, broken⟩ := List.map_eq_append_iff.1 whole.symm
      cases first with
      | nil => cases same
      | cons head tail => cases tail <;> simp at same
    · obtain ⟨first, others, rfl, same, more⟩ := List.map_eq_append_iff.1 whole.symm
      obtain ⟨head, rfl, given⟩ := List.map_eq_singleton_iff.1 same
      rw [ih more.symm, Except.ok.inj given]
      rfl

/-- From a directory, through a link or not, a walk goes down the tree of that directory. -/
theorem Opens.walk_eq {place : Place} {inner : Tree} (opens : files.Opens directory place)
    (held : files.root.at? place = some (.branch inner)) :
    ∃ top : Found, top.isFile = false ∧
      files.walk directory = .ok top :: inner.walkFrom directory := by
  have found : files.stat directory = .ok (place, .branch inner) := by
    obtain ⟨tree, found⟩ := opens_iff.1 opens
    rw [(stat_iff.1 found).2.2] at held
    rwa [← Option.some.inj held]
  unfold walk
  cases seen : files.lstat directory with
  | error cause =>
    obtain ⟨accepted, led, _⟩ := stat_iff.1 found
    rcases led.stop with led | ⟨ending, link, led, there⟩
    · rw [lstat_iff.2 ⟨accepted, led, held⟩] at seen
      cases seen
    · rw [lstat_iff.2 ⟨accepted, led, Tree.entry?_eq_leaf.1 there⟩] at seen
      cases seen
  | ok pair =>
    obtain ⟨reached, node⟩ := pair
    obtain ⟨_, leads, there⟩ := lstat_iff.1 seen
    have apart : node = .branch inner ∨ ∃ target, node = .leaf (.link target) := by
      by_contra neither
      rw [not_or, not_exists] at neither
      have plain : ∀ target, files.root.entry? reached ≠ some (.leaf (.link target)) := by
        intro target link
        rw [Tree.entry?_eq_leaf, there] at link
        exact neither.2 target (Option.some.inj link)
      have same : Spot.found reached = .found place :=
        (leads.follow_end plain).unique (stat_iff.1 found).2.1
      rw [Spot.found.inj same, held] at there
      exact neither.1 (Option.some.inj there).symm
    rcases apart with rfl | ⟨target, rfl⟩
    · exact ⟨⟨directory, [], .directory⟩, rfl, rfl⟩
    · rw [found]
      exact ⟨⟨directory, [], .leaf (.link target)⟩, rfl, rfl⟩

theorem walk_unbroken {place : Place} {inner : Tree} (opens : files.Opens directory place)
    (held : files.root.at? place = some (.branch inner)) {listed : List Found}
    (whole : files.walk directory = listed.map .ok) :
    ∃ top : Found, top.isFile = false ∧
      listed = top :: inner.walk.map fun visit =>
      ⟨directory.descend visit.1, visit.1, visit.2⟩ := by
  obtain ⟨top, notFile, walked⟩ := opens.walk_eq held
  rw [walked] at whole
  obtain ⟨first, others, rfl, same, more⟩ := List.map_eq_cons_iff.1 whole.symm
  obtain rfl := Except.ok.inj same
  exact ⟨first, notFile, by rw [← walkFrom_unbroken more.symm]⟩

/-! ## Files -/

theorem isFile_iff {found : Found} :
    found.isFile = true ↔ ∃ contents, found.entry = .leaf (.file contents) := by
  obtain ⟨path, place, entry⟩ := found
  cases entry with
  | directory => simp [Found.isFile]
  | leaf content => cases content <;> simp [Found.isFile]

theorem lists_of_walk (wellFormed : files.root.WellFormed) {place : Place}
    (opens : files.Opens directory place)
    {listed : List Found} (whole : files.walk directory = listed.map .ok) :
    files.Lists directory place (listed.filter Found.isFile) := by
  obtain ⟨inner, held⟩ := Tree.entry?_eq_directory.1 opens.directory
  obtain ⟨top, notFile, rfl⟩ := walk_unbroken opens held whole
  have formed : inner.WellFormed := (wellFormed.at? held).2
  have below : ∀ rel, files.root.entry? (place ++ rel) = inner.entry? rel :=
    Tree.entry?_append_branch held
  rw [List.filter_cons_of_neg (by simp [notFile])]
  refine ⟨opens, ?_, ?_, ?_, ?_⟩
  · intro found member
    obtain ⟨visit, _, rfl⟩ := List.mem_map.1 (List.mem_filter.1 member).1
    rfl
  · intro found member
    obtain ⟨inside, isFile⟩ := List.mem_filter.1 member
    obtain ⟨visit, visited, rfl⟩ := List.mem_map.1 inside
    obtain ⟨contents, file⟩ := isFile_iff.1 isFile
    refine ⟨contents, file, ?_⟩
    rw [below, ← file]
    exact ((Tree.mem_walk formed).1 visited).2
  · intro rel contents file
    rw [below] at file
    have some : rel ≠ [] := by
      rintro rfl
      simp at file
    refine ⟨⟨directory.descend rel, rel, .leaf (.file contents)⟩, List.mem_filter.2 ⟨?_, rfl⟩, rfl⟩
    exact List.mem_map.2 ⟨(rel, .leaf (.file contents)), (Tree.mem_walk formed).2 ⟨some, file⟩, rfl⟩
  · refine List.Nodup.sublist (List.filter_sublist.map _) ?_
    simpa [Function.comp_def] using Tree.nodup_walk formed

theorem filesBelow_ok (wellFormed : files.root.WellFormed) {listed : List Found}
    (found : files.filesBelow directory = .ok listed) :
    ∃ place, files.Lists directory place listed := by
  unfold filesBelow at found
  split at found
  · rename_i isDirectory
    obtain ⟨place, opens⟩ := isDirectory_iff.1 isDirectory
    cases walked : unbroken (files.walk directory) with
    | error error => simp [walked, Except.map] at found
    | ok whole =>
      simp only [walked, Except.map, Except.ok.injEq] at found
      exact ⟨place, found ▸ lists_of_walk wellFormed opens (unbroken_ok.1 walked)⟩
  · cases found

/-! ## Fingerprints -/

theorem marksOn_ok {top : Path} {walk : List (Except WalkError Found)} {marks : List Mark}
    (marked : files.marksOn top walk = .ok marks) :
    ∃ listed, unbroken walk = .ok listed ∧
      ∀ found ∈ listed, found.isFile = true → ∃ contents,
      files.contents found.path = .ok contents := by
  induction walk generalizing marks with
  | nil => exact ⟨[], rfl, by simp⟩
  | cons item rest ih =>
    cases item with
    | error error => cases marked
    | ok found =>
      unfold marksOn at marked
      split at marked
      · obtain ⟨first, given, marked⟩ := bind_eq_ok.1 marked
        obtain ⟨others, more, _⟩ := bind_eq_ok.1 marked
        obtain ⟨listed, unbroken, read⟩ := ih more
        refine ⟨found :: listed, by simp [FileSystem.unbroken, unbroken, Except.map], ?_⟩
        obtain ⟨contents, here, _⟩ := bind_eq_ok.1 given
        rw [List.forall_mem_cons]
        exact ⟨fun _ => ⟨contents, here⟩, read⟩
      · rename_i notFile
        obtain ⟨listed, unbroken, read⟩ := ih marked
        refine ⟨found :: listed, by simp [FileSystem.unbroken, unbroken, Except.map], ?_⟩
        rw [List.forall_mem_cons]
        exact ⟨fun isFile => absurd isFile notFile, read⟩

/-- A tree that has a fingerprint can be listed, and every file of it read. -/
theorem fingerprint_ok {fingerprint : Fingerprint}
    (taken : files.fingerprint directory = .ok fingerprint) :
    ∃ listed : List Found, files.walk directory = listed.map .ok ∧
      ∀ found ∈ listed, found.isFile = true → ∃ contents,
      files.contents found.path = .ok contents := by
  unfold FileSystem.fingerprint FileSystem.marks at taken
  cases marked : files.marksOn directory (files.walk directory) with
  | error error => simp [marked, Except.map] at taken
  | ok marks =>
    obtain ⟨listed, walked, read⟩ := marksOn_ok marked
    exact ⟨listed, unbroken_ok.1 walked, read⟩

end Retarget.FileSystem
