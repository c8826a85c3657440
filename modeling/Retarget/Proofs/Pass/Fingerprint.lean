import Retarget.Proofs.Pass.Listing
import Retarget.Proofs.Resolution.Reading
import Retarget.Proofs.Tree.Order

/-!
The fingerprint of a directory. It is settled by the entries below the directory, and it is there
unless the walk breaks off or the path to a regular file is too long: there is no other file on the
walk that cannot be read.
-/
namespace Retarget.FileSystem

variable {files other : FileSystem} {directory top : Path} {place elsewhere : Place}
  {walk : List (Except WalkError Found)} {failure : Failure}

/-! ## Marks -/

/-- Taking marks breaks off where the walk does, or before that at a file that cannot be read. -/
theorem marksOn_error (failed : files.marksOn top walk = .error failure) :
    unbroken walk = .error failure ∨
      ∃ found, .ok found ∈ walk ∧ found.isFile = true ∧
        files.contents found.path = .error failure := by
  induction walk with
  | nil => cases failed
  | cons item rest ih =>
    cases item with
    | error error =>
      cases failed
      exact .inl rfl
    | ok found =>
      have onward : files.marksOn top rest = .error failure →
          unbroken (.ok found :: rest) = .error failure ∨
            ∃ other, .ok other ∈ .ok found :: rest ∧ other.isFile = true ∧
              files.contents other.path = .error failure := by
        intro more
        rcases ih more with broken | ⟨other, member, isFile, unread⟩
        · exact .inl (by simp [unbroken, broken, Except.map])
        · exact .inr ⟨other, List.mem_cons_of_mem _ member, isFile, unread⟩
      unfold marksOn at failed
      split at failed
      · rename_i isFile
        cases read : files.contents found.path with
        | error unread =>
          simp only [mark, read, bind, Except.bind, Except.error.injEq] at failed
          exact .inr ⟨found, by simp, isFile, failed ▸ read⟩
        | ok contents =>
          cases more : files.marksOn top rest with
          | error later =>
            simp only [mark, read, more, bind, Except.bind, pure, Except.pure,
              Except.error.injEq] at failed
            exact onward (failed ▸ more)
          | ok marks => simp [mark, read, more, bind, Except.bind, pure, Except.pure] at failed
      · exact onward failed

/-- Marks are the same where the files met are read alike. -/
theorem marksOn_congr (same : ∀ found, .ok found ∈ walk → found.isFile = true →
      other.contents found.path = files.contents found.path) :
    other.marksOn top walk = files.marksOn top walk := by
  induction walk with
  | nil => rfl
  | cons item rest ih =>
    cases item with
    | error error => rfl
    | ok found =>
      have onward := ih fun later member => same later (List.mem_cons_of_mem _ member)
      unfold marksOn
      split
      · rename_i isFile
        rw [mark, mark, same found (by simp) isFile, onward]
      · exact onward

/-! ## What is met on a walk -/

/-- What is met below the top is an entry of the tree, under the path that leads to it. -/
theorem found_of_walkFrom {inner : Tree} {found : Found}
    (member : .ok found ∈ inner.walkFrom top) :
    found.path = top.descend found.place ∧ (found.place, found.entry) ∈ inner.walk := by
  unfold Tree.walkFrom at member
  obtain ⟨⟨place, entry⟩, visited, met⟩ := List.mem_flatMap.1 member
  simp only at met
  split at met <;> simp only [List.mem_cons, Except.ok.injEq, reduceCtorEq, List.not_mem_nil,
    or_false] at met <;> exact met ▸ ⟨rfl, visited⟩

/-- A file met below a directory stands there, and its path is the only thing that can be wrong. -/
theorem Opens.contents_eq (wellFormed : files.root.WellFormed) (opens : files.Opens directory place)
    {inner : Tree} (held : files.root.at? place = some (.branch inner)) {found : Found}
    (member : .ok found ∈ inner.walkFrom directory) (isFile : found.isFile = true) :
    ∃ contents, files.root.entry? (place ++ found.place) = some (.leaf (.file contents)) ∧
      files.contents found.path = if directory.InReach found.place then .ok contents
        else .error (.refused (directory.descend found.place) .nameTooLong) := by
  obtain ⟨descends, visited⟩ := found_of_walkFrom member
  obtain ⟨contents, file⟩ := isFile_iff.1 isFile
  have stands : files.root.entry? (place ++ found.place) = some (.leaf (.file contents)) := by
    rw [Tree.entry?_append_branch held, ← file]
    exact ((Tree.mem_walk (wellFormed.at? held).2).1 visited).2
  have legal : ∀ name ∈ found.place, Tree.Legal name := fun name inside =>
    wellFormed.legal stands name (List.mem_append_right _ inside)
  refine ⟨contents, stands, ?_⟩
  rw [FileSystem.contents, descends, opens.read_eq stands legal]
  split <;> rfl

/-! ## Fingerprints -/

/-- A directory without a fingerprint cannot be listed, for the same reason, or holds a file that is
out of reach. -/
theorem Opens.fingerprint_error (wellFormed : files.root.WellFormed)
    (opens : files.Opens directory place)
    (failed : files.fingerprint directory = .error failure) :
    files.filesBelow directory = .error failure ∨
      ∃ below contents, files.root.entry? (place ++ below) = some (.leaf (.file contents)) ∧
        ¬directory.InReach below ∧
        failure = .refused (directory.descend below) .nameTooLong := by
  obtain ⟨inner, held⟩ := Tree.entry?_eq_directory.1 opens.directory
  obtain ⟨first, notFile, walked⟩ := opens.walk_eq held
  have marked : files.marksOn directory (files.walk directory) = .error failure := by
    unfold FileSystem.fingerprint FileSystem.marks at failed
    cases given : files.marksOn directory (files.walk directory) with
    | error error =>
      rw [given] at failed
      exact congrArg Except.error (Except.error.inj failed)
    | ok marks =>
      rw [given] at failed
      cases failed
  rcases marksOn_error marked with broken | ⟨found, member, isFile, unread⟩
  · left
    rw [filesBelow, if_pos (isDirectory_iff.2 ⟨place, opens⟩), broken]
    rfl
  · rw [walked, List.mem_cons] at member
    have below : .ok found ∈ inner.walkFrom directory := by
      refine member.resolve_left fun same => ?_
      rw [← Except.ok.inj same, isFile] at notFile
      cases notFile
    obtain ⟨contents, stands, read⟩ := opens.contents_eq wellFormed held below isFile
    rw [unread] at read
    split at read
    · cases read
    · rename_i far
      exact .inr ⟨found.place, contents, stands, far, Except.error.inj read⟩

/-- Every file below a directory that has a fingerprint is in reach. -/
theorem Opens.inReach_of_fingerprint (wellFormed : files.root.WellFormed)
    (opens : files.Opens directory place) {fingerprint : Fingerprint}
    (taken : files.fingerprint directory = .ok fingerprint) {below : Place} {contents : Bytes}
    (held : files.root.entry? (place ++ below) = some (.leaf (.file contents))) :
    directory.InReach below := by
  obtain ⟨walked, whole, read⟩ := fingerprint_ok taken
  have lists := lists_of_walk wellFormed opens whole
  obtain ⟨found, member, rfl⟩ := lists.complete below contents held
  obtain ⟨inside, isFile⟩ := List.mem_filter.1 member
  obtain ⟨given, got⟩ := read found inside isFile
  by_contra far
  rw [FileSystem.contents, lists.descends found member,
    opens.read_eq held (lists.legal wellFormed member), if_neg far] at got
  cases got

/-- A directory that can be listed has a fingerprint exactly if every file below it is in reach. -/
theorem Opens.fingerprint_iff (wellFormed : files.root.WellFormed)
    (opens : files.Opens directory place) {listed : List Found}
    (found : files.filesBelow directory = .ok listed) :
    (∃ fingerprint, files.fingerprint directory = .ok fingerprint) ↔
      ∀ below contents, files.root.entry? (place ++ below) = some (.leaf (.file contents)) →
        directory.InReach below := by
  constructor
  · rintro ⟨fingerprint, taken⟩ below contents held
    exact opens.inReach_of_fingerprint wellFormed taken held
  · intro reached
    cases taken : files.fingerprint directory with
    | ok fingerprint => exact ⟨fingerprint, rfl⟩
    | error failure =>
      rcases opens.fingerprint_error wellFormed taken with
        unlisted | ⟨below, contents, held, far, _⟩
      · rw [found] at unlisted
        cases unlisted
      · exact absurd (reached below contents held) far

/-- Directories that a path leads to in two file systems have one fingerprint if the same stands
below them. -/
theorem fingerprint_congr (wellFormed : files.root.WellFormed) (otherFormed : other.root.WellFormed)
    (opens : files.Opens directory place) (otherOpens : other.Opens directory elsewhere)
    (same : ∀ below, other.root.entry? (elsewhere ++ below) = files.root.entry? (place ++ below)) :
    other.fingerprint directory = files.fingerprint directory := by
  obtain ⟨inner, held⟩ := Tree.entry?_eq_directory.1 opens.directory
  obtain ⟨tree, there⟩ := Tree.entry?_eq_directory.1 otherOpens.directory
  have walks : tree.walk = inner.walk := by
    refine Tree.walk_congr (otherFormed.at? there).2 (wellFormed.at? held).2 fun below => ?_
    rw [← Tree.entry?_append_branch there, ← Tree.entry?_append_branch held, same]
  have onward : tree.walkFrom directory = inner.walkFrom directory := by
    rw [Tree.walkFrom, Tree.walkFrom, walks]
  obtain ⟨first, notFile, walked⟩ := opens.walk_eq held
  obtain ⟨second, alsoNot, otherWalked⟩ := otherOpens.walk_eq there
  have marked : other.marksOn directory (tree.walkFrom directory) =
      files.marksOn directory (inner.walkFrom directory) := by
    rw [onward]
    refine marksOn_congr fun found member isFile => ?_
    obtain ⟨contents, stands, read⟩ := opens.contents_eq wellFormed held member isFile
    obtain ⟨fresh, standsThere, readThere⟩ :=
      otherOpens.contents_eq otherFormed there (onward ▸ member) isFile
    rw [same, stands] at standsThere
    cases standsThere
    rw [readThere, read]
  rw [FileSystem.fingerprint, FileSystem.marks, FileSystem.fingerprint, FileSystem.marks, walked,
    otherWalked, marksOn, if_neg (by simp [alsoNot]), marked, marksOn, if_neg (by simp [notFile])]

end Retarget.FileSystem
