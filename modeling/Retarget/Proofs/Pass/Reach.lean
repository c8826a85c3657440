import Retarget.Proofs.Pass.Fingerprint
import Retarget.Proofs.Pass.Renaming
import Retarget.Proofs.Pass.Rewriting

/-!
Files that are out of reach. A file whose path is too long can be on a walk, but it can be neither
read nor renamed; renaming can put another file in its place and no more. So a pass that succeeds
leaves a file there, and the directory has no fingerprint as long as it can be gone through.
-/
namespace Retarget

namespace FileSystem

variable {files : FileSystem} {directory : Path} {place above : Place} {name : Bytes}
  {failure : Failure}

/-- A file below the directory that a path leads to is out of reach for the path. -/
def OutOfReach (files : FileSystem) (directory : Path) : Prop :=
  ∃ place below contents, files.Opens directory place ∧
    files.root.entry? (place ++ below) = some (.leaf (.file contents)) ∧
    ¬directory.InReach below

/-- A path below a directory under which something can be named is in reach. -/
theorem Opens.inReach_of_names (opens : files.Opens directory place)
    (held : files.root.entry? (place ++ above) = some .directory)
    (legal : ∀ other ∈ above ++ [name], Tree.Legal other) {reached : Place} {last : Bytes}
    (names : files.Names (directory.descend (above ++ [name])) reached last) :
    directory.InReach (above ++ [name]) := by
  obtain ⟨rfl, rfl⟩ := opens.names_below held legal names
  refine ⟨(Path.check_eq_ok_iff.1 names.accepted).2.2, ?_⟩
  obtain ⟨before, steps, led⟩ := names.steps
  rw [Path.openSteps_descend directory legal, List.map_append, ← List.append_assoc] at steps
  obtain rfl := (List.append_inj' steps rfl).1
  rw [Path.start_descend directory legal] at led
  obtain ⟨left, onward⟩ := led.behind opens.leads
  rw [← List.append_nil (above.map Step.into)] at onward
  have short := (Leads.names_append_iff held).1 onward
  intro other member
  rcases List.mem_append.1 member with old | new
  · exact short.1 other old
  · exact List.mem_singleton.1 new ▸ names.short

/-- Why a directory has no fingerprint though it may be gone through: a file below it is out of
reach, or its path leads to nothing. -/
inductive Unmarkable (files : FileSystem) (directory : Path) (failure : Failure) : Prop where
  | far {place below : Place} {contents : Bytes} (opens : files.Opens directory place)
      (held : files.root.entry? (place ++ below) = some (.leaf (.file contents)))
      (far : ¬directory.InReach below)
      (refused : failure = .refused (directory.descend below) .nameTooLong)
  | gone {cause : OsError} (gone : files.isDirectory directory = false)
      (refused : failure = .walk (.refused directory cause))

theorem Unmarkable.outOfReach (unmarkable : files.Unmarkable directory failure)
    (opens : files.Opens directory place) : files.OutOfReach directory := by
  cases unmarkable with
  | far other held far _ => exact ⟨_, _, _, other, held, far⟩
  | gone gone _ =>
    rw [isDirectory_iff.2 ⟨place, opens⟩] at gone
    cases gone

/-- Without a directory a fingerprint fails because the path leads to nothing: a file alone has
one. -/
theorem fingerprint_error_of_gone (gone : files.isDirectory directory = false)
    (failed : files.fingerprint directory = .error failure) :
    ∃ cause, failure = .walk (.refused directory cause) := by
  have closed : ∀ place inner, files.stat directory ≠ .ok (place, .branch inner) := by
    intro place inner found
    rw [isDirectory_iff.2 ⟨place, opens_iff.2 ⟨inner, found⟩⟩] at gone
    cases gone
  unfold FileSystem.fingerprint FileSystem.marks walk at failed
  cases found : files.lstat directory with
  | error cause =>
    rw [found] at failed
    exact ⟨cause, (Except.error.inj failed).symm⟩
  | ok there =>
    obtain ⟨place, node⟩ := there
    rw [found] at failed
    cases node with
    | branch inner => exact absurd (stat_of_lstat found (by simp)) (closed place inner)
    | leaf content =>
      cases content with
      | special => cases failed
      | file contents =>
        have read : files.read directory = .ok contents := by
          rw [read, stat_of_lstat found (by simp)]
          rfl
        simp [marksOn, Found.isFile, mark, FileSystem.contents, read, bind, Except.bind, pure,
          Except.pure, Except.mapError, Except.map] at failed
      | link link =>
        cases led : files.stat directory with
        | error cause =>
          rw [led] at failed
          exact ⟨cause, (Except.error.inj failed).symm⟩
        | ok there =>
          obtain ⟨reached, last⟩ := there
          cases last with
          | branch inner => exact absurd led (closed reached inner)
          | leaf content =>
            rw [led] at failed
            cases failed

/-- Where a fingerprint fails, either the directory cannot be listed for the same reason, or it is
unmarkable. -/
theorem fingerprint_error (wellFormed : files.root.WellFormed)
    (failed : files.fingerprint directory = .error failure) :
    files.filesBelow directory = .error failure ∨ files.Unmarkable directory failure := by
  by_cases opens : ∃ place, files.Opens directory place
  · obtain ⟨place, opens⟩ := opens
    rcases opens.fingerprint_error wellFormed failed with
      unlisted | ⟨below, contents, held, far, refused⟩
    · exact .inl unlisted
    · exact .inr (.far opens held far refused)
  · have gone : files.isDirectory directory = false :=
      Bool.eq_false_iff.2 fun directory => opens (isDirectory_iff.1 directory)
    obtain ⟨cause, refused⟩ := fingerprint_error_of_gone gone failed
    exact .inr (.gone gone refused)

end FileSystem

namespace Pass

open Act FileSystem

variable {before now after : FileSystem} {directory : Path} {place : Place} {listed : List Found}
  {naming : Naming} {table : Table}

/-- A file that is renamed is in reach. -/
theorem inReach_of_rename (lists : before.Lists directory place listed) (sound : before.Sound)
    (marked : naming.target ≠ "") (slashless : Path.slash ∉ utf8 naming.target)
    (confined : before.Confined place now) {found : Found} (member : found ∈ listed)
    {fresh : Bytes} (given : naming.rename? found.name = some fresh)
    (renamed : now.rename found.path (found.path.withFileName fresh) = .ok after) :
    directory.InReach found.place := by
  obtain ⟨above, old, content, whole, _, names, _⟩ :=
    rename_beside lists sound marked slashless confined member given renamed
  have legal := lists.legal sound.wellFormed member
  have carried := names.carry confined.ways confined.cwd.symm
  rw [lists.descends found member] at carried
  rw [whole] at carried legal ⊢
  exact lists.opens.inReach_of_names carried.directory legal carried

/-- Files are the only leaves that have come to stand where they did not. -/
def FilesOnly (before now : FileSystem) : Prop :=
  ∀ query content, now.root.entry? query = some (.leaf content) →
    (∃ contents, content = .file contents) ∨ before.root.entry? query = some (.leaf content)

/-- After renaming, a file that was out of reach is still one, as long as the directory is there. -/
theorem renameFiles_outOfReach (sound : before.Sound) (marked : naming.target ≠ "")
    (slashless : Path.slash ∉ utf8 naming.target) (far : before.OutOfReach directory) :
    (renameFiles directory naming).Ensures before
      (fun _ after => after.Sound ∧ ∀ reached, after.Opens directory reached →
        after.OutOfReach directory) fun _ => True := by
  obtain ⟨place, below, contents, opens, held, far⟩ := far
  refine Ensures.bind ((ensures_note _).2
    (Ensures.bind ((ensures_examine _).2 ⟨fun listed found => ?_, fun _ _ => trivial⟩)))
  obtain ⟨other, lists⟩ := filesBelow_ok sound.wellFormed found
  obtain rfl := opens.unique lists.opens
  refine (ensures_mapM (fun _ left now =>
    (∀ candidate ∈ left, ∃ found ∈ listed, candidate? naming found = some candidate) ∧
      before.Confined place now ∧ FilesOnly before now ∧
      ∃ contents, now.root.entry? (place ++ below) = some (.leaf (.file contents))) ?_ _
    ⟨fun candidate member => List.mem_filterMap.1 member, .refl sound place,
      fun _ _ stands => .inr stands, contents, held⟩).imp ?_ fun _ failed => failed
  · rintro results candidate rest now ⟨inside, confined, leaves, contents, stands⟩
    obtain ⟨found, member, given⟩ := inside candidate List.mem_cons_self
    obtain ⟨fresh, named, rfl⟩ := candidate?_eq_some.1 given
    refine renameFile_ensures (fun after done => ?_) trivial
    have later := confined_of_rename lists sound marked slashless confined member named done
    have reached := inReach_of_rename lists sound marked slashless confined member named done
    refine ⟨fun other there => inside other (List.mem_cons_of_mem _ there), later, ?_⟩
    obtain ⟨goal, content, _, leaf, ⟨_, rfl⟩ | ⟨_, _, _, entries⟩⟩ :=
      rename_listed lists sound marked slashless confined member named done
    · exact ⟨leaves, contents, stands⟩
    · obtain ⟨moved, rfl⟩ : ∃ moved, content = .file moved := by
        obtain ⟨old, _, was⟩ := lists.held found member
        rcases leaves _ _ leaf with file | same
        · exact file
        · rw [was] at same
          cases same
          exact ⟨old, rfl⟩
      refine ⟨fun query content there => ?_, ?_⟩
      · rw [entries] at there
        split at there
        · cases there
          exact .inl ⟨moved, rfl⟩
        · split at there
          · cases there
          · exact leaves query content there
      · rw [entries]
        split
        · exact ⟨moved, rfl⟩
        · rw [if_neg]
          · exact ⟨contents, stands⟩
          · intro same
            exact far (List.append_cancel_left same ▸ reached)
  · rintro _ after ⟨_, confined, _, contents, stands⟩
    refine ⟨confined.sound, fun reached there => ?_⟩
    obtain rfl := (there.carry confined.ways confined.cwd.symm).unique lists.opens
    exact ⟨_, below, contents, there, stands, far⟩

/-- Rewriting leaves a file that is out of reach a file. -/
theorem rewriteFiles_outOfReach (sound : before.Sound) (far : before.OutOfReach directory) :
    (rewriteFiles directory naming table).Ensures before
      (fun _ after => after.Sound ∧ after.OutOfReach directory) fun _ => True := by
  obtain ⟨place, below, contents, opens, held, far⟩ := far
  refine (rewriteFiles_ensures sound).imp ?_ fun _ _ => trivial
  rintro _ after ⟨other, listed, lists, confined, ways, rewritten⟩
  obtain rfl := opens.unique lists.opens
  refine ⟨confined.sound, place, below, ?_⟩
  have kind := rewritten.entry_kind (fun found member => by
    obtain ⟨contents, _, was⟩ := lists.held found (List.mem_of_mem_filter member)
    exact ⟨contents, was⟩) (place ++ below)
  have there := opens.carry ways confined.cwd
  rcases kind with same | ⟨_, fresh, _, stands⟩
  · exact ⟨contents, there, same.trans held, far⟩
  · exact ⟨fresh, there, stands, far⟩

end Pass
end Retarget
