import Retarget.Pass.Rename
import Retarget.Pass.Rewrite
import Retarget.Proofs.Pass.Copying
import Retarget.Proofs.Pass.Fingerprint
import Retarget.Proofs.Session.Rejects

/-!
How the passes fail. Copying fails before its first change or with what the system refuses; renaming
and rewriting fail for a directory that is not there before their first change, and otherwise with
what the system refuses.
-/
namespace Retarget

/-- A failure that comes from the system, in an operation or on a walk. -/
inductive Failure.FromSystem : Failure → Prop where
  | refused (path : Path) (cause : OsError) : FromSystem (.refused path cause)
  | walk (error : WalkError) : FromSystem (.walk error)

namespace FileSystem

variable {files : FileSystem} {directory path : Path} {failure : Failure}

theorem unbroken_error {walk : List (Except WalkError Found)}
    (broken : unbroken walk = .error failure) : ∃ error, failure = .walk error := by
  induction walk with
  | nil => cases broken
  | cons item rest ih =>
    cases item with
    | error error =>
      cases broken
      exact ⟨error, rfl⟩
    | ok found =>
      cases more : unbroken rest with
      | ok listed => simp [unbroken, more, Except.map] at broken
      | error later =>
        simp only [unbroken, more, Except.map, Except.error.injEq] at broken
        exact ih (broken ▸ more)

theorem fromSystem_of_unbroken {walk : List (Except WalkError Found)}
    (broken : unbroken walk = .error failure) : failure.FromSystem := by
  obtain ⟨error, rfl⟩ := unbroken_error broken
  exact .walk error

/-- Listing a directory is no operation on a path that the system could refuse. -/
theorem filesBelow_not_refused {cause : OsError} :
    files.filesBelow directory ≠ .error (.refused path cause) := by
  unfold filesBelow
  split
  · cases walked : unbroken (files.walk directory) with
    | ok listed => simp [Except.map]
    | error broken =>
      obtain ⟨error, rfl⟩ := unbroken_error walked
      simp [Except.map]
  · simp

/-- A directory cannot be listed because it is not there, or the walk breaks off. -/
theorem filesBelow_error (failed : files.filesBelow directory = .error failure) :
    failure.FromSystem ∨ files.isDirectory directory = false ∧
      failure = .targetMissing directory := by
  unfold filesBelow at failed
  split at failed
  · left
    cases walked : unbroken (files.walk directory) with
    | ok listed => simp [walked, Except.map] at failed
    | error broken =>
      simp only [walked, Except.map, Except.error.injEq] at failed
      exact fromSystem_of_unbroken (failed ▸ walked)
  · rename_i missing
    exact .inr ⟨by simpa using missing, (Except.error.inj failed).symm⟩

theorem fromSystem_of_contents (unread : files.contents path = .error failure) :
    failure.FromSystem := by
  obtain ⟨cause, _, rfl⟩ := mapError_eq_error.1 unread
  exact .refused path cause

theorem fromSystem_of_fingerprint (failed : files.fingerprint directory = .error failure) :
    failure.FromSystem := by
  unfold FileSystem.fingerprint FileSystem.marks at failed
  cases marked : files.marksOn directory (files.walk directory) with
  | ok marks => simp [marked, Except.map] at failed
  | error broken =>
    simp only [marked, Except.map, Except.error.injEq] at failed
    rcases marksOn_error (failed ▸ marked) with unlisted | ⟨found, _, _, unread⟩
    · exact fromSystem_of_unbroken unlisted
    · exact fromSystem_of_contents unread

end FileSystem

namespace Pass

open Act FileSystem

variable {files : FileSystem} {source target directory : Path} {naming : Naming} {table : Table}

theorem throws_clear (target : Path) : (clear target).Throws Failure.FromSystem := by
  refine Throws.bind (fun _ => rejects_look _) fun isDirectory => ?_
  split
  · exact Throws.bind (fun _ => rejects_note _) fun _ =>
      throws_changePartly _ _ fun cause => .refused _ cause
  · refine Throws.bind (fun _ => rejects_look _) fun present => ?_
    split
    · exact throws_change _ _ fun cause => .refused _ cause
    · exact fun _ => rejects_pure _

theorem throws_copyFile (path copy relative : Path) :
    (copyFile path copy relative).Throws Failure.FromSystem := by
  refine Throws.bind (fun _ => (rejects_examine _).2 fun error unread => ?_) fun contents =>
    Throws.bind (throws_change _ _ fun cause => .refused _ cause) fun _ _ => rejects_note _
  obtain ⟨cause, _, rfl⟩ := mapError_eq_error.1 unread
  exact .refused _ cause

theorem throws_copyFrom (source target : Path) (depth : Nat) (above : List Ancestor) (path : Path)
    (listed : Entry) : (copyFrom source target depth above path listed).Throws
      Failure.FromSystem := by
  induction depth generalizing above path listed with
  | zero => exact fun _ => (rejects_throw _).2 (.walk _)
  | succ depth ih =>
    unfold copyFrom
    refine Throws.bind (fun _ => (rejects_examine _).2 fun error unseen => ?_) fun entry => ?_
    · obtain ⟨cause, _, rfl⟩ := mapError_eq_error.1 unseen
      exact .walk cause
    · cases entry with
      | directory =>
        refine Throws.bind (fun _ => rejects_look _) fun listing =>
          Throws.bind (throws_changePartly _ _ fun cause => .refused _ cause) fun _ =>
            Throws.bind (fun _ => (rejects_ofExcept _).2 fun error unlisted => ?_) fun opened => ?_
        · obtain ⟨cause, _, rfl⟩ := mapError_eq_error.1 unlisted
          exact .walk _
        · exact Throws.foldlM (fun _ _ => (ih _ _ _).bind fun _ _ => rejects_pure _) _ _
      | leaf content =>
        cases content with
        | file contents => exact (throws_copyFile _ _ _).bind fun _ _ => rejects_pure _
        | link link => exact fun _ => rejects_pure _
        | special => exact fun _ => rejects_pure _

theorem throws_replaceTree (source target : Path) :
    (replaceTree source target).Throws Failure.FromSystem := by
  refine (throws_clear target).bind fun _ => Throws.bind (fun _ => rejects_note _) fun _ =>
    Throws.bind (fun _ => (rejects_examine _).2 fun error unseen => ?_) fun top =>
      throws_copyFrom _ _ _ _ _ _
  obtain ⟨cause, _, rfl⟩ := mapError_eq_error.1 unseen
  exact .walk _

/-- Where copying does not fail with what the system refuses, it fails before its first change. -/
theorem copyTree_rejects : (copyTree source target).Rejects files
    fun failure after => after = files ∨ failure.FromSystem := by
  have refused : ∀ path, (forecast path).Rejects files
      fun failure after => after = files ∨ failure.FromSystem :=
    fun path => (rejects_examine _).2 fun _ _ => .inl rfl
  have seen : ∀ path, (forecast path).Ensures files (fun _ after => after = files) fun _ => True :=
    fun path => (ensures_examine _).2 ⟨fun _ _ => rfl, fun _ _ => trivial⟩
  refine (rejects_look _).bind ((ensures_look _).2 ?_)
  dsimp only
  split
  · exact ((rejects_throw _).2 (.inl rfl)).bind ((ensures_throw _).2 trivial)
  · refine (refused source).bind ((seen source).imp (fun _ _ same => ?_) fun _ held => held)
    subst same
    refine (refused target).bind ((seen target).imp (fun _ _ same => ?_) fun _ held => held)
    subst same
    split
    · exact ((rejects_throw _).2 (.inl rfl)).bind ((ensures_throw _).2 trivial)
    · exact (throws_replaceTree source target _).imp fun _ _ system => .inr system

/-- A file is not renamed because the system refuses it, and then nothing was changed. -/
theorem renameFile_rejects (directory : Path) (candidate : Candidate) (now : FileSystem) :
    (renameFile directory candidate).Rejects now fun failure after => after = now ∧
      ∃ cause, failure = .refused candidate.source cause ∧
        now.rename candidate.source candidate.target = .error cause := by
  have changed : ∀ overwrote, (do
      note (.writing candidate.target)
      change candidate.source (·.rename candidate.source candidate.target)
      pure ⟨candidate.source.relativeTo directory, candidate.target.relativeTo directory,
        overwrote⟩ : Act Failure RenamedFile).Rejects now fun failure after => after = now ∧
          ∃ cause, failure = .refused candidate.source cause ∧
            now.rename candidate.source candidate.target = .error cause := fun _ =>
    (rejects_note _).bind ((ensures_note _).2 (Rejects.bind
      (rejects_change.2 fun cause refused => ⟨rfl, cause, rfl, refused⟩)
      (ensures_of_forall fun _ _ => rejects_pure _)))
  refine (rejects_look _).bind ((ensures_look _).2 ?_)
  dsimp only
  split
  · exact (rejects_note _).bind ((ensures_note _).2 (changed _))
  · exact changed _

theorem throws_renameFile (directory : Path) (candidate : Candidate) :
    (renameFile directory candidate).Throws Failure.FromSystem := by
  refine fun now => (renameFile_rejects directory candidate now).imp ?_
  rintro _ _ ⟨_, cause, rfl, _⟩
  exact .refused _ cause

theorem throws_rewriteFile (directory : Path) (table : Table) (file : Found) :
    (rewriteFile directory table file).Throws Failure.FromSystem := by
  refine Throws.bind (fun _ => (rejects_examine _).2 fun _ => fromSystem_of_contents) fun given => ?_
  dsimp only
  split
  · exact Throws.bind (fun _ => rejects_note _) fun _ _ => rejects_pure _
  · split
    · exact fun _ => rejects_pure _
    · exact Throws.bind (fun _ => rejects_note _) fun _ =>
        (throws_change _ _ fun cause => .refused _ cause).bind fun _ _ => rejects_pure _

/-- A failure of a pass that goes through a directory: it comes from the system, or the directory is
not there and nothing was changed. -/
def Missing (files : FileSystem) (directory : Path) (failure : Failure) (after : FileSystem) :
    Prop :=
  failure.FromSystem ∨
    after = files ∧ files.isDirectory directory = false ∧ failure = .targetMissing directory

theorem rejects_filesBelow {α : Type} {next : List Found → Act Failure α}
    (onward : ∀ listed, (next listed).Throws Failure.FromSystem) :
    (examine (·.filesBelow directory) >>= next).Rejects files (Missing files directory) := by
  refine Rejects.bind ((rejects_examine _).2 fun failure failed => ?_)
    (ensures_of_forall fun listed after =>
      (onward listed after).imp fun _ _ system => .inl system)
  exact (filesBelow_error failed).imp id fun missing => ⟨rfl, missing⟩

theorem renameFiles_rejects :
    (renameFiles directory naming).Rejects files (Missing files directory) :=
  (rejects_note _).bind ((ensures_note _).2 (rejects_filesBelow fun _ =>
    Throws.mapM (throws_renameFile directory) _))

theorem rewriteFiles_rejects :
    (rewriteFiles directory naming table).Rejects files (Missing files directory) :=
  (rejects_note _).bind ((ensures_note _).2 (rejects_filesBelow fun _ =>
    (Throws.mapM (throws_rewriteFile directory table) _).bind fun _ _ => rejects_pure _))

end Pass
end Retarget
