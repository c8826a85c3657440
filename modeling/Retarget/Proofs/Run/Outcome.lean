import Retarget.Proofs.Pass.Outcome
import Retarget.Proofs.Run.Stages

/-!
A run as steps in sequence. A stage that is left out is a step that does nothing, so one equation
holds for every choice of stages, and what a run gives is a function of the files it starts from.
-/
namespace Retarget.Job

open Act Pass

variable {job : Job}

/-- The stage that copies, or nothing and no count. -/
def copyStage (root : Path) (stages : StageSet) (job : Job) : Act Failure (Option Nat) :=
  if stages.copy then
    some <$> copyTree (job.sourceDirectory root) (job.targetDirectory root)
  else pure none

/-- The stage that renames, or nothing and no files. -/
def renameStage (root : Path) (stages : StageSet) (job : Job) : Act Failure (List RenamedFile) :=
  if stages.rename then renameFiles (job.targetDirectory root) job.naming else pure []

/-- The stage that rewrites, or nothing and no outcome. -/
def substituteStage (root : Path) (stages : StageSet) (job : Job) :
    Act Failure (Option SubstitutionOutcome) :=
  if stages.substitute then
    some <$> rewriteFiles (job.targetDirectory root) job.naming job.table
  else pure none

/-- The end of a run: the fingerprint and the report. -/
def conclude (root : Path) (job : Job) (copied : Option Nat) (renamed : List RenamedFile)
    (substitution : Option SubstitutionOutcome) : Act Failure GenerationReport := do
  let fingerprint ← examine (·.fingerprint (job.targetDirectory root))
  note (.done job.name fingerprint)
  pure ⟨job.name, job.targetDirectory root, copied, renamed, substitution, fingerprint⟩

theorem run_eq (root : Path) (stages : StageSet) (job : Job) : job.run root stages =
    job.check >>= fun _ => note (.running job.name (job.targetDirectory root)) >>= fun _ =>
    noteAll (job.table.hazards.map (.hazard job.name)) >>= fun _ =>
    job.copyStage root stages >>= fun copied => job.renameStage root stages >>= fun renamed =>
    job.substituteStage root stages >>= job.conclude root copied renamed := by
  obtain ⟨copy, rename, substitute⟩ := stages
  cases copy <;> cases rename <;> cases substitute <;> rfl

/-! ## Steps that do not look at the log -/

theorem blind_check (job : Job) : job.check.Blind := by
  unfold check
  split
  · exact blind_throw _
  · exact blind_pure _

theorem blind_copyStage (root : Path) (stages : StageSet) (job : Job) :
    (job.copyStage root stages).Blind := by
  unfold copyStage
  split
  · exact (blind_copyTree _ _).map _
  · exact blind_pure _

theorem blind_renameStage (root : Path) (stages : StageSet) (job : Job) :
    (job.renameStage root stages).Blind := by
  unfold renameStage
  split
  · exact blind_renameFiles _ _
  · exact blind_pure _

theorem blind_substituteStage (root : Path) (stages : StageSet) (job : Job) :
    (job.substituteStage root stages).Blind := by
  unfold substituteStage
  split
  · exact (blind_rewriteFiles _ _ _).map _
  · exact blind_pure _

theorem blind_conclude (root : Path) (job : Job) (copied : Option Nat)
    (renamed : List RenamedFile) (substitution : Option SubstitutionOutcome) :
    (job.conclude root copied renamed substitution).Blind :=
  (blind_examine _).bind fun _ => (blind_note _).bind fun _ => blind_pure _

/-- What follows copying. -/
theorem blind_from_rename (root : Path) (stages : StageSet) (job : Job) (copied : Option Nat) :
    (job.renameStage root stages >>= fun renamed =>
      job.substituteStage root stages >>= job.conclude root copied renamed).Blind :=
  (blind_renameStage root stages job).bind fun _ => (blind_substituteStage root stages job).bind
    fun _ => blind_conclude root job _ _ _

theorem blind_run (root : Path) (stages : StageSet) (job : Job) : (job.run root stages).Blind := by
  rw [run_eq]
  exact (blind_check job).bind fun _ => (blind_note _).bind fun _ => (blind_noteAll _).bind fun _ =>
    (blind_copyStage root stages job).bind fun copied => blind_from_rename root stages job copied

/-! ## What a run gives -/

theorem outcome_run_of_violation {violation : Violation} (found : job.violation? = some violation)
    (root : Path) (stages : StageSet) (files : FileSystem) :
    (job.run root stages).outcome files = (.error (.invalid violation), files) := by
  have refused : job.check = throw (.invalid violation) := by simp [check, found]
  rw [run_eq, refused]
  rfl

/-- What a run of a valid job gives is what its stages and its end give one after another. -/
theorem outcome_run_of_valid (valid : job.violation? = none) (root : Path) (stages : StageSet)
    (files : FileSystem) : (job.run root stages).outcome files =
      (job.copyStage root stages >>= fun copied => job.renameStage root stages >>= fun renamed =>
        job.substituteStage root stages >>= job.conclude root copied renamed).outcome files := by
  have checked : job.check = pure () := by simp [check, valid]
  have onward : ∀ _ : Unit, (job.copyStage root stages >>= fun copied =>
      job.renameStage root stages >>= fun renamed =>
        job.substituteStage root stages >>= job.conclude root copied renamed).Blind := fun _ =>
    (blind_copyStage root stages job).bind fun copied => blind_from_rename root stages job copied
  rw [run_eq, checked, pure_bind,
    outcome_bind_idle rfl fun _ => (blind_noteAll _).bind onward, outcome_bind_idle rfl onward]

theorem outcome_conclude (root : Path) (job : Job) (copied : Option Nat)
    (renamed : List RenamedFile) (substitution : Option SubstitutionOutcome)
    (files : FileSystem) : (job.conclude root copied renamed substitution).outcome files =
      ((files.fingerprint (job.targetDirectory root)).map fun fingerprint =>
        ⟨job.name, job.targetDirectory root, copied, renamed, substitution, fingerprint⟩,
        files) := by
  have ends : (job.conclude root copied renamed substitution).runOn ⟨files, []⟩ = _ :=
    runOn_bind _ _ _
  rw [runOn_examine rfl] at ends
  unfold outcome
  rw [ends]
  cases files.fingerprint (job.targetDirectory root) <;> rfl

end Retarget.Job
