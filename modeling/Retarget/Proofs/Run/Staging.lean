import Retarget.Proofs.Pass.Arrival
import Retarget.Proofs.Pass.Reach
import Retarget.Proofs.Run.Outcome

/-!
A run stage by stage. Three runs with one stage each do what one run with all stages does, but each
of them takes the fingerprint of the tree it leaves. Where that fails, either the next stage would
fail in the same way, or the tree is one that the complete run does not finish either.
-/
namespace Retarget

open Act FileSystem Pass

namespace Job

variable {files now : FileSystem} {root : Path} {job : Job}

/-- Three runs, one for each stage, as one: the report of the last with what the first says of
copying and the second of renaming. -/
def runInStages (root : Path) (job : Job) : Act Failure GenerationReport := do
  let first ← job.run root ⟨true, false, false⟩
  let second ← job.run root ⟨false, true, false⟩
  let third ← job.run root ⟨false, false, true⟩
  pure { third with copied := first.copied, renamed := second.renamed }

/-- What follows renaming in a complete run. -/
def finish (root : Path) (job : Job) (copied : Option Nat) (renamed : List RenamedFile) :
    Act Failure GenerationReport :=
  rewriteFiles (job.targetDirectory root) job.naming job.table >>= fun outcome =>
    job.conclude root copied renamed (some outcome)

theorem blind_finish (copied : Option Nat) (renamed : List RenamedFile) :
    (job.finish root copied renamed).Blind :=
  (blind_rewriteFiles _ _ _).bind fun _ => blind_conclude root job _ _ _

/-! ## Runs with one stage -/

theorem outcome_run_copy (valid : job.violation? = none) (files : FileSystem) :
    (job.run root ⟨true, false, false⟩).outcome files =
      (copyTree (job.sourceDirectory root) (job.targetDirectory root) >>= fun copied =>
        job.conclude root (some copied) [] none).outcome files := by
  have stage : job.copyStage root ⟨true, false, false⟩ =
      some <$> copyTree (job.sourceDirectory root) (job.targetDirectory root) := rfl
  rw [outcome_run_of_valid valid, stage, bind_map_left]
  rfl

theorem outcome_run_rename (valid : job.violation? = none) (files : FileSystem) :
    (job.run root ⟨false, true, false⟩).outcome files =
      (renameFiles (job.targetDirectory root) job.naming >>= fun renamed =>
        job.conclude root none renamed none).outcome files := by
  rw [outcome_run_of_valid valid]
  rfl

theorem outcome_run_substitute (valid : job.violation? = none) (files : FileSystem) :
    (job.run root ⟨false, false, true⟩).outcome files =
      (job.finish root none []).outcome files := by
  have stage : job.substituteStage root ⟨false, false, true⟩ =
      some <$> rewriteFiles (job.targetDirectory root) job.naming job.table := rfl
  rw [outcome_run_of_valid valid, stage]
  simp only [bind_map_left]
  rfl

theorem outcome_run_all (valid : job.violation? = none) (files : FileSystem) :
    (job.run root StageSet.all).outcome files =
      (copyTree (job.sourceDirectory root) (job.targetDirectory root) >>= fun copied =>
        renameFiles (job.targetDirectory root) job.naming >>=
          job.finish root (some copied)).outcome files := by
  have copies : job.copyStage root StageSet.all =
      some <$> copyTree (job.sourceDirectory root) (job.targetDirectory root) := rfl
  have rewrites : job.substituteStage root StageSet.all =
      some <$> rewriteFiles (job.targetDirectory root) job.naming job.table := rfl
  rw [outcome_run_of_valid valid, copies, rewrites]
  simp only [bind_map_left]
  rfl

/-! ## Where a fingerprint fails -/

/-- A pass that goes through a directory fails at once where it cannot be listed. -/
theorem outcome_unlisted {α : Type} {directory : Path} {failure : Failure}
    (unlisted : files.filesBelow directory = .error failure) (event : Event)
    (next : List Found → Act Failure α) :
    (note event >>= fun _ => examine (·.filesBelow directory) >>= next).outcome files =
      (.error failure, files) := by
  have noted : (note event : Act Failure Unit).runOn ⟨files, []⟩ = (.ok (), ⟨files, [event]⟩) := rfl
  unfold outcome
  rw [runOn_bind_ok noted, runOn_bind, runOn_examine unlisted]

theorem outcome_finish_unlisted {failure : Failure} (copied : Option Nat)
    (renamed : List RenamedFile)
    (unlisted : files.filesBelow (job.targetDirectory root) = .error failure) :
    (job.finish root copied renamed).outcome files = (.error failure, files) := by
  rw [finish, outcome_bind fun _ => blind_conclude root job _ _ _, rewriteFiles,
    outcome_unlisted unlisted]

/-- A run does not finish a tree with a file that is out of reach. -/
theorem finish_outOfReach (sound : files.Sound) (copied : Option Nat) (renamed : List RenamedFile)
    (far : files.OutOfReach (job.targetDirectory root)) :
    (job.finish root copied renamed).Ensures files (fun _ _ => False) fun _ => True := by
  refine Ensures.bind ((rewriteFiles_outOfReach sound far).imp ?_ fun _ held => held)
  rintro outcome after ⟨afterSound, place, below, contents, opens, held, far⟩
  refine Ensures.bind ((ensures_examine _).2 ⟨fun fingerprint taken => ?_, fun _ _ => trivial⟩)
  exact absurd (opens.inReach_of_fingerprint afterSound.wellFormed taken held) far

theorem finish_gone (copied : Option Nat) (renamed : List RenamedFile)
    (gone : files.isDirectory (job.targetDirectory root) = false) :
    (job.finish root copied renamed).Ensures files (fun _ _ => False) fun _ => True := by
  refine Ensures.bind (Ensures.bind ((ensures_note _).2
    (Ensures.bind ((ensures_examine _).2 ⟨fun listed found => ?_, fun _ _ => trivial⟩))))
  rw [filesBelow, gone] at found
  cases found

/-- Nor does it when the file is out of reach before renaming. -/
theorem rename_outOfReach (sound : files.Sound) (marked : job.naming.target ≠ "")
    (slashless : Path.slash ∉ utf8 job.naming.target) (copied : Option Nat)
    (far : files.OutOfReach (job.targetDirectory root)) :
    (renameFiles (job.targetDirectory root) job.naming >>= job.finish root copied).Ensures files
      (fun _ _ => False) fun _ => True := by
  refine Ensures.bind ((renameFiles_outOfReach sound marked slashless far).imp ?_
    fun _ held => held)
  rintro renamed after ⟨afterSound, still⟩
  cases directory : after.isDirectory (job.targetDirectory root) with
  | true =>
    obtain ⟨reached, opens⟩ := isDirectory_iff.1 directory
    exact finish_outOfReach afterSound copied renamed (still reached opens)
  | false => exact finish_gone copied renamed directory

/-- A run in stages and a complete one, ended apart: the stages end in the middle of the run, in a
tree without a fingerprint, and the complete run fails as well. -/
def EndedApart (directory : Path) (staged full : Except Failure GenerationReport × FileSystem) :
    Prop :=
  ∃ failure after other last, staged = (.error failure, after) ∧ full = (.error other, last) ∧
    after.Unmarkable directory failure ∧
    (after.isDirectory directory = false → other = .targetMissing directory ∧ last = after)

/-- Taking a fingerprint before going on changes nothing, but where the fingerprint fails and going
on would fail later. -/
theorem conclude_between {next : GenerationReport → Act Failure GenerationReport}
    {full : Act Failure GenerationReport} {copied : Option Nat} {renamed : List RenamedFile}
    {substitution : Option SubstitutionOutcome} (sound : files.Sound)
    (blind : ∀ report, (next report).Blind)
    (agrees : ∀ fingerprint, (next ⟨job.name, job.targetDirectory root, copied, renamed,
        substitution, fingerprint⟩).outcome files = full.outcome files ∨
      EndedApart (job.targetDirectory root) ((next ⟨job.name, job.targetDirectory root, copied,
        renamed, substitution, fingerprint⟩).outcome files) (full.outcome files))
    (unlisted : ∀ failure, files.filesBelow (job.targetDirectory root) = .error failure →
      full.outcome files = (.error failure, files))
    (far : files.OutOfReach (job.targetDirectory root) →
      full.Ensures files (fun _ _ => False) fun _ => True) :
    (job.conclude root copied renamed substitution >>= next).outcome files = full.outcome files ∨
      EndedApart (job.targetDirectory root)
        ((job.conclude root copied renamed substitution >>= next).outcome files)
        (full.outcome files) := by
  rw [outcome_bind blind, outcome_conclude]
  cases taken : files.fingerprint (job.targetDirectory root) with
  | ok fingerprint => exact agrees fingerprint
  | error failure =>
    rcases FileSystem.fingerprint_error sound.wellFormed taken with same | unmarkable
    · exact .inl (unlisted failure same).symm
    · right
      cases directory : files.isDirectory (job.targetDirectory root) with
      | true =>
        obtain ⟨place, opens⟩ := isDirectory_iff.1 directory
        rcases ended : full.outcome files with ⟨other | report, last⟩
        · refine ⟨failure, files, other, last, rfl, rfl, unmarkable, fun gone => ?_⟩
          rw [directory] at gone
          cases gone
        · exact ((far (unmarkable.outOfReach opens)).of_outcome ended).elim
      | false =>
        have missing : files.filesBelow (job.targetDirectory root) =
            .error (.targetMissing (job.targetDirectory root)) := by
          rw [filesBelow, if_neg (by simp [directory])]
        exact ⟨failure, files, _, _, rfl, unlisted _ missing, unmarkable, fun _ => ⟨rfl, rfl⟩⟩

/-! ## The run -/

/-- From a renamed tree on, the last stage alone finishes as a complete run does. -/
theorem outcome_last_stage (valid : job.violation? = none) (copied : Option Nat)
    (renamed : List RenamedFile) (files : FileSystem) :
    ((job.run root ⟨false, false, true⟩ >>= fun third =>
      pure { third with copied := copied, renamed := renamed }).outcome files) =
      (job.finish root copied renamed).outcome files := by
  rw [outcome_bind fun _ => blind_pure _, outcome_run_substitute valid, finish, finish,
    outcome_bind fun _ => blind_conclude root job _ _ _,
    outcome_bind fun _ => blind_conclude root job _ _ _]
  rcases (rewriteFiles (job.targetDirectory root) job.naming job.table).outcome files with
    ⟨failure | outcome, after⟩
  · rfl
  · simp only [outcome_conclude]
    cases after.fingerprint (job.targetDirectory root) <;> rfl

/-- A run in stages ends as a complete run does, or both fail because the stages leave a tree in the
middle of the run that has no fingerprint. -/
theorem outcome_runInStages (sound : files.Sound) (slashless : Path.slash ∉ utf8 job.naming.target) :
    (job.runInStages root).outcome files = (job.run root StageSet.all).outcome files ∨
      EndedApart (job.targetDirectory root) ((job.runInStages root).outcome files)
        ((job.run root StageSet.all).outcome files) := by
  have last : ∀ first second : GenerationReport,
      (job.run root ⟨false, false, true⟩ >>= fun third => (pure { third with
        copied := first.copied, renamed := second.renamed } :
          Act Failure GenerationReport)).Blind :=
    fun _ _ => (blind_run root _ job).bind fun _ => blind_pure _
  have middle : ∀ first : GenerationReport,
      (job.run root ⟨false, true, false⟩ >>= fun second =>
        job.run root ⟨false, false, true⟩ >>= fun third => (pure { third with
          copied := first.copied, renamed := second.renamed } :
            Act Failure GenerationReport)).Blind :=
    fun first => (blind_run root _ job).bind (last first)
  have ends : ∀ copied renamed, (job.finish root copied renamed).Blind := blind_finish
  cases checked : job.violation? with
  | some violation =>
    left
    rw [runInStages, outcome_bind middle, outcome_run_of_violation checked,
      outcome_run_of_violation checked]
  | none =>
    have marked := (valid_of_violation? checked).2.2.2.1
    rw [runInStages, outcome_bind middle, outcome_run_copy checked, ← outcome_bind middle,
      bind_assoc, outcome_run_all checked,
      outcome_bind fun _ => (blind_conclude root job _ _ _).bind middle,
      outcome_bind fun copied => (blind_renameFiles _ _).bind (ends (some copied))]
    rcases copies : (copyTree (job.sourceDirectory root) (job.targetDirectory root)).outcome files
      with ⟨failure | copied, now⟩
    · exact .inl rfl
    · have nowSound := ((copyTree_continues (bytes_sourceDirectory checked)
        (.refl sound)).of_outcome copies).sound
      refine conclude_between nowSound middle (fun _ => ?_) (fun failure unlisted => ?_) fun far => ?_
      · rw [outcome_bind (last _), outcome_run_rename checked, ← outcome_bind (last _), bind_assoc,
          outcome_bind fun _ => (blind_conclude root job _ _ _).bind (last _),
          outcome_bind (ends (some copied))]
        rcases renames : (renameFiles (job.targetDirectory root) job.naming).outcome now with
          ⟨failure | renamed, later⟩
        · exact .inl rfl
        · obtain ⟨_, _, _, confined, _⟩ :=
            (renameFiles_ensures nowSound marked slashless).of_outcome renames
          exact conclude_between confined.sound (last _)
            (fun _ => .inl (outcome_last_stage checked (some copied) renamed later))
            (fun _ => outcome_finish_unlisted (some copied) renamed)
            (finish_outOfReach confined.sound (some copied) renamed)
      · rw [outcome_bind (ends (some copied)), renameFiles, outcome_unlisted unlisted]
      · exact rename_outOfReach nowSound marked slashless (some copied) far

theorem blind_runInStages (root : Path) (job : Job) : (job.runInStages root).Blind :=
  (blind_run root _ job).bind fun _ => (blind_run root _ job).bind fun _ =>
    (blind_run root _ job).bind fun _ => blind_pure _

/-- Whatever was noted before, a run in stages gives the report or the error of a complete run and
leaves the files that it leaves, or both fail and have ended apart. -/
theorem runInStages_eq_run (sound : files.Sound) (slashless : Path.slash ∉ utf8 job.naming.target)
    (log : List Event) :
    ((job.runInStages root).runOn ⟨files, log⟩).1 =
        ((job.run root StageSet.all).runOn ⟨files, log⟩).1 ∧
      ((job.runInStages root).runOn ⟨files, log⟩).2.files =
        ((job.run root StageSet.all).runOn ⟨files, log⟩).2.files ∨
    EndedApart (job.targetDirectory root)
      (((job.runInStages root).runOn ⟨files, log⟩).1,
        ((job.runInStages root).runOn ⟨files, log⟩).2.files)
      (((job.run root StageSet.all).runOn ⟨files, log⟩).1,
        ((job.run root StageSet.all).runOn ⟨files, log⟩).2.files) := by
  rw [(blind_runInStages root job).same files log, (blind_run root StageSet.all job).same files log]
  exact (outcome_runInStages sound slashless).imp (fun same => Prod.mk.inj
    (((blind_runInStages root job).same files log).trans
      (same.trans ((blind_run root StageSet.all job).same files log).symm))) id

end Job

namespace TightPath

/-- A source with a file to be renamed and one to be rewritten, and a directory with a long name. -/
def files : FileSystem := ⟨.branch (utf8 "a") (.leaf (utf8 "Dx") (.file (utf8 "1"))
  (.leaf (utf8 "SS") (.file (utf8 "ab")) .empty))
  (.branch (List.replicate 255 120) .empty .empty), []⟩

/-- A path to the target so long that names of two bytes are in reach and longer ones are not. -/
def target : String := "/".intercalate
  ((List.replicate 15 [String.ofList (List.replicate 255 'x'), ".."]).flatten ++
    [String.ofList ('b' :: List.replicate 207 '/')])

def job (target : String) : Job :=
  ⟨"j", ⟨[]⟩, "a", target, ⟨"D", "SS"⟩, (Table.ofList [⟨"ab", "c"⟩]).1⟩

theorem sound : files.Sound := by decide +kernel

end TightPath

namespace Job

theorem runInStages_eq_run_short :
    ∃ report after last, ((TightPath.job "b").runInStages ⟨[]⟩).runOn ⟨TightPath.files, []⟩ =
        (.ok report, after) ∧
      ((TightPath.job "b").run ⟨[]⟩ StageSet.all).runOn ⟨TightPath.files, []⟩ =
        (.ok report, last) ∧ after.files = last.files ∧
      after.files.root.entry? [utf8 "b", utf8 "SSx"] = some (.leaf (.file (utf8 "1"))) := by
  obtain ⟨report, after, ran, moved⟩ := yields_iff.1 (by decide +kernel :
    ((TightPath.job "b").runInStages ⟨[]⟩).yields ⟨TightPath.files, []⟩ (fun _ after =>
      after.files.root.entry? [utf8 "b", utf8 "SSx"] = some (.leaf (.file (utf8 "1")))) = true)
  have agreed := @runInStages_eq_run TightPath.files ⟨[]⟩ (TightPath.job "b") TightPath.sound
    (by decide) []
  rcases full : ((TightPath.job "b").run ⟨[]⟩ StageSet.all).runOn ⟨TightPath.files, []⟩ with
    ⟨result, last⟩
  rw [ran, full] at agreed
  rcases agreed with ⟨given, left⟩ | ⟨failure, _, _, _, failed, _⟩
  · obtain rfl : .ok report = result := given
    exact ⟨report, after, last, ran, rfl, left, of_decide_eq_true moved⟩
  · cases failed

/-- The renamed file is out of reach under the path it is met with. A complete run rewrites the
other file before it gets there, a run in stages does not. -/
theorem runInStages_leaves_unwritten : TightPath.files.Sound ∧
    (TightPath.job TightPath.target).violation? = none ∧
    Path.slash ∉ utf8 (TightPath.job TightPath.target).naming.target ∧
    (((TightPath.job TightPath.target).run ⟨[]⟩ StageSet.all).runOn
      ⟨TightPath.files, []⟩).2.files.root.entry? [utf8 "b", utf8 "SS"] =
        some (.leaf (.file (utf8 "c"))) ∧
    (((TightPath.job TightPath.target).runInStages ⟨[]⟩).runOn
      ⟨TightPath.files, []⟩).2.files.root.entry? [utf8 "b", utf8 "SS"] =
        some (.leaf (.file (utf8 "ab"))) := by
  exact ⟨TightPath.sound, by decide +kernel, by decide, by decide +kernel, by decide +kernel⟩

end Job
end Retarget
