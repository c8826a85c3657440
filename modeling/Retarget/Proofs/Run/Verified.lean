import Retarget.Proofs.Pass.Fingerprint
import Retarget.Proofs.Pass.Idle
import Retarget.Proofs.Run.Outcome

/-!
A run on a tree that has passed a check. Renaming and rewriting look at no file that the check has
not looked at, so they find nothing to do. What they do not share with the check is the fingerprint
at the end, for which every file is read.
-/
namespace Retarget

open Act FileSystem Pass

namespace Job

variable {files : FileSystem} {root : Path} {job : Job} {listed : List Found}

/-- A check changes nothing, and one that passes has found no residue. -/
theorem verify_ensures : (job.verify root).Ensures files
    (fun verified after => after = files ∧ (verified.passed = true → ∃ residue,
      Pass.residue files (job.targetDirectory root) job.naming job.table = .ok residue ∧
        residue.unrenamed = [] ∧ residue.residuals = [])) (· = files) := by
  refine Ensures.bind ((ensures_note _).2
    (Ensures.bind ((ensures_examine _).2 ⟨fun residue found => ?_, fun _ _ => rfl⟩)))
  refine (ensures_pure _).2 ⟨rfl, fun passed => ⟨residue, found, ?_⟩⟩
  simpa [VerifyReport.passed] using passed

/-- Renaming and rewriting with nothing to do come down to taking the fingerprint. -/
theorem run_idle (valid : job.violation? = none)
    (below : files.filesBelow (job.targetDirectory root) = .ok listed)
    (unmarked : ∀ file ∈ listed, job.naming.isSource file.name = false)
    (idle : ∀ file ∈ listed, job.naming.isTarget file.name = true →
      ∃ contents, files.contents file.path = .ok contents ∧ ∀ text, text? contents = some text →
        ∀ entry ∈ job.table.entries, ¬entry.pattern.toList <:+: text.toList) :
    (job.run root ⟨false, true, true⟩).Ensures files
      (fun report after => after = files ∧ report.renamed = [] ∧
        (∃ outcome, report.substitution = some outcome ∧ outcome.rewritten = []) ∧
        ∃ fingerprint, files.fingerprint (job.targetDirectory root) = .ok fingerprint)
      (fun after => after = files ∧
        ¬∃ fingerprint, files.fingerprint (job.targetDirectory root) = .ok fingerprint) := by
  rw [run_eq]
  refine Ensures.bind (check_ensures (fun _ => ?_) fun invalid => absurd valid invalid)
  refine Ensures.bind ((ensures_note _).2 (Ensures.bind ((ensures_noteAll _).2 ?_)))
  refine Ensures.bind ((ensures_pure none).2 (Ensures.bind ?_))
  refine (renameFiles_idle below unmarked).imp ?_ fun _ failed => failed.elim
  rintro renamed _ ⟨none, rfl⟩
  refine Ensures.bind (Ensures.map ?_)
  refine (rewriteFiles_idle below idle).imp ?_ fun _ failed => failed.elim
  rintro outcome _ ⟨unchanged, rfl⟩
  refine Ensures.bind ((ensures_examine _).2 ⟨fun fingerprint taken => ?_, fun _ failed => ?_⟩)
  · exact Ensures.bind ((ensures_note _).2 ((ensures_pure _).2
      ⟨rfl, none, ⟨outcome, rfl, unchanged⟩, fingerprint, taken⟩))
  · refine ⟨rfl, fun ⟨fingerprint, taken⟩ => ?_⟩
    rw [failed] at taken
    cases taken

/-- After a check that passes, renaming and rewriting leave the files as they are and report nothing
renamed and nothing rewritten. They come to a report exactly if every file below the target is in
reach, also those whose names carry neither mark and which the check has not read. -/
theorem run_idle_of_verified (sound : files.Sound) (valid : job.violation? = none)
    (fresh : ∀ entry ∈ job.table.entries, ¬entry.pattern.toList <:+: entry.replacement.toList)
    {log : List Event} {verified : VerifyReport} {checked : Session}
    (ran : (job.verify root).runOn ⟨files, log⟩ = (.ok verified, checked))
    (passed : verified.passed = true) :
    ((job.run root ⟨false, true, true⟩).runOn checked).2.files = files ∧
    (∀ report after, (job.run root ⟨false, true, true⟩).runOn checked = (.ok report, after) →
      report.renamed = [] ∧ ∃ outcome, report.substitution = some outcome ∧
        outcome.rewritten = []) ∧
    ((∃ report after, (job.run root ⟨false, true, true⟩).runOn checked = (.ok report, after)) ↔
      ∀ place, files.Opens (job.targetDirectory root) place → ∀ below contents,
        files.root.entry? (place ++ below) = some (.leaf (.file contents)) →
        (job.targetDirectory root).InReach below) := by
  obtain ⟨same, clear⟩ := verify_ensures.ok ran
  obtain ⟨residue, found, unrenamed, residuals⟩ := clear passed
  obtain ⟨listed, below, clean⟩ := passed_of_residue found unrenamed residuals
  obtain ⟨place, opens⟩ : ∃ place, files.Opens (job.targetDirectory root) place := by
    unfold filesBelow at below
    split at below
    · exact isDirectory_iff.1 ‹_›
    · cases below
  have ensured := run_idle valid below (fun file member => (clean file member).1)
    fun file member isTarget => by
      obtain ⟨contents, read, settled⟩ := (clean file member).2 isTarget
      exact ⟨contents, read, fun text isText =>
        settled.absent (valid_of_violation? valid).2.2.2.2 fresh isText⟩
  have taken := opens.fingerprint_iff sound.wellFormed below
  have reached : (∀ other, files.Opens (job.targetDirectory root) other → ∀ below contents,
      files.root.entry? (other ++ below) = some (.leaf (.file contents)) →
        (job.targetDirectory root).InReach below) ↔
      ∃ fingerprint, files.fingerprint (job.targetDirectory root) = .ok fingerprint :=
    ⟨fun all => taken.2 (all place opens), fun some other also => opens.unique also ▸ taken.1 some⟩
  obtain ⟨left, later⟩ := checked
  obtain rfl : left = files := same
  rw [reached]
  rcases ended : (job.run root ⟨false, true, true⟩).runOn ⟨left, later⟩ with
    ⟨failure | report, after⟩
  · obtain ⟨unchanged, never⟩ := ensured.failed ended
    exact ⟨unchanged, by simp, by simpa using never⟩
  · obtain ⟨unchanged, none, rewritten, some⟩ := ensured.ok ended
    refine ⟨unchanged, ?_, by simpa using some⟩
    rintro _ _ ⟨⟩
    exact ⟨none, rewritten⟩

end Job

namespace DerivedTree

/-- A derived directory: a file with the target mark, rewritten already, and one with neither
mark. -/
def files : FileSystem := ⟨.branch (utf8 "b") (.leaf (utf8 "Sx") (.file (utf8 "single"))
  (.leaf (utf8 "notes") (.file (utf8 "double")) .empty)) .empty, []⟩

/-- A derived directory with one file, which has a long name and neither mark, and beside it a
directory with a long name. -/
def long : FileSystem := ⟨.branch (utf8 "b") (.leaf (List.replicate 255 110) (.file []) .empty)
  (.branch (List.replicate 255 120) .empty .empty), []⟩

def job (target : String) : Job :=
  ⟨"j", ⟨[]⟩, "a", target, Naming.standard, (Table.ofList [⟨"double", "single"⟩]).1⟩

/-- The derived directory by way of the one beside it, so often that the path is just taken. -/
def around : String := "/".intercalate
  ((List.replicate 15 [String.ofList (List.replicate 255 'x'), ".."]).flatten ++ ["b"])

theorem sound : files.Sound := by decide

end DerivedTree

namespace Job

theorem run_idle_of_verified_derived :
    ∃ verified checked, ((DerivedTree.job "b").verify ⟨[]⟩).runOn ⟨DerivedTree.files, []⟩ =
        (.ok verified, checked) ∧ verified.passed = true ∧
      ∃ report after, ((DerivedTree.job "b").run ⟨[]⟩ ⟨false, true, true⟩).runOn checked =
          (.ok report, after) ∧
        after.files = DerivedTree.files ∧ report.renamed = [] ∧
        (∃ outcome, report.substitution = some outcome ∧ outcome.rewritten = []) ∧
        ((DerivedTree.job "b").targetDirectory ⟨[]⟩).InReach [utf8 "notes"] := by
  obtain ⟨verified, checked, ran, computed⟩ := yields_iff.1 (by decide +kernel :
    ((DerivedTree.job "b").verify ⟨[]⟩).yields ⟨DerivedTree.files, []⟩
      (fun verified checked => verified.passed &&
        ((DerivedTree.job "b").run ⟨[]⟩ ⟨false, true, true⟩).yields checked fun _ _ => true) = true)
  obtain ⟨passed, runs⟩ := Bool.and_eq_true_iff.1 computed
  obtain ⟨report, after, done, _⟩ := yields_iff.1 runs
  obtain ⟨unchanged, idle, reached⟩ := run_idle_of_verified DerivedTree.sound (by decide)
    (by decide) ran passed
  rw [done] at unchanged
  obtain ⟨renamed, rewritten⟩ := idle report after done
  exact ⟨verified, checked, ran, passed, report, after, done, unchanged, renamed, rewritten,
    reached.1 ⟨report, after, done⟩ [utf8 "b"] (by decide +kernel) [utf8 "notes"] (utf8 "double")
      (by decide +kernel)⟩

/-- A check that passes does not read files with neither mark. The fingerprint does, and one of
them has a path that is too long to be read. -/
theorem run_fails_after_verified :
    (DerivedTree.job DerivedTree.around).violation? = none ∧
    (∀ entry ∈ (DerivedTree.job DerivedTree.around).table.entries,
      ¬entry.pattern.toList <:+: entry.replacement.toList) ∧
    ∃ verified checked, ((DerivedTree.job DerivedTree.around).verify ⟨[]⟩).runOn
        ⟨DerivedTree.long, []⟩ = (.ok verified, checked) ∧ verified.passed = true ∧
      ∀ report after, ((DerivedTree.job DerivedTree.around).run ⟨[]⟩ ⟨false, true, true⟩).runOn
        checked ≠ (.ok report, after) := by
  refine ⟨by decide +kernel, by decide, ?_⟩
  obtain ⟨verified, checked, ran, computed⟩ := yields_iff.1 (by decide +kernel :
    ((DerivedTree.job DerivedTree.around).verify ⟨[]⟩).yields ⟨DerivedTree.long, []⟩
      (fun verified checked => verified.passed &&
        !((DerivedTree.job DerivedTree.around).run ⟨[]⟩ ⟨false, true, true⟩).yields checked
          fun _ _ => true) = true)
  obtain ⟨passed, never⟩ := Bool.and_eq_true_iff.1 computed
  refine ⟨verified, checked, ran, passed, fun report after done => ?_⟩
  simp [yields, done] at never

end Job
end Retarget
