import Mathlib.Tactic.Common
import Retarget.Report

/-!
When a report can be written as JSON: exactly if every path in it is text. A check that passed has
no path to report, so its report can always be written.
-/
namespace Retarget

theorem each?_ne_none_iff {α β : Type} {function : α → Option β} {items : List α} :
    each? function items ≠ none ↔ ∀ item ∈ items, function item ≠ none := by
  induction items with
  | nil => simp [each?]
  | cons item rest ih =>
    rw [List.forall_mem_cons, ← ih, each?]
    cases function item with
    | none => simp
    | some first => cases each? function rest <;> simp

theorem Path.json?_ne_none_iff {path : Path} : path.json? ≠ none ↔ path.text? ≠ none := by
  simp [Path.json?]

theorem RenamedFile.json?_ne_none_iff {file : RenamedFile} :
    file.json? ≠ none ↔ file.source.text? ≠ none ∧ file.target.text? ≠ none := by
  rw [← Path.json?_ne_none_iff, ← Path.json?_ne_none_iff, json?]
  cases file.source.json? <;> cases file.target.json? <;> simp

theorem RewrittenFile.json?_ne_none_iff {file : RewrittenFile} :
    file.json? ≠ none ↔ file.path.text? ≠ none := by
  rw [← Path.json?_ne_none_iff, json?]
  cases file.path.json? <;> simp

theorem SkippedFile.json?_ne_none_iff {file : SkippedFile} :
    file.json? ≠ none ↔ file.path.text? ≠ none := by
  rw [← Path.json?_ne_none_iff, json?]
  cases file.path.json? <;> simp

/-- The paths in what substitution reports. -/
def SubstitutionOutcome.paths (outcome : SubstitutionOutcome) : List Path :=
  outcome.rewritten.map RewrittenFile.path ++ outcome.skipped.map SkippedFile.path

/-- The paths in a report: the target, and for each stage those of the files it dealt with. -/
def GenerationReport.paths (report : GenerationReport) : List Path :=
  report.targetDirectory :: (report.renamed.map RenamedFile.source ++
    report.renamed.map RenamedFile.target ++
    (report.substitution.map SubstitutionOutcome.paths).getD [])

theorem SubstitutionOutcome.json?_ne_none_iff {outcome : SubstitutionOutcome} :
    outcome.json? ≠ none ↔ ∀ path ∈ outcome.paths, path.text? ≠ none := by
  have rewritten : each? RewrittenFile.json? outcome.rewritten ≠ none ↔
      ∀ file ∈ outcome.rewritten, file.path.text? ≠ none := by
    simp only [each?_ne_none_iff, RewrittenFile.json?_ne_none_iff]
  have skipped : each? SkippedFile.json? outcome.skipped ≠ none ↔
      ∀ file ∈ outcome.skipped, file.path.text? ≠ none := by
    simp only [each?_ne_none_iff, SkippedFile.json?_ne_none_iff]
  rw [paths, List.forall_mem_append, List.forall_mem_map, List.forall_mem_map, ← rewritten,
    ← skipped, json?]
  cases each? RewrittenFile.json? outcome.rewritten <;>
    cases each? SkippedFile.json? outcome.skipped <;> simp

theorem GenerationReport.substitutionJson?_ne_none_iff {report : GenerationReport} :
    report.substitutionJson? ≠ none ↔
      ∀ path ∈ (report.substitution.map SubstitutionOutcome.paths).getD [],
        path.text? ≠ none := by
  rw [substitutionJson?]
  cases report.substitution with
  | none => simp
  | some outcome => exact SubstitutionOutcome.json?_ne_none_iff

/-- A report can be written as JSON exactly if every path in it is text. -/
theorem GenerationReport.json?_ne_none_iff {report : GenerationReport} :
    report.json? ≠ none ↔ ∀ path ∈ report.paths, path.text? ≠ none := by
  have renamed : each? RenamedFile.json? report.renamed ≠ none ↔
      (∀ file ∈ report.renamed, file.source.text? ≠ none) ∧
        ∀ file ∈ report.renamed, file.target.text? ≠ none := by
    simp only [each?_ne_none_iff, RenamedFile.json?_ne_none_iff, forall_and]
  rw [paths, List.forall_mem_cons, List.forall_mem_append, List.forall_mem_append,
    List.forall_mem_map, List.forall_mem_map, ← renamed, ← substitutionJson?_ne_none_iff,
    ← Path.json?_ne_none_iff, json?]
  cases report.targetDirectory.json? <;> cases each? RenamedFile.json? report.renamed <;>
    cases report.substitutionJson? <;> simp

theorem VerifyReport.json?_ne_none_of_passed {report : VerifyReport}
    (passed : report.passed = true) : report.json? ≠ none := by
  obtain ⟨unrenamed, residuals⟩ : report.unrenamed = [] ∧ report.residuals = [] := by
    simpa [VerifyReport.passed] using passed
  simp [json?, unrenamed, residuals, each?]

end Retarget
