import Retarget.Proofs.CommandLine.Printing
import Retarget.Proofs.CommandLine.Selection
import Retarget.Proofs.Pass.Checking

/-!
The status of a check. It is zero exactly if the configuration loads, jobs are selected, and the
target of each is a directory that can be gone through and in which nothing is left to do;
whatever goes wrong on the way ends with the same status as a check that found something. A check
only looks.
-/
namespace Retarget

open Act FileSystem

/-! ## One job -/

namespace Job

variable {files : FileSystem} {root : Path} {job : Job}

/-- The target of a job leads to a directory that can be gone through, and nothing is left to do
there: no file carries the source mark, and every file with the target mark can be read and, if it
is text, holds no pattern but such as its own replacement contains. Files with neither mark are
not looked into. -/
structure Settled (files : FileSystem) (root : Path) (job : Job) (place : Place) : Prop where
  opens : files.Opens (job.targetDirectory root) place
  walked : ∀ below, files.root.entry? (place ++ below) = some .directory →
    ((job.targetDirectory root).descend below).opens = true
  renamed : ∀ above name contents,
    files.root.entry? (place ++ above ++ [name]) = some (.leaf (.file contents)) →
      job.naming.isSource name = false
  read : ∀ above name contents,
    files.root.entry? (place ++ above ++ [name]) = some (.leaf (.file contents)) →
      job.naming.isTarget name = true → (job.targetDirectory root).InReach (above ++ [name])
  rewritten : ∀ above name text,
    files.root.entry? (place ++ above ++ [name]) = some (.leaf (.file (utf8 text))) →
      job.naming.isTarget name = true → ∀ entry ∈ job.table.entries, entry.pattern ≠ "" →
        ¬entry.pattern.toList <:+: entry.replacement.toList →
          ¬entry.pattern.toList <:+: text.toList

theorem settled_iff {place : Place} : job.Settled files root place ↔
    files.Opens (job.targetDirectory root) place ∧
      (∀ below, files.root.entry? (place ++ below) = some .directory →
        ((job.targetDirectory root).descend below).opens = true) ∧
      ∀ above name contents,
        files.root.entry? (place ++ above ++ [name]) = some (.leaf (.file contents)) →
        Pass.Faultless (job.targetDirectory root) job.naming job.table above name contents := by
  constructor
  · rintro ⟨opens, walked, renamed, read, rewritten⟩
    refine ⟨opens, walked, fun above name contents held => ⟨renamed above name contents held,
      fun isTarget => ⟨read above name contents held isTarget, ?_⟩⟩⟩
    intro text isText entry member checked
    obtain ⟨some, apart⟩ := Pass.isChecked_iff.1 checked
    rw [← text?_eq_some_iff.1 isText] at held
    exact rewritten above name text held isTarget entry member some apart
  · rintro ⟨opens, walked, faultless⟩
    refine ⟨opens, walked, fun above name contents held => (faultless above name contents held).1,
      fun above name contents held isTarget => ?_, ?_⟩
    · exact ((faultless above name contents held).2 isTarget).1
    · intro above name text held isTarget entry member some apart
      exact ((faultless above name _ held).2 isTarget).2 text (text?_utf8 text) entry member
        (Pass.isChecked_iff.2 ⟨some, apart⟩)

theorem looks_verify (root : Path) (job : Job) : (job.verify root).Looks :=
  (looks_note _).bind fun _ => (looks_examine _).bind fun _ => looks_pure _

theorem sees_verify (root : Path) (job : Job) (files : FileSystem) :
    (job.verify root).sees files =
      (Pass.residue files (job.targetDirectory root) job.naming job.table >>= fun residue =>
        pure ⟨job.name, residue.unrenamed, residue.residuals⟩) := by
  rw [verify, sees_bind (looks_note _) fun _ => (looks_examine _).bind fun _ => looks_pure _]
  show sees (examine _ >>= _) files = _
  rw [sees_bind (looks_examine _) fun _ => looks_pure _, sees_examine]
  rfl

/-- A check of a job comes to a report that passes exactly if its target is settled. -/
theorem sees_verify_iff (wellFormed : files.root.WellFormed) :
    (∃ report, (job.verify root).sees files = .ok report ∧ report.passed = true) ↔
      ∃ place, job.Settled files root place := by
  simp only [settled_iff]
  rw [← Pass.residue_faultless_iff wellFormed, sees_verify]
  constructor
  · rintro ⟨report, seen, passed⟩
    obtain ⟨residue, found, same⟩ := bind_eq_ok.1 seen
    cases same
    exact ⟨residue, found, by simpa [VerifyReport.passed] using passed⟩
  · rintro ⟨residue, found, unrenamed, residuals⟩
    refine ⟨⟨job.name, residue.unrenamed, residue.residuals⟩,
      bind_eq_ok.2 ⟨residue, found, rfl⟩, ?_⟩
    simp [VerifyReport.passed, unrenamed, residuals]

end Job

/-! ## All jobs -/

/-- A list of results that all are there and all pass. -/
theorem mapM_passed_iff {ε α β : Type} {check : α → Except ε β} {passed : β → Bool}
    {items : List α} :
    (∃ results, items.mapM check = .ok results ∧ results.all passed = true) ↔
      ∀ item ∈ items, ∃ result, check item = .ok result ∧ passed result = true := by
  induction items with
  | nil => exact ⟨fun _ => by simp, fun _ => ⟨[], rfl, rfl⟩⟩
  | cons item rest ih =>
    rw [List.forall_mem_cons, ← ih]
    simp only [List.mapM_cons, bind_eq_ok]
    constructor
    · rintro ⟨_, ⟨first, here, others, more, ⟨⟩⟩, passed⟩
      rw [List.all_cons, Bool.and_eq_true] at passed
      exact ⟨⟨first, here, passed.1⟩, others, more, passed.2⟩
    · rintro ⟨⟨first, here, good⟩, others, more, goods⟩
      exact ⟨first :: others, ⟨first, here, others, more, rfl⟩, by simp [good, goods]⟩

namespace Execution

variable {files : FileSystem} {options : Options}

/-- The status of a check is told by the reports: those that pass can always be written. -/
theorem verified_status_eq_zero_iff {json : Bool} {reports : List VerifyReport} :
    (verified json reports).status = 0 ↔ reports.all VerifyReport.passed = true := by
  unfold verified
  cases passed : reports.all VerifyReport.passed with
  | false =>
    cases json <;> cases each? VerifyReport.json? reports <;> simp [jsonOutput, Outcome.failure]
  | true =>
    have written : each? VerifyReport.json? reports ≠ none :=
      each?_ne_none_iff.2 fun report member =>
        VerifyReport.json?_ne_none_of_passed (List.all_eq_true.1 passed report member)
    obtain ⟨items, written⟩ := Option.ne_none_iff_exists'.1 written
    cases json <;> simp [written, jsonOutput]

/-- The check of the jobs selected, one after another. -/
def checks (root : Path) (jobs : List Job) : Act Complaint (List VerifyReport) :=
  jobs.mapM fun job => (job.verify root).adapt .failed

theorem looks_checks (root : Path) (jobs : List Job) : (checks root jobs).Looks :=
  Looks.mapM (fun job => (job.looks_verify root).adapt _) jobs

theorem sees_checks_iff (wellFormed : files.root.WellFormed) {root : Path} {jobs : List Job} :
    (∃ reports, (checks root jobs).sees files = .ok reports ∧
      reports.all VerifyReport.passed = true) ↔
      ∀ job ∈ jobs, ∃ place, job.Settled files root place := by
  rw [checks, sees_mapM fun job => (job.looks_verify root).adapt _, mapM_passed_iff]
  simp only [sees_adapt, mapError_eq_ok, Job.sees_verify_iff wellFormed]

theorem looks_verify (options : Options) : (verify options).Looks :=
  (looks_selection options).bind fun selected => (looks_checks selected.1 selected.2).bind fun _ =>
    looks_pure _

theorem sees_verify_iff (wellFormed : files.root.WellFormed) :
    (∃ outcome, (verify options).sees files = .ok outcome ∧ outcome.status = 0) ↔
      ∃ configuration jobs, Loads files options configuration ∧
        Selects options configuration jobs ∧
        ∀ job ∈ jobs, ∃ place, job.Settled files configuration.root place := by
  have whole : verify options = selection options >>= fun selected =>
      checks selected.1 selected.2 >>= fun reports => pure (verified options.json reports) := rfl
  rw [whole, sees_bind (looks_selection options) fun selected =>
    (looks_checks selected.1 selected.2).bind fun _ => looks_pure _]
  simp only [bind_eq_ok, sees_bind (looks_checks _ _) fun _ => looks_pure _, sees_pure_iff]
  constructor
  · rintro ⟨_, ⟨⟨root, jobs⟩, selected, reports, checked, rfl⟩, zero⟩
    obtain ⟨configuration, loads, rfl, selects⟩ := sees_selection_iff.1 selected
    exact ⟨configuration, jobs, loads, selects, (sees_checks_iff wellFormed).1
      ⟨reports, checked, verified_status_eq_zero_iff.1 zero⟩⟩
  · rintro ⟨configuration, jobs, loads, selects, settled⟩
    obtain ⟨reports, checked, passed⟩ := (sees_checks_iff wellFormed).2 settled
    have selected := sees_selection_iff.2 ⟨configuration, loads, rfl, selects⟩
    exact ⟨_, ⟨(configuration.root, jobs), selected, reports, checked, rfl⟩,
      verified_status_eq_zero_iff.2 passed⟩

/-- A command that writes only at its end leaves the files if it only looks, and it ends well
exactly if what it sees does. -/
theorem run_concluded {act : Act Complaint Outcome} (looks : act.Looks) (session : Session) :
    ((concluded act).run session).2.files = session.files ∧
      (((concluded act).run session).1.status = 0 ↔
        ∃ outcome, act.sees session.files = .ok outcome ∧ outcome.status = 0) := by
  obtain ⟨gives, leaves⟩ := looks.runs session
  rw [concluded, run_handled, ← gives, ← leaves]
  rcases act.runOn session with ⟨complaint | outcome, after⟩
  · exact ⟨rfl, by simp [Outcome.failure]⟩
  · refine ⟨rfl, fun zero => ⟨outcome, rfl, zero⟩, ?_⟩
    rintro ⟨_, ⟨⟩, zero⟩
    exact zero

end Execution

/-- A check leaves the files as they are, and its status is zero exactly if the configuration loads,
the selection names jobs there are, and nothing is left to do in the target of any of them. Whether
reports are written as JSON makes no difference. -/
theorem execute_verify (session : Session) (wellFormed : session.files.root.WellFormed)
    {arguments : List Bytes} {options : Options}
    (asks : Request.ofArguments arguments = some (.command .verify options)) :
    ((execute arguments).run session).2.files = session.files ∧
      (((execute arguments).run session).1.status = 0 ↔
        ∃ configuration jobs, Execution.Loads session.files options configuration ∧
          Execution.Selects options configuration jobs ∧
          ∀ job ∈ jobs, ∃ place, job.Settled session.files configuration.root place) := by
  have whole : execute arguments = Execution.concluded (Execution.verify options) := by
    rw [execute, asks]
    rfl
  rw [whole, ← Execution.sees_verify_iff wellFormed]
  exact Execution.run_concluded (Execution.looks_verify options) session

namespace ConfiguredTree

/-- One job, whose marks are the usual ones. -/
def document : String :=
  "root = ''\n[[job]]\nname = 'j'\nbase = ''\nsource = 'a'\ntarget = 'b'\n" ++
  "replace = [\x7b from = 'double', to = 'single' \x7d]\n"

/-- A derived directory, a file with the target mark in it and one with neither mark, and beside
it a configuration. -/
def files : FileSystem := ⟨.branch (utf8 "b") (.leaf (utf8 "Sx") (.file (utf8 "single"))
  (.leaf (utf8 "notes") (.file (utf8 "double")) .empty))
  (.leaf (utf8 "c") (.file (utf8 document)) .empty), []⟩

def arguments : List Bytes := ["--json", "verify", "--config", "c", "--job=j"].map utf8

def options : Options := ⟨none, some (Path.ofText "c"), some "j", [], true, 0⟩

theorem wellFormed : files.root.WellFormed := by decide

end ConfiguredTree

theorem execute_verify_configured :
    Request.ofArguments ConfiguredTree.arguments = some (.command .verify ConfiguredTree.options) ∧
      ((execute ConfiguredTree.arguments).run ⟨ConfiguredTree.files, []⟩).2.files =
        ConfiguredTree.files ∧
      ((execute ConfiguredTree.arguments).run ⟨ConfiguredTree.files, []⟩).1.status = 0 ∧
      ∃ configuration jobs,
        Execution.Loads ConfiguredTree.files ConfiguredTree.options configuration ∧
        Execution.Selects ConfiguredTree.options configuration jobs ∧
        ∀ job ∈ jobs, ∃ place, job.Settled ConfiguredTree.files configuration.root place := by
  have asks : Request.ofArguments ConfiguredTree.arguments =
      some (.command .verify ConfiguredTree.options) := by decide +kernel
  obtain ⟨same, told⟩ := execute_verify ⟨ConfiguredTree.files, []⟩ ConfiguredTree.wellFormed asks
  have zero : ((execute ConfiguredTree.arguments).run ⟨ConfiguredTree.files, []⟩).1.status = 0 := by
    decide +kernel
  exact ⟨asks, same, zero, told.1 zero⟩

end Retarget
