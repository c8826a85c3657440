import Retarget.Proofs.CommandLine.Printing
import Retarget.Proofs.CommandLine.Selection
import Retarget.Proofs.Run.Outcome

/-!
The command that generates against the run of all jobs. The command has a loop of its own, which
keeps the reports of the jobs before a failure where the run of all jobs keeps none; both take the
same steps, so they leave the same files. Only what is written depends on whether JSON is asked for,
and the list is written last, when nothing can be taken back.
-/
namespace Retarget

open Act FileSystem

namespace Configuration

variable {files : FileSystem} {root : Path} {stages : StageSet}

theorem runAll_cons (root : Path) (stages : StageSet) (job : Job) (rest : List Job) :
    runAll ⟨root, job :: rest⟩ stages = job.run root stages >>= fun report =>
      runAll ⟨root, rest⟩ stages >>= fun reports => pure (report :: reports) :=
  List.mapM_cons

theorem blind_runAll (configuration : Configuration) (stages : StageSet) :
    (configuration.runAll stages).Blind :=
  Blind.mapM (Job.blind_run configuration.root stages) configuration.jobs

/-- The reports of the jobs completed before the first failure: all jobs in front run to these
reports, and the one behind them fails, if there is one. -/
def Completed (configuration : Configuration) (stages : StageSet) (files : FileSystem)
    (reports : List GenerationReport) : Prop :=
  ∃ done rest now, configuration.jobs = done ++ rest ∧
    (runAll ⟨configuration.root, done⟩ stages).outcome files = (.ok reports, now) ∧
    ∀ job ∈ rest.head?, ∃ failure after,
      (job.run configuration.root stages).outcome now = (.error failure, after)

theorem completed_nil (root : Path) (stages : StageSet) (files : FileSystem) :
    Completed ⟨root, []⟩ stages files [] :=
  ⟨[], [], files, rfl, rfl, by simp⟩

theorem completed_of_failure {job : Job} (rest : List Job) {failure : Failure} {after : FileSystem}
    (failed : (job.run root stages).outcome files = (.error failure, after)) :
    Completed ⟨root, job :: rest⟩ stages files [] := by
  refine ⟨[], job :: rest, files, rfl, rfl, ?_⟩
  rintro _ ⟨⟩
  exact ⟨failure, after, failed⟩

theorem Completed.cons {job : Job} {rest : List Job} {report : GenerationReport}
    {reports : List GenerationReport} {now : FileSystem}
    (ran : (job.run root stages).outcome files = (.ok report, now))
    (completed : Completed ⟨root, rest⟩ stages now reports) :
    Completed ⟨root, job :: rest⟩ stages files (report :: reports) := by
  obtain ⟨done, left, last, rfl, gave, stopped⟩ := completed
  refine ⟨job :: done, left, last, rfl, ?_, stopped⟩
  rw [runAll_cons, outcome_bind fun _ => (blind_runAll _ _).bind fun _ => blind_pure _, ran]
  show (runAll ⟨root, done⟩ stages >>= _).outcome now = _
  rw [outcome_bind fun _ => blind_pure _, gave]
  rfl

end Configuration

namespace Execution

variable {files : FileSystem} {root : Path} {stages : StageSet}

/-! ## The loop of the command -/

theorem runEach_cons (job : Job) (rest : List Job) (session : Session) :
    (runEach root stages (job :: rest)).run session =
      match (job.run root stages).runOn session with
      | (.error failure, after) => (([], some (.jobFailed job.name failure)), after)
      | (.ok report, after) =>
        let ((reports, complaint), last) := (runEach root stages rest).run after
        ((report :: reports, complaint), last) := by
  rw [runEach, run_handled]
  rcases (job.run root stages).runOn session with ⟨failure | report, after⟩
  · rfl
  · rfl

/-- The loop leaves the session as the run of all jobs does, it has a complaint exactly where that
fails, and without one it has the same reports. -/
theorem runEach_eq_runAll (root : Path) (stages : StageSet) (jobs : List Job) (session : Session) :
    ((runEach root stages jobs).run session).2 =
        ((Configuration.runAll ⟨root, jobs⟩ stages).runOn session).2 ∧
      match ((Configuration.runAll ⟨root, jobs⟩ stages).runOn session).1 with
      | .ok reports => ((runEach root stages jobs).run session).1 = (reports, none)
      | .error _ => ((runEach root stages jobs).run session).1.2 ≠ none := by
  induction jobs generalizing session with
  | nil => exact ⟨rfl, rfl⟩
  | cons job rest ih =>
    rw [runEach_cons, Configuration.runAll_cons, runOn_bind]
    rcases (job.run root stages).runOn session with ⟨failure | report, after⟩
    · exact ⟨rfl, by simp⟩
    · obtain ⟨same, results⟩ := ih after
      dsimp only
      rw [runOn_bind]
      rcases ran : (Configuration.runAll ⟨root, rest⟩ stages).runOn after with
        ⟨failure | reports, last⟩ <;> rw [ran] at same results
      · exact ⟨same, results⟩
      · refine ⟨same, ?_⟩
        show (report :: ((runEach root stages rest).run after).1.1,
          ((runEach root stages rest).run after).1.2) = (report :: reports, none)
        rw [results]

/-- The loop has the reports of the jobs completed before the first failure. -/
theorem completed_runEach (root : Path) (stages : StageSet) (jobs : List Job) (session : Session) :
    Configuration.Completed ⟨root, jobs⟩ stages session.files
      ((runEach root stages jobs).run session).1.1 := by
  induction jobs generalizing session with
  | nil => exact Configuration.completed_nil root stages session.files
  | cons job rest ih =>
    have told := (Job.blind_run root stages job).same session.files session.log
    rw [runEach_cons]
    rcases ran : (job.run root stages).runOn session with ⟨failure | report, after⟩ <;>
      rw [ran] at told
    · exact Configuration.completed_of_failure rest told.symm
    · exact (ih after).cons told.symm

/-! ## What is written -/

/-- What the command that generates leaves for a configuration, told by the run of all its jobs:
the same files, and without JSON the reports that were completed, each on lines of its own, with
JSON the list of all reports if it can be written, and nothing otherwise. -/
structure Reflects (configuration : Configuration) (stages : StageSet) (json : Bool)
    (files : FileSystem) (outcome : Outcome) (after : FileSystem) : Prop where
  left : after = ((configuration.runAll stages).outcome files).2
  texts : json = false → ∃ reports, configuration.Completed stages files reports ∧
    outcome.output = eachLine (reports.map GenerationReport.text)
  status : json = false → (outcome.status = 0 ↔
    ∃ reports, ((configuration.runAll stages).outcome files).1 = .ok reports)
  list : json = true → ∀ reports, ((configuration.runAll stages).outcome files).1 = .ok reports →
    (∀ report ∈ reports, ∀ path ∈ report.paths, path.text? ≠ none) →
      outcome.status = 0 ∧ ∃ items, each? GenerationReport.json? reports = some items ∧
        outcome.output = (Json.array items).prettyText ++ "\n"
  nothing : json = true → (∀ reports,
      ((configuration.runAll stages).outcome files).1 = .ok reports →
        ∃ report ∈ reports, ∃ path ∈ report.paths, path.text? = none) →
    outcome.status ≠ 0 ∧ outcome.output = ""

/-- A list of reports can be written exactly if every path in it is text. -/
theorem each?_json?_ne_none_iff {reports : List GenerationReport} :
    each? GenerationReport.json? reports ≠ none ↔
      ∀ report ∈ reports, ∀ path ∈ report.paths, path.text? ≠ none := by
  simp only [each?_ne_none_iff, GenerationReport.json?_ne_none_iff]

section

variable {configuration : Configuration} {json : Bool} {after : FileSystem}
  {reports : List GenerationReport}

/-- When all jobs have run, their reports are written. -/
theorem reflects_generated
    (gave : (configuration.runAll stages).outcome files = (.ok reports, after))
    (completed : configuration.Completed stages files reports) :
    Reflects configuration stages json files (generated json reports none) after := by
  have only : ∀ others, ((configuration.runAll stages).outcome files).1 = .ok others →
      others = reports := by
    intro others same
    rw [gave] at same
    exact (Except.ok.inj same).symm
  refine ⟨by rw [gave], ?_, ?_, ?_, ?_⟩
  · rintro rfl
    exact ⟨reports, completed, rfl⟩
  · rintro rfl
    exact ⟨fun _ => ⟨reports, by rw [gave]⟩, fun _ => rfl⟩
  · rintro rfl others same areTexts
    obtain rfl := only others same
    obtain ⟨items, written⟩ := Option.ne_none_iff_exists'.1 (each?_json?_ne_none_iff.2 areTexts)
    refine ⟨?_, items, written, ?_⟩
    · rw [generated, written]
      rfl
    · rw [generated, written]
      rfl
  · rintro rfl noText
    obtain ⟨report, member, path, inside, bytes⟩ := noText reports (by rw [gave])
    have unwritten : each? GenerationReport.json? reports = none := by
      by_contra written
      exact each?_json?_ne_none_iff.1 written report member path inside bytes
    rw [generated, unwritten]
    exact ⟨Nat.one_ne_zero, rfl⟩

/-- When a job has failed, what is written is a complaint, without JSON behind the reports before.
-/
theorem reflects_complaint {failure : Failure} (complaint : Complaint)
    (gave : (configuration.runAll stages).outcome files = (.error failure, after))
    (completed : configuration.Completed stages files reports) :
    Reflects configuration stages json files (generated json reports (some complaint)) after := by
  have never : ∀ others, ((configuration.runAll stages).outcome files).1 ≠ .ok others := by
    intro others same
    rw [gave] at same
    cases same
  refine ⟨by rw [gave], ?_, ?_, ?_, ?_⟩
  · rintro rfl
    exact ⟨reports, completed, rfl⟩
  · rintro rfl
    exact ⟨fun zero => absurd zero Nat.one_ne_zero, fun ⟨others, same⟩ =>
      absurd same (never others)⟩
  · exact fun _ others same => absurd same (never others)
  · rintro rfl _
    exact ⟨Nat.one_ne_zero, rfl⟩

end

theorem reflects_runEach {configuration : Configuration} {json : Bool} {session last : Session}
    {reports : List GenerationReport} {complaint : Option Complaint}
    (ended : (runEach configuration.root stages configuration.jobs).run session =
      ((reports, complaint), last)) :
    Reflects configuration stages json session.files (generated json reports complaint)
      last.files := by
  have completed := completed_runEach configuration.root stages configuration.jobs session
  obtain ⟨same, results⟩ := runEach_eq_runAll configuration.root stages configuration.jobs session
  have gave := (configuration.blind_runAll stages).same session.files session.log
  rw [ended] at completed same results
  rcases ran : (configuration.runAll stages).runOn session with ⟨failure | others, after⟩ <;>
    rw [ran] at same results gave
  · obtain ⟨cause, rfl⟩ := Option.ne_none_iff_exists'.1 results
    subst same
    exact reflects_complaint cause gave.symm completed
  · cases results
    subst same
    exact reflects_generated gave.symm completed

/-! ## The whole command -/

theorem run_generate (options : Options) (session : Session) : (generate options).run session =
    match (selection options).runOn session with
    | (.error complaint, after) => (Outcome.failure "" complaint, after)
    | (.ok (root, jobs), after) =>
      let ((reports, complaint), last) := (runEach root options.stageSet jobs).run after
      (generated options.json reports complaint, last) := by
  rw [generate, run_handled]
  rcases (selection options).runOn session with ⟨complaint | ⟨root, jobs⟩, after⟩
  · rfl
  · rfl

theorem reflects_generate {options : Options} (every : options.job = none)
    {configuration : Configuration} {session : Session}
    (loads : Loads session.files options configuration) :
    Reflects configuration options.stageSet options.json session.files
      ((generate options).run session).1 ((generate options).run session).2.files := by
  have selects : Selects options configuration configuration.jobs := by
    unfold Selects
    rw [every]
  obtain ⟨gives, leaves⟩ := (looks_selection options).runs session
  rw [sees_selection_iff.2 ⟨configuration, loads, rfl, selects⟩] at gives
  rw [run_generate]
  rcases ran : (selection options).runOn session with ⟨_, after⟩
  rw [ran] at gives leaves
  obtain rfl := gives
  rcases ended : (runEach configuration.root options.stageSet configuration.jobs).run after with
    ⟨⟨reports, complaint⟩, last⟩
  rw [← leaves]
  simp only [ended]
  exact reflects_runEach ended

/-- Whether reports are written as JSON is looked at only when the jobs have run. -/
theorem generate_leaves_alike (options : Options) (json : Bool) (session : Session) :
    ((generate { options with json := json }).run session).2 =
      ((generate options).run session).2 := by
  have same : selection { options with json := json } = selection options := rfl
  rw [run_generate, run_generate, same]
  rcases (selection options).runOn session with ⟨complaint | ⟨root, jobs⟩, after⟩
  · rfl
  · rfl

end Execution

/-- For a configuration that loads, the command that generates leaves the files as the run of all
jobs does, writes its reports and succeeds exactly where it does and they can be written. Asking
for JSON never makes a difference to the files. -/
theorem execute_generate (session : Session) {arguments : List Bytes} {options : Options}
    (asks : Request.ofArguments arguments = some (.command .generate options))
    (every : options.job = none) :
    (∀ configuration, Execution.Loads session.files options configuration →
      Execution.Reflects configuration options.stageSet options.json session.files
        ((execute arguments).run session).1 ((execute arguments).run session).2.files) ∧
      ∀ others, Request.ofArguments others =
          some (.command .generate { options with json := !options.json }) →
        ((execute others).run session).2.files = ((execute arguments).run session).2.files := by
  have whole : ∀ {arguments options}, Request.ofArguments arguments =
      some (.command .generate options) → execute arguments = Execution.generate options := by
    intro arguments options asks
    rw [execute, asks]
    rfl
  rw [whole asks]
  refine ⟨fun configuration loads => Execution.reflects_generate every loads, ?_⟩
  intro others alsoAsks
  rw [whole alsoAsks, Execution.generate_leaves_alike]

namespace StandardTree

/-- A tree in a directory alone. -/
def inside (name : String) (tree : Tree) : Tree := .branch (utf8 name) tree .empty

/-- The source of the built-in job, with one file in it, where the job looks for it. -/
def files : FileSystem := ⟨inside "src" (inside "edu" (inside "cornell" (inside "pserc"
  (inside "jpower" (inside "tdouble"
    (.leaf (utf8 "Dx") (.file (utf8 "Djp tdouble")) .empty)))))), []⟩

end StandardTree

/-- Asking for nothing but JSON runs the built-in job, and asking for nothing at all leaves the same
files. -/
theorem execute_generate_built_in :
    Execution.Reflects Configuration.builtIn StageSet.all true StandardTree.files
        ((execute [utf8 "--json"]).run ⟨StandardTree.files, []⟩).1
        ((execute [utf8 "--json"]).run ⟨StandardTree.files, []⟩).2.files ∧
      ((execute [utf8 "--json"]).run ⟨StandardTree.files, []⟩).1.status = 0 ∧
      ((execute []).run ⟨StandardTree.files, []⟩).2.files =
        ((execute [utf8 "--json"]).run ⟨StandardTree.files, []⟩).2.files := by
  let options : Options := ⟨none, none, none, [], true, 0⟩
  have asks : Request.ofArguments [utf8 "--json"] = some (.command .generate options) := by
    decide +kernel
  have alsoAsks : Request.ofArguments [] = some (.command .generate Options.none) := by
    decide +kernel
  have loads : Execution.Loads StandardTree.files options Configuration.builtIn := ⟨_, rfl, rfl⟩
  obtain ⟨reflects, alike⟩ := execute_generate ⟨StandardTree.files, []⟩ asks rfl
  exact ⟨reflects _ loads, by decide +kernel, alike [] alsoAsks⟩

end Retarget
