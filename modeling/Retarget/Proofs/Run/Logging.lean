import Retarget.Proofs.Run.Outcome
import Retarget.Proofs.Session.Logging

/-!
The log of a run beside its report. A run that succeeds has noted its start, the hazards of its
table, what each stage did and its end. What a stage notes goes by the same items, in the same
order, as what it reports: a file that is copied, one that is renamed, one that is skipped or
rewritten.
-/
namespace Retarget

open Act FileSystem

namespace Pass

variable {files : FileSystem} {source target directory : Path}

/-! ## Copying -/

/-- The events for a number of files that are copied. -/
def Copies (count : Nat) (events : List Event) : Prop :=
  ∃ paths : List Path, paths.length = count ∧ events = paths.map .copied

theorem copies_zero : Copies 0 [] := ⟨[], rfl, rfl⟩

theorem Copies.append {count more : Nat} {events others : List Event} (first : Copies count events)
    (second : Copies more others) : Copies (count + more) (events ++ others) := by
  obtain ⟨paths, counted, told⟩ := first
  obtain ⟨further, moreCounted, moreTold⟩ := second
  refine ⟨paths ++ further, ?_, ?_⟩
  · rw [List.length_append, counted, moreCounted]
  · rw [List.map_append, told, moreTold]

/-- The events of a copy that takes the place of what was there. -/
def CopyNoted (files : FileSystem) (source target : Path) (count : Nat) (events : List Event) :
    Prop :=
  ∃ copied, Copies count copied ∧
    events = (if files.isDirectory target then [.removing target] else []) ++
      .copying source target :: copied

theorem copyFile_logs (path copy relative : Path) (files : FileSystem) :
    (copyFile path copy relative).Logs files fun _ _ events => events = [.copied relative] := by
  apply Logs.bind
  apply logs_examine
  intro contents _
  apply Logs.bind
  apply logs_change
  intro after
  exact logs_note rfl

/-- Copying the entries of a directory, given that each is copied as it should be. -/
theorem copyEntries_logs {depth : Nat}
    (logs : ∀ above path listed files, (copyFrom source target depth above path listed).Logs files
      fun count _ events => Copies count events)
    (above : List Ancestor) (path : Path) (entries : List (Bytes × Entry)) (files : FileSystem) :
    (copyEntries source target depth above path entries).Logs files fun count _ events =>
      Copies count events := by
  apply logs_foldlM _ entries files copies_zero
  intro count entry now events counted
  apply Logs.bind
  apply (logs above (path.joinName entry.1) entry.2 now).imp
  intro more middle noted copied
  apply logs_pure
  rw [List.append_nil]
  exact counted.append copied

theorem copyFrom_logs (source target : Path) (depth : Nat) (above : List Ancestor) (path : Path)
    (listed : Entry) (files : FileSystem) :
    (copyFrom source target depth above path listed).Logs files fun count _ events =>
      Copies count events := by
  induction depth generalizing above path listed files with
  | zero => exact logs_throw _
  | succ depth ih =>
    unfold copyFrom
    apply Logs.bind
    apply logs_examine
    intro entry _
    cases entry with
    | directory =>
      apply Logs.bind
      apply logs_look
      apply Logs.bind
      apply logs_changePartly
      intro middle
      apply Logs.bind
      apply logs_ofExcept
      intro found _
      exact copyEntries_logs ih (⟨path, found.1⟩ :: above) path found.2 middle
    | leaf content =>
      cases content with
      | file contents =>
        apply Logs.bind
        apply (copyFile_logs _ _ _ files).imp
        intro _ after events copied
        apply logs_pure
        exact ⟨[path.relativeTo source], rfl, by simp [copied]⟩
      | link link => exact logs_pure copies_zero
      | special => exact logs_pure copies_zero

theorem clear_logs (target : Path) (files : FileSystem) :
    (clear target).Logs files fun _ _ events =>
      events = if files.isDirectory target then [.removing target] else [] := by
  apply Logs.bind
  apply logs_look
  cases files.isDirectory target with
  | true =>
    apply Logs.bind
    apply logs_note
    apply logs_changePartly
    intro after
    rfl
  | false =>
    apply Logs.bind
    apply logs_look
    split
    · apply logs_change
      intro after
      rfl
    · exact logs_pure rfl

theorem replaceTree_logs (source target : Path) (files : FileSystem) :
    (replaceTree source target).Logs files fun count _ events =>
      CopyNoted files source target count events := by
  apply Logs.bind
  apply (clear_logs target files).imp
  intro _ middle removed cleared
  apply Logs.bind
  apply logs_note
  apply Logs.bind
  apply logs_examine
  intro found _
  apply (copyFrom_logs source target pathLimit [] source found.2.entry middle).imp
  intro count after copied counted
  exact ⟨copied, counted, by rw [cleared]; rfl⟩

theorem copyTree_logs (source target : Path) (files : FileSystem) :
    (copyTree source target).Logs files fun count _ events =>
      CopyNoted files source target count events := by
  apply Logs.bind
  apply logs_look
  apply Logs.unless
  apply Logs.bind
  apply logs_examine
  intro sourcePlace _
  apply Logs.bind
  apply logs_examine
  intro targetPlace _
  apply Logs.unless
  exact replaceTree_logs source target files

/-! ## Renaming -/

/-- A report on a file that is renamed is made from its paths before and after. -/
def Candidate.Reported (directory : Path) (candidate : Candidate) (report : RenamedFile) : Prop :=
  report.source = candidate.source.relativeTo directory ∧
    report.target = candidate.target.relativeTo directory

/-- The events for a file that is renamed. -/
def Candidate.events (candidate : Candidate) (report : RenamedFile) : List Event :=
  (if report.overwrote then [.overwriting candidate.target] else []) ++ [.writing candidate.target]

/-- The events of the renaming pass. -/
def RenameNoted (files : FileSystem) (directory : Path) (naming : Naming)
    (reports : List RenamedFile) (events : List Event) : Prop :=
  ∃ listed, files.filesBelow directory = .ok listed ∧
    List.Forall₂ (Candidate.Reported directory) (listed.filterMap (candidate? naming)) reports ∧
    events = .renamingFiles directory ::
      (List.zipWith Candidate.events (listed.filterMap (candidate? naming)) reports).flatten

theorem renameFile_logs (directory : Path) (candidate : Candidate) (files : FileSystem) :
    (renameFile directory candidate).Logs files fun report _ events =>
      candidate.Reported directory report ∧ events = candidate.events report := by
  apply Logs.bind
  apply logs_look
  have onward (overwrote : Bool) (noted : List Event)
      (told : noted = if overwrote then [.overwriting candidate.target] else []) :
      (do
        note (.writing candidate.target)
        change candidate.source (·.rename candidate.source candidate.target)
        pure ⟨candidate.source.relativeTo directory, candidate.target.relativeTo directory,
          overwrote⟩ : Act Failure RenamedFile).Logs files fun report _ events =>
        candidate.Reported directory report ∧ noted ++ events = candidate.events report := by
    apply Logs.bind
    apply logs_note
    apply Logs.bind
    apply logs_change
    intro after
    apply logs_pure
    exact ⟨⟨rfl, rfl⟩, by rw [told]; rfl⟩
  cases files.isPresent candidate.target with
  | true =>
    apply Logs.bind
    apply logs_note
    exact onward true _ rfl
  | false => exact onward false _ rfl

theorem renameFiles_logs (directory : Path) (naming : Naming) (files : FileSystem) :
    (renameFiles directory naming).Logs files fun reports _ events =>
      RenameNoted files directory naming reports events := by
  apply Logs.bind
  apply logs_note
  apply Logs.bind
  apply logs_examine
  intro listed found
  apply (logs_mapM (renameFile_logs directory) (listed.filterMap (candidate? naming)) files).imp
  intro reports after events told
  exact ⟨listed, found, told.1, by rw [told.2]; rfl⟩

/-! ## Rewriting -/

/-- What comes of a file is told of it by its path. -/
def Finding.Reported (directory : Path) (file : Found) : Finding → Prop
  | kept => True
  | skipped report => report = ⟨file.path.relativeTo directory, notTextReason⟩
  | rewritten report => report.path = file.path.relativeTo directory

/-- The events for a file that is scanned. -/
def Finding.events (file : Found) : Finding → List Event
  | kept => []
  | skipped _ => [.skipping file.path]
  | rewritten report => [.rewriting file.path report.substitutions]

/-- The events of the rewriting pass. -/
def RewriteNoted (files : FileSystem) (directory : Path) (naming : Naming)
    (outcome : SubstitutionOutcome) (events : List Event) : Prop :=
  ∃ listed findings, files.filesBelow directory = .ok listed ∧
    List.Forall₂ (Finding.Reported directory)
      (listed.filter fun file => naming.isTarget file.name) findings ∧
    outcome = Finding.outcome findings ∧
    events = .scanning directory ::
      (List.zipWith Finding.events (listed.filter fun file => naming.isTarget file.name)
        findings).flatten

theorem rewriteFile_logs (directory : Path) (table : Table) (file : Found) (files : FileSystem) :
    (rewriteFile directory table file).Logs files fun finding _ events =>
      Finding.Reported directory file finding ∧ events = Finding.events file finding := by
  apply Logs.bind
  apply logs_examine
  intro contents _
  dsimp only
  split
  · apply Logs.bind
    apply logs_note
    exact logs_pure ⟨rfl, rfl⟩
  · split
    · exact logs_pure ⟨trivial, rfl⟩
    · apply Logs.bind
      apply logs_note
      apply Logs.bind
      apply logs_change
      intro after
      exact logs_pure ⟨rfl, rfl⟩

theorem rewriteFiles_logs (directory : Path) (naming : Naming) (table : Table)
    (files : FileSystem) :
    (rewriteFiles directory naming table).Logs files fun outcome _ events =>
      RewriteNoted files directory naming outcome events := by
  apply Logs.bind
  apply logs_note
  apply Logs.bind
  apply logs_examine
  intro listed found
  apply Logs.bind
  apply (logs_mapM (rewriteFile_logs directory table)
    (listed.filter fun file => naming.isTarget file.name) files).imp
  intro findings after events told
  apply logs_pure
  exact ⟨listed, findings, found, told.1, rfl, by rw [told.2]; simp⟩

end Pass

namespace Job

variable {files : FileSystem} {root : Path} {stages : StageSet} {job : Job}

/-! ## Stages -/

/-- What the copying stage reports and notes from some files. -/
def CopyTold (root : Path) (stages : StageSet) (job : Job) (files : FileSystem)
    (copied : Option Nat) (events : List Event) : Prop :=
  if stages.copy then ∃ count, copied = some count ∧
    Pass.CopyNoted files (job.sourceDirectory root) (job.targetDirectory root) count events
  else copied = none ∧ events = []

/-- What the renaming stage reports and notes from some files. -/
def RenameTold (root : Path) (stages : StageSet) (job : Job) (files : FileSystem)
    (renamed : List RenamedFile) (events : List Event) : Prop :=
  if stages.rename then
    Pass.RenameNoted files (job.targetDirectory root) job.naming renamed events
  else renamed = [] ∧ events = []

/-- What the rewriting stage reports and notes from some files. -/
def RewriteTold (root : Path) (stages : StageSet) (job : Job) (files : FileSystem)
    (substitution : Option SubstitutionOutcome) (events : List Event) : Prop :=
  if stages.substitute then ∃ outcome, substitution = some outcome ∧
    Pass.RewriteNoted files (job.targetDirectory root) job.naming outcome events
  else substitution = none ∧ events = []

theorem copyStage_logs (root : Path) (stages : StageSet) (job : Job) (files : FileSystem) :
    (job.copyStage root stages).Logs files fun copied _ events =>
      job.CopyTold root stages files copied events := by
  unfold copyStage CopyTold
  cases stages.copy with
  | true =>
    apply Logs.map
    apply (Pass.copyTree_logs _ _ files).imp
    intro count after events noted
    exact ⟨count, rfl, noted⟩
  | false => exact logs_pure ⟨rfl, rfl⟩

theorem renameStage_logs (root : Path) (stages : StageSet) (job : Job) (files : FileSystem) :
    (job.renameStage root stages).Logs files fun renamed _ events =>
      job.RenameTold root stages files renamed events := by
  unfold renameStage RenameTold
  cases stages.rename with
  | true => exact Pass.renameFiles_logs _ _ files
  | false => exact logs_pure ⟨rfl, rfl⟩

theorem substituteStage_logs (root : Path) (stages : StageSet) (job : Job) (files : FileSystem) :
    (job.substituteStage root stages).Logs files fun substitution _ events =>
      job.RewriteTold root stages files substitution events := by
  unfold substituteStage RewriteTold
  cases stages.substitute with
  | true =>
    apply Logs.map
    apply (Pass.rewriteFiles_logs _ _ _ files).imp
    intro outcome after events noted
    exact ⟨outcome, rfl, noted⟩
  | false => exact logs_pure ⟨rfl, rfl⟩

theorem check_logs (job : Job) (files : FileSystem) :
    job.check.Logs files fun _ after events => after = files ∧ events = [] := by
  unfold check
  split
  · exact logs_throw _
  · exact logs_pure ⟨rfl, rfl⟩

theorem conclude_logs (root : Path) (job : Job) (copied : Option Nat) (renamed : List RenamedFile)
    (substitution : Option SubstitutionOutcome) (files : FileSystem) :
    (job.conclude root copied renamed substitution).Logs files fun report after events =>
      after = files ∧ report = ⟨job.name, job.targetDirectory root, copied, renamed, substitution,
        report.fingerprint⟩ ∧ events = [.done job.name report.fingerprint] := by
  apply Logs.bind
  apply logs_examine
  intro fingerprint _
  apply Logs.bind
  apply logs_note
  exact logs_pure ⟨rfl, rfl, rfl⟩

/-! ## A run -/

/-- What a run from some files reports and notes: its start, one hazard for each hazard of the
table, the events of its stages, each from the files that the one before it left, and its end. -/
def RunTold (root : Path) (stages : StageSet) (job : Job) (files : FileSystem)
    (report : GenerationReport) (after : FileSystem) (events : List Event) : Prop :=
  ∃ (copied renamed : FileSystem) (copyEvents renameEvents rewriteEvents : List Event),
    ((job.copyStage root stages).outcome files = (.ok report.copied, copied) ∧
      job.CopyTold root stages files report.copied copyEvents) ∧
    ((job.renameStage root stages).outcome copied = (.ok report.renamed, renamed) ∧
      job.RenameTold root stages copied report.renamed renameEvents) ∧
    ((job.substituteStage root stages).outcome renamed = (.ok report.substitution, after) ∧
      job.RewriteTold root stages renamed report.substitution rewriteEvents) ∧
    events = [.running job.name (job.targetDirectory root)] ++
      job.table.hazards.map (.hazard job.name) ++ copyEvents ++ renameEvents ++ rewriteEvents ++
      [.done job.name report.fingerprint]

theorem run_logs (root : Path) (stages : StageSet) (job : Job) (files : FileSystem) :
    (job.run root stages).Logs files fun report after events =>
      job.RunTold root stages files report after events := by
  rw [run_eq]
  apply Logs.bind
  apply (job.check_logs files).imp
  rintro _ _ _ ⟨rfl, rfl⟩
  apply Logs.bind
  apply logs_note
  apply Logs.bind
  apply logs_noteAll
  apply Logs.bind
  apply ((job.copyStage_logs root stages _).outcome (blind_copyStage root stages job)).imp
  intro copies copied copyEvents copyTold
  apply Logs.bind
  apply ((job.renameStage_logs root stages copied).outcome (blind_renameStage root stages job)).imp
  intro renames renamed renameEvents renameTold
  apply Logs.bind
  apply ((job.substituteStage_logs root stages renamed).outcome
    (blind_substituteStage root stages job)).imp
  intro rewrites rewritten rewriteEvents rewriteTold
  apply (job.conclude_logs root copies renames rewrites rewritten).imp
  intro report after done ⟨same, whole, told⟩
  rw [same, whole, told]
  exact ⟨copied, renamed, copyEvents, renameEvents, rewriteEvents, copyTold, renameTold,
    rewriteTold, by simp⟩

/-- Log and report of a run that succeeds are told of the same hazards and files, in one order. -/
theorem run_logs_report {session after : Session} {report : GenerationReport}
    (ran : (job.run root stages).runOn session = (.ok report, after)) :
    ∃ events, after.log = session.log ++ events ∧
      job.RunTold root stages session.files report after.files events :=
  (run_logs root stages job session.files).told ran

end Job

namespace Chronicle

/-- A source with a file to be renamed over another one, a file that is no text and one that holds
a pattern, and a target from before. -/
def files : FileSystem := ⟨.branch (utf8 "a") (.leaf (utf8 "Dx") (.file (utf8 "pq"))
  (.leaf (utf8 "Sx") (.file []) (.leaf (utf8 "Sy") (.file [0xFF])
    (.leaf (utf8 "Sz") (.file (utf8 "ppq")) .empty)))) (.branch (utf8 "b") .empty .empty), []⟩

/-- One replacement makes room for the pattern of the next. -/
def job : Job :=
  ⟨"j", ⟨[]⟩, "a", "b", Naming.standard, (Table.ofList [⟨"pq", "r"⟩, ⟨"r", "s"⟩]).1⟩

def log (fingerprint : Fingerprint) : List Event :=
  [.running "j" ⟨utf8 "b"⟩, .hazard "j" ⟨0, 1, .feeds⟩,
    .removing ⟨utf8 "b"⟩, .copying ⟨utf8 "a"⟩ ⟨utf8 "b"⟩,
    .copied ⟨utf8 "Dx"⟩, .copied ⟨utf8 "Sx"⟩, .copied ⟨utf8 "Sy"⟩, .copied ⟨utf8 "Sz"⟩,
    .renamingFiles ⟨utf8 "b"⟩, .overwriting ⟨utf8 "b/Sx"⟩, .writing ⟨utf8 "b/Sx"⟩,
    .scanning ⟨utf8 "b"⟩, .rewriting ⟨utf8 "b/Sx"⟩ 2, .skipping ⟨utf8 "b/Sy"⟩,
    .rewriting ⟨utf8 "b/Sz"⟩ 2, .done "j" fingerprint]

end Chronicle

namespace Job

theorem run_logs_report_chronicle :
    ∃ report after, (Chronicle.job.run ⟨[]⟩ StageSet.all).runOn ⟨Chronicle.files, []⟩ =
        (.ok report, after) ∧
      report.copied = some 4 ∧ report.renamed = [⟨⟨utf8 "Dx"⟩, ⟨utf8 "Sx"⟩, true⟩] ∧
      report.substitution = some ⟨3, [⟨⟨utf8 "Sx"⟩, 2⟩, ⟨⟨utf8 "Sz"⟩, 2⟩],
        [⟨⟨utf8 "Sy"⟩, Pass.notTextReason⟩]⟩ ∧
      after.log = Chronicle.log report.fingerprint ∧
      Chronicle.job.RunTold ⟨[]⟩ StageSet.all Chronicle.files report after.files
        (Chronicle.log report.fingerprint) := by
  obtain ⟨report, after, ran, computed⟩ := yields_iff.1 (by decide +kernel :
    (Chronicle.job.run ⟨[]⟩ StageSet.all).yields ⟨Chronicle.files, []⟩ (fun report after =>
      report.copied = some 4 ∧ report.renamed = [⟨⟨utf8 "Dx"⟩, ⟨utf8 "Sx"⟩, true⟩] ∧
      report.substitution = some ⟨3, [⟨⟨utf8 "Sx"⟩, 2⟩, ⟨⟨utf8 "Sz"⟩, 2⟩],
        [⟨⟨utf8 "Sy"⟩, Pass.notTextReason⟩]⟩ ∧
      after.log = Chronicle.log report.fingerprint) = true)
  obtain ⟨copied, renamed, substitution, log⟩ := of_decide_eq_true computed
  obtain ⟨events, added, told⟩ := run_logs_report ran
  rw [List.nil_append] at added
  exact ⟨report, after, ran, copied, renamed, substitution, log, log ▸ added ▸ told⟩

end Job
end Retarget
