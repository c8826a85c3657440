import Retarget.Proofs.Run.Containment
import Retarget.Proofs.Run.Sequence

/-!
Reports that still hold when all jobs have run. They do where the jobs do not come in each other's
way, and that can be told beforehand where there are no links and the target paths only descend: the
place of a target can then be read off its path, and no place may lie in another.
-/
namespace Retarget

open Act FileSystem Pass

/-- A path that only descends, by names that a directory takes. -/
structure Path.Descends (path : Path) (names : Place) : Prop where
  spelled : Path.Spelled path.openSteps names
  short : ∀ name ∈ names, name.length ≤ nameLimit

namespace FileSystem

variable {files : FileSystem} {path : Path} {goal : Place}

theorem opens_of_descends {names : Place} (descends : path.Descends names)
    (accepted : path.check = .ok ())
    (held : files.root.entry? (path.placeFrom files.cwd) = some .directory) :
    files.Opens path (path.placeFrom files.cwd) := by
  have here : path.placeFrom files.cwd = path.start files.cwd ++ names :=
    descends.spelled.foldl_from _
  rw [here] at held ⊢
  exact ⟨accepted, leads_of_spelled descends.spelled descends.short held, held⟩

/-- A path that only descends leads past every place apart from its own. -/
theorem passes_of_descends {names : Place} (descends : path.Descends names)
    (accepted : path.check = .ok ())
    (held : files.root.entry? (path.placeFrom files.cwd) = some .directory)
    (apart : Apart (path.placeFrom files.cwd) goal) : files.Passes path goal := by
  have still : (files.emptied goal).root.entry? (path.placeFrom files.cwd) = some .directory := by
    rw [← held]
    exact Tree.entry?_modify_outside apart.2
  exact ⟨_, opens_of_descends descends accepted still, apart⟩

/-- Without links, a path that only descends can be replaced. -/
theorem replaceable_of_descends {names : Place} (linkless : files.root.Linkless [])
    (descends : path.Descends names)
    (short : (files.absolute path).bytes.length < pathLimit) : files.Replaceable path := by
  refine ⟨short, fun place link found => ?_, fun place opens => ?_⟩
  · exact linkless place link (Tree.entry?_eq_leaf.2 (lstat_iff.1 found).2.2)
  · obtain rfl := opens.place_eq linkless
    obtain ⟨inner, found⟩ := Tree.entry?_eq_directory.1 opens.directory
    exact opens_of_descends descends opens.accepted
      ((entry?_emptied found _).trans ((if_neg fun both => both.2 rfl).trans opens.directory))

end FileSystem

namespace Job

variable {files : FileSystem} {root : Path} {stages : StageSet} {job : Job}

/-- Without links, a run with some stage ends with a target that leads to a directory. -/
theorem run_opens (sound : files.Sound) (linkless : files.root.Linkless [])
    (foretells : ∀ seen, files.forecast (job.targetDirectory root) = .ok seen →
      files.Reaches (job.targetDirectory root))
    (asked : stages.isEmpty = false) :
    (job.run root stages).Ensures files
      (fun _ after => ∃ goal, after.Opens (job.targetDirectory root) goal) fun _ => True := by
  let there (now : FileSystem) : Prop := ∃ goal, now.Opens (job.targetDirectory root) goal
  refine run_ensures
    (fun now => now.Sound ∧ now.root.Linkless [] ∧ (stages.copy = true → there now))
    (fun now => now.Sound ∧ (stages.copy = true ∨ stages.rename = true → there now)) there
    (fun _ => trivial) (fun valid => ⟨fun copies => ?_, fun left => ?_⟩)
    (fun valid now kept => ⟨fun renames => ?_, fun left => ?_⟩)
    (fun _ now kept => ⟨fun rewrites => ?_, fun left => ?_⟩) fun now kept =>
    ⟨fun _ _ _ => kept, fun _ _ => trivial⟩
  · exact ((copyTree_opens sound (bytes_targetDirectory valid)).and
      (copyTree_contained sound linkless (bytes_sourceDirectory valid) foretells)).imp
        (fun _ _ held => ⟨held.1.1, held.2.linkless, fun _ => held.1.2⟩) fun _ _ => trivial
  · exact ⟨sound, linkless, fun copies => by rw [left] at copies; cases copies⟩
  · exact ((renameFiles_invariant FileSystem.Sound (fun _ _ _ _ sound done => sound.rename done)
      kept.1).and (renameFiles_opens kept.2.1)).imp
        (fun _ _ held => ⟨held.1, fun _ => held.2⟩) fun _ _ => trivial
  · exact ⟨kept.1, fun either => kept.2.2 (either.resolve_right (by simp [left]))⟩
  · refine (rewriteFiles_ensures kept.1).imp ?_ fun _ _ => trivial
    rintro _ after ⟨place, listed, lists, inside, ways, _⟩
    exact ⟨place, lists.opens.carry ways inside.cwd⟩
  · refine kept.2 ?_
    simpa [StageSet.isEmpty, left, or_iff_not_imp_left] using asked

end Job

namespace Configuration

variable {files : FileSystem} {root : Path} {stages : StageSet} {jobs : List Job}

/-- Jobs whose targets can be told apart from their paths: the paths only descend, and none of
their places lies in another or holds the working directory. -/
structure PlainTargets (root : Path) (stages : StageSet) (jobs : List Job) (files : FileSystem) :
    Prop where
  descends : ∀ job ∈ jobs, ∃ names, (job.targetDirectory root).Descends names
  short : ∀ job ∈ jobs, (files.absolute (job.targetDirectory root)).bytes.length < pathLimit
  slashless : ∀ job ∈ jobs, stages.rename = true → Path.slash ∉ utf8 job.naming.target
  outside : ∀ job ∈ jobs, ¬(job.targetDirectory root).placeFrom files.cwd <+: files.cwd
  apart : jobs.Pairwise fun first second =>
    Apart ((first.targetDirectory root).placeFrom files.cwd)
      ((second.targetDirectory root).placeFrom files.cwd)

/-- Paths of earlier targets: each only descends and leads to a directory, apart from the targets of
the jobs to come. -/
def Earlier (root : Path) (jobs : List Job) (files : FileSystem) (path : Path) : Prop :=
  (∃ names, path.Descends names) ∧ path.check = .ok () ∧
    files.root.entry? (path.placeFrom files.cwd) = some .directory ∧
    ∀ job ∈ jobs, Apart (path.placeFrom files.cwd)
      ((job.targetDirectory root).placeFrom files.cwd)

/-- Without links, targets that can be told apart from their paths are apart. -/
theorem targetsApart_of_plain {earlier : List Path} {files : FileSystem}
    (standing : files.Standing) (linkless : files.root.Linkless [])
    (asked : stages.isEmpty = false) (plain : PlainTargets root stages jobs files)
    (before : ∀ path ∈ earlier, Earlier root jobs files path) :
    TargetsApart root stages earlier jobs files := by
  induction jobs generalizing earlier files with
  | nil => trivial
  | cons job rest ih =>
    obtain ⟨descends, short, slashless, outside, apart⟩ := plain
    rw [List.forall_mem_cons] at descends short slashless outside
    obtain ⟨names, spelled⟩ := descends.1
    refine ⟨fun _ => ⟨standing.cwd, standing.short, slashless.1, fun _ =>
      replaceable_of_descends linkless spelled short.1⟩, fun report after gave => ?_⟩
    have contained := (Job.run_contained_ensures standing linkless slashless.1).of_outcome gave
    obtain ⟨goal, opens⟩ := (Job.run_opens standing.sound linkless
      (fun _ => standing.reaches_of_forecast linkless) asked).of_outcome gave
    obtain rfl := opens.place_eq contained.linkless
    rw [contained.cwd] at opens
    -- What was a directory outside the place of the target still is.
    have still : ∀ place, ¬(job.targetDirectory root).placeFrom files.cwd <+: place →
        files.root.entry? place = some .directory → after.root.entry? place = some .directory := by
      intro place apart held
      rcases contained.outside place apart with same | ⟨_, absent, _⟩
      · rw [same, held]
      · rw [held] at absent
        cases absent
    refine ⟨fun _ => ⟨_, opens, fun path member => ?_⟩, ih ?_ contained.linkless ?_ ?_⟩
    · obtain ⟨⟨others, down⟩, accepted, held, beside⟩ := before path member
      exact passes_of_descends down accepted held (beside job List.mem_cons_self)
    · refine ⟨contained.sound, ?_, by rw [contained.cwd]; exact standing.short⟩
      rw [contained.cwd]
      exact still _ outside.1 standing.cwd
    · refine ⟨descends.2, ?_, slashless.2, ?_, ?_⟩
      · unfold FileSystem.absolute
        rw [contained.cwd]
        exact short.2
      · rw [contained.cwd]
        exact outside.2
      · rw [contained.cwd]
        exact (List.pairwise_cons.1 apart).2
    · rw [List.forall_mem_cons]
      refine ⟨⟨⟨names, spelled⟩, opens.accepted, ?_, ?_⟩, fun path member => ?_⟩
      · rw [contained.cwd]
        exact opens.directory
      · rw [contained.cwd]
        exact (List.pairwise_cons.1 apart).1
      · obtain ⟨down, accepted, held, beside⟩ := before path member
        rw [Earlier, contained.cwd]
        exact ⟨down, accepted, still _ (beside job List.mem_cons_self).2 held, fun other later =>
          beside other (List.mem_cons_of_mem _ later)⟩

/-- Where jobs do not come in each other's way, every report on a target still holds when all of
them have run. -/
theorem runAll_reports_hold (configuration : Configuration) (sound : files.Sound)
    (apart : stages.isEmpty = false →
      TargetsApart configuration.root stages [] configuration.jobs files)
    {log : List Event} {reports : List GenerationReport} {after : Session}
    (ran : (configuration.runAll stages).runOn ⟨files, log⟩ = (.ok reports, after)) :
    ∀ report ∈ reports,
      after.files.fingerprint report.targetDirectory = .ok report.fingerprint := by
  cases empty : stages.isEmpty with
  | true =>
    obtain ⟨same, holds⟩ := (runs_still configuration.jobs empty files).ok ran
    rwa [same]
  | false =>
    exact ((runs_keep configuration.jobs sound (apart empty)).ok ran).2

end Configuration

namespace TwoTrees

/-- Two jobs on one source, the second one with a target of its own. -/
def sideBySide (second : String) : Configuration :=
  ⟨⟨[]⟩, [job "b", { job second with name := "k" }]⟩

end TwoTrees

namespace Configuration

theorem runAll_reports_hold_side_by_side :
    ∃ reports after, ((TwoTrees.sideBySide "c").runAll StageSet.all).runOn ⟨TwoTrees.before, []⟩ =
        (.ok reports, after) ∧
      ∀ report ∈ reports,
        after.files.fingerprint report.targetDirectory = .ok report.fingerprint := by
  obtain ⟨reports, after, ran, _⟩ := yields_iff.1 (by decide +kernel :
    ((TwoTrees.sideBySide "c").runAll StageSet.all).yields ⟨TwoTrees.before, []⟩ (fun _ _ => true) =
      true)
  have plain : PlainTargets (TwoTrees.sideBySide "c").root StageSet.all
      (TwoTrees.sideBySide "c").jobs TwoTrees.before := by
    refine ⟨?_, by decide, by decide, by decide, ?_⟩
    · exact List.forall_mem_cons.2 ⟨⟨[utf8 "b"], by rfl, by decide⟩,
        List.forall_mem_cons.2 ⟨⟨[utf8 "c"], by rfl, by decide⟩, by simp⟩⟩
    · unfold Apart
      decide
  exact ⟨reports, after, ran, runAll_reports_hold _ TwoTrees.standing.sound (fun asked =>
    targetsApart_of_plain TwoTrees.standing TwoTrees.linkless_everywhere asked plain (by simp)) ran⟩

/-- The second job copies into the target of the first, whose report then no longer holds. -/
theorem report_outdated_by_inner_target :
    (TwoTrees.sideBySide "b/c").violation? = none ∧ TwoTrees.before.Standing ∧
    ∃ reports after, ((TwoTrees.sideBySide "b/c").runAll StageSet.all).runOn ⟨TwoTrees.before, []⟩ =
        (.ok reports, after) ∧
      ∃ report ∈ reports,
        after.files.fingerprint report.targetDirectory ≠ .ok report.fingerprint := by
  refine ⟨by decide, TwoTrees.standing, ?_⟩
  obtain ⟨reports, after, ran, outdated⟩ := yields_iff.1 (by decide +kernel :
    ((TwoTrees.sideBySide "b/c").runAll StageSet.all).yields ⟨TwoTrees.before, []⟩
      (fun reports after => reports.any fun report =>
        !decide (after.files.fingerprint report.targetDirectory = .ok report.fingerprint)) = true)
  refine ⟨reports, after, ran, ?_⟩
  simpa using outdated

end Configuration
end Retarget
