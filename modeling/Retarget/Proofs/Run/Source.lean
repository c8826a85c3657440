import Retarget.Proofs.Pass.Renaming
import Retarget.Proofs.Pass.Replacing
import Retarget.Proofs.Pass.Rewriting
import Retarget.Proofs.Run.Stages

/-!
What a run does to its source. Copying refuses a target that overlaps the source and otherwise
changes nothing beside the target; the other stages change nothing outside the target. So a source
that lies apart from the target stays as it is, however the run ends. A target that contains the
source, or lies in it, is refused by copying alone.
-/
namespace Retarget

open Act FileSystem Pass

variable {files now after : FileSystem} {source target : Path} {place reached : Place}

/-! ## Copying -/

/-- Copying keeps the source, whether it succeeds or fails, and what the target leads to lies apart
from it. -/
theorem Pass.copyTree_keeps (standing : files.Standing) (opens : files.Opens source place)
    (short : (files.absolute source).bytes.length < pathLimit) (some : target.bytes ≠ [])
    (replaceable : files.Replaceable target) :
    (copyTree source target).Ensures files
      (fun _ now => files.Keeps place now ∧ ∀ reached, now.Opens target reached →
        Apart place reached) (files.Keeps place) := by
  have unchanged : files.Keeps place files := ⟨standing.sound, fun _ _ => rfl⟩
  refine copyTree_replaces standing opens short some replaceable.short unchanged
    fun top names front tail accepted foretold beside _ => ?_
  refine (replaceTree_spares standing.sound opens accepted replaceable foretold).imp ?_
    fun _ spared => spared.keeps beside
  intro _ now underway
  exact ⟨underway.toSpares.keeps beside, fun reached other => other.unique underway.opens ▸ beside⟩

/-! ## A run -/

namespace Job

variable {root : Path} {stages : StageSet} {job : Job}

/-- What changes below the directory that the target leads to keep, renaming and rewriting keep, so
it holds of the whole run if it holds of the files that are there for them. -/
theorem run_confined_ensures (held : FileSystem → Prop) {bad : FileSystem → Prop}
    (sound : ∀ now, held now → now.Sound)
    (slashless : stages.rename = true → Path.slash ∉ utf8 job.naming.target)
    (confined : ∀ now reached after, held now → now.Opens (job.targetDirectory root) reached →
      now.Confined reached after → held after)
    (invalid : bad files) (copied : job.violation? = none →
      (stages.copy = true →
        (copyTree (job.sourceDirectory root) (job.targetDirectory root)).Ensures files
          (fun _ => held) bad) ∧
        (stages.copy = false → held files))
    (failed : ∀ now, held now → bad now) :
    (job.run root stages).Ensures files (fun _ => held) bad := by
  refine run_ensures held held held (fun _ => invalid) copied
    (fun valid now kept => ⟨fun asked => ?_, fun _ => kept⟩)
    (fun _ now kept => ⟨fun _ => ?_, fun _ => kept⟩) fun now kept =>
    ⟨fun _ _ _ => kept, fun _ _ => failed now kept⟩
  · exact (renameFiles_confined held (sound now kept) (valid_of_violation? valid).2.2.2.1
      (slashless asked) (confined now · · kept) kept).imp (fun _ _ held => held) failed
  · exact (rewriteFiles_confined held (sound now kept) (confined now · · kept) kept).imp
      (fun _ _ held => held) failed

theorem run_keeps_ensures (standing : files.Standing)
    (source : files.Opens (job.sourceDirectory root) place)
    (slashless : stages.rename = true → Path.slash ∉ utf8 job.naming.target)
    (copying : stages.copy = true →
      (files.absolute (job.sourceDirectory root)).bytes.length < pathLimit ∧
      files.Replaceable (job.targetDirectory root))
    (inPlace : stages.copy = false → ∀ reached, files.Opens (job.targetDirectory root) reached →
      Apart place reached) :
    (job.run root stages).Ensures files (fun _ => files.Keeps place) (files.Keeps place) := by
  have unchanged : files.Keeps place files := ⟨standing.sound, fun _ _ => rfl⟩
  let beside (now : FileSystem) : Prop :=
    files.Keeps place now ∧ ∀ reached, now.Opens (job.targetDirectory root) reached →
    Apart place reached
  refine (run_confined_ensures beside (fun _ held => held.1.sound) slashless ?_ unchanged
    (fun valid => ⟨fun asked => ?_, fun left => ⟨unchanged, inPlace left⟩⟩) fun _ held => held.1).imp
      (fun _ _ held => held.1) fun _ kept => kept
  · intro now reached after held opens confined
    refine ⟨held.1.confined (held.2 reached opens) confined, fun other later => ?_⟩
    exact held.2 other (later.carry confined.ways confined.cwd.symm)
  · exact copyTree_keeps standing source (copying asked).1 (bytes_targetDirectory valid)
      (copying asked).2

/-- The stages have nothing to do to a file that stands below both directories. -/
structure IdleBelow (job : Job) (stages : StageSet) (files : FileSystem) (place reached : Place) :
    Prop where
  unmoved : stages.rename = true → Unmoved job.naming files place reached
  unrewritten : stages.substitute = true → Unrewritten job.naming job.table files place reached

/-- What renaming and rewriting make of a copy that is there, one after the other, where they are
asked for. -/
structure Reworked (job : Job) (stages : StageSet) (files : FileSystem) (directory : Path)
    (reached : Place) (now after : FileSystem) : Prop where
  renamed : stages.rename = true → ∃ listed, files.Lists directory reached listed ∧
    Renamed job.naming files reached listed now
  named : stages.rename = false → now = files
  rewritten : stages.substitute = true → ∃ listed, now.Lists directory reached listed ∧
    Rewritten job.table now reached (listed.filter fun found => job.naming.isTarget found.name)
      after
  written : stages.substitute = false → after = now

theorem Reworked.none (reworked : job.Reworked stages files target reached now after)
    {query : Place} (free : now.root.entry? query = none) : after.root.entry? query = none := by
  cases asked : stages.substitute with
  | false => rw [reworked.written asked, free]
  | true =>
    obtain ⟨listed, lists, rewritten⟩ := reworked.rewritten asked
    rw [rewritten.others query, free]
    rintro found member rfl
    obtain ⟨contents, _, held⟩ := lists.held found (List.mem_filter.1 member).1
    rw [free] at held
    cases held

/-- With nothing to rename below both directories, renaming keeps the one. -/
theorem Reworked.still (reworked : job.Reworked stages files target reached now after)
    (directory : files.root.entry? place = some .directory)
    (unmoved : stages.rename = true → Unmoved job.naming files place reached) {query : Place}
    (inside : place <+: query) : now.root.entry? query = files.root.entry? query := by
  cases asked : stages.rename with
  | false => rw [reworked.named asked]
  | true =>
    obtain ⟨listed, lists, renamed⟩ := reworked.renamed asked
    exact renamed.keeps lists directory (unmoved asked) inside

/-- What is renamed below both directories is missing from the one, whatever is rewritten after. -/
theorem Reworked.unmoved (reworked : job.Reworked stages files target reached now after)
    (kept : ∀ query, place <+: query → after.root.entry? query = files.root.entry? query)
    (asked : stages.rename = true) : Unmoved job.naming files place reached := by
  rintro above name contents inSource ⟨rest, rfl⟩ file
  obtain ⟨listed, lists, renamed⟩ := reworked.renamed asked
  have stays := kept _ (inSource.trans (List.prefix_append _ [name]))
  rw [file] at stays
  rw [List.append_assoc] at file stays
  refine renamed.isSource_of_present lists file fun free => ?_
  rw [reworked.none free] at stays
  cases stays

theorem Reworked.keeps_iff (reworked : job.Reworked stages files target reached now after)
    (directory : files.root.entry? place = some .directory) :
    (∀ query, place <+: query → after.root.entry? query = files.root.entry? query) ↔
      job.IdleBelow stages files place reached := by
  constructor
  · intro kept
    have unmoved := reworked.unmoved kept
    have same : ∀ query, place <+: query → now.root.entry? query = files.root.entry? query :=
      fun query inside => reworked.still directory unmoved inside
    refine ⟨unmoved, fun asked => ?_⟩
    obtain ⟨listed, lists, rewritten⟩ := reworked.rewritten asked
    have stands := (same place (List.prefix_refl _)).trans directory
    refine (unrewritten_congr same).1 ((rewritten.keeps_iff stands lists).1 fun query inside => ?_)
    rw [kept query inside, same query inside]
  · intro idle query inside
    have same : ∀ query, place <+: query → now.root.entry? query = files.root.entry? query :=
      fun query inside => reworked.still directory idle.unmoved inside
    rw [← same query inside]
    cases asked : stages.substitute with
    | false => rw [reworked.written asked]
    | true =>
      obtain ⟨listed, lists, rewritten⟩ := reworked.rewritten asked
      have stands := (same place (List.prefix_refl _)).trans directory
      exact (rewritten.keeps_iff stands lists).2
        ((unrewritten_congr same).2 (idle.unrewritten asked))
        query inside

/-- Without copying, a run ends with the copy that was there reworked. -/
theorem run_reworks (standing : files.Standing) (inPlace : stages.copy = false)
    (slashless : stages.rename = true → Path.slash ∉ utf8 job.naming.target)
    (apart : job.naming.Apart)
    (opens : files.Opens (job.targetDirectory root) reached) :
    (job.run root stages).Ensures files
      (fun _ after => ∃ now, job.Reworked stages files (job.targetDirectory root) reached now after)
      fun _ => True := by
  let renamed (now : FileSystem) : Prop :=
    now.Sound ∧ (∀ other, now.Opens (job.targetDirectory root) other → other = reached) ∧
    (stages.rename = true → ∃ listed, files.Lists (job.targetDirectory root) reached listed ∧
      Renamed job.naming files reached listed now) ∧ (stages.rename = false → now = files)
  refine run_ensures (· = files) renamed
    (fun after => ∃ now, job.Reworked stages files (job.targetDirectory root) reached now after)
    (fun _ => trivial)
    (fun _ => ⟨(fun asked => by simp [inPlace] at asked), fun _ => rfl⟩)
    (fun valid now same => ⟨fun asked => ?_, fun left => ?_⟩)
    (fun _ now held => ⟨fun asked => ?_, fun left => ?_⟩) fun now held =>
    ⟨fun _ _ _ => held, fun _ _ => trivial⟩
  · subst same
    refine (renameFiles_ensures standing.sound (valid_of_violation? valid).2.2.2.1
      (slashless asked)).imp ?_ fun _ _ => trivial
    rintro _ after ⟨other, listed, lists, confined, moved⟩
    obtain rfl := lists.opens.unique opens
    refine ⟨confined.sound, fun reached later =>
      (later.carry confined.ways confined.cwd.symm).unique opens,
      fun _ => ⟨listed, lists, moved apart⟩, fun left => ?_⟩
    rw [asked] at left
    cases left
  · subst same
    refine ⟨standing.sound, fun reached later => later.unique opens, fun asked => ?_, fun _ => rfl⟩
    rw [left] at asked
    cases asked
  · obtain ⟨sound, only, first, named⟩ := held
    refine (rewriteFiles_ensures sound).imp ?_ fun _ _ => trivial
    rintro _ after ⟨other, listed, lists, _, _, rewritten⟩
    obtain rfl := only other lists.opens
    refine ⟨now, first, named, fun _ => ⟨listed, lists, rewritten⟩, fun left => ?_⟩
    rw [asked] at left
    cases left
  · obtain ⟨_, _, first, named⟩ := held
    refine ⟨now, first, named, fun asked => ?_, fun _ => rfl⟩
    rw [left] at asked
    cases asked

/-- Where a mark that files are renamed to has no slash, the source stays as it was however a run
ends: with copying, if the target can be told from the source by whole paths and replaced; without,
if neither directory contains the other. With marks that can be told apart, a run without copying
that succeeds keeps the source exactly if its stages have nothing to do to a file below both
directories. -/
theorem run_keeps_source (standing : files.Standing)
    (source : files.Opens (job.sourceDirectory root) place)
    (slashless : stages.rename = true → Path.slash ∉ utf8 job.naming.target) (log : List Event) :
    ((stages.copy = true → (files.absolute (job.sourceDirectory root)).bytes.length < pathLimit ∧
        files.Replaceable (job.targetDirectory root)) →
      (stages.copy = false → ∀ reached, files.Opens (job.targetDirectory root) reached →
        Apart place reached) →
      ∀ query, place <+: query →
        ((job.run root stages).runOn ⟨files, log⟩).2.files.root.entry? query =
        files.root.entry? query) ∧
    (stages.copy = false → job.naming.Apart → ∀ reached,
      files.Opens (job.targetDirectory root) reached →
      ∀ report after, (job.run root stages).runOn ⟨files, log⟩ = (.ok report, after) →
        ((∀ query, place <+: query → after.files.root.entry? query = files.root.entry? query) ↔
          job.IdleBelow stages files place reached)) := by
  constructor
  · intro copying inPlace
    exact ((run_keeps_ensures standing source slashless copying inPlace).always log).kept
  · intro inPlace apart reached target report after ran
    obtain ⟨now, reworked⟩ := (run_reworks standing inPlace slashless apart target).ok ran
    exact reworked.keeps_iff source.directory

end Job

namespace TwoTrees

/-- A source directory with a file to be renamed and, one directory down, a file that has the target
mark already; beside it the output of an earlier run. -/
def before : FileSystem := ⟨.branch (utf8 "a") (.leaf (utf8 "D") (.file (utf8 "a double"))
    (.branch (utf8 "n") (.leaf (utf8 "Sy") (.file (utf8 "two doubles")) .empty) .empty))
  (.branch (utf8 "b") (.leaf (utf8 "S") (.file (utf8 "old")) (.branch (utf8 "old") .empty .empty))
    .empty), []⟩

def job (target : String) : Job :=
  ⟨"j", ⟨[]⟩, "a", target, Naming.standard, (Table.ofList [⟨"double", "single"⟩]).1⟩

theorem wellFormed : before.root.WellFormed := by decide

theorem walk_before :
    before.root.walk = [([utf8 "a"], .directory),
    ([utf8 "a", utf8 "D"], .leaf (.file (utf8 "a double"))), ([utf8 "a", utf8 "n"], .directory),
    ([utf8 "a", utf8 "n", utf8 "Sy"], .leaf (.file (utf8 "two doubles"))),
    ([utf8 "b"], .directory), ([utf8 "b", utf8 "S"], .leaf (.file (utf8 "old"))),
    ([utf8 "b", utf8 "old"], .directory)] := by
  rfl

theorem linkless : before.root.Linkless [utf8 "a"] := by
  intro below link held
  have visited := (Tree.mem_walk wellFormed).2 ⟨by simp, held⟩
  rw [walk_before] at visited
  simp at visited

theorem standing : before.Standing := ⟨by decide, rfl, by simp [before]⟩

theorem opens_source : before.Opens ⟨utf8 "a"⟩ [utf8 "a"] := by decide

theorem opens_target : before.Opens ⟨utf8 "b"⟩ [utf8 "b"] := by decide

theorem replaceable : before.Replaceable ⟨utf8 "b"⟩ := by
  have found : before.lstat ⟨utf8 "b"⟩ =
      .ok ([utf8 "b"], .branch
        (.leaf (utf8 "S") (.file (utf8 "old")) (.branch (utf8 "old") .empty .empty))) := by rfl
  refine ⟨by decide, fun place link linked => ?_, fun place opens => ?_⟩
  · rw [found] at linked
    cases linked
  · obtain rfl := opens.unique opens_target
    decide

/-- A complete run has something to do in every stage. -/
theorem run_all : ∃ report after,
    ((job "b").run ⟨[]⟩ StageSet.all).runOn ⟨before, []⟩ = (.ok report, after) ∧
      report.copied = some 2 ∧ report.renamed = [⟨⟨utf8 "D"⟩, ⟨utf8 "S"⟩, false⟩] ∧
      report.substitution = some ⟨2, [⟨⟨utf8 "S"⟩, 1⟩, ⟨⟨utf8 "n/Sy"⟩, 1⟩], []⟩ ∧
      after.files.Opens ⟨utf8 "b"⟩ [utf8 "b"] ∧
      after.files.root.entry? [utf8 "b", utf8 "S"] = some (.leaf (.file (utf8 "a single"))) ∧
      after.files.root.entry? [utf8 "b", utf8 "n", utf8 "Sy"] =
        some (.leaf (.file (utf8 "two singles"))) := by
  obtain ⟨report, after, ran, facts⟩ := yields_iff.1 (by decide +kernel :
    ((job "b").run ⟨[]⟩ StageSet.all).yields ⟨before, []⟩ (fun report after =>
      decide (report.copied = some 2 ∧ report.renamed = [⟨⟨utf8 "D"⟩, ⟨utf8 "S"⟩, false⟩] ∧
        report.substitution = some ⟨2, [⟨⟨utf8 "S"⟩, 1⟩, ⟨⟨utf8 "n/Sy"⟩, 1⟩], []⟩ ∧
        after.files.Opens ⟨utf8 "b"⟩ [utf8 "b"] ∧
        after.files.root.entry? [utf8 "b", utf8 "S"] = some (.leaf (.file (utf8 "a single"))) ∧
        after.files.root.entry? [utf8 "b", utf8 "n", utf8 "Sy"] =
          some (.leaf (.file (utf8 "two singles"))))) = true)
  exact ⟨report, after, ran, of_decide_eq_true facts⟩

end TwoTrees

namespace Job

theorem run_keeps_source_replacing :
    (∀ query, [utf8 "a"] <+: query →
      (((TwoTrees.job "b").run ⟨[]⟩ StageSet.all).runOn ⟨TwoTrees.before, []⟩).2.files.root.entry?
        query = TwoTrees.before.root.entry? query) ∧
    ∃ report after, ((TwoTrees.job "b").run ⟨[]⟩ ⟨false, true, false⟩).runOn ⟨TwoTrees.before, []⟩ =
        (.ok report, after) ∧
      ∀ query, [utf8 "a"] <+: query →
        after.files.root.entry? query = TwoTrees.before.root.entry? query := by
  have sourcePath : (TwoTrees.job "b").sourceDirectory ⟨[]⟩ = ⟨utf8 "a"⟩ := by rfl
  have targetPath : (TwoTrees.job "b").targetDirectory ⟨[]⟩ = ⟨utf8 "b"⟩ := by rfl
  have source := sourcePath ▸ TwoTrees.opens_source
  have target := targetPath ▸ TwoTrees.opens_target
  obtain ⟨report, after, ran, _⟩ := yields_iff.1 (by decide +kernel :
    ((TwoTrees.job "b").run ⟨[]⟩ ⟨false, true, false⟩).yields ⟨TwoTrees.before, []⟩
      (fun _ _ => true) = true)
  refine ⟨?_, report, after, ran, ?_⟩
  · have copying :
        (TwoTrees.before.absolute ((TwoTrees.job "b").sourceDirectory ⟨[]⟩)).bytes.length <
            pathLimit ∧
          TwoTrees.before.Replaceable ((TwoTrees.job "b").targetDirectory ⟨[]⟩) := by
      rw [sourcePath, targetPath]
      exact ⟨by decide, TwoTrees.replaceable⟩
    refine (run_keeps_source TwoTrees.standing source (fun _ => by decide) []).1 (fun _ => copying)
      fun left => ?_
    cases left
  · have apart : Naming.standard.Apart := by
      unfold Naming.Apart
      decide
    have unmoved : Unmoved Naming.standard TwoTrees.before [utf8 "a"] [utf8 "b"] := by
      intro above name contents inSource inTarget _
      rcases List.prefix_or_prefix_of_prefix inSource inTarget with first | second
      · exact absurd first (by decide)
      · exact absurd second (by decide)
    exact ((run_keeps_source TwoTrees.standing source (fun _ => by decide) []).2 rfl apart _ target
      report after ran).2 ⟨fun _ => unmoved, fun asked => by cases asked⟩

/-- The names of the two directories are compared as they are written: spelled differently, the
target may be the source, whose files are then renamed. -/
theorem source_renamed_under_other_spelling : (TwoTrees.job "./a").violation? = none ∧
    TwoTrees.before.Opens ((TwoTrees.job "./a").sourceDirectory ⟨[]⟩) [utf8 "a"] ∧
    TwoTrees.before.root.entry? [utf8 "a", utf8 "D"] = some (.leaf (.file (utf8 "a double"))) ∧
    ∃ report after, ((TwoTrees.job "./a").run ⟨[]⟩ ⟨false, true, false⟩).runOn
        ⟨TwoTrees.before, []⟩ = (.ok report, after) ∧
      after.files.root.entry? [utf8 "a", utf8 "D"] = none := by
  have sourcePath : (TwoTrees.job "./a").sourceDirectory ⟨[]⟩ = ⟨utf8 "a"⟩ := by rfl
  refine ⟨by decide, sourcePath ▸ TwoTrees.opens_source, by decide, ?_⟩
  obtain ⟨report, after, ran, gone⟩ := yields_iff.1 (by decide +kernel :
    ((TwoTrees.job "./a").run ⟨[]⟩ ⟨false, true, false⟩).yields ⟨TwoTrees.before, []⟩
      (fun _ after => after.files.root.entry? [utf8 "a", utf8 "D"] = none) = true)
  exact ⟨report, after, ran, by simpa using gone⟩

end Job
end Retarget
