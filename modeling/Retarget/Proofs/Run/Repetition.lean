import Retarget.Proofs.Pass.Recopying
import Retarget.Proofs.Run.Outcome
import Retarget.Proofs.Run.Source

/-!
A run that is repeated. Renaming and rewriting only fill the directory in which the copy was made,
so the second run copies over a filled target, and all that comes after copying follows from what
copying gave.
-/
namespace Retarget

open Act FileSystem Pass

namespace Job

variable {files other : FileSystem} {root : Path} {stages : StageSet} {job : Job}

/-! ## What a run depends on -/

/-- What a run does after copying. -/
def rework (root : Path) (stages : StageSet) (job : Job) (copied : Option Nat) :
    Act Failure GenerationReport := do
  let target := job.targetDirectory root
  let renamed ← if stages.rename then renameFiles target job.naming else pure []
  let substitution ←
    if stages.substitute then some <$> rewriteFiles target job.naming job.table else pure none
  let fingerprint ← examine (·.fingerprint target)
  note (.done job.name fingerprint)
  pure ⟨job.name, target, copied, renamed, substitution, fingerprint⟩

theorem rework_eq (root : Path) (stages : StageSet) (job : Job) (copied : Option Nat) :
    job.rework root stages copied = job.renameStage root stages >>= fun renamed =>
      job.substituteStage root stages >>= job.conclude root copied renamed := by
  obtain ⟨copy, rename, substitute⟩ := stages
  cases rename <;> cases substitute <;> rfl

theorem blind_rework (root : Path) (stages : StageSet) (job : Job) (copied : Option Nat) :
    (job.rework root stages copied).Blind := by
  rw [rework_eq]
  exact blind_from_rename root stages job copied

/-- What a complete run gives is settled by what copying gives. -/
theorem outcome_run (valid : job.violation? = none) (root : Path) (files : FileSystem) :
    (job.run root StageSet.all).outcome files =
      (copyTree (job.sourceDirectory root) (job.targetDirectory root) >>= fun copied =>
        job.rework root StageSet.all (some copied)).outcome files := by
  have copies : job.copyStage root StageSet.all =
      some <$> copyTree (job.sourceDirectory root) (job.targetDirectory root) := rfl
  rw [outcome_run_of_valid valid, copies, bind_map_left]
  simp only [rework_eq]

/-! ## A second run -/

theorem run_again_ensures (standing : files.Standing)
    (slashless : Path.slash ∉ utf8 job.naming.target)
    (short : (files.absolute (job.sourceDirectory root)).bytes.length < pathLimit)
    (targetShort : (files.absolute (job.targetDirectory root)).bytes.length < pathLimit)
    (plain : ∀ place link, files.lstat (job.targetDirectory root) ≠ .ok (place, .leaf (.link link)))
    (direct : files.Direct (job.targetDirectory root)) :
    (job.run root StageSet.all).Ensures files
      (fun _ after => (job.run root StageSet.all).outcome after =
        (job.run root StageSet.all).outcome files) fun _ => True := by
  let copy := copyTree (job.sourceDirectory root) (job.targetDirectory root)
  -- What is kept after copying: the target was made, and what happened since only filled it.
  let settled (now : FileSystem) : Prop := job.violation? = none ∧
    ∃ (place : Place) (made : FileSystem), made.Opens (job.targetDirectory root) place ∧
      made.Filled place now ∧
      ∀ later, made.Filled place later → copy.outcome later = copy.outcome files
  have reworked : ∀ {β : Type} {act : Act Failure β} {now : FileSystem}, settled now →
      (∀ {place : Place} {made : FileSystem}, made.Filled place now →
        made.Opens (job.targetDirectory root) place →
        act.Ensures now (fun _ => made.Filled place) (made.Filled place)) →
      act.Ensures now (fun _ => settled) fun _ => True := by
    rintro β act now ⟨valid, place, made, opens, filled, again⟩ fills
    exact (fills filled opens).imp (fun _ _ held => ⟨valid, place, made, opens, held, again⟩)
      fun _ _ => trivial
  refine run_ensures settled settled settled (fun _ => trivial)
    (fun valid => ⟨fun _ => ?_, (fun left => by cases left)⟩)
    (fun valid now held => ⟨fun _ => reworked held fun filled opens =>
      filled.renameFiles opens (valid_of_violation? valid).2.2.2.1 slashless,
      (fun left => by cases left)⟩)
    (fun _ now held => ⟨fun _ => reworked held fun filled opens => filled.rewriteFiles opens,
      (fun left => by cases left)⟩)
    fun now held => ⟨fun _ _ _ => ?_, fun _ _ => trivial⟩
  · refine copyTree_of_opens trivial fun source opens => ?_
    exact (copyTree_again standing opens short (bytes_targetDirectory valid) targetShort plain
      direct).imp (fun _ _ held => ⟨valid, held⟩) fun _ _ => trivial
  · obtain ⟨valid, place, made, _, filled, again⟩ := held
    rw [outcome_run valid, outcome_run valid, outcome_bind fun _ => blind_rework _ _ _ _,
      outcome_bind fun _ => blind_rework _ _ _ _, again now filled]

/-- A complete run that succeeded succeeds again on the files it left, with the same report, and
leaves them as they are. -/
theorem run_again (standing : files.Standing)
    (slashless : Path.slash ∉ utf8 job.naming.target)
    (short : (files.absolute (job.sourceDirectory root)).bytes.length < pathLimit)
    (targetShort : (files.absolute (job.targetDirectory root)).bytes.length < pathLimit)
    (plain : ∀ place link, files.lstat (job.targetDirectory root) ≠ .ok (place, .leaf (.link link)))
    (direct : files.Direct (job.targetDirectory root)) {log : List Event}
    {report : GenerationReport} {after : Session}
    (ran : (job.run root StageSet.all).runOn ⟨files, log⟩ = (.ok report, after))
    (later : List Event) :
    ∃ again, (job.run root StageSet.all).runOn ⟨after.files, later⟩ = (.ok report, again) ∧
      again.files = after.files :=
  (blind_run root StageSet.all job).again ran
    ((run_again_ensures standing slashless short targetShort plain direct).ok ran) later

end Job

namespace LinkedTrees

/-- A source with a link, the directory that the link leads to, and two directories that hold an old
output, one of them a link. -/
def before : FileSystem := ⟨.branch (utf8 "a")
    (.leaf (utf8 "D") (.file (utf8 "1")) (.leaf (utf8 "l") (.link ⟨utf8 "../b/o"⟩) .empty))
    (.branch (utf8 "b")
      (.branch (utf8 "b") (.branch (utf8 "t") (.leaf (utf8 "old") (.file (utf8 "2")) .empty) .empty)
        (.branch (utf8 "o") (.leaf (utf8 "E") (.file (utf8 "3")) .empty)
          (.branch (utf8 "t") (.leaf (utf8 "m") (.link ⟨utf8 "../o"⟩) .empty) .empty)))
      .empty), []⟩

def job (target : String) : Job := ⟨"j", ⟨[]⟩, "a", target, Naming.standard, Table.empty⟩

theorem wellFormed : before.root.WellFormed := by decide

theorem walk_before : before.root.walk =
    [([utf8 "a"], .directory), ([utf8 "a", utf8 "D"], .leaf (.file (utf8 "1"))),
      ([utf8 "a", utf8 "l"], .leaf (.link ⟨utf8 "../b/o"⟩)), ([utf8 "b"], .directory),
      ([utf8 "b", utf8 "b"], .directory), ([utf8 "b", utf8 "b", utf8 "t"], .directory),
      ([utf8 "b", utf8 "b", utf8 "t", utf8 "old"], .leaf (.file (utf8 "2"))),
      ([utf8 "b", utf8 "o"], .directory),
      ([utf8 "b", utf8 "o", utf8 "E"], .leaf (.file (utf8 "3"))),
      ([utf8 "b", utf8 "t"], .directory),
      ([utf8 "b", utf8 "t", utf8 "m"], .leaf (.link ⟨utf8 "../o"⟩))] := by
  rfl

theorem standing : before.Standing := ⟨by decide, rfl, by simp [before]⟩

theorem plain {target : Path}
    (found : (before.lstat target).toOption.map (·.2.entry) = some .directory) (place : Place)
    (link : Path) : before.lstat target ≠ .ok (place, .leaf (.link link)) := by
  intro linked
  rw [linked] at found
  cases found

/-- The target leads through a directory that it replaces, and through no link. -/
theorem direct : before.Direct ⟨utf8 "b/b/t/.."⟩ := by
  intro place opens
  obtain rfl := opens.unique (by decide : before.Opens _ [utf8 "b", utf8 "b"])
  decide

end LinkedTrees

namespace Job

theorem run_again_on_own_way :
    ∃ report after, ((LinkedTrees.job "b/b/t/..").run ⟨[]⟩ StageSet.all).runOn
        ⟨LinkedTrees.before, []⟩ = (.ok report, after) ∧
      after.files.root.entry? [utf8 "b", utf8 "b", utf8 "l", utf8 "E"] =
        some (.leaf (.file (utf8 "3"))) ∧
      ∃ again, ((LinkedTrees.job "b/b/t/..").run ⟨[]⟩ StageSet.all).runOn
          ⟨after.files, []⟩ = (.ok report, again) ∧ again.files = after.files := by
  have sourcePath : (LinkedTrees.job "b/b/t/..").sourceDirectory ⟨[]⟩ = ⟨utf8 "a"⟩ := by rfl
  have targetPath : (LinkedTrees.job "b/b/t/..").targetDirectory ⟨[]⟩ = ⟨utf8 "b/b/t/.."⟩ := by rfl
  obtain ⟨report, after, ran, copied⟩ := yields_iff.1 (by decide +kernel :
    ((LinkedTrees.job "b/b/t/..").run ⟨[]⟩ StageSet.all).yields ⟨LinkedTrees.before, []⟩
      (fun _ after => after.files.root.entry? [utf8 "b", utf8 "b", utf8 "l", utf8 "E"] =
        some (.leaf (.file (utf8 "3")))) = true)
  refine ⟨report, after, ran, of_decide_eq_true copied, ?_⟩
  exact run_again LinkedTrees.standing (by decide) (by rw [sourcePath]; decide)
    (by rw [targetPath]; decide) (by rw [targetPath]; exact LinkedTrees.plain (by decide +kernel))
    (by rw [targetPath]; exact LinkedTrees.direct) ran []

/-- A target that leads through a link in the directory it replaces leads elsewhere once that is
emptied, so the second run replaces what the first one added to. -/
theorem run_differs_through_own_link :
    (LinkedTrees.job "b/t/m/../../b/t").violation? = none ∧ LinkedTrees.before.Standing ∧
    Path.slash ∉ utf8 (LinkedTrees.job "b/t/m/../../b/t").naming.target ∧
    (∀ place link, LinkedTrees.before.lstat
      ((LinkedTrees.job "b/t/m/../../b/t").targetDirectory ⟨[]⟩) ≠
        .ok (place, .leaf (.link link))) ∧
    ∃ report after, ((LinkedTrees.job "b/t/m/../../b/t").run ⟨[]⟩ StageSet.all).runOn
        ⟨LinkedTrees.before, []⟩ = (.ok report, after) ∧
      ∃ other again, ((LinkedTrees.job "b/t/m/../../b/t").run ⟨[]⟩ StageSet.all).runOn
          ⟨after.files, []⟩ = (.ok other, again) ∧
        other ≠ report ∧ again.files ≠ after.files := by
  refine ⟨by decide, LinkedTrees.standing, by decide, LinkedTrees.plain (by decide +kernel), ?_⟩
  obtain ⟨report, after, ran, twice⟩ := yields_iff.1 (by decide +kernel :
    ((LinkedTrees.job "b/t/m/../../b/t").run ⟨[]⟩ StageSet.all).yields ⟨LinkedTrees.before, []⟩
      (fun report after =>
        ((LinkedTrees.job "b/t/m/../../b/t").run ⟨[]⟩ StageSet.all).yields ⟨after.files, []⟩
          fun other again => other.fingerprint.files ≠ report.fingerprint.files ∧
            again.files.root.entry? [utf8 "b", utf8 "b", utf8 "t", utf8 "old"] ≠
              after.files.root.entry? [utf8 "b", utf8 "b", utf8 "t", utf8 "old"]) = true)
  obtain ⟨other, again, repeated, facts⟩ := yields_iff.1 twice
  obtain ⟨counted, held⟩ := of_decide_eq_true facts
  refine ⟨report, after, ran, other, again, repeated, fun same => counted ?_, fun same => held ?_⟩
  · rw [same]
  · rw [same]

end Job

namespace LongPath

/-- A working directory with an empty source in it, and a link from the directory to itself. -/
def before : FileSystem := ⟨.branch (List.replicate 255 97) (.branch (utf8 "a") .empty
    (.leaf (List.replicate 255 120) (.link ⟨utf8 "."⟩) .empty)) .empty, [List.replicate 255 97]⟩

/-- A path that goes through the link so often that it is too long once it is made absolute. -/
def around (path : String) : String :=
  "/".intercalate (List.replicate 15 (String.ofList (List.replicate 255 'x')) ++ [path])

/-- A path into the source. -/
def inside : String := "a/" ++ String.ofList (List.replicate 240 'y') ++ "/t"

def job (source target : String) : Job := ⟨"j", ⟨[]⟩, source, target, Naming.standard, Table.empty⟩

end LongPath

namespace Job

/-- Beyond the limit a path is compared as it is written, so a target inside the source goes
unnoticed, and the second run copies what the first one made on the way to the target into itself
until a path is too long. -/
theorem run_not_again_beyond_limit (source target : String)
    (spelled : (source, target) ∈ [(LongPath.around "a", LongPath.inside),
      ("a", LongPath.around LongPath.inside)]) :
    ∃ report after, ((LongPath.job source target).run ⟨[]⟩ StageSet.all).runOn
        ⟨LongPath.before, []⟩ = (.ok report, after) ∧
      ((LongPath.job source target).run ⟨[]⟩ StageSet.all).yields ⟨after.files, []⟩
        (fun _ _ => true) = false := by
  have failed : ((LongPath.job source target).run ⟨[]⟩ StageSet.all).yields ⟨LongPath.before, []⟩
      (fun _ after => !((LongPath.job source target).run ⟨[]⟩ StageSet.all).yields
        ⟨after.files, []⟩ fun _ _ => true) = true := by
    simp only [List.mem_cons, Prod.mk.injEq, List.not_mem_nil, or_false] at spelled
    rcases spelled with ⟨rfl, rfl⟩ | ⟨rfl, rfl⟩
    · decide +kernel
    · decide +kernel
  obtain ⟨report, after, ran, never⟩ := yields_iff.1 failed
  exact ⟨report, after, ran, by simpa using never⟩

end Job
end Retarget
