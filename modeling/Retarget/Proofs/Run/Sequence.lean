import Retarget.Proofs.Pass.Around
import Retarget.Proofs.Run.Outcome
import Retarget.Proofs.Run.Source

/-!
Jobs run one after another. A report tells the fingerprint of a target at the end of its own run; it
holds at the end of all runs where no later job comes in the way of an earlier target. One run keeps
what lies around its target, and the sequence goes by induction on the jobs.
-/
namespace Retarget

open Act FileSystem Pass

variable {files : FileSystem} {root : Path} {stages : StageSet} {job : Job}

namespace Job

/-! ## One run -/

/-- What a job needs to stay with its target: a working directory that is there, a mark that leads
out of no directory, and for copying a target that can be replaced. -/
structure Ready (root : Path) (stages : StageSet) (job : Job) (files : FileSystem) : Prop where
  inside : files.root.entry? files.cwd = some .directory
  short : ∀ name ∈ files.cwd, name.length ≤ nameLimit
  slashless : stages.rename = true → Path.slash ∉ utf8 job.naming.target
  replaceable : stages.copy = true → files.Replaceable (job.targetDirectory root)

/-- A report names the target and the fingerprint that it has at the end of the run. -/
theorem run_reports (root : Path) (stages : StageSet) (job : Job) (files : FileSystem) :
    (job.run root stages).Ensures files (fun report after =>
      report.targetDirectory = job.targetDirectory root ∧
        after.fingerprint (job.targetDirectory root) = .ok report.fingerprint) fun _ => True := by
  rw [run_eq]
  refine Ensures.bind (ensures_of_forall fun _ _ => Ensures.bind (ensures_of_forall fun _ _ =>
    Ensures.bind (ensures_of_forall fun _ _ => Ensures.bind (ensures_of_forall fun _ _ =>
      Ensures.bind (ensures_of_forall fun _ _ => Ensures.bind (ensures_of_forall fun _ after => ?_))))))
  exact Ensures.bind ((ensures_examine _).2 ⟨fun fingerprint taken => Ensures.bind
    ((ensures_note _).2 ((ensures_pure _).2 ⟨rfl, taken⟩)), fun _ _ => trivial⟩)

/-- However a run ends, names, links and the working directory are in order. -/
theorem run_continues (sound : files.Sound) :
    (job.run root stages).Ensures files (fun _ => files.Continues) files.Continues := by
  refine run_ensures files.Continues files.Continues files.Continues (fun _ => .refl sound)
    (fun valid => ⟨fun _ => ?_, fun _ => .refl sound⟩) (fun _ now held => ⟨fun _ => ?_, fun _ => held⟩)
    (fun _ now held => ⟨fun _ => ?_, fun _ => held⟩) fun now held => ⟨fun _ _ _ => held, fun _ _ => held⟩
  · exact copyTree_continues (bytes_sourceDirectory valid) (.refl sound)
  · exact renameFiles_invariant files.Continues (fun _ _ _ _ kept done => kept.rename done) held
  · exact rewriteFiles_confined files.Continues held.sound
      (fun _ _ _ inside => held.confined inside) held

/-- A run keeps what lies around the directory that its target leads to in the end. -/
theorem run_around (sound : files.Sound) (ready : job.Ready root stages files) :
    (job.run root stages).Ensures files
      (fun _ after => ∀ goal, after.Opens (job.targetDirectory root) goal →
        files.Around goal after) fun _ => True := by
  have standing : files.Standing := ⟨sound, ready.inside, ready.short⟩
  let held (now : FileSystem) : Prop := files.Continues now ∧
    ∀ goal, now.Opens (job.targetDirectory root) goal → files.Around goal now
  refine (run_confined_ensures held (fun _ kept => kept.1.sound) ready.slashless ?_ trivial
    (fun valid => ⟨fun asked => ?_, fun _ => ?_⟩) fun _ _ => trivial).imp
      (fun _ _ kept => kept.2) fun _ _ => trivial
  · rintro now place after ⟨continues, around⟩ opens inside
    refine ⟨continues.confined inside, fun goal there => ?_⟩
    obtain rfl := (there.carry inside.ways inside.cwd.symm).unique opens
    exact (around _ opens).confined inside
  · refine (copyTree_around standing (bytes_targetDirectory valid)
      (ready.replaceable asked)).imp ?_ fun _ _ => trivial
    rintro _ now ⟨goal, opens, around⟩
    exact ⟨⟨around.sound, around.cwd⟩, fun other also => opens.unique also ▸ around⟩
  · exact ⟨.refl sound, fun goal opens => .refl sound opens.directory⟩

/-- A run without stages changes nothing. -/
theorem run_still (empty : stages.isEmpty = true) :
    (job.run root stages).Ensures files (fun _ after => after = files) fun _ => True := by
  obtain ⟨copy, rename, substitute⟩ := stages
  simp only [StageSet.isEmpty, Bool.not_eq_true', Bool.or_eq_false_iff] at empty
  obtain ⟨⟨rfl, rfl⟩, rfl⟩ := empty
  exact run_ensures (· = files) (· = files) (· = files) (fun _ => trivial)
    (fun _ => ⟨by simp, fun _ => rfl⟩)
    (fun _ _ same => ⟨by simp, fun _ => same⟩)
    (fun _ _ same => ⟨by simp, fun _ => same⟩)
    fun _ same => ⟨fun _ _ _ => same, fun _ _ => trivial⟩

end Job

/-! ## All runs -/

namespace Configuration

/-- Jobs that do not come in each other's way, the first of them to be run from these files: where
there are targets of earlier jobs, each is ready at its turn, its target leads to a directory in the
end, and the earlier targets lead past that directory. -/
def TargetsApart (root : Path) (stages : StageSet) : List Path → List Job → FileSystem → Prop
  | _, [], _ => True
  | earlier, job :: rest, files =>
    (earlier ≠ [] → job.Ready root stages files) ∧
      ∀ report after, (job.run root stages).outcome files = (.ok report, after) →
        (earlier ≠ [] → ∃ goal, after.Opens (job.targetDirectory root) goal ∧
          ∀ path ∈ earlier, files.Passes path goal) ∧
        TargetsApart root stages (job.targetDirectory root :: earlier) rest after

/-- A single job has no other in its way. -/
theorem targetsApart_singleton (job : Job) (files : FileSystem) :
    TargetsApart root stages [] [job] files :=
  ⟨(absurd rfl ·), fun _ _ _ => ⟨(absurd rfl ·), trivial⟩⟩

/-- A sequence of runs keeps the fingerprints of earlier targets and makes true reports. -/
theorem runs_keep (jobs : List Job) {earlier : List Path} {files : FileSystem} (sound : files.Sound)
    (apart : TargetsApart root stages earlier jobs files) :
    (jobs.mapM (Job.run root stages)).Ensures files (fun reports after =>
      (∀ path ∈ earlier, after.fingerprint path = files.fingerprint path) ∧
        ∀ report ∈ reports, after.fingerprint report.targetDirectory = .ok report.fingerprint)
      fun _ => True := by
  induction jobs generalizing earlier files with
  | nil =>
    rw [List.mapM_nil]
    exact (ensures_pure _).2 ⟨fun _ _ => rfl, by simp⟩
  | cons job rest ih =>
    obtain ⟨ready, onward⟩ := apart
    rw [List.mapM_cons]
    refine Ensures.bind (((Job.blind_run root stages job).ensures.and
      (Job.run_reports root stages job files)).imp ?_ fun _ _ => trivial)
    rintro report now ⟨gave, named, taken⟩
    obtain ⟨beside, later⟩ := onward report now gave
    have nowSound := ((Job.run_continues sound).of_outcome gave).sound
    refine Ensures.bind ((ih nowSound later).imp ?_ fun _ held => held)
    rintro reports after ⟨same, holds⟩
    refine (ensures_pure _).2 ⟨fun path member => ?_, ?_⟩
    · have some := List.ne_nil_of_mem member
      obtain ⟨goal, opens, past⟩ := beside some
      have around := (Job.run_around sound (ready some)).of_outcome gave goal opens
      rw [same path (List.mem_cons_of_mem _ member)]
      exact around.fingerprint sound opens.directory (past path member)
    · rw [List.forall_mem_cons, named, same _ List.mem_cons_self]
      exact ⟨taken, holds⟩

/-- Runs without stages report on the files as they are. -/
theorem runs_still (jobs : List Job) (empty : stages.isEmpty = true) (files : FileSystem) :
    (jobs.mapM (Job.run root stages)).Ensures files (fun reports after => after = files ∧
      ∀ report ∈ reports, files.fingerprint report.targetDirectory = .ok report.fingerprint)
      fun _ => True := by
  induction jobs with
  | nil =>
    rw [List.mapM_nil]
    exact (ensures_pure _).2 ⟨rfl, by simp⟩
  | cons job rest ih =>
    rw [List.mapM_cons]
    refine Ensures.bind (((Job.run_still empty).and (Job.run_reports root stages job files)).imp ?_
      fun _ _ => trivial)
    rintro report _ ⟨rfl, named, taken⟩
    refine Ensures.bind (ih.imp ?_ fun _ held => held)
    rintro reports _ ⟨rfl, holds⟩
    exact (ensures_pure _).2 ⟨rfl, List.forall_mem_cons.2 ⟨named ▸ taken, holds⟩⟩

end Configuration
end Retarget
