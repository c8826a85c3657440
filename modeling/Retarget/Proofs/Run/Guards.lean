import Retarget.Proofs.Pass.Arrival
import Retarget.Proofs.Pass.Refusals
import Retarget.Proofs.Run.Containment
import Retarget.Proofs.Run.Outcome

/-!
Failures that leave no trace. A job is looked up and checked, and source and target are looked at,
before anything is changed. Later a run fails with what the system refuses, or because the target is
not there; and that can follow a change only where links let a renaming take the target away.
-/
namespace Retarget

open Act FileSystem Pass

/-- A failure of a check that is made before a run: the job, its name, its source, or that source and
target lie apart. -/
def Failure.isGuard : Failure → Bool
  | .invalid _ | .unknownJob _ | .sourceMissing _ | .overlap _ _ => true
  | .targetMissing _ | .refused _ _ | .walk _ => false

/-- Something other than a link put into a tree without links makes none. -/
theorem Tree.Linkless.of_put {tree other : Tree} {place : Place} {entry : Entry}
    (linkless : tree.Linkless []) (plain : ∀ link, entry ≠ .leaf (.link link))
    (entries : ∀ query, other.entry? query =
      if query = place then some entry else tree.entry? query) : other.Linkless [] := by
  refine linkless.of_new fun query held there => ?_
  rw [entries] at there
  split at there
  · exact .inr (Option.some.inj there ▸ plain)
  · exact .inl there

/-- Copying makes directories and files, so where there is no link it makes none. -/
theorem Pass.copyTree_linkless {files : FileSystem} {source target : Path} (sound : files.Sound)
    (linkless : files.root.Linkless []) (written : source.bytes ≠ []) :
    (copyTree source target).Ensures files (fun _ after => after.root.Linkless []) fun _ => True := by
  refine copyTree_ensures trivial fun _ _ _ _ _ _ => Ensures.bind
    ((clear_shrinks sound target).imp (fun _ now shrinks => ?_) fun _ _ => trivial)
  refine Ensures.bind ((ensures_note _).2
    (Ensures.bind ((ensures_examine _).2 ⟨fun top _ => ?_, fun _ _ => trivial⟩)))
  refine (copyFrom_keeps (fun now => now.Sound ∧ now.root.Linkless []) written
    (fun _ held => held.1) ?_ ?_ pathLimit [] [] (by simp) top.2.entry
    ⟨shrinks.sound, fun query link held => linkless query link (shrinks.less query _ held)⟩).imp
      (fun _ _ held => held.2) fun _ _ => trivial
  · rintro now place _ ⟨nowSound, none⟩
    refine ⟨nowSound.makeDirectories _, makeDirectories_keeps (fun now => now.root.Linkless [])
      (fun now parent after _ none made => ?_) none⟩
    obtain ⟨_, _, _, _, _, entries⟩ := FileSystem.makeDirectory_ok made
    exact none.of_put (by simp) entries
  · rintro now place contents after _ ⟨nowSound, none⟩ done
    refine ⟨nowSound.write done, ?_⟩
    obtain ⟨_, _, ⟨rfl, _⟩ | ⟨_, _, entries⟩⟩ := nowSound.write_cases done
    · exact none
    · exact none.of_put (by simp) entries

namespace Job

variable {files now : FileSystem} {root : Path} {stages : StageSet} {job : Job}

/-- What a run that fails has come to: no change, or a failure from the system, or among links a
target that is gone. -/
def Traced (files : FileSystem) (failure : Failure) (after : FileSystem) : Prop :=
  after = files ∨ failure.FromSystem ∨
    ¬files.root.Linkless [] ∧ ∃ path, failure = .targetMissing path

/-- After the copying stage nothing has changed, or the target is there, and still no link where
there was none. -/
theorem copyStage_ensures (sound : files.Sound) (valid : job.violation? = none) :
    (job.copyStage root stages).Ensures files
      (fun _ now => now = files ∨ (∃ place, now.Opens (job.targetDirectory root) place) ∧
        (files.root.Linkless [] → now.root.Linkless [])) fun _ => True := by
  unfold copyStage
  split
  · refine Ensures.map ?_
    have opens := @copyTree_opens files (job.sourceDirectory root) (job.targetDirectory root) sound
      (bytes_targetDirectory valid)
    by_cases linkless : files.root.Linkless []
    · exact (opens.and (copyTree_linkless sound linkless (bytes_sourceDirectory valid))).imp
        (fun _ _ held => .inr ⟨held.1.2, fun _ => held.2⟩) fun _ _ => trivial
    · exact opens.imp (fun _ _ held => .inr ⟨held.2, fun none => absurd none linkless⟩)
        fun _ _ => trivial
  · exact (ensures_pure _).2 (.inl rfl)

/-- After the renaming stage nothing has changed, or without links the target is there. -/
theorem renameStage_ensures (ready : now = files ∨
      (∃ place, now.Opens (job.targetDirectory root) place) ∧
        (files.root.Linkless [] → now.root.Linkless [])) :
    (job.renameStage root stages).Ensures now
      (fun _ after => after = files ∨ (files.root.Linkless [] →
        ∃ place, after.Opens (job.targetDirectory root) place)) fun _ => True := by
  unfold renameStage
  split
  · by_cases linkless : files.root.Linkless []
    · have still : now.root.Linkless [] := by
        rcases ready with rfl | ⟨_, none⟩
        · exact linkless
        · exact none linkless
      exact (renameFiles_opens still).imp (fun _ _ opens => .inr fun _ => opens) fun _ _ => trivial
    · exact ensures_of_forall fun _ _ => .inr fun none => absurd none linkless
  · refine (ensures_pure _).2 ?_
    rcases ready with rfl | ⟨opens, _⟩
    · exact .inl rfl
    · exact .inr fun _ => opens

theorem conclude_throws (copied : Option Nat) (renamed : List RenamedFile)
    (substitution : Option SubstitutionOutcome) :
    (job.conclude root copied renamed substitution).Throws Failure.FromSystem :=
  Throws.bind (fun _ => (rejects_examine _).2 fun _ => fromSystem_of_fingerprint) fun _ =>
    Throws.bind (fun _ => rejects_note _) fun _ _ => rejects_pure _

/-- A run fails before its first change, or with what the system refuses, or among links because
the target is gone. -/
theorem run_rejects (sound : files.Sound) : (job.run root stages).Rejects files
    (Traced files) := by
  have system : ∀ {α : Type} {act : Act Failure α}, act.Throws Failure.FromSystem →
      ∀ now, act.Rejects now (Traced files) := fun throws now =>
    (throws now).imp fun _ _ system => .inr (.inl system)
  cases checked : job.violation? with
  | some violation =>
    have refused : job.check = throw (.invalid violation) := by simp [check, checked]
    rw [run_eq, refused]
    exact ((rejects_throw _).2 (.inl rfl)).bind ((ensures_throw _).2 trivial)
  | none =>
    have passed : job.check = pure () := by simp [check, checked]
    rw [run_eq, passed]
    refine (rejects_pure _).bind ((ensures_pure _).2 ((rejects_note _).bind ((ensures_note _).2
      ((rejects_noteAll _).bind ((ensures_noteAll _).2 ?_)))))
    have copies : (job.copyStage root stages).Rejects files (Traced files) := by
      unfold copyStage
      split
      · exact (copyTree_rejects.imp fun _ _ held => held.imp id .inl).map _
      · exact rejects_pure _
    refine copies.bind ((copyStage_ensures sound checked).imp (fun copied now ready => ?_)
      fun _ held => held)
    have renames : (job.renameStage root stages).Rejects now (Traced files) := by
      unfold renameStage
      split
      · refine renameFiles_rejects.imp ?_
        rintro failure after (system | ⟨rfl, missing, _⟩)
        · exact .inr (.inl system)
        · rcases ready with same | ⟨opens, _⟩
          · exact .inl same
          · rw [isDirectory_iff.2 opens] at missing
            cases missing
      · exact rejects_pure _
    refine renames.bind ((renameStage_ensures ready).imp (fun renamed later there => ?_)
      fun _ held => held)
    have rewrites : (job.substituteStage root stages).Rejects later (Traced files) := by
      unfold substituteStage
      split
      · refine (rewriteFiles_rejects.imp ?_).map _
        rintro failure after (system | ⟨rfl, missing, rfl⟩)
        · exact .inr (.inl system)
        · rcases there with same | opens
          · exact .inl same
          · refine .inr (.inr ⟨fun linkless => ?_, _, rfl⟩)
            rw [isDirectory_iff.2 (opens linkless)] at missing
            cases missing
      · exact rejects_pure _
    exact rewrites.bind (ensures_of_forall fun _ last =>
      system (conclude_throws copied renamed _) last)

end Job

variable {files : FileSystem}

/-- A run that fails at a guard leaves the files as they were, however its job was named, and
without links so does one that fails because the target is not there. -/
theorem guards_leave_no_trace (sound : files.Sound) {failure : Failure}
    (guard : failure.isGuard = true ∨
      files.root.Linkless [] ∧ ∃ path, failure = .targetMissing path)
    {log : List Event} {after : Session} :
    (∀ root stages job, (Job.run root stages job).runOn ⟨files, log⟩ = (.error failure, after) →
      after.files = files) ∧
    ∀ configuration stages name,
      (Configuration.runNamed configuration stages name).runOn ⟨files, log⟩ =
        (.error failure, after) → after.files = files := by
  have untraced : Job.Traced files failure after.files → after.files = files := by
    rintro (same | system | ⟨linked, path, missing⟩)
    · exact same
    · rcases guard with guard | ⟨_, path, rfl⟩
      · cases system <;> cases guard
      · cases system
    · rcases guard with guard | ⟨linkless, _⟩
      · rw [missing] at guard
        cases guard
      · exact absurd linkless linked
  have runs : ∀ root stages job, (Job.run root stages job).runOn ⟨files, log⟩ =
      (.error failure, after) → after.files = files := fun root stages job ran =>
    untraced ((Job.run_rejects sound).outcome log failure after ran)
  refine ⟨runs, fun configuration stages name ran => ?_⟩
  unfold Configuration.runNamed at ran
  cases found : configuration.findJob name with
  | error unknown =>
    rw [found] at ran
    cases ran
    rfl
  | ok job =>
    rw [found] at ran
    exact runs configuration.root stages job ran

theorem guards_leave_no_trace_missing :
    (∃ after, (Job.run ⟨[]⟩ ⟨false, true, true⟩ (TwoTrees.job "c")).runOn ⟨TwoTrees.before, []⟩ =
      (.error (.targetMissing ⟨utf8 "c"⟩), after) ∧ after.files = TwoTrees.before) ∧
    ∃ after, (Configuration.runNamed ⟨⟨[]⟩, [TwoTrees.job "a/x"]⟩ StageSet.all "j").runOn
      ⟨TwoTrees.before, []⟩ = (.error (.overlap ⟨utf8 "a"⟩ ⟨utf8 "a/x"⟩), after) ∧
        after.files = TwoTrees.before := by
  have missing : ((Job.run ⟨[]⟩ ⟨false, true, true⟩ (TwoTrees.job "c")).runOn
      ⟨TwoTrees.before, []⟩).1 = .error (.targetMissing ⟨utf8 "c"⟩) := by rfl
  have overlap : ((Configuration.runNamed ⟨⟨[]⟩, [TwoTrees.job "a/x"]⟩ StageSet.all "j").runOn
      ⟨TwoTrees.before, []⟩).1 = .error (.overlap ⟨utf8 "a"⟩ ⟨utf8 "a/x"⟩) := by rfl
  refine ⟨⟨_, Prod.ext missing rfl, ?_⟩, ⟨_, Prod.ext overlap rfl, ?_⟩⟩
  · exact (guards_leave_no_trace TwoTrees.standing.sound
      (.inr ⟨TwoTrees.linkless_everywhere, _, rfl⟩)).1 _ _ _ (Prod.ext missing rfl)
  · exact (guards_leave_no_trace TwoTrees.standing.sound (.inl rfl)).2 _ _ _ (Prod.ext overlap rfl)

end Retarget
