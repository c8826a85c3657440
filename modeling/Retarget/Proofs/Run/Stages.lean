import Retarget.Proofs.Configuration.Constraints
import Retarget.Proofs.Marks
import Retarget.Proofs.Path.Steps
import Retarget.Proofs.Session.Ensures
import Retarget.Run

/-!
A run as its stages one after another. What each stage makes of the state the one before it left is
put together once, for every choice of stages.
-/
namespace Retarget.Job

open Act

variable {files : FileSystem} {root : Path} {stages : StageSet} {job : Job}

/-- A stage that may be left out: what follows starts from what both ways ensure. -/
theorem ensures_optional {ε α β : Type} {asked : Bool} {act other : Act ε β} {next : β → Act ε α}
    {middle : FileSystem → Prop}
    {good : α → FileSystem → Prop} {bad : FileSystem → Prop}
    (done : asked = true → act.Ensures files (fun _ => middle) bad)
    (left : asked = false → other.Ensures files (fun _ => middle) bad)
    (onward : ∀ value now, middle now → (next value).Ensures now good bad) :
    (if asked = true then act >>= next else other >>= next).Ensures files good bad := by
  cases asked with
  | true => exact Ensures.bind ((done rfl).imp onward fun _ failed => failed)
  | false => exact Ensures.bind ((left rfl).imp onward fun _ failed => failed)

/-- What a job without a violation keeps to, as far as runs rely on it. -/
theorem valid_of_violation? (valid : job.violation? = none) :
    job.source ≠ "" ∧ job.target ≠ "" ∧ job.naming.source ≠ "" ∧ job.naming.target ≠ "" ∧
    "" ∉ job.table.patterns := by
  have sound := violation?_eq_none_iff.1 valid
  exact ⟨sound.directories.1, sound.directories.2, sound.marks.1, sound.marks.2,
    fun inside => sound.patterns "" inside rfl⟩

theorem bytes_sourceDirectory (valid : job.violation? = none) :
    (job.sourceDirectory root).bytes ≠ [] :=
  Path.bytes_join_ne_nil _ (utf8_ne_nil (valid_of_violation? valid).1)

theorem bytes_targetDirectory (valid : job.violation? = none) :
    (job.targetDirectory root).bytes ≠ [] :=
  Path.bytes_join_ne_nil _ (utf8_ne_nil (valid_of_violation? valid).2.1)

theorem check_ensures {good : Unit → FileSystem → Prop} {bad : FileSystem → Prop}
    (valid : job.violation? = none → good () files)
    (invalid : job.violation? ≠ none → bad files) : job.check.Ensures files good bad := by
  unfold Job.check
  split
  · rename_i violation found
    exact (ensures_throw _).2 (invalid (by simp [found]))
  · rename_i none
    exact (ensures_pure _).2 (valid none)

/-- What holds after each stage, one step from the other, holds of the whole run. -/
theorem run_ensures (copied renamed rewritten : FileSystem → Prop)
    {good : GenerationReport → FileSystem → Prop}
    {bad : FileSystem → Prop} (invalid : job.violation? ≠ none → bad files)
    (copy : job.violation? = none →
      (stages.copy = true →
        (Pass.copyTree (job.sourceDirectory root) (job.targetDirectory root)).Ensures files
        (fun _ => copied) bad) ∧
        (stages.copy = false → copied files))
    (rename : job.violation? = none → ∀ now, copied now →
      (stages.rename = true → (Pass.renameFiles (job.targetDirectory root) job.naming).Ensures now
        (fun _ => renamed) bad) ∧
        (stages.rename = false → renamed now))
    (substitute : job.violation? = none → ∀ now, renamed now →
      (stages.substitute = true →
        (Pass.rewriteFiles (job.targetDirectory root) job.naming job.table).Ensures now
        (fun _ => rewritten) bad) ∧
        (stages.substitute = false → rewritten now))
    (fingerprint : ∀ now, rewritten now →
      (∀ report fingerprint, now.fingerprint (job.targetDirectory root) = .ok fingerprint →
        good report now) ∧
        ∀ error, now.fingerprint (job.targetDirectory root) = .error error → bad now) :
    (job.run root stages).Ensures files good bad := by
  refine Ensures.bind (check_ensures (fun valid => ?_) invalid)
  refine Ensures.bind ((ensures_note _).2 (Ensures.bind ((ensures_noteAll _).2 ?_)))
  refine ensures_optional (fun asked => Ensures.map ((copy valid).1 asked))
    (fun left => (ensures_pure _).2 ((copy valid).2 left))
    fun _ now held => ?_
  refine ensures_optional ((rename valid now held).1)
    (fun left => (ensures_pure _).2 ((rename valid now held).2 left))
    fun _ now held => ?_
  refine ensures_optional (fun asked => Ensures.map ((substitute valid now held).1 asked))
    (fun left => (ensures_pure _).2 ((substitute valid now held).2 left)) fun _ now held => ?_
  refine Ensures.bind ((ensures_examine _).2 ⟨fun taken given => ?_, (fingerprint now held).2⟩)
  exact Ensures.bind ((ensures_note _).2
    ((ensures_pure _).2 ((fingerprint now held).1 _ taken given)))

end Retarget.Job
