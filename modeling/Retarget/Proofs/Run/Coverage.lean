import Retarget.Proofs.Pass.Copying
import Retarget.Proofs.Pass.Renaming
import Retarget.Proofs.Pass.Verification
import Retarget.Proofs.Run.Stages

/-!
What a run leaves for a check to find. After renaming no file carries the source mark, and after
rewriting every file with the target mark holds what the table made of some contents. Whether a
check passes is then a question about the table alone.
-/
namespace Retarget

open Act FileSystem

variable {files now after : FileSystem} {directory : Path} {place : Place} {listed : List Found}
  {naming : Naming} {table : Table}

/-- Applying the table leaves none of the patterns that a check looks for, whatever the text. -/
def Table.Clean (table : Table) : Prop :=
  ∀ text, ∀ entry ∈ table.entries, Pass.isChecked entry = true → ¬entry.pattern.toList <:+:
  (table.apply text).1.toList

theorem Table.Clean.settled (clean : table.Clean) (contents : Bytes) :
    table.Settled (table.rewrite contents) := by
  intro text isText
  unfold Table.rewrite at isText
  split at isText
  · rename_i noText
    rw [noText] at isText
    cases isText
  · rename_i original _
    rw [text?_utf8] at isText
    obtain rfl := Option.some.inj isText
    exact clean original

namespace Pass

/-- No file below a place carries the source mark. -/
def Unmarked (naming : Naming) (files : FileSystem) (place : Place) : Prop :=
  ∀ above name contents,
  files.root.entry? (place ++ above ++ [name]) = some (.leaf (.file contents)) →
    naming.isSource name = false

theorem Renamed.unmarked (apart : naming.Apart) (marked : naming.target ≠ "")
    (lists : files.Lists directory place listed)
    (renamed : Renamed naming files place listed after) : Unmarked naming after place := by
  intro above name contents held
  by_contra isSource
  obtain ⟨fresh, given⟩ := Option.ne_none_iff_exists'.1 (mt Naming.rename?_eq_none.1 isSource)
  have moves : naming.relocate? (above ++ [name]) = some (above ++ [fresh]) := by
    rw [Naming.relocate?_concat, given]
    rfl
  have gone : ∀ found ∈ listed, found.place ≠ above ++ [name] := by
    intro found member same
    have none := renamed.gone found member (by simp [same, moves])
    rw [same, ← List.append_assoc, held] at none
    cases none
  have untouched := renamed.others (place ++ above ++ [name]) fun found member goal moved => by
    rw [List.append_assoc]
    refine ⟨fun same => gone found member (List.append_cancel_left same).symm, fun same => ?_⟩
    have settled := apart.relocate?_goal marked moved
    rw [← List.append_cancel_left same, moves] at settled
    cases settled
  rw [untouched, List.append_assoc] at held
  obtain ⟨found, member, same⟩ := lists.complete _ contents held
  exact gone found member same

/-- A derived tree with nothing left to rename, and with the table applied to all that it is to be
applied to. -/
structure Finished (naming : Naming) (table : Table) (files : FileSystem) (directory : Path) :
    Prop where
  sound : files.Sound
  opens : ∃ place, files.Opens directory place ∧ Unmarked naming files place ∧
    ∀ above name contents,
    files.root.entry? (place ++ above ++ [name]) = some (.leaf (.file contents)) →
      naming.isTarget name = true → ∃ original, contents = table.rewrite original

theorem Rewritten.finished (lists : files.Lists directory place listed)
    (confined : files.Confined place after)
    (ways : files.root.WaysIn after.root) (unmarked : Unmarked naming files place)
    (rewritten : Rewritten table files place
      (listed.filter fun found => naming.isTarget found.name) after) :
    Finished naming table after directory := by
  have held : ∀ found ∈ listed.filter fun found => naming.isTarget found.name,
      ∃ contents, files.root.entry? (place ++ found.place) = some (.leaf (.file contents)) := by
    intro found member
    obtain ⟨contents, _, file⟩ := lists.held found (List.mem_filter.1 member).1
    exact ⟨contents, file⟩
  have before : ∀ above name contents,
      after.root.entry? (place ++ above ++ [name]) = some (.leaf (.file contents)) →
        ∃ original, files.root.entry? (place ++ above ++ [name]) = some (.leaf (.file original)) := by
    intro above name contents file
    rcases rewritten.entry_kind held (place ++ above ++ [name]) with same | ⟨old, _, first, _⟩
    · exact ⟨contents, same ▸ file⟩
    · exact ⟨old, first⟩
  refine ⟨confined.sound, place, lists.opens.carry ways confined.cwd,
    fun above name contents file => ?_,
    fun above name contents file isTarget => ?_⟩
  · obtain ⟨original, file⟩ := before above name contents file
    exact unmarked above name original file
  · obtain ⟨original, old⟩ := before above name contents file
    rw [List.append_assoc] at old file
    obtain ⟨found, member, path⟩ := lists.complete _ original old
    have named : found.name = name := by simp [Found.name, path]
    have done := rewritten.done found (List.mem_filter.2 ⟨member, by simpa [named] using isTarget⟩)
      original (path ▸ old)
    rw [path, file] at done
    exact ⟨original, by simpa using done⟩

end Pass

namespace Job

variable {root : Path} {stages : StageSet} {job : Job}

/-- A run that renames and rewrites leaves a finished tree. -/
theorem run_finished (sound : files.Sound) (apart : job.naming.Apart)
    (slashless : Path.slash ∉ utf8 job.naming.target)
    (renames : stages.rename = true) (rewrites : stages.substitute = true) :
    (job.run root stages).Ensures files
      (fun _ after => Pass.Finished job.naming job.table after (job.targetDirectory root) ∧
        ∃ fingerprint, after.fingerprint (job.targetDirectory root) = .ok fingerprint) fun _ =>
        True := by
  let renamed (now : FileSystem) : Prop := now.Sound ∧ ∃ place,
    (∀ other, now.Opens (job.targetDirectory root) other → other = place) ∧
    Pass.Unmarked job.naming now place
  let rewritten (now : FileSystem) : Prop :=
    Pass.Finished job.naming job.table now (job.targetDirectory root)
  refine run_ensures FileSystem.Sound renamed rewritten (fun _ => trivial) ?_ ?_ ?_ ?_
  · intro valid
    exact ⟨fun _ => (Pass.copyTree_continues (bytes_sourceDirectory valid) (.refl sound)).imp
      (fun _ _ held => held.sound) fun _ _ => trivial,
      fun _ => sound⟩
  · intro valid now nowSound
    have marked := (valid_of_violation? valid).2.2.2.1
    refine ⟨fun _ => (Pass.renameFiles_ensures nowSound marked slashless).imp ?_ fun _ _ =>
      trivial, fun left => ?_⟩
    · rintro _ after ⟨place, listed, lists, confined, renamed⟩
      refine ⟨confined.sound, place, fun other opens => ?_,
        (renamed apart).unmarked apart marked lists⟩
      exact (opens.carry confined.ways confined.cwd.symm).unique lists.opens
    · rw [renames] at left
      cases left
  · rintro valid now ⟨nowSound, place, only, unmarked⟩
    refine ⟨fun _ => (Pass.rewriteFiles_ensures nowSound).imp ?_ fun _ _ => trivial, fun left => ?_⟩
    · rintro _ after ⟨reached, listed, lists, confined, ways, rewritten⟩
      obtain rfl := only reached lists.opens
      exact rewritten.finished lists confined ways unmarked
    · rw [rewrites] at left
      cases left
  · exact fun now finished =>
      ⟨fun _ fingerprint taken => ⟨finished, fingerprint, taken⟩, fun _ _ => trivial⟩

/-- On a finished tree that has a fingerprint, a check passes when no file with the target mark
holds a pattern. -/
theorem verify_passed_iff
    (finished : Pass.Finished job.naming job.table files (job.targetDirectory root))
    {fingerprint : Fingerprint}
    (taken : files.fingerprint (job.targetDirectory root) = .ok fingerprint) :
    (job.verify root).Ensures files (fun verified _ => verified.passed = true ↔
      ∀ place, files.Opens (job.targetDirectory root) place → ∀ above name contents,
        files.root.entry? (place ++ above ++ [name]) = some (.leaf (.file contents)) →
        job.naming.isTarget name = true →
          job.table.Settled contents) fun _ => False := by
  obtain ⟨place, opens, unmarked, _⟩ := finished.opens
  obtain ⟨residue, found, clear⟩ :=
    Pass.residue_of_fingerprint job.naming job.table finished.sound.wellFormed opens taken
  refine Ensures.bind ((ensures_note _).2
    (Ensures.bind ((ensures_examine _).2 ⟨fun given same => ?_, fun error failed => ?_⟩)))
  · obtain rfl : residue = given := Except.ok.inj (found.symm.trans same)
    refine (ensures_pure _).2 ?_
    have passed : VerifyReport.passed ⟨job.name, residue.unrenamed, residue.residuals⟩ = true ↔
        residue.unrenamed = [] ∧ residue.residuals = [] := by simp [VerifyReport.passed]
    rw [passed, clear]
    constructor
    · intro all other also above name contents held
      obtain rfl := opens.unique also
      exact (all above name contents held).2
    · exact fun all above name contents held =>
        ⟨unmarked above name contents held, all place opens above name contents held⟩
  · rw [found] at failed
    cases failed

theorem verify_passes_of_clean (sound : files.Sound) (apart : job.naming.Apart)
    (slashless : Path.slash ∉ utf8 job.naming.target) (clean : job.table.Clean)
    (renames : stages.rename = true)
    (rewrites : stages.substitute = true) {log : List Event} {report : GenerationReport}
    {after : Session}
    (ran : (job.run root stages).runOn ⟨files, log⟩ = (.ok report, after)) :
    ∃ verified checked, (job.verify root).runOn after = (.ok verified, checked) ∧
    verified.passed = true := by
  obtain ⟨finished, fingerprint, taken⟩ :=
    (run_finished sound apart slashless renames rewrites).ok ran
  obtain ⟨verified, checked, done, passed⟩ := (verify_passed_iff finished taken).succeeds after.log
  refine ⟨verified, checked, done, passed.2 fun place opens above name contents held isTarget => ?_⟩
  obtain ⟨reached, also, _, rewritten⟩ := finished.opens
  obtain rfl := opens.unique also
  obtain ⟨original, rfl⟩ := rewritten above name contents held isTarget
  exact clean.settled original

end Job
end Retarget
