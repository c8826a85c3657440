import Retarget.Proofs.Pass.Checking
import Retarget.Proofs.Pass.Swapping
import Retarget.Proofs.Run.Stages

/-!
When renaming loses nothing and leaves nothing to rename. That is so exactly if no new name carries the
source mark, which marks that a job may have do not ensure. A second pass then finds nothing to do, if
the path still leads to the directory: a link on it may have been renamed over.
-/
namespace Retarget

open Act FileSystem

namespace Pass

variable {before after : FileSystem} {directory : Path} {place : Place} {listed : List Found}
  {naming : Naming}

theorem mem_candidates (lists : before.Lists directory place listed) {found : Found}
    (member : found ∈ listed) (moves : naming.relocate? found.place ≠ none) :
    found ∈ candidates naming listed := by
  refine List.mem_filter.2 ⟨member, ?_⟩
  by_contra plain
  refine moves ((relocate?_of_candidate? lists member).2 ?_)
  rw [candidate?, Naming.rename?_eq_none.2 (by simpa using plain)]
  rfl

/-- Files that keep their names need not be told of. -/
theorem Renamed.of_candidates (lists : before.Lists directory place listed)
    (renamed : Renamed naming before place (candidates naming listed) after) :
    Renamed naming before place listed after := by
  refine ⟨fun found member goal moves => ?_, fun found member moves => ?_,
    fun found member goal moves => ?_, fun query away => ?_⟩
  · exact renamed.arrived found (mem_candidates lists member (by simp [moves])) goal moves
  · exact renamed.gone found (mem_candidates lists member moves) moves
  · exact renamed.free found (mem_candidates lists member (by simp [moves])) goal moves
  · exact renamed.others query fun found member => away found (List.mem_filter.1 member).1

/-- What every file with the source mark held stands where its new name puts it. -/
def Lossless (naming : Naming) (before : FileSystem) (place : Place) (listed : List Found)
    (after : FileSystem) : Prop :=
  ∀ found ∈ candidates naming listed, ∀ goal, naming.relocate? found.place = some goal →
    after.root.entry? (place ++ goal) = before.root.entry? (place ++ found.place)

/-- No file below a place carries the source mark. -/
def Complete (naming : Naming) (place : Place) (files : FileSystem) : Prop :=
  ∀ above name contents, files.root.entry? (place ++ (above ++ [name])) = some (.leaf (.file contents)) →
    naming.isSource name = false

/-- Where every file moves at most once, none is left with the source mark. -/
theorem Renamed.complete (lists : before.Lists directory place listed) (once : Once naming listed)
    (renamed : Renamed naming before place listed after) : Complete naming place after := by
  intro above name contents held
  have settled : ∀ stays : naming.relocate? (above ++ [name]) = none, naming.isSource name = false := by
    intro stays
    rw [Naming.relocate?_concat, Option.map_eq_none_iff] at stays
    exact Naming.rename?_eq_none.1 stays
  rcases renamed.cases (above ++ [name]) with
    ⟨found, member, moves⟩ | ⟨found, member, whole, moves⟩ | ⟨_, unmoved, same⟩
  · exact settled (once found member _ moves)
  · rw [← whole, renamed.gone found member (whole ▸ moves)] at held
    cases held
  · rw [same] at held
    obtain ⟨found, member, here⟩ := lists.complete _ _ held
    exact settled (unmoved found member here)

/-- Nothing is lost and nothing left exactly if no new name carries the source mark: what came to such
a name was either moved on or carries the mark still. -/
theorem lossless_complete_iff (lists : before.Lists directory place listed)
    (renamed : Once naming listed → Renamed naming before place (candidates naming listed) after) :
    Lossless naming before place listed after ∧ Complete naming place after ↔
      Once naming listed := by
  constructor
  · rintro ⟨lossless, complete⟩ found member goal moves
    obtain ⟨contents, _, held⟩ := lists.held found member
    have stands := lossless found (mem_candidates lists member (by simp [moves])) goal moves
    obtain ⟨above, name, fresh, _, rfl, _⟩ := Naming.relocate?_eq_some.1 moves
    rw [Naming.relocate?_concat,
      Naming.rename?_eq_none.2 (complete above fresh contents (stands.trans held))]
    rfl
  · intro once
    exact ⟨(renamed once).arrived, ((renamed once).of_candidates lists).complete lists once⟩

/-- A directory that could be listed before the renaming can be listed after it. -/
theorem Renamed.filesBelow (sound : before.Sound) (given : before.filesBelow directory = .ok listed)
    (lists : before.Lists directory place listed) (confined : before.Confined place after)
    (renamed : Renamed naming before place listed after) (still : after.isDirectory directory = true) :
    ∃ more, after.filesBelow directory = .ok more ∧ after.Lists directory place more := by
  obtain ⟨reached, opens⟩ := isDirectory_iff.1 still
  obtain rfl := (opens.carry confined.ways confined.cwd.symm).unique lists.opens
  obtain ⟨more, found⟩ := (opens.filesBelow_iff confined.sound.wellFormed).2 fun below held =>
    (lists.opens.filesBelow_iff sound.wellFormed).1 ⟨listed, given⟩ below
      ((renamed.directory_iff lists below).1 held)
  obtain ⟨other, theirs⟩ := filesBelow_ok confined.sound.wellFormed found
  obtain rfl := theirs.opens.unique opens
  exact ⟨more, found, theirs⟩

/-- Where no link stands below the directory, the path still leads there. -/
theorem Renamed.opens (lists : before.Lists directory place listed)
    (confined : before.Confined place after) (renamed : Renamed naming before place listed after)
    (linkless : before.root.Linkless place) : after.Opens directory place := by
  refine lists.opens.carry (fun query entry held passable => ?_) confined.cwd
  by_cases inside : place <+: query
  · obtain ⟨below, rfl⟩ := inside
    cases entry with
    | directory => exact (renamed.directory_iff lists below).2 held
    | leaf content =>
      cases content with
      | link target => exact absurd held (linkless below target)
      | file contents => cases passable
      | special => cases passable
  · rw [confined.outside query inside, held]

/-- A pass over a directory where no file carries the source mark does nothing, if the directory can be
listed, and fails where the path leads to none. -/
theorem renameFiles_complete (complete : Complete naming place after)
    (listable : after.isDirectory directory = true →
      ∃ more, after.filesBelow directory = .ok more ∧ after.Lists directory place more)
    (log : List Event) :
    ∃ session, (renameFiles directory naming).runOn ⟨after, log⟩ =
      (if after.isDirectory directory = true then .ok [] else .error (.targetMissing directory),
        session) ∧ session.files = after := by
  split
  · rename_i still
    obtain ⟨more, found, lists⟩ := listable still
    have unmarked : ∀ file ∈ more, naming.isSource file.name = false := by
      intro file member
      obtain ⟨contents, _, held⟩ := lists.held file member
      obtain ⟨above, name, whole, named, _⟩ := lists.above member
      rw [whole] at held
      exact named ▸ complete above name contents held
    obtain ⟨reports, session, ran, rfl, same⟩ := (renameFiles_idle found unmarked).succeeds log
    exact ⟨session, ran, same⟩
  · rename_i gone
    have missing : after.filesBelow directory = .error (.targetMissing directory) := by
      rw [FileSystem.filesBelow, if_neg gone]
    have noted : (note (.renamingFiles directory) : Act Failure Unit).runOn ⟨after, log⟩ =
        (.ok (), ⟨after, log ++ [.renamingFiles directory]⟩) := rfl
    refine ⟨⟨after, log ++ [.renamingFiles directory]⟩, ?_, rfl⟩
    rw [renameFiles, runOn_bind_ok noted, runOn_bind, runOn_examine missing]

end Pass

namespace Job

variable {files : FileSystem} {root : Path} {job : Job} {log : List Event}
  {reports : List RenamedFile} {after : Session}

/-- Renaming in the target of a job, on its own. -/
abbrev renameTarget (root : Path) (job : Job) : Act Failure (List RenamedFile) :=
  Pass.renameFiles (job.targetDirectory root) job.naming

/-- What a successful renaming of the target of a job leaves: each file is found where it was reported
to have gone and none is left to rename, exactly if no new name carries the source mark, as where
neither mark begins the other. Then a second renaming gives nothing and changes nothing, or finds that
the path of the target leads nowhere any more, which takes a link below it. -/
theorem rename_lossless_iff (valid : job.violation? = none)
    (slashless : Path.slash ∉ utf8 job.naming.target) (sound : files.Sound)
    (ran : (job.renameTarget root).runOn ⟨files, log⟩ = (.ok reports, after)) :
    ∃ place listed, files.filesBelow (job.targetDirectory root) = .ok listed ∧
      files.Lists (job.targetDirectory root) place listed ∧
      List.Forall₂ (Pass.Reported job.naming) (Pass.candidates job.naming listed) reports ∧
      (Pass.Lossless job.naming files place listed after.files ∧
        Pass.Complete job.naming place after.files ↔ Pass.Once job.naming listed) ∧
      (job.naming.Apart → Pass.Once job.naming listed) ∧
      (Pass.Once job.naming listed → ∀ later, ∃ session,
        (job.renameTarget root).runOn ⟨after.files, later⟩ =
          (if after.files.isDirectory (job.targetDirectory root) = true then .ok []
            else .error (.targetMissing (job.targetDirectory root)), session) ∧
        session.files = after.files) ∧
      (Pass.Once job.naming listed → files.root.Linkless place →
        after.files.isDirectory (job.targetDirectory root) = true) := by
  have marked := (valid_of_violation? valid).2.2.2.1
  obtain ⟨place, listed, given, lists, confined, reported, moved⟩ :=
    (Pass.renameFiles_moves sound marked slashless).ok ran
  refine ⟨place, listed, given, lists, reported,
    Pass.lossless_complete_iff lists fun once => (moved once).1,
    fun apart => Pass.once_of_apart apart marked, fun once later => ?_, fun once linkless => ?_⟩
  · have renamed := (moved once).1.of_candidates lists
    exact Pass.renameFiles_complete (renamed.complete lists once)
      (renamed.filesBelow sound given lists confined) later
  · have renamed := (moved once).1.of_candidates lists
    exact isDirectory_iff.2 ⟨place, renamed.opens lists confined linkless⟩

end Job

namespace Marked

/-- A directory with two files, of which one has one more letter in front. -/
def chain : FileSystem :=
  ⟨.branch (utf8 "t") (.leaf (utf8 "DDDx") (.file (utf8 "1"))
    (.leaf (utf8 "DDx") (.file (utf8 "2")) .empty)) .empty, []⟩

/-- A directory with a file, and a link back to the directory where the new name puts the file. -/
def looped : FileSystem :=
  ⟨.branch (utf8 "t") (.leaf (utf8 "D1") (.file (utf8 "1"))
    (.leaf (utf8 "S1") (.link ⟨utf8 "."⟩) .empty)) .empty, []⟩

def job (target : String) (naming : Naming) : Job := ⟨"j", ⟨[]⟩, "s", target, naming, Table.empty⟩

theorem sound_chain : chain.Sound := by decide

theorem sound_looped : looped.Sound := by decide

end Marked

namespace Job

/-- Marks of which one begins the other are accepted. A file may be renamed over one that was to be
renamed, and is then renamed once more, so what the other held is lost and nothing stands where the
first was reported to have gone; a second pass may rename again. With marks apart, a file renamed over
a link on the path of the target leaves no directory to rename in. -/
theorem rename_loses_and_repeats :
    ((Marked.job "t" ⟨"DD", "D"⟩).violation? = none ∧ Marked.chain.Sound ∧
      Marked.chain.root.entry? [utf8 "t", utf8 "DDx"] = some (.leaf (.file (utf8 "2"))) ∧
      ∃ reports after, ((Marked.job "t" ⟨"DD", "D"⟩).renameTarget ⟨[]⟩).runOn ⟨Marked.chain, []⟩ =
          (.ok reports, after) ∧
        reports = [⟨⟨utf8 "DDDx"⟩, ⟨utf8 "DDx"⟩, true⟩, ⟨⟨utf8 "DDx"⟩, ⟨utf8 "Dx"⟩, false⟩] ∧
        after.files.root.entry? [utf8 "t", utf8 "DDx"] = none ∧
        after.files.root.entry? [utf8 "t", utf8 "Dx"] = some (.leaf (.file (utf8 "1")))) ∧
    ((Marked.job "t" ⟨"D", "DD"⟩).violation? = none ∧
      ∃ reports now more after,
        ((Marked.job "t" ⟨"D", "DD"⟩).renameTarget ⟨[]⟩).runOn ⟨Marked.chain, []⟩ =
          (.ok reports, now) ∧
        ((Marked.job "t" ⟨"D", "DD"⟩).renameTarget ⟨[]⟩).runOn now = (.ok more, after) ∧
        more ≠ []) ∧
    (Marked.job "t/S1" Naming.standard).violation? = none ∧ Naming.standard.Apart ∧
      Marked.looped.Sound ∧
      ∃ reports now after,
        ((Marked.job "t/S1" Naming.standard).renameTarget ⟨[]⟩).runOn ⟨Marked.looped, []⟩ =
          (.ok reports, now) ∧
        ((Marked.job "t/S1" Naming.standard).renameTarget ⟨[]⟩).runOn now =
          (.error (.targetMissing ⟨utf8 "t/S1"⟩), after) := by
  refine ⟨⟨by decide, Marked.sound_chain, by decide, ?_⟩, ⟨by decide, ?_⟩, by decide,
    by unfold Naming.Apart; decide, Marked.sound_looped, ?_⟩
  · obtain ⟨reports, after, ran, lost⟩ := yields_iff.1 (by decide +kernel :
      ((Marked.job "t" ⟨"DD", "D"⟩).renameTarget ⟨[]⟩).yields ⟨Marked.chain, []⟩
        (fun reports after =>
          reports = [⟨⟨utf8 "DDDx"⟩, ⟨utf8 "DDx"⟩, true⟩, ⟨⟨utf8 "DDx"⟩, ⟨utf8 "Dx"⟩, false⟩] ∧
          after.files.root.entry? [utf8 "t", utf8 "DDx"] = none ∧
          after.files.root.entry? [utf8 "t", utf8 "Dx"] = some (.leaf (.file (utf8 "1")))) = true)
    exact ⟨reports, after, ran, by simpa using lost⟩
  · obtain ⟨reports, now, ran, again⟩ := yields_iff.1 (by decide +kernel :
      ((Marked.job "t" ⟨"D", "DD"⟩).renameTarget ⟨[]⟩).yields ⟨Marked.chain, []⟩ (fun _ now =>
        ((Marked.job "t" ⟨"D", "DD"⟩).renameTarget ⟨[]⟩).yields now fun more _ => more ≠ []) = true)
    obtain ⟨more, after, ranAgain, some⟩ := yields_iff.1 again
    exact ⟨reports, now, more, after, ran, ranAgain, by simpa using some⟩
  · obtain ⟨reports, now, ran, missing⟩ := yields_iff.1 (by decide +kernel :
      ((Marked.job "t/S1" Naming.standard).renameTarget ⟨[]⟩).yields ⟨Marked.looped, []⟩
        (fun _ now => (((Marked.job "t/S1" Naming.standard).renameTarget ⟨[]⟩).runOn now).1 =
          .error (.targetMissing ⟨utf8 "t/S1"⟩)) = true)
    exact ⟨reports, now, _, ran, Prod.ext (by simpa using missing) rfl⟩

theorem rename_lossless_iff_shelves :
    ∃ reports after, ((Marked.job "a" Naming.standard).renameTarget ⟨[]⟩).runOn
        ⟨Pass.Shelves.files, []⟩ = (.ok reports, after) ∧
      Pass.Complete Naming.standard [utf8 "a"] after.files ∧
      ∃ session, ((Marked.job "a" Naming.standard).renameTarget ⟨[]⟩).runOn ⟨after.files, []⟩ =
          (if after.files.isDirectory ((Marked.job "a" Naming.standard).targetDirectory ⟨[]⟩) = true
            then .ok []
            else .error (.targetMissing ((Marked.job "a" Naming.standard).targetDirectory ⟨[]⟩)),
            session) ∧
        session.files = after.files := by
  have apart : Naming.standard.Apart := by
    unfold Naming.Apart
    decide
  obtain ⟨reports, after, ran, _⟩ := yields_iff.1 (by decide +kernel :
    ((Marked.job "a" Naming.standard).renameTarget ⟨[]⟩).yields ⟨Pass.Shelves.files, []⟩
      (fun _ _ => true) = true)
  obtain ⟨place, listed, _, lists, _, lossless, once, again, _⟩ :=
    rename_lossless_iff (by decide) (by decide) Pass.Shelves.sound ran
  obtain rfl := lists.opens.unique (by decide +kernel : Pass.Shelves.files.Opens
    ((Marked.job "a" Naming.standard).targetDirectory ⟨[]⟩) [utf8 "a"])
  exact ⟨reports, after, ran, (lossless.2 (once apart)).2, again (once apart) []⟩

end Job

end Retarget
