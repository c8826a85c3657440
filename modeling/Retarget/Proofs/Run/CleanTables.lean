import Retarget.Proofs.Run.Coverage

/-!
Tables that leave nothing for a check to find. Runs on one file show that a table must be clean for
that; hazards are no measure of it, but a table is clean when no replacement touches a pattern.
-/
namespace Retarget

open Act FileSystem

variable {table : Table}

/-- Where no replacement touches a pattern, every table is clean, whatever else its entries do to
each other. -/
theorem Table.clean_of_untouched (untouched : ∀ entry ∈ table.entries, ∀ other ∈ table.entries,
    ¬Touch entry.replacement.toList other.pattern.toList) : table.Clean := by
  intro text entry member checked
  have gone := Substitution.not_infix_pattern_applyAll untouched member
    (Pass.isChecked_iff.1 checked).1 text.toList
  simpa [Table.apply] using gone

namespace OneFile

/-- A source directory with one file, whose name carries the target mark already. -/
def before (contents : Bytes) :
    FileSystem := ⟨.branch (utf8 "a") (.leaf (utf8 "S") (.file contents) .empty) .empty, []⟩

/-- The same with a copy of the directory, the file in it having other contents. -/
def between (contents copied : Bytes) : FileSystem :=
  ⟨.branch (utf8 "a") (.leaf (utf8 "S") (.file contents) .empty)
    (.branch (utf8 "b") (.leaf (utf8 "S") (.file copied) .empty) .empty),
    []⟩

/-- A source directory with one file and an empty directory. -/
def called (name : String) : FileSystem :=
  ⟨.branch (utf8 "a") (.leaf (utf8 name) (.file []) (.branch (utf8 "q") .empty .empty)) .empty, []⟩

def root : Path := ⟨[]⟩

def marked (source target : String) : Job := ⟨"j", ⟨[]⟩, "a", "b", ⟨source, target⟩, Table.empty⟩

def job (table : Table) : Job := ⟨"j", ⟨[]⟩, "a", "b", Naming.standard, table⟩

theorem sourceDirectory_eq : (job table).sourceDirectory root = ⟨utf8 "a"⟩ := by rfl

theorem targetDirectory_eq : (job table).targetDirectory root = ⟨utf8 "b"⟩ := by rfl

theorem naming_eq : (job table).naming = Naming.standard := rfl

theorem table_eq : (job table).table = table := rfl

theorem sound (contents : Bytes) : (before contents).Sound := by
  have wellFormed : (before contents).root.WellFormed := by
    refine ⟨?_, rfl, ⟨?_, rfl, trivial⟩, trivial⟩ <;> unfold Tree.Legal <;> decide
  have walked : (before contents).root.walk =
      [([utf8 "a"], .directory), ([utf8 "a", utf8 "S"], .leaf (.file contents))] := by
    rfl
  refine ⟨wellFormed, Tree.linksAccepted_of_walk wellFormed ?_⟩
  rw [walked]
  simp

theorem opens (contents copied : Bytes) : (between contents copied).Opens ⟨utf8 "b"⟩ [utf8 "b"] :=
  opens_iff.2 ⟨.leaf (utf8 "S") (.file copied) .empty, by rfl⟩

theorem entry?_between (contents copied : Bytes) :
    (between contents copied).root.entry? ([utf8 "b"] ++ [] ++ [utf8 "S"]) = some
    (.leaf (.file copied)) := by rfl

theorem forecast_source (contents : Bytes) :
    (before contents).forecast ⟨utf8 "a"⟩ = .ok ⟨utf8 "/a"⟩ := by
  have absolute : (before contents).absolute ⟨utf8 "a"⟩ = ⟨utf8 "/a"⟩ := rfl
  have present : (before contents).isPresent ⟨utf8 "/a"⟩ = true := rfl
  have found : (before contents).canonical ⟨utf8 "/a"⟩ = .ok ⟨utf8 "/a"⟩ := rfl
  simp only [forecast, absolute, climb, present, if_true, found]
  rfl

theorem forecast_target (contents : Bytes) :
    (before contents).forecast ⟨utf8 "b"⟩ = .ok ⟨utf8 "/b"⟩ := by
  have absolute : (before contents).absolute ⟨utf8 "b"⟩ = ⟨utf8 "/b"⟩ := rfl
  have length : (utf8 "/b").length = 1 + 1 := rfl
  have absent : (before contents).isPresent ⟨utf8 "/b"⟩ = false := rfl
  have parent : (⟨utf8 "/b"⟩ : Path).parent? = some ⟨utf8 "/"⟩ := rfl
  have name : (⟨utf8 "/b"⟩ : Path).fileName? = some (utf8 "b") := rfl
  have present : (before contents).isPresent ⟨utf8 "/"⟩ = true := rfl
  have found : (before contents).canonical ⟨utf8 "/"⟩ = .ok ⟨utf8 "/"⟩ := rfl
  simp only [forecast, absolute, climb, length, absent, parent, name, present, found, if_true,
    Bool.false_eq_true, if_false]
  rfl

theorem copyTree_ensures (contents : Bytes) :
    (Pass.copyTree ⟨utf8 "a"⟩ ⟨utf8 "b"⟩).Ensures (before contents)
    (fun _ after => after = between contents contents) fun _ => False := by
  have directory : (before contents).isDirectory ⟨utf8 "a"⟩ = true := rfl
  refine Ensures.bind ((ensures_look _).2 ?_)
  rw [directory]
  refine Ensures.bind ((ensures_examine _).2 ⟨fun first given => ?_, fun _ failed => ?_⟩)
  · rw [forecast_source] at given
    cases given
    refine Ensures.bind ((ensures_examine _).2 ⟨fun second given => ?_, fun _ failed => ?_⟩)
    · rw [forecast_target] at given
      cases given
      constructor
      intro log
      rfl
    · rw [forecast_target] at failed
      cases failed
  · rw [forecast_source] at failed
    cases failed

theorem renameFiles_ensures (contents : Bytes) :
    (Pass.renameFiles ⟨utf8 "b"⟩ Naming.standard).Ensures (between contents contents)
    (fun _ after => after = between contents contents) fun _ => False := by
  constructor
  intro log
  rfl

theorem rewriteFiles_ensures (table : Table) (text : String) :
    (Pass.rewriteFiles ⟨utf8 "b"⟩ Naming.standard table).Ensures (between (utf8 text) (utf8 text))
      (fun _ after => after = between (utf8 text) (table.rewrite (utf8 text))) fun _ => False := by
  have listed : (between (utf8 text) (utf8 text)).filesBelow ⟨utf8 "b"⟩ =
      .ok [⟨⟨utf8 "b/S"⟩, [utf8 "S"], .leaf (.file (utf8 text))⟩] := by rfl
  have read : (between (utf8 text) (utf8 text)).read ⟨utf8 "b/S"⟩ = .ok (utf8 text) := by rfl
  have write : ∀ fresh, (between (utf8 text) (utf8 text)).write ⟨utf8 "b/S"⟩ fresh = .ok
      (between (utf8 text) fresh) := by
    intro fresh
    rfl
  have rewritten : table.rewrite (utf8 text) = utf8 (table.apply text).1 := by simp [Table.rewrite]
  have file : (Pass.rewriteFile ⟨utf8 "b"⟩ table
      ⟨⟨utf8 "b/S"⟩, [utf8 "S"], .leaf (.file (utf8 text))⟩).Ensures
        (between (utf8 text) (utf8 text))
        (fun _ after => after = between (utf8 text) (table.rewrite (utf8 text))) fun _ => False := by
    refine Ensures.bind ((ensures_examine _).2 ⟨fun given same => ?_, fun error failed => ?_⟩)
    · rw [FileSystem.contents, read] at same
      obtain rfl : utf8 text = given := Except.ok.inj same
      rw [text?_utf8, rewritten]
      dsimp only
      split
      · rename_i idle
        refine (ensures_pure _).2 ?_
        rcases idle with zero | same
        · rw [Table.apply_of_zero zero]
        · rw [same]
      · refine Ensures.bind ((ensures_note _).2
          (Ensures.bind (ensures_change.2 ⟨fun after done => ?_, fun cause failed => ?_⟩)))
        · exact (ensures_pure _).2 (Except.ok.inj ((write _).symm.trans done)).symm
        · rw [write] at failed
          cases failed
    · rw [FileSystem.contents, read] at failed
      cases failed
  refine Ensures.bind ((ensures_note _).2
    (Ensures.bind ((ensures_examine _).2 ⟨fun given same => ?_, fun error failed => ?_⟩)))
  · rw [listed] at same
    obtain rfl := Except.ok.inj same
    have chosen : ([⟨⟨utf8 "b/S"⟩, [utf8 "S"], .leaf (.file (utf8 text))⟩] : List Found).filter
        (fun file => Naming.standard.isTarget file.name) =
        [⟨⟨utf8 "b/S"⟩, [utf8 "S"], .leaf (.file (utf8 text))⟩] := by rfl
    rw [chosen, List.mapM_cons, List.mapM_nil]
    refine Ensures.bind (Ensures.bind
      (file.imp (fun finding after done => ?_) fun _ failed => failed))
    exact Ensures.bind ((ensures_pure _).2 ((ensures_pure _).2 ((ensures_pure _).2 done)))
  · rw [listed] at failed
    cases failed

theorem fingerprint_ok (contents copied : Bytes) :
    ∃ fingerprint, (between contents copied).fingerprint ⟨utf8 "b"⟩ = .ok fingerprint := by
  have walked : (between contents copied).walk ⟨utf8 "b"⟩ =
      [.ok ⟨⟨utf8 "b"⟩, [], .directory⟩,
        .ok ⟨⟨utf8 "b/S"⟩, [utf8 "S"], .leaf (.file copied)⟩] := by rfl
  have read : (between contents copied).read ⟨utf8 "b/S"⟩ = .ok copied := by rfl
  rw [FileSystem.fingerprint, FileSystem.marks, walked]
  simp only [FileSystem.marksOn, Found.isFile, FileSystem.mark, FileSystem.contents, read]
  exact ⟨_, rfl⟩

/-- A run on one file succeeds, whatever the text and the table. -/
theorem run_ensures (patterns : "" ∉ table.patterns) (text : String) :
    ((job table).run root StageSet.all).Ensures (before (utf8 text))
    (fun _ after => after = between (utf8 text) (table.rewrite (utf8 text))) fun _ => False := by
  have valid : (job table).violation? =
      none := by simp [job, Job.violation?, Naming.standard, patterns]
  refine Job.run_ensures (· = between (utf8 text) (utf8 text)) (· = between (utf8 text) (utf8 text))
    (· = between (utf8 text) (table.rewrite (utf8 text))) (fun invalid => invalid valid) ?_ ?_ ?_ ?_
  · rw [sourceDirectory_eq, targetDirectory_eq]
    exact fun _ => ⟨fun _ => copyTree_ensures (utf8 text), fun left => absurd left (by decide)⟩
  · rintro _ now rfl
    rw [targetDirectory_eq, naming_eq]
    exact ⟨fun _ => renameFiles_ensures (utf8 text), fun left => absurd left (by decide)⟩
  · rintro _ now rfl
    rw [targetDirectory_eq, naming_eq, table_eq]
    exact ⟨fun _ => rewriteFiles_ensures table text, fun left => absurd left (by decide)⟩
  · rintro now rfl
    obtain ⟨fingerprint, taken⟩ := fingerprint_ok (utf8 text) (table.rewrite (utf8 text))
    rw [targetDirectory_eq]
    exact ⟨fun _ _ _ => rfl, fun error failed => by rw [taken] at failed; cases failed⟩

/-- A table that erases a pattern: what stood on both sides of an occurrence may form the pattern
again. -/
def erasing : Table := ⟨[⟨"ab", ""⟩], by decide⟩

/-- A table whose replacement has nothing in common with the pattern. -/
def shortening : Table := ⟨[⟨"ab", "x"⟩], by decide⟩

end OneFile

/-- The tables for which every complete run leaves a tree that a check passes are the clean ones. -/
theorem Table.clean_iff_verify_passes {table : Table} (patterns : "" ∉ table.patterns) :
    table.Clean ↔
    ∀ (files : FileSystem) (root : Path) (job : Job) (log : List Event) (report : GenerationReport)
    (after : Session),
      files.Sound → job.table = table → job.naming.Apart → Path.slash ∉ utf8 job.naming.target →
      (job.run root StageSet.all).runOn ⟨files, log⟩ = (.ok report, after) →
      ∃ verified checked, (job.verify root).runOn after = (.ok verified, checked) ∧
      verified.passed = true := by
  constructor
  · rintro clean files root job log report after sound rfl apart slashless ran
    exact Job.verify_passes_of_clean sound apart slashless clean rfl rfl ran
  · intro passes text entry member checked
    obtain ⟨report, after, ran, whole⟩ := (OneFile.run_ensures patterns text).succeeds []
    have apart : Naming.standard.Apart := by
      unfold Naming.Apart
      decide
    have slashless : Path.slash ∉ utf8 Naming.standard.target := by decide
    obtain ⟨verified, _, done, passed⟩ := passes _ OneFile.root (OneFile.job table) [] report after
      (OneFile.sound (utf8 text)) rfl apart slashless ran
    obtain ⟨finished, fingerprint, taken⟩ :=
      (Job.run_finished (OneFile.sound (utf8 text)) apart slashless rfl rfl).ok ran
    have settled := ((Job.verify_passed_iff finished taken).ok done).1 passed [utf8 "b"]
    rw [whole, OneFile.targetDirectory_eq, OneFile.naming_eq, OneFile.table_eq] at settled
    have left := settled (OneFile.opens _ _) [] (utf8 "S") (table.rewrite (utf8 text))
      (OneFile.entry?_between _ _) (by decide)
    exact left _ (by simp [Table.rewrite]) entry member checked

/-- The erasing table is not clean, so some run with it leaves what a check finds. -/
theorem erasing_not_covered :
    ¬∀ (files : FileSystem) (root : Path) (job : Job) (log : List Event) (report : GenerationReport)
    (after : Session), files.Sound → job.table = OneFile.erasing → job.naming.Apart →
    Path.slash ∉ utf8 job.naming.target →
    (job.run root StageSet.all).runOn ⟨files, log⟩ = (.ok report, after) →
    ∃ verified checked, (job.verify root).runOn after = (.ok verified, checked) ∧
    verified.passed = true := fun covered =>
  (Table.clean_iff_verify_passes (by decide : "" ∉ OneFile.erasing.patterns)).2 covered "aabb"
  ⟨"ab", ""⟩ (by decide) (by decide)
    (by decide)

namespace Job

/-- A table may have no hazard and still leave a pattern behind. -/
theorem verify_fails_without_hazards :
    OneFile.erasing.hazards = [] ∧ (OneFile.job OneFile.erasing).violation? = none ∧
    ∃ report after, ((OneFile.job OneFile.erasing).run OneFile.root StageSet.all).runOn
    ⟨OneFile.before (utf8 "aabb"), []⟩ =
      (.ok report, after) ∧
    ∃ verified checked, ((OneFile.job OneFile.erasing).verify OneFile.root).runOn after =
    (.ok verified, checked) ∧
      verified.passed = false := by
  refine ⟨by decide, by decide, ?_⟩
  obtain ⟨report, after, ran, computed⟩ := yields_iff.1 (by decide +kernel :
    ((OneFile.job OneFile.erasing).run OneFile.root StageSet.all).yields
    ⟨OneFile.before (utf8 "aabb"), []⟩ (fun _ after =>
      ((OneFile.job OneFile.erasing).verify OneFile.root).yields after fun verified _ =>
      !verified.passed) = true)
  obtain ⟨verified, checked, done, failed⟩ := yields_iff.1 computed
  exact ⟨report, after, ran, verified, checked, done, by simpa using failed⟩

/-- Where one mark begins the other, or a slash stands in the target mark, a renamed file may carry
the source mark again, whatever the table. -/
theorem verify_fails_of_marks (source target name : String)
    (marked : (source, target, name) ∈ [("D", "DD", "D1"), ("DD", "D", "DDD1"),
      ("D", "q/", "DD1")]) :
    ∃ report after, ((OneFile.marked source target).run OneFile.root StageSet.all).runOn
    ⟨OneFile.called name, []⟩ = (.ok report, after) ∧
    ∃ verified checked, ((OneFile.marked source target).verify OneFile.root).runOn after =
    (.ok verified, checked) ∧
      verified.passed = false := by
  have failing : ((OneFile.marked source target).run OneFile.root StageSet.all).yields
      ⟨OneFile.called name, []⟩ (fun _ after =>
        ((OneFile.marked source target).verify OneFile.root).yields after fun verified _ =>
        !verified.passed) = true := by
    simp only [List.mem_cons, Prod.mk.injEq, List.not_mem_nil, or_false] at marked
    rcases marked with ⟨rfl, rfl, rfl⟩ | ⟨rfl, rfl, rfl⟩ | ⟨rfl, rfl, rfl⟩
    · decide
    · decide
    · decide
  obtain ⟨report, after, ran, computed⟩ := yields_iff.1 failing
  obtain ⟨verified, checked, done, failed⟩ := yields_iff.1 computed
  exact ⟨report, after, ran, verified, checked, done, by simpa using failed⟩

/-- A check passes after a run when no replacement touches a pattern. -/
theorem verify_passes_of_untouched {files : FileSystem} {root : Path} {stages : StageSet}
    {job : Job} (sound : files.Sound) (apart : job.naming.Apart)
    (slashless : Path.slash ∉ utf8 job.naming.target)
    (untouched : ∀ entry ∈ job.table.entries, ∀ other ∈ job.table.entries,
      ¬Touch entry.replacement.toList other.pattern.toList)
    (renames : stages.rename = true) (rewrites : stages.substitute = true) {log : List Event}
    {report : GenerationReport}
    {after : Session} (ran : (job.run root stages).runOn ⟨files, log⟩ = (.ok report, after)) :
    ∃ verified checked, (job.verify root).runOn after = (.ok verified, checked) ∧
    verified.passed = true :=
  verify_passes_of_clean sound apart slashless (Table.clean_of_untouched untouched)
  renames rewrites ran

theorem verify_passes_shortening : ∃ report after verified checked,
    ((OneFile.job OneFile.shortening).run OneFile.root StageSet.all).runOn
    ⟨OneFile.before (utf8 "aabb"), []⟩ =
      (.ok report, after) ∧
    ((OneFile.job OneFile.shortening).verify OneFile.root).runOn after = (.ok verified, checked) ∧
    verified.passed = true := by
  obtain ⟨report, after, ran, _⟩ :=
    (OneFile.run_ensures (by decide : "" ∉ OneFile.shortening.patterns) "aabb").succeeds []
  obtain ⟨verified, checked, done, passed⟩ := verify_passes_of_untouched (OneFile.sound _)
    (by unfold Naming.Apart; decide) (by decide) (by decide) rfl rfl ran
  exact ⟨report, after, verified, checked, ran, done, passed⟩

end Job
end Retarget
