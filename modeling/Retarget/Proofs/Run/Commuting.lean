import Retarget.Proofs.Pass.Locality
import Retarget.Proofs.Run.Repetition
import Retarget.Proofs.Run.Reports

/-!
Jobs that may be run in either order. A run depends on what is at its source and its target, and on
no more of what is above them than that it can be made; and it changes nothing but its target and
what was missing above. So two jobs of which neither target meets the source or the target of the
other come to the same, whichever is run first, also where both make the same directories on the way
to their targets.
-/
namespace Retarget

open Act FileSystem Pass

namespace FileSystem

variable {files mid fin other last : FileSystem} {place goal : Place}

/-- A system and what a run has made of it differ at the target. -/
theorem Contained.differ (contained : files.Contained place mid) (sound : files.Sound)
    (linkless : files.root.Linkless []) (names : ∀ name ∈ files.cwd, Tree.Legal name) :
    DifferAt place files mid := by
  refine ⟨sound, contained.sound, linkless, contained.linkless, contained.cwd, names,
    fun query apart => ?_⟩
  rcases contained.outside query apart with same | ⟨above, absent, directory⟩
  · exact .inl same
  · exact .inr ⟨above, .inl ⟨absent, directory⟩⟩

/-- A directory apart from the place stays a directory, and so do those above it. -/
theorem Contained.directory (contained : files.Contained place mid) {query : Place}
    (apart : ¬place <+: query) (held : files.root.entry? query = some .directory) :
    mid.root.entry? query = some .directory := by
  rcases contained.outside query apart with same | ⟨_, _, directory⟩
  · rw [same, held]
  · exact directory

/-- What two runs one after the other leave, if they make directories apart from each other: what
the first made of its place, directories above both places, and the rest as it was. -/
theorem Contained.andThen (first : files.Contained place mid) (second : mid.Contained goal fin)
    (apart : Apart place goal) (made : mid.root.entry? place = some .directory)
    (otherMade : fin.root.entry? goal = some .directory) :
    (∀ query, place <+: query → fin.root.entry? query = mid.root.entry? query) ∧
    (∀ query, query <+: place ∨ query <+: goal → fin.root.entry? query = some .directory) ∧
    ∀ query, Apart place query → Apart goal query →
      fin.root.entry? query = files.root.entry? query := by
  have kept : ∀ query, place <+: query → fin.root.entry? query = mid.root.entry? query := by
    intro query below
    obtain ⟨beside, notAbove⟩ := Apart.of_below apart below
    exact (second.outside query beside).resolve_right fun both => notAbove both.1
  refine ⟨kept, fun query above => ?_, fun query one two => ?_⟩
  · have still := (kept place (List.prefix_refl _)).trans made
    rcases above with ⟨rest, rfl⟩ | ⟨rest, rfl⟩
    · exact Tree.directory_of_append still
    · exact Tree.directory_of_append otherMade
  · rw [(second.outside query two.1).resolve_right fun both => two.2 both.1,
      (first.outside query one.1).resolve_right fun both => one.2 both.1]

/-- Two orders of making two places leave the same, if they leave the same at each of the places. -/
theorem Contained.inEitherOrder (first : files.Contained place mid)
    (second : mid.Contained goal fin) (otherFirst : files.Contained goal other)
    (otherSecond : other.Contained place last) (apart : Apart place goal)
    (made : mid.root.entry? place = some .directory)
    (madeThen : fin.root.entry? goal = some .directory)
    (otherMade : other.root.entry? goal = some .directory)
    (lastMade : last.root.entry? place = some .directory)
    (same : ∀ query, place <+: query → last.root.entry? query = mid.root.entry? query)
    (otherSame : ∀ query, goal <+: query → other.root.entry? query = fin.root.entry? query)
    (query : Place) : last.root.entry? query = fin.root.entry? query := by
  obtain ⟨below, above, beside⟩ := first.andThen second apart made madeThen
  obtain ⟨otherBelow, otherAbove, otherBeside⟩ :=
    otherFirst.andThen otherSecond apart.symm otherMade lastMade
  by_cases one : place <+: query
  · rw [below query one, same query one]
  by_cases two : goal <+: query
  · rw [otherBelow query two, otherSame query two]
  by_cases onWay : query <+: place ∨ query <+: goal
  · rw [above query onWay, otherAbove query onWay.symm]
  · rw [not_or] at onWay
    rw [beside query ⟨one, onWay.1⟩ ⟨two, onWay.2⟩, otherBeside query ⟨two, onWay.2⟩ ⟨one, onWay.1⟩]

end FileSystem

namespace Job

variable {files other after mid fin : FileSystem} {root : Path} {stages : StageSet} {job : Job}
  {place : Place}

/-! ## One run -/

theorem parallel_rework {tops : List Place} {cwd : Place}
    (slashless : Path.slash ∉ utf8 job.naming.target)
    (stays : (job.targetDirectory root).Stays tops cwd)
    (below : ∀ names, Near tops ((job.targetDirectory root).placeFrom cwd ++ names))
    (copied : Option Nat) : Parallel (Agree tops cwd) Eq (job.rework root StageSet.all copied)
      (job.rework root StageSet.all copied) := by
  have fingerprint : ∀ files other, Agree tops cwd files other →
      other.fingerprint (job.targetDirectory root) = files.fingerprint (job.targetDirectory root) :=
    fun files other agree => agree.fingerprint stays below
  rw [rework_eq]
  exact (parallel_renameFiles slashless stays below).follow fun renamed =>
    ((parallel_rewriteFiles stays below job.naming job.table).map some).follow fun substitution =>
      (parallel_view fingerprint).follow fun taken => (parallel_note _).follow fun _ =>
        parallel_pure rfl

/-- A job whose paths, the root they start from included, only go down, and whose target mark leads
out of no directory. -/
structure Plain (root : Path) (job : Job) : Prop where
  source : Component.up ∉ (job.sourceDirectory root).components
  target : Component.up ∉ (job.targetDirectory root).components
  slashless : Path.slash ∉ utf8 job.naming.target

theorem valid_of_outcome {report : GenerationReport}
    (gave : (job.run root stages).outcome files = (.ok report, after)) : job.violation? = none := by
  cases found : job.violation? with
  | none => rfl
  | some violation =>
    rw [outcome_run_of_violation found] at gave
    cases gave

theorem Plain.openSteps (plain : job.Plain root) :
    .up ∉ (job.sourceDirectory root).openSteps ∧ .up ∉ (job.targetDirectory root).openSteps :=
  ⟨fun up => plain.source ((Path.up_mem_openSteps_iff _).1 up),
    fun up => plain.target ((Path.up_mem_openSteps_iff _).1 up)⟩

/-- The target lies below the directory that its path starts from. -/
theorem Plain.start (plain : job.Plain root) (cwd : Place) :
    (job.targetDirectory root).start cwd <+: (job.targetDirectory root).placeFrom cwd := by
  obtain ⟨names, spelled⟩ := Path.spelled_of_plain plain.openSteps.2
  rw [placeFrom_of_spelled spelled]
  exact List.prefix_append _ _

/-- A run that succeeds in one of two systems that differ elsewhere succeeds in the other with the
same report, and leaves them agreeing about its source and its target. -/
theorem Plain.run_local (plain : job.Plain root) (differ : DifferAt place files other)
    (apart : Apart place ((job.sourceDirectory root).placeFrom files.cwd))
    (targetApart : Apart place ((job.targetDirectory root).placeFrom files.cwd))
    (start : other.root.entry? ((job.targetDirectory root).start files.cwd) = some .directory)
    {report : GenerationReport}
    (gave : (job.run root StageSet.all).outcome files = (.ok report, after)) :
    ∃ again, (job.run root StageSet.all).outcome other = (.ok report, again) ∧
      Agree (tops (job.sourceDirectory root) (job.targetDirectory root) files.cwd) files.cwd
        after again := by
  have valid := valid_of_outcome gave
  obtain ⟨sourcePlain, targetPlain⟩ := plain.openSteps
  have elsewhere : Elsewhere (job.sourceDirectory root) (job.targetDirectory root) files.cwd
      place := ⟨bytes_sourceDirectory valid, bytes_targetDirectory valid, sourcePlain, targetPlain,
        apart, targetApart⟩
  rw [outcome_run valid, outcome_bind fun _ => blind_rework _ _ _ _] at gave ⊢
  rcases copied : (copyTree (job.sourceDirectory root) (job.targetDirectory root)).outcome files with
    ⟨_ | count, now⟩
  · rw [copied] at gave
    cases gave
  · rw [copied] at gave
    obtain ⟨twin, copiedToo, agree⟩ := (copyTree_local differ elsewhere start).of_outcome copied
    rw [copiedToo]
    exact (parallel_rework plain.slashless (stays_target _ targetPlain _)
      (fun names => near_below (by simp [tops]) (List.prefix_append _ _)) _).outcome agree gave

/-- What a run leaves is contained in its target, which is a directory then. -/
theorem Plain.run_made (plain : job.Plain root) (sound : files.Sound)
    (linkless : files.root.Linkless []) {report : GenerationReport}
    (gave : (job.run root StageSet.all).outcome files = (.ok report, after)) :
    files.Contained ((job.targetDirectory root).placeFrom files.cwd) after ∧
      after.root.entry? ((job.targetDirectory root).placeFrom files.cwd) = some .directory := by
  have reaches : ∀ seen, files.forecast (job.targetDirectory root) = .ok seen →
      files.Reaches (job.targetDirectory root) := fun _ _ => reaches_of_plain plain.openSteps.2
  have contained := (run_contained_of_reaches sound linkless reaches
    fun _ => plain.slashless).of_outcome gave
  obtain ⟨goal, opens⟩ := (run_opens sound linkless reaches rfl).of_outcome gave
  obtain rfl := opens.place_eq contained.linkless
  exact ⟨contained, contained.cwd ▸ opens.directory⟩

/-! ## Two runs -/

/-- Jobs of which neither target is, holds or lies in the source or the target of the other. -/
structure Independent (root : Path) (first second : Job) (cwd : Place) : Prop where
  plain : first.Plain root
  otherPlain : second.Plain root
  targets : Apart ((first.targetDirectory root).placeFrom cwd)
    ((second.targetDirectory root).placeFrom cwd)
  source : Apart ((second.targetDirectory root).placeFrom cwd)
    ((first.sourceDirectory root).placeFrom cwd)
  otherSource : Apart ((first.targetDirectory root).placeFrom cwd)
    ((second.sourceDirectory root).placeFrom cwd)

variable {first second : Job} {report otherReport : GenerationReport}

/-- Two runs that succeed in one order succeed in the other with the same reports. Each finds at its
source and its target what it found before, so it leaves there what it left before. -/
theorem Independent.outcomes (independent : Independent root first second files.cwd)
    (standing : files.Standing) (linkless : files.root.Linkless [])
    (gave : (first.run root StageSet.all).outcome files = (.ok report, mid))
    (gaveThen : (second.run root StageSet.all).outcome mid = (.ok otherReport, fin)) :
    ∃ other last, (second.run root StageSet.all).outcome files = (.ok otherReport, other) ∧
      (first.run root StageSet.all).outcome other = (.ok report, last) ∧ last.cwd = fin.cwd ∧
      ∀ query, last.root.entry? query = fin.root.entry? query := by
  obtain ⟨plain, otherPlain, targets, source, otherSource⟩ := independent
  have names : ∀ name ∈ files.cwd, Tree.Legal name :=
    standing.sound.wellFormed.legal standing.cwd
  obtain ⟨contained, made⟩ := plain.run_made standing.sound linkless gave
  obtain ⟨containedThen, madeThen⟩ := otherPlain.run_made contained.sound contained.linkless gaveThen
  rw [contained.cwd] at containedThen madeThen
  -- The second job is run without the first before it.
  have start : files.root.entry? ((second.targetDirectory root).start mid.cwd) = some .directory := by
    rw [contained.cwd]
    exact (standing.start _).1
  obtain ⟨other, gaveFirst, agree⟩ := otherPlain.run_local
    (contained.differ standing.sound linkless names).symm
    (contained.cwd.symm ▸ otherSource) (contained.cwd.symm ▸ targets) start gaveThen
  obtain ⟨otherContained, otherMade⟩ := otherPlain.run_made standing.sound linkless gaveFirst
  -- The first job is run after it.
  have otherStart : other.root.entry? ((first.targetDirectory root).start files.cwd) =
      some .directory :=
    otherContained.directory (fun inside => targets.2 (inside.trans (plain.start _)))
      (standing.start _).1
  obtain ⟨last, gaveLast, agreeLast⟩ := plain.run_local
    (otherContained.differ standing.sound linkless names) source targets.symm otherStart gave
  obtain ⟨lastContained, lastMade⟩ :=
    plain.run_made otherContained.sound otherContained.linkless gaveLast
  rw [otherContained.cwd] at lastContained lastMade
  refine ⟨other, last, gaveFirst, gaveLast, ?_, fun query => ?_⟩
  · rw [lastContained.cwd, otherContained.cwd, containedThen.cwd, contained.cwd]
  · rw [contained.cwd] at agree
    exact contained.inEitherOrder containedThen otherContained lastContained targets made madeThen
      otherMade lastMade (fun place below => agreeLast.same place (near_below (by simp [tops]) below))
      (fun place below => agree.same place (near_below (by simp [tops]) below)) query

/-- Where there are no links, two jobs of which neither target meets the source or the target of the
other may be run in either order: if both runs succeed in one order, they succeed in the other, with
the same reports, and leave the same files. -/
theorem runs_commute (standing : files.Standing) (linkless : files.root.Linkless [])
    (independent : Independent root first second files.cwd) {log : List Event}
    {now after : Session}
    (ran : (first.run root StageSet.all).runOn ⟨files, log⟩ = (.ok report, now))
    (ranThen : (second.run root StageSet.all).runOn now = (.ok otherReport, after))
    (later : List Event) :
    ∃ other last, (second.run root StageSet.all).runOn ⟨files, later⟩ = (.ok otherReport, other) ∧
      (first.run root StageSet.all).runOn other = (.ok report, last) ∧
      last.files.cwd = after.files.cwd ∧
      ∀ place, last.files.root.entry? place = after.files.root.entry? place := by
  have gave := (blind_run root StageSet.all first).outcome_eq ran
  have gaveThen := (blind_run root StageSet.all second).outcome_eq ranThen
  obtain ⟨_, _, gaveFirst, gaveLast, cwd, same⟩ :=
    independent.outcomes standing linkless gave gaveThen
  obtain ⟨other, ranFirst, rfl⟩ := (blind_run root StageSet.all second).runs gaveFirst later
  obtain ⟨last, ranLast, rfl⟩ := (blind_run root StageSet.all first).runs gaveLast other.log
  exact ⟨other, last, ranFirst, ranLast, cwd, same⟩

end Job

namespace TwoTrees

/-- A job with a name of its own beside the others. -/
def beside (target : String) : Job := { job target with name := "k" }

theorem independent : Job.Independent ⟨[]⟩ (job "o/b") (beside "o/c") before.cwd := by
  refine ⟨⟨?_, ?_, ?_⟩, ⟨?_, ?_, ?_⟩, ?_, ?_, ?_⟩ <;> decide

end TwoTrees

namespace Job

/-- Whichever of the two runs comes first makes the directory that both targets lie in. -/
theorem runs_commute_below_missing :
    TwoTrees.before.root.entry? [utf8 "o"] = none ∧ ∃ report otherReport now after other last,
      ((TwoTrees.job "o/b").run ⟨[]⟩ StageSet.all).runOn ⟨TwoTrees.before, []⟩ =
        (.ok report, now) ∧
      ((TwoTrees.beside "o/c").run ⟨[]⟩ StageSet.all).runOn now = (.ok otherReport, after) ∧
      ((TwoTrees.beside "o/c").run ⟨[]⟩ StageSet.all).runOn ⟨TwoTrees.before, []⟩ =
        (.ok otherReport, other) ∧
      ((TwoTrees.job "o/b").run ⟨[]⟩ StageSet.all).runOn other = (.ok report, last) ∧
      last.files.cwd = after.files.cwd ∧
      ∀ place, last.files.root.entry? place = after.files.root.entry? place := by
  obtain ⟨report, now, ran, onward⟩ := yields_iff.1 (by decide +kernel :
    ((TwoTrees.job "o/b").run ⟨[]⟩ StageSet.all).yields ⟨TwoTrees.before, []⟩ (fun _ now =>
      ((TwoTrees.beside "o/c").run ⟨[]⟩ StageSet.all).yields now fun _ _ => true) = true)
  obtain ⟨otherReport, after, ranThen, _⟩ := yields_iff.1 onward
  obtain ⟨other, last, ranFirst, ranLast, same⟩ := runs_commute TwoTrees.standing
    TwoTrees.linkless_everywhere TwoTrees.independent ran ranThen []
  exact ⟨by decide, report, otherReport, now, after, other, last, ran, ranThen, ranFirst, ranLast,
    same⟩

end Job
end Retarget
