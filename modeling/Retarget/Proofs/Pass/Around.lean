import Retarget.Proofs.Pass.Arrival
import Retarget.Proofs.Pass.Fingerprint
import Retarget.Proofs.Tree.Rebuilding

/-!
What lies around the place where a copy is made. Nothing beside the place changes, and no directory
and no link outside it is taken away, so a path that leads past the place leads where it did, to a
directory with the fingerprint that it had.
-/
namespace Retarget

namespace FileSystem

variable {before now after : FileSystem} {target path : Path} {place goal : Place}

/-- Outside a place every directory and every link still stands. -/
def WaysOutside (before : FileSystem) (place : Place) (now : FileSystem) : Prop :=
  ∀ query entry, ¬place <+: query → before.root.entry? query = some entry →
    entry.passable = true → now.root.entry? query = some entry

/-- A later state in which what lies around a place is kept: what is beside it is the same, and
outside it the ways are. No link stood at the place itself. -/
structure Around (before : FileSystem) (place : Place) (now : FileSystem) : Prop extends
    before.Spares place now where
  ways : before.WaysOutside place now
  plain : ∀ link, before.root.entry? place ≠ some (.leaf (.link link))

theorem Around.refl (sound : before.Sound)
    (directory : before.root.entry? place = some .directory) : before.Around place before :=
  { sound, cwd := rfl, beside := fun _ _ _ => rfl, ways := fun _ _ _ held _ => held,
    plain := fun link linked => by rw [directory] at linked; cases linked }

/-- What is confined to the place does not touch what lies around it. -/
theorem Around.confined (around : before.Around place now) (confined : now.Confined place after) :
    before.Around place after :=
  { sound := confined.sound
    cwd := confined.cwd.trans around.cwd
    beside := fun query outside notAbove =>
      (confined.outside query outside).trans (around.beside query outside notAbove)
    ways := fun query entry outside held passes =>
      (confined.outside query outside).trans (around.ways query entry outside held passes)
    plain := around.plain }

/-- A path leads past a place: with what stands below the place taken away it leads to a directory
apart from it. -/
def Passes (files : FileSystem) (path : Path) (goal : Place) : Prop :=
  ∃ place, (files.emptied goal).Opens path place ∧ Apart place goal

theorem entry_of_emptied {query : Place} {entry : Entry}
    (held : (before.emptied goal).root.entry? query = some entry) :
    before.root.entry? query = some entry ∧ (goal <+: query → query = goal) := by
  by_cases directory : before.root.entry? goal = some .directory
  · obtain ⟨inner, found⟩ := Tree.entry?_eq_directory.1 directory
    rw [entry?_emptied found] at held
    split at held
    · cases held
    · rename_i above
      exact ⟨held, fun inside => by_contra fun other => above ⟨inside, other⟩⟩
  · have same : before.root.modify (fun _ => .empty) goal = before.root :=
      Tree.modify_eq_self fun inner found =>
        absurd (Tree.entry?_eq_directory.2 ⟨inner, found⟩) directory
    rw [emptied, same] at held
    refine ⟨held, fun inside => ?_⟩
    obtain ⟨below, rfl⟩ := inside
    by_cases here : below = []
    · rw [here, List.append_nil]
    · rw [Tree.bare_of_ne_directory directory below here] at held
      cases held

/-- A path that leads past the place leads to the same directory as before, in which all is as it
was. -/
theorem Around.opens (around : before.Around goal now)
    (directory : now.root.entry? goal = some .directory)
    (opens : (before.emptied goal).Opens path place) (apart : Apart place goal) :
    before.Opens path place ∧ now.Opens path place ∧
      ∀ below, now.root.entry? (place ++ below) = before.root.entry? (place ++ below) := by
  have stood : (before.emptied goal).root.WaysIn before.root :=
    fun _ _ held _ => (entry_of_emptied held).1
  have stands : (before.emptied goal).root.WaysIn now.root := by
    intro query entry held passes
    obtain ⟨was, only⟩ := entry_of_emptied held
    by_cases inside : goal <+: query
    · obtain rfl := only inside
      cases entry with
      | directory => exact directory
      | leaf content =>
        cases content with
        | link link => exact absurd was (around.plain link)
        | file contents => cases passes
        | special => cases passes
    · exact around.ways query entry inside was passes
  refine ⟨opens.carry stood rfl, opens.carry stands around.cwd, fun below => ?_⟩
  obtain ⟨outside, notAbove⟩ := apart.of_below (List.prefix_append place below)
  exact around.beside _ outside notAbove

/-- A directory that a path leads to past the place has the fingerprint that it had. -/
theorem Around.fingerprint (around : before.Around goal now) (sound : before.Sound)
    (directory : now.root.entry? goal = some .directory) (passes : before.Passes path goal) :
    now.fingerprint path = before.fingerprint path := by
  obtain ⟨place, opens, apart⟩ := passes
  obtain ⟨was, is, same⟩ := around.opens directory opens apart
  exact fingerprint_congr sound.wellFormed around.sound.wellFormed was is same

end FileSystem

namespace Pass

open Act FileSystem

variable {files : FileSystem} {source target : Path}

/-- Where a path that is no link leads to, no link stands. -/
theorem not_link_of_stat {place : Place} {node : Node}
    (stat : files.stat target = .ok (place, node))
    (plain : ∀ place link, files.lstat target ≠ .ok (place, .leaf (.link link))) (link : Path) :
    files.root.entry? place ≠ some (.leaf (.link link)) := by
  intro linked
  obtain ⟨accepted, led, _⟩ := stat_iff.1 stat
  rcases led.stop with here | ⟨ending, other, here, held⟩
  · exact plain _ _ (lstat_iff.2 ⟨accepted, here, Tree.entry?_eq_leaf.1 linked⟩)
  · exact plain _ _ (lstat_iff.2 ⟨accepted, here, Tree.entry?_eq_leaf.1 held⟩)

/-- A copy to a target that is not there takes nothing off any way. -/
theorem replaceTree_ways (sound : files.Sound) (written : source.bytes ≠ [])
    (absent : files.isPresent target = false) :
    (replaceTree source target).Ensures files
      (fun _ now => now.Sound ∧ files.root.WaysIn now.root) fun _ => True := by
  have none : files.isDirectory target ≠ true := fun directory => by
    obtain ⟨place, opens⟩ := isDirectory_iff.1 directory
    obtain ⟨inner, stat⟩ := opens_iff.1 opens
    rw [isPresent_iff.2 ⟨place, _, stat⟩] at absent
    cases absent
  refine Ensures.bind (clear_ensures (fun directory => absurd directory none)
    (fun _ present => by rw [absent] at present; cases present) fun _ => ?_)
  refine Ensures.bind ((ensures_note _).2
    (Ensures.bind ((ensures_examine _).2 ⟨fun top _ => ?_, fun _ _ => trivial⟩)))
  exact (copyFrom_carries (fun now => files.root.WaysIn now.root)
    (fun _ _ kept ways _ query entry held passes =>
      ways query entry (kept query entry held passes) passes) written [] (by simp) top.2.entry
    ⟨sound, fun _ _ held _ => held⟩).imp (fun _ _ held => held) fun _ _ => trivial

/-- A copy takes nothing off a way outside the place that was foretold. -/
theorem replaceTree_outside (sound : files.Sound) {opened : Place}
    (opens : files.Opens source opened) (replaceable : files.Replaceable target)
    {top names : Place} {front tail : List Step}
    (foretold : files.Foretold target top names front tail) :
    (replaceTree source target).Ensures files
      (fun _ now => now.Sound ∧ files.WaysOutside (top ++ names) now) fun _ => True := by
  refine replaceTree_ensures sound opens replaceable foretold (fun _ _ => trivial)
    fun now goal reached entries prepared listing made => ?_
  have written := (Path.check_eq_ok_iff.1 opens.accepted).2.1
  refine (copyEntries_carries (files.WaysOutside (top ++ names))
    (fun _ _ kept ways _ query entry outside held passes =>
      ways query entry (kept query entry outside held passes) passes) written
    (fun _ member => legal_of_opened prepared.confined.sound listing member)
    ⟨prepared.confined.sound.makeDirectories _, fun query entry outside held _ => ?_⟩).imp
      (fun _ _ held => held) fun _ _ => trivial
  exact grows_of_makeDirectories.kept query entry
    ((prepared.confined.outside query outside).trans held)

/-- Copying keeps what lies around the place that the target leads to. -/
theorem copyTree_around (standing : files.Standing) (written : target.bytes ≠ [])
    (replaceable : files.Replaceable target) :
    (copyTree source target).Ensures files
      (fun _ now => ∃ goal, now.Opens target goal ∧ files.Around goal now) fun _ => True := by
  refine copyTree_ensures trivial fun _ _ isDirectory _ foreseen _ => ?_
  obtain ⟨opened, opens⟩ := isDirectory_iff.1 isDirectory
  have some := (Path.check_eq_ok_iff.1 opens.accepted).2.1
  cases checked : target.check with
  | error cause =>
    exact (replaceTree_refused opens written
      ((length_absolute files target).trans_lt replaceable.short) checked).imp
        (fun _ _ never => never.elim) fun _ _ => trivial
  | ok _ =>
    obtain ⟨top, names, front, tail, foretold, _⟩ :=
      (standing.based target).forecast_ok checked replaceable.short foreseen
    have spared := replaceTree_spares standing.sound opens checked replaceable foretold
    cases present : files.isPresent target with
    | false =>
      refine (spared.and (replaceTree_ways standing.sound some present)).imp ?_ fun _ _ => trivial
      rintro _ now ⟨underway, _, ways⟩
      refine ⟨top ++ names, underway.opens, { underway.toSpares with
        ways := fun query entry _ => ways query entry, plain := fun link linked => ?_ }⟩
      have stands := ways _ _ linked rfl
      rw [underway.opens.directory] at stands
      cases stands
    | true =>
      obtain ⟨place, node, stat⟩ := isPresent_iff.1 present
      obtain ⟨rfl, rfl⟩ := foretold.of_stat stat
      refine (spared.and (replaceTree_outside standing.sound opens replaceable foretold)).imp ?_
        fun _ _ => trivial
      rintro _ now ⟨underway, _, ways⟩
      refine ⟨place ++ [], underway.opens, { underway.toSpares with ways := ways, plain := ?_ }⟩
      rw [List.append_nil]
      exact not_link_of_stat stat replaceable.plain

end Pass
end Retarget
