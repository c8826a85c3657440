import Retarget.Proofs.Run.Source

/-!
A run stays inside its target. Without links every path that is changed can be read: what is taken
away is the place that the target spells, what is made or written lies below it, and a file is
renamed where it is. Above the target only directories are made that were missing on the way.
-/
namespace Retarget

open Act FileSystem Pass

namespace FileSystem

variable {before now after : FileSystem} {source target : Path} {place : Place}

/-- A later state in which nothing changed outside a place, except that directories were made that
were missing above it. -/
structure Contained (before : FileSystem) (place : Place) (now : FileSystem) : Prop where
  sound : now.Sound
  cwd : now.cwd = before.cwd
  linkless : now.root.Linkless []
  outside : ∀ query, ¬place <+: query →
    now.root.entry? query = before.root.entry? query ∨
      query <+: place ∧ before.root.entry? query = none ∧
        now.root.entry? query = some .directory

theorem Contained.refl (sound : before.Sound) (linkless : before.root.Linkless []) (place : Place) :
    before.Contained place before :=
  ⟨sound, rfl, linkless, fun _ _ => .inl rfl⟩

/-- What changes inside the place is no matter, as long as no link is made. -/
theorem Contained.inside (contained : before.Contained place now) (sound : after.Sound)
    (cwd : after.cwd = now.cwd)
    (new : ∀ query entry, after.root.entry? query = some entry →
      now.root.entry? query = some entry ∨ ∀ link, entry ≠ .leaf (.link link))
    (outside : ∀ query, ¬place <+: query → after.root.entry? query = now.root.entry? query) :
    before.Contained place after := by
  refine ⟨sound, cwd.trans contained.cwd, contained.linkless.of_new new, fun query apart => ?_⟩
  rw [outside query apart]
  exact contained.outside query apart

theorem Contained.confined (contained : before.Contained place now)
    (confined : now.Confined place after) : before.Contained place after := by
  refine contained.inside confined.sound confined.cwd (fun query entry held => ?_) confined.outside
  cases entry with
  | directory => exact .inl (confined.ways query _ held rfl)
  | leaf content =>
    cases content with
    | link link => exact .inl (confined.ways query _ held rfl)
    | file contents => exact .inr (by simp)
    | special => exact .inr (by simp)

/-! ## Operations -/

theorem Contained.emptied (contained : before.Contained place now) {inner : Tree}
    (found : now.root.at? place = some (.branch inner)) :
    before.Contained place (now.emptied place) :=
  contained.inside (contained.sound.emptied found) rfl
    (fun query entry held => .inl (less_emptied found held))
    fun query apart => by rw [entry?_emptied found, if_neg fun both => apart both.1]

theorem Contained.drop (contained : before.Contained place now) {above : Place} {name : Bytes}
    (directory : now.root.entry? above = some .directory) (here : above ++ [name] = place) :
    before.Contained place (now.drop place) := by
  subst here
  exact contained.inside (contained.sound.drop directory) rfl
    (fun query entry held => .inl (less_drop directory held))
    fun query apart => by rw [entry?_drop directory, if_neg apart]

/-- Writing below the target stays inside. -/
theorem Contained.write (contained : before.Contained (target.placeFrom before.cwd) now)
    {names : Place} (legal : ∀ name ∈ names, Tree.Legal name) {contents : Bytes}
    (written : now.write (copyPath target names) contents = .ok after) :
    before.Contained (target.placeFrom before.cwd) after := by
  obtain ⟨spot, led, ⟨rfl, _⟩ | ⟨_, cwd, entries⟩⟩ := contained.sound.write_cases written
  · exact contained
  · have here : spot.place = target.placeFrom before.cwd ++ names := by
      rw [← placeFrom_copyPath legal, ← contained.cwd]
      exact led.lexical contained.linkless
    refine contained.inside (contained.sound.write written) cwd (fun query entry held => ?_)
      fun query apart => ?_
    · rw [entries] at held
      split at held
      · obtain rfl := Option.some.inj held
        exact .inr (by simp)
      · exact .inl held
    · rw [entries, if_neg]
      rintro rfl
      exact apart (here ▸ List.prefix_append _ _)

/-- A directory on the way to something below the target is missing only above or below its
place. -/
theorem Contained.makeDirectory (contained : before.Contained (target.placeFrom before.cwd) now)
    (reaches : before.Reaches target) {names : Place} (legal : ∀ name ∈ names, Tree.Legal name)
    {parent : Path} (onWay : parent.OnWay (copyPath target names))
    (made : now.makeDirectory parent = .ok after) :
    before.Contained (target.placeFrom before.cwd) after := by
  obtain ⟨place, name, named, free, cwd, entries⟩ := FileSystem.makeDirectory_ok made
  have sound := contained.sound.makeDirectory made
  have here := named.place_eq contained.linkless
  rw [contained.cwd] at here
  generalize place ++ [name] = fresh at here free entries
  have new : ∀ query entry, after.root.entry? query = some entry →
      now.root.entry? query = some entry ∨ ∀ link, entry ≠ .leaf (.link link) := by
    intro query entry held
    rw [entries] at held
    split at held
    · obtain rfl := Option.some.inj held
      exact .inr (by simp)
    · exact .inl held
  by_cases inside : target.placeFrom before.cwd <+: fresh
  · refine contained.inside sound cwd new fun query apart => ?_
    rw [entries, if_neg]
    rintro rfl
    exact apart inside
  · have absent : before.root.entry? fresh = none := by
      rcases contained.outside fresh inside with same | ⟨_, absent, _⟩
      · rw [← same, free]
      · exact absent
    have above : fresh <+: target.placeFrom before.cwd := by
      obtain ⟨rest, steps⟩ := onWay.steps
      rw [copyPath, Path.openSteps_join_place target legal] at steps
      rw [Path.placeFrom, onWay.start, start_copyPath target legal] at here
      rcases List.append_eq_append_iff.1 steps with ⟨more, short, _⟩ | ⟨more, long, inNames⟩
      · rw [here]
        refine (reaches _ ⟨more, short.symm⟩).resolve_left ?_
        rw [← here, absent]
        simp
      · obtain ⟨some, _, rfl, rfl, _⟩ := List.map_eq_append_iff.1 inNames
        rw [long, List.foldl_append, (Path.spelled_names some).foldl_from] at here
        exact absurd (here ▸ List.prefix_append _ _) inside
    refine ⟨sound, cwd.trans contained.cwd, contained.linkless.of_new new, fun query apart => ?_⟩
    rw [entries]
    split
    · rename_i same
      subst same
      exact .inr ⟨above, absent, rfl⟩
    · exact contained.outside query apart

theorem Contained.makeDirectories (contained : before.Contained (target.placeFrom before.cwd) now)
    (reaches : before.Reaches target) {names : Place} (legal : ∀ name ∈ names, Tree.Legal name) :
    before.Contained (target.placeFrom before.cwd)
      (now.makeDirectories (copyPath target names)).2 :=
  makeDirectories_keeps (before.Contained (target.placeFrom before.cwd))
    (fun _ _ _ onWay held made => held.makeDirectory reaches legal onWay made) contained

theorem Contained.removeTree (contained : before.Contained (target.placeFrom before.cwd) now) :
    before.Contained (target.placeFrom before.cwd) (now.removeTree target).2 := by
  rcases now.removeTree_cases target with ⟨cause, failed⟩ | ⟨place, link, found, _⟩ |
    ⟨place, inner, found, outcome⟩
  · rwa [failed]
  · exact absurd (Tree.entry?_eq_leaf.2 (lstat_iff.1 found).2.2) (contained.linkless place link)
  · obtain ⟨_, led, held⟩ := lstat_iff.1 found
    have here := place_eq_of_leads led contained.linkless
    rw [contained.cwd] at here
    subst here
    have emptied := contained.emptied held
    rcases outcome with removed | same
    · obtain ⟨above, name, names, _, whole⟩ := removeDirectory_ok removed
      have spelled := names.place_eq emptied.linkless
      rw [emptied.cwd] at spelled
      rw [whole, spelled]
      exact emptied.drop names.directory spelled
    · rwa [same]

theorem Contained.unlink (contained : before.Contained (target.placeFrom before.cwd) now)
    (removed : now.unlink target = .ok after) :
    before.Contained (target.placeFrom before.cwd) after := by
  obtain ⟨above, name, _, names, _, _, rfl⟩ := unlink_ok removed
  have spelled := names.place_eq contained.linkless
  rw [contained.cwd] at spelled
  rw [spelled]
  exact contained.drop names.directory spelled

end FileSystem

/-! ## Copying -/

namespace Pass

variable {files : FileSystem} {source target : Path}

/-- Copying stays inside the place that the target spells, however it ends, if what is missing above
is on the way to that place. -/
theorem copyTree_contained (sound : files.Sound) (linkless : files.root.Linkless [])
    (written : source.bytes ≠ [])
    (foretells : ∀ seen, files.forecast target = .ok seen → files.Reaches target) :
    (copyTree source target).Ensures files
      (fun _ => files.Contained (target.placeFrom files.cwd))
      (files.Contained (target.placeFrom files.cwd)) := by
  have start := Contained.refl sound linkless (target.placeFrom files.cwd)
  refine copyTree_ensures start fun _ _ _ _ foreseen _ => ?_
  have reaches := foretells _ foreseen
  have cleared : (clear target).Ensures files
      (fun _ => files.Contained (target.placeFrom files.cwd))
      (files.Contained (target.placeFrom files.cwd)) :=
    clear_ensures (fun _ => ⟨fun _ => start.removeTree, fun _ _ => start.removeTree⟩)
      (fun _ _ => ⟨fun _ removed => start.unlink removed, start⟩) fun _ => start
  refine Ensures.bind (cleared.imp (fun _ now held => ?_) fun _ held => held)
  refine Ensures.bind ((ensures_note _).2
    (Ensures.bind ((ensures_examine _).2 ⟨fun top _ => ?_, fun _ _ => held⟩)))
  exact copyFrom_keeps (files.Contained (target.placeFrom files.cwd)) written
    (fun _ held => held.sound) (fun _ _ legal held => held.makeDirectories reaches legal)
    (fun _ _ _ _ legal held done => held.write legal done) pathLimit [] [] (by simp) top.2.entry
    held

end Pass

/-! ## A run -/

namespace Job

variable {files : FileSystem} {root : Path} {stages : StageSet} {job : Job}

/-- A run stays inside the place that the target spells, however it ends, if what is missing above is
on the way to that place. -/
theorem run_contained_of_reaches (sound : files.Sound) (linkless : files.root.Linkless [])
    (foretells : ∀ seen, files.forecast (job.targetDirectory root) = .ok seen →
      files.Reaches (job.targetDirectory root))
    (slashless : stages.rename = true → Path.slash ∉ utf8 job.naming.target) :
    (job.run root stages).Ensures files
      (fun _ => files.Contained ((job.targetDirectory root).placeFrom files.cwd))
      (files.Contained ((job.targetDirectory root).placeFrom files.cwd)) := by
  generalize spelled : (job.targetDirectory root).placeFrom files.cwd = place
  have start := Contained.refl sound linkless place
  refine run_confined_ensures (files.Contained place) (fun _ held => held.sound) slashless ?_ start
    (fun valid => ⟨fun _ => ?_, fun _ => start⟩) fun _ held => held
  · intro now reached after held opens confined
    have here := opens.place_eq held.linkless
    rw [held.cwd, spelled] at here
    exact held.confined (here ▸ confined)
  · exact spelled ▸ copyTree_contained sound linkless (bytes_sourceDirectory valid) foretells

/-- With a forecast, what is missing above the target is on the way to it. -/
theorem run_contained_ensures (standing : files.Standing) (linkless : files.root.Linkless [])
    (slashless : stages.rename = true → Path.slash ∉ utf8 job.naming.target) :
    (job.run root stages).Ensures files
      (fun _ => files.Contained ((job.targetDirectory root).placeFrom files.cwd))
      (files.Contained ((job.targetDirectory root).placeFrom files.cwd)) :=
  run_contained_of_reaches standing.sound linkless
    (fun _ => standing.reaches_of_forecast linkless) slashless

/-- However a run ends where there are no links, outside the place that the target spells nothing
is other than before but directories that were missing above it; if the target leads to a directory,
it is at that place. And all that renaming does, to whatever files, is to give them other names in
their directories. -/
theorem run_stays_in_target (standing : files.Standing) (linkless : files.root.Linkless [])
    (slashless : stages.rename = true → Path.slash ∉ utf8 job.naming.target) (log : List Event) :
    (∀ reached, files.Opens (job.targetDirectory root) reached →
      reached = (job.targetDirectory root).placeFrom files.cwd) ∧
    (∀ query, ¬(job.targetDirectory root).placeFrom files.cwd <+: query →
      ((job.run root stages).runOn ⟨files, log⟩).2.files.root.entry? query =
          files.root.entry? query ∨
        query <+: (job.targetDirectory root).placeFrom files.cwd ∧
          files.root.entry? query = none ∧
          ((job.run root stages).runOn ⟨files, log⟩).2.files.root.entry? query =
            some .directory) ∧
    (job.violation? = none → stages.rename = true → ∀ now : FileSystem, now.Sound → ∀ log,
      Relation.ReflTransGen InPlace now
        ((renameFiles (job.targetDirectory root) job.naming).runOn ⟨now, log⟩).2.files) := by
  refine ⟨fun _ opens => opens.place_eq linkless,
    ((run_contained_ensures standing linkless slashless).always log).outside,
    fun valid asked now sound log => ?_⟩
  exact (renameFiles_inPlace sound (valid_of_violation? valid).2.2.2.1 (slashless asked)).always log

end Job

namespace TwoTrees

theorem linkless_everywhere : before.root.Linkless [] := by
  intro place link held
  have some : place ≠ [] := by
    rintro rfl
    simp at held
  have visited := (Tree.mem_walk wellFormed).2 ⟨some, held⟩
  rw [walk_before] at visited
  simp at visited

/-- A job whose target mark leads out of the directory of the file. -/
def outward : Job := { job "b" with naming := ⟨"D", "../x"⟩ }

end TwoTrees

namespace Job

theorem run_stays_in_target_replacing :
    (∃ report after, ((TwoTrees.job "b").run ⟨[]⟩ StageSet.all).runOn ⟨TwoTrees.before, []⟩ =
        (.ok report, after) ∧ report.renamed = [⟨⟨utf8 "D"⟩, ⟨utf8 "S"⟩, false⟩] ∧
      after.files.root.entry? [utf8 "b", utf8 "n", utf8 "Sy"] =
        some (.leaf (.file (utf8 "two singles")))) ∧
    (∀ query, ¬[utf8 "b"] <+: query →
      (((TwoTrees.job "b").run ⟨[]⟩ StageSet.all).runOn ⟨TwoTrees.before, []⟩).2.files.root.entry?
          query = TwoTrees.before.root.entry? query) ∧
    Relation.ReflTransGen InPlace TwoTrees.before
      ((renameFiles ((TwoTrees.job "b").targetDirectory ⟨[]⟩) (TwoTrees.job "b").naming).runOn
        ⟨TwoTrees.before, []⟩).2.files := by
  have spelled : ((TwoTrees.job "b").targetDirectory ⟨[]⟩).placeFrom TwoTrees.before.cwd =
      [utf8 "b"] := by rfl
  obtain ⟨_, outside, steps⟩ := @run_stays_in_target TwoTrees.before ⟨[]⟩ StageSet.all
    (TwoTrees.job "b") TwoTrees.standing TwoTrees.linkless_everywhere (fun _ => by decide) []
  rw [spelled] at outside
  obtain ⟨report, after, ran, _, renamed, _, _, _, rewritten⟩ := TwoTrees.run_all
  refine ⟨⟨report, after, ran, renamed, rewritten⟩, fun query apart => ?_,
    steps (by decide) rfl _ TwoTrees.standing.sound []⟩
  rcases outside query apart with same | ⟨above, free, _⟩
  · exact same
  · -- Above the place there is only the top, which is always there.
    have above : query <+: [] ++ [utf8 "b"] := above
    rcases List.prefix_concat_iff.1 above with rfl | top
    · exact absurd (List.prefix_refl _) apart
    · obtain rfl := List.prefix_nil.1 top
      simp at free

/-- A mark with a slash is accepted, and a file is renamed out of the target by it. -/
theorem file_renamed_out_of_target :
    TwoTrees.outward.violation? = none ∧ TwoTrees.before.Standing ∧
    TwoTrees.before.root.Linkless [] ∧
    (TwoTrees.outward.targetDirectory ⟨[]⟩).placeFrom TwoTrees.before.cwd = [utf8 "b"] ∧
    TwoTrees.before.root.entry? [utf8 "x"] = none ∧
    ∃ report after, (TwoTrees.outward.run ⟨[]⟩ StageSet.all).runOn ⟨TwoTrees.before, []⟩ =
      (.ok report, after) ∧
      after.files.root.entry? [utf8 "x"] = some (.leaf (.file (utf8 "a double"))) := by
  refine ⟨by decide, TwoTrees.standing, TwoTrees.linkless_everywhere, by rfl, by decide, ?_⟩
  obtain ⟨report, after, ran, moved⟩ := yields_iff.1 (by decide +kernel :
    (TwoTrees.outward.run ⟨[]⟩ StageSet.all).yields ⟨TwoTrees.before, []⟩ (fun _ after =>
      after.files.root.entry? [utf8 "x"] = some (.leaf (.file (utf8 "a double")))) = true)
  exact ⟨report, after, ran, by simpa using moved⟩

end Job
end Retarget
