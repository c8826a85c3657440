import Retarget.Proofs.Pass.Arrival
import Retarget.Proofs.Pass.Remaking

/-!
A target in which no file stands when copying begins. What stood at its end was taken away, and making
it makes nothing but directories, so a file could only be met where the path came to lead somewhere
else: through a link that went with the tree it stood in. A target that is not there leads to names
that are missing, however long the path is once it is made absolute.
-/
namespace Retarget

namespace FileSystem

open Pass Act

variable {files now goal : FileSystem} {source target path : Path} {place top above names : Place}
  {name : Bytes} {front tail : List Step}

/-! ## A target that is not there -/

/-- Of the names behind a place the first that is no directory begins what is missing. -/
theorem foretold_of_names (accepted : path.check = .ok ()) (absent : files.isPresent path = false)
    (steps : path.openSteps = front ++ tail) (spelled : Path.Spelled tail names)
    (led : Leads files.root true linkLimit (path.start files.cwd) front (.found top))
    (there : files.root.entry? top ≠ none)
    (onward : names = [] → files.root.entry? top = some .directory) :
    ∃ top names front tail, names ≠ [] ∧ files.Foretold path top names front tail := by
  induction names generalizing front tail top with
  | nil =>
    have directory := onward rfl
    have present := isPresent_of_leads accepted
      (steps ▸ led.append_idle directory spelled.idle) directory
    rw [absent] at present
    cases present
  | cons first rest ih =>
    obtain ⟨before, after, rfl, idle, behind⟩ := spelled.uncons
    by_cases further : ∃ reached, Leads files.root true linkLimit (path.start files.cwd)
        (front ++ (before ++ [.into first])) (.found reached) ∧
      files.root.entry? reached = some .directory
    · obtain ⟨reached, onTo, directory⟩ := further
      exact ih (by simp [steps]) behind onTo (by simp [directory]) fun _ => directory
    · refine ⟨top, first :: rest, front, _, by simp, steps, spelled, fun other member => ?_, led,
        there, by simp, fun _ => absent, fun _ _ same => ?_⟩
      · refine Path.legal_of_mem_openSteps (not_mem_of_check accepted) ?_
        rw [steps]
        exact List.mem_append_right _ (spelled.mem member)
      · obtain ⟨rfl, rfl⟩ := List.cons.inj same
        exact ⟨before, after, idle, rfl, fun reached onTo directory =>
          further ⟨reached, onTo, directory⟩⟩

/-- A forecast of a path that leads nowhere tells which of its names are missing. -/
theorem Standing.foretold_of_absent (standing : files.Standing) (accepted : path.check = .ok ())
    (absent : files.isPresent path = false) {seen : Path}
    (found : files.forecast path = .ok seen) :
    ∃ top names front tail, names ≠ [] ∧ files.Foretold path top names front tail := by
  obtain ⟨present, names, top, node, climbed, stat, _⟩ := climbed_of_forecast found
  obtain ⟨tail, whole, spelled⟩ := climbed.spelled
  have based := standing.based path
  have absolute := climbed.isAbsolute.trans (isAbsolute_absolute files path)
  obtain ⟨topAccepted, led, held⟩ := stat_iff.1 stat
  have led := leads_openSteps led
  rw [Path.start, absolute, if_pos rfl] at led
  rw [based.openSteps_absolute] at whole
  rcases List.append_eq_append_iff.1 whole with ⟨more, front, same⟩ | ⟨more, _, rfl⟩
  · rw [front, based.leads_iff] at led
    refine foretold_of_names accepted absent same spelled led (by simp [Tree.entry?, held])
      fun none => ?_
    -- Nothing was climbed, so the path is there as it was made absolute.
    cases climbed with
    | here =>
      have short := (Path.check_eq_ok_iff.1 topAccepted).2.2
      have there := isPresent_iff.2 ⟨top, node, (based.stat_absolute accepted short).1 stat⟩
      rw [absent] at there
      cases there
    | up _ _ _ _ => simp at none
  · -- Climbing went on into the working directory, and that is there.
    obtain ⟨_, back, _, _, spelled⟩ := spelled.cut
    exact foretold_of_names accepted absent (List.nil_append _).symm spelled .arrived
      (by simp [based.start]) fun _ => based.start

/-! ## Making a target where no file stands -/

/-- A target that, if it can be made, leads to a directory without files. -/
def Vacated (now : FileSystem) (target : Path) : Prop :=
  target.check = .ok () → (now.makeDirectories (copyPath target [])).1 = .ok () →
    ∃ place, (now.makeDirectories (copyPath target [])).2.Opens target place ∧
      (now.makeDirectories (copyPath target [])).2.Vacant place

/-- Making the target leads to no file where it can lead to none in the goal. -/
theorem Within.vacated (within : now.Within goal) (holds : goal.Holds target)
    (vacant : ∀ reached, goal.Opens target reached → goal.Vacant reached) : now.Vacated target := by
  intro accepted made
  have made : now.makeDirectories (copyPath target []) =
      (.ok (), (now.makeDirectories (copyPath target [])).2) := by rw [← made]
  have inGoal := within.makeDirectories holds.copyPath
  obtain ⟨place, opens⟩ := opens_of_made accepted made
  exact ⟨place, opens, fun below content held =>
    vacant place (opens.carry inGoal.ways inGoal.cwd.symm) below content (inGoal.same _ _ held)⟩

theorem Freed.vacated {before : FileSystem} (freed : before.Freed target place now goal) :
    now.Vacated target :=
  freed.within.vacated freed.holds fun reached opens => by
    obtain ⟨rfl, vacant⟩ := freed.only reached opens
    exact vacant

/-! ## A target that was taken away -/

/-- The files with all but directories taken away where a node stood. -/
def razed (files : FileSystem) (place : Place) : Node → FileSystem
  | .branch _ => files.stripped place
  | .leaf _ => files.put place (.branch .empty)

/-- A path does not lead through a link in what stands at its end: with directories alone in its
place, the path leads there. -/
def Grounded (files : FileSystem) (path : Path) : Prop :=
  ∀ place node, files.isPresent path = true → files.lstat path = .ok (place, node) →
    (files.razed place node).Opens path place

theorem Within.trans (first : files.Within now) (second : now.Within goal) : files.Within goal := by
  refine ⟨first.cwd.trans second.cwd, fun query entry held =>
    second.same query entry (first.same query entry held), fun query entry held absent => ?_⟩
  cases middle : now.root.entry? query with
  | none => exact second.missing query entry held middle
  | some stands =>
    obtain rfl := Option.some.inj (held.symm.trans (second.same query stands middle))
    exact first.missing query entry middle absent

/-- An empty directory that is taken out is lacking. -/
theorem within_drop (directory : files.root.entry? above = some .directory)
    (empty : files.root.at? (above ++ [name]) = some (.branch .empty)) :
    (files.drop (above ++ [name])).Within files := by
  obtain ⟨inner, found⟩ := Tree.entry?_eq_directory.1 directory
  have bare : files.root.Bare (above ++ [name]) := fun below more => by
    rw [Tree.entry?_append_branch empty, Tree.entry?_empty, if_neg more]
  have entries := Tree.entry?_remove_bare found bare
  refine ⟨rfl, fun query entry held => ?_, fun query entry held absent => ?_⟩
  · rw [drop_root, entries] at held
    split at held
    · cases held
    · exact held
  · rw [drop_root, entries] at absent
    split at absent
    · rename_i here
      subst here
      exact Option.some.inj (held.symm.trans (Tree.entry?_eq_directory.2 ⟨_, empty⟩))
    · rw [held] at absent
      cases absent

/-- A directory that was emptied, and taken out where that was possible, is made again. -/
theorem freed_of_directory (sound : files.Sound) {inner : Tree}
    (found : files.root.at? place = some (.branch inner))
    (opens : (files.stripped place).Opens target place)
    (outcome : (files.emptied place).removeDirectory target = .ok now ∨
      now = files.emptied place) : files.Freed target place now (files.stripped place) := by
  have directory := Tree.entry?_eq_directory.2 ⟨inner, found⟩
  have entries := entry?_stripped sound directory
  have vacant : (files.stripped place).Vacant place := fun below content held => by
    rw [entries] at held
    split at held
    · cases held
    · rename_i kept
      exact kept ⟨List.prefix_append _ _, by rw [held]; simp⟩
  have outside : ∀ query, ¬place <+: query →
      (files.stripped place).root.entry? query = files.root.entry? query := fun query outside => by
    rw [entries, if_neg fun both => outside both.1]
  have emptied := within_stripped sound directory
  have same : ∀ query, ¬place <+: query →
      (files.emptied place).root.entry? query = files.root.entry? query := fun query outside => by
    rw [entry?_emptied found, if_neg fun both => outside both.1]
  rcases outcome with removed | rfl
  · obtain ⟨above, name, names, empty, rfl⟩ := removeDirectory_ok removed
    have taken := within_drop names.directory empty
    -- What could be taken out is the directory at the place.
    obtain rfl := ((names.opens (Tree.entry?_eq_directory.2 ⟨_, empty⟩)).carry emptied.ways
      emptied.cwd.symm).unique opens
    have less : ∀ query entry,
        ((files.emptied (above ++ [name])).drop (above ++ [name])).root.entry? query = some entry →
          files.root.entry? query = some entry :=
      fun query entry held => less_emptied found (taken.same query entry held)
    obtain ⟨tree, there⟩ := names.at?
    have bare : (files.emptied (above ++ [name])).root.Bare (above ++ [name]) := fun below more => by
      rw [Tree.entry?_append_branch empty, Tree.entry?_empty, if_neg more]
    refine ⟨confined_of_less ((sound.emptied found).removeDirectory removed) rfl less
      fun query beyond => ?_, less, taken.trans emptied, opens.holds, fun query beyond =>
        .inl (outside query beyond), fun reached reaches => ⟨reaches.unique opens, vacant⟩⟩
    rw [drop_root, Tree.entry?_remove_bare there bare, if_neg, same query beyond]
    rintro rfl
    exact beyond (List.prefix_refl _)
  · have less : ∀ query entry, (files.emptied place).root.entry? query = some entry →
        files.root.entry? query = some entry := fun _ _ held => less_emptied found held
    exact ⟨confined_of_less (sound.emptied found) rfl less same, less, emptied, opens.holds,
      fun query beyond => .inl (outside query beyond),
      fun reached reaches => ⟨reaches.unique opens, vacant⟩⟩

/-- A file or a link that was taken out is made again as a directory. -/
theorem freed_of_leaf (sound : files.Sound)
    (directory : files.root.entry? above = some .directory) {content : Leaf}
    (leaf : files.root.entry? (above ++ [name]) = some (.leaf content))
    (opens : (files.put (above ++ [name]) (.branch .empty)).Opens target (above ++ [name])) :
    files.Freed target (above ++ [name]) (files.drop (above ++ [name]))
      (files.put (above ++ [name]) (.branch .empty)) := by
  obtain ⟨inner, found⟩ := Tree.entry?_eq_directory.1 directory
  have dropped : ∀ query, (files.drop (above ++ [name])).root.entry? query =
      if query = above ++ [name] then none else files.root.entry? query :=
    Tree.entry?_remove_bare found (Tree.bare_of_leaf leaf)
  have entries := entry?_put_directory directory (Tree.bare_of_leaf leaf)
  have apart : ∀ query, ¬above ++ [name] <+: query → query ≠ above ++ [name] := by
    rintro query beyond rfl
    exact beyond (List.prefix_refl _)
  have less : ∀ query entry, (files.drop (above ++ [name])).root.entry? query = some entry →
      files.root.entry? query = some entry := by
    intro query entry held
    rw [dropped] at held
    split at held
    · cases held
    · exact held
  have within : (files.drop (above ++ [name])).Within
      (files.put (above ++ [name]) (.branch .empty)) := by
    refine ⟨rfl, fun query entry held => ?_, fun query entry held absent => ?_⟩
    · rw [dropped] at held
      rw [entries]
      split at held
      · cases held
      · rename_i other
        rw [if_neg other, held]
    · rw [dropped] at absent
      rw [entries] at held
      split at held
      · exact (Option.some.inj held).symm
      · rename_i other
        rw [if_neg other, held] at absent
        cases absent
  refine ⟨confined_of_less (sound.drop directory) rfl less fun query beyond => ?_, less, within,
    opens.holds, fun query beyond => .inl ?_, fun reached reaches => ⟨reaches.unique opens,
      vacant_of_bare opens.directory fun below more => ?_⟩⟩
  · rw [dropped, if_neg (apart query beyond)]
  · rw [entries, if_neg (apart query beyond)]
  · rw [entries, if_neg (by simpa using more), Tree.bare_of_leaf leaf below more]

theorem Standing.exists_lands (standing : files.Standing) (accepted : target.check = .ok ())
    {seen : Path} (foreseen : files.forecast target = .ok seen) :
    ∃ place, files.Lands target place := by
  cases present : files.isPresent target with
  | true =>
    obtain ⟨place, node, found⟩ := exists_lstat present
    exact ⟨place, .there present found⟩
  | false =>
    obtain ⟨top, names, front, tail, some, foretold⟩ :=
      standing.foretold_of_absent accepted present foreseen
    exact ⟨_, .missing some foretold⟩

/-- A target that does not lead through what is taken away is cleared, and nothing changes outside the
place where the copy will stand. -/
theorem clear_frees (sound : files.Sound) (grounded : files.Grounded target)
    (lands : files.Lands target place) :
    (clear target).Ensures files (fun _ now => ∃ goal, files.Freed target place now goal)
      (files.Confined place) := by
  cases lands with
  | missing some foretold =>
    have absent := foretold.absent some
    refine clear_ensures (fun directory => ?_) (fun _ present => ?_) fun _ => ?_
    · obtain ⟨_, opens⟩ := isDirectory_iff.1 directory
      obtain ⟨inner, stat⟩ := opens_iff.1 opens
      rw [isPresent_iff.2 ⟨_, _, stat⟩] at absent
      cases absent
    · rw [present] at absent
      cases absent
    · obtain ⟨goal, prepared⟩ := foretold.prepared_absent sound some
      exact ⟨goal, prepared.freed⟩
  | there present found =>
    refine clear_ensures (fun _ => ?_) (fun _ _ => ⟨fun now removed => ?_, .refl sound _⟩)
      fun absent => by rw [present] at absent; cases absent
    · rcases files.removeTree_cases target with ⟨cause, failed⟩ | ⟨other, link, also, removed⟩ |
        ⟨other, tree, also, outcome⟩
      · rw [failed]
        exact ⟨(fun done => by cases done), fun _ _ => .refl sound _⟩
      · obtain ⟨rfl, rfl⟩ := Prod.mk.inj (Except.ok.inj (found.symm.trans also))
        have linked := Tree.entry?_eq_leaf.2 (lstat_iff.1 found).2.2
        obtain ⟨above, name, rfl, parent, _⟩ := sound.of_leaf linked
        have freed := freed_of_leaf sound parent linked (grounded _ _ present found)
        rw [removed]
        exact ⟨fun _ => ⟨_, freed⟩, fun _ _ => freed.confined⟩
      · obtain ⟨rfl, rfl⟩ := Prod.mk.inj (Except.ok.inj (found.symm.trans also))
        have freed := freed_of_directory sound (lstat_iff.1 found).2.2
          (grounded _ _ present found) outcome
        exact ⟨fun _ => ⟨_, freed⟩, fun _ _ => freed.confined⟩
    · obtain ⟨above, name, content, names, closed, leaf, rfl⟩ := unlink_ok removed
      have also := names.lstat_closed closed (Tree.entry?_eq_leaf.1 leaf)
      obtain ⟨rfl, rfl⟩ := Prod.mk.inj (Except.ok.inj (found.symm.trans also))
      exact ⟨_, freed_of_leaf sound names.directory leaf (grounded _ _ present also)⟩

/-- Once the way is clear, a target that does not lead through what was taken away is made without a
file in it. -/
theorem clear_vacates (standing : files.Standing) (grounded : files.Grounded target) {seen : Path}
    (foreseen : files.forecast target = .ok seen) :
    (clear target).Ensures files (fun _ now => now.Vacated target) fun _ => True := by
  by_cases accepted : target.check = .ok ()
  · obtain ⟨place, lands⟩ := standing.exists_lands accepted foreseen
    exact (clear_frees standing.sound grounded lands).imp
      (fun _ _ ⟨_, freed⟩ => freed.vacated) fun _ _ => trivial
  · exact ensures_of_forall fun _ now => fun isAccepted => absurd isAccepted accepted

/-- A target that leads to a directory, and without the links in it still does, is grounded. -/
theorem Direct.grounded (direct : files.Direct target)
    (plain : ∀ place link, files.lstat target ≠ .ok (place, .leaf (.link link)))
    (isDirectory : files.isDirectory target = true) : files.Grounded target := by
  obtain ⟨reached, opens⟩ := isDirectory_iff.1 isDirectory
  obtain ⟨inner, found⟩ := opens.lstat plain
  rintro place node _ also
  rw [found] at also
  cases also
  exact direct _ opens

/-! ## Where copying begins -/

/-- Copying begins in a target without files and goes through a list of names of its source. -/
theorem copyTree_begins {good : Nat → FileSystem → Prop} (standing : files.Standing)
    (grounded : files.Grounded target) (written : target.bytes ≠ [])
    (begun : ∀ place opened entries made, made.Underway target place made → made.Vacant place →
      source.bytes ≠ [] → (∀ item ∈ entries, Tree.Legal item.1) → (entries.map Prod.fst).Nodup →
      (copyEntries source target 4095 [⟨source, opened⟩] source entries).Ensures made good
        fun _ => True) :
    (copyTree source target).Ensures files good fun _ => True := by
  refine copyTree_ensures trivial fun _ _ isDirectory _ foreseen _ => ?_
  obtain ⟨opened, opens⟩ := isDirectory_iff.1 isDirectory
  have some := (Path.check_eq_ok_iff.1 opens.accepted).2.1
  refine Ensures.bind (((clear_shrinks standing.sound target).and
    (clear_vacates standing grounded foreseen)).imp (fun _ now ⟨shrinks, vacated⟩ => ?_)
      fun _ _ => trivial)
  refine copyInto_ensures some opens shrinks.less shrinks.cwd fun entries sourced made => ?_
  have accepted := accepted_of_made written foreseen made
  obtain ⟨place, leads, vacant⟩ := vacated accepted made
  have formed : (now.makeDirectories (copyPath target [])).2.Sound :=
    shrinks.sound.makeDirectories _
  refine begun place opened entries _ ⟨(Confined.refl formed place).spares, leads, vacant.linkless⟩
    vacant some (fun item => legal_of_opened shrinks.sound sourced.opened) ?_
  obtain ⟨inner, stat, rfl⟩ := opened_ok sourced.opened
  rw [List.map_map]
  exact Tree.nodup_listing (shrinks.sound.wellFormed.at? (stat_iff.1 stat).2.2).2

end FileSystem
end Retarget
