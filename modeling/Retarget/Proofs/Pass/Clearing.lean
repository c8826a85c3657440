import Retarget.Proofs.Change.Confined
import Retarget.Proofs.Change.Goal
import Retarget.Proofs.Pass.Copying
import Retarget.Proofs.Resolution.Forecast

/-!
Clearing the way for a copy. What stands where the copy will be is taken away and nothing else, and
what making the target can then do is known beforehand: at most the directories down to the place
that was forecast are made, and where the target leads to a directory, it leads to that place and
the directory is empty.
-/
namespace Retarget

namespace FileSystem

variable {files before now goal after : FileSystem} {target : Path} {place top rest : Place}
  {first : Bytes} {front tail : List Step}

/-- A path does not lead through the tree that stands where it leads. -/
def Steady (files : FileSystem) (path : Path) :
    Prop := ∀ place, files.Opens path place → (files.emptied place).Opens path place

/-- A path that a copy can be put under in place of what is there: whole it is not too long, it is
no link, and it does not lead through what is replaced. -/
structure Replaceable (files : FileSystem) (target : Path) : Prop where
  short : (files.absolute target).bytes.length < pathLimit
  plain : ∀ place link, files.lstat target ≠ .ok (place, .leaf (.link link))
  steady : files.Steady target

/-- The way for a copy is clear: a goal bounds what making the target does, and the target leads to
nothing in it but the place of the copy, empty. -/
structure Prepared (before : FileSystem) (target : Path) (place : Place) (now goal : FileSystem) :
    Prop where
  confined : before.Confined place now
  less : ∀ query entry, now.root.entry? query = some entry → before.root.entry? query = some entry
  within : now.Within goal
  holds : goal.Holds target
  made : ∀ query, ¬place <+: query →
      goal.root.entry? query = before.root.entry? query ∨ query <+: place
  only : ∀ reached, goal.Opens target reached → reached = place ∧ goal.root.Bare place

/-- Nothing but directories stands at a place and below it. -/
def Vacant (files : FileSystem) (place : Place) : Prop :=
  ∀ below content, files.root.entry? (place ++ below) ≠ some (.leaf content)

/-- The way for a copy is clear of files: as when it is prepared, but directories may be left, or made
again, where the copy will be. -/
structure Freed (before : FileSystem) (target : Path) (place : Place) (now goal : FileSystem) :
    Prop where
  confined : before.Confined place now
  less : ∀ query entry, now.root.entry? query = some entry → before.root.entry? query = some entry
  within : now.Within goal
  holds : goal.Holds target
  made : ∀ query, ¬place <+: query →
      goal.root.entry? query = before.root.entry? query ∨ query <+: place
  only : ∀ reached, goal.Opens target reached → reached = place ∧ goal.Vacant place

theorem vacant_of_bare (directory : files.root.entry? place = some .directory)
    (bare : files.root.Bare place) : files.Vacant place := by
  intro below content held
  by_cases top : below = []
  · rw [top, List.append_nil, directory] at held
    cases held
  · rw [bare below top] at held
    cases held

theorem Prepared.freed (prepared : before.Prepared target place now goal) :
    before.Freed target place now goal := by
  refine ⟨prepared.confined, prepared.less, prepared.within, prepared.holds, prepared.made,
    fun reached opens => ?_⟩
  obtain ⟨rfl, bare⟩ := prepared.only reached opens
  exact ⟨rfl, vacant_of_bare opens.directory bare⟩

theorem confined_of_less (sound : now.Sound) (cwd : now.cwd = before.cwd)
    (less : ∀ query entry, now.root.entry? query = some entry →
      before.root.entry? query = some entry)
    (outside : ∀ query, ¬place <+: query → now.root.entry? query = before.root.entry? query) :
    before.Confined place now :=
  ⟨sound, cwd, fun query entry held _ => less query entry held, outside⟩

/-! ## A name that is not there -/

/-- Every name before the last of a chain that was laid is a directory. -/
theorem entry?_lay_prefix (directory : files.root.entry? top = some .directory)
    (free : files.root.entry? (top ++ [first]) = none)
    {names : Place} (below : names <+: first :: rest) :
    (files.lay top first rest).root.entry? (top ++ names) = some .directory := by
  rw [entry?_lay directory free]
  cases names with
  | nil => simp [directory]
  | cons name others =>
    obtain ⟨rfl, _⟩ := List.cons_prefix_cons.1 below
    rw [if_pos ⟨⟨others, by simp⟩, (List.prefix_append_right_inj _).2 below⟩]

theorem Foretold.prepared_chain (sound : files.Sound)
    (foretold : files.Foretold target top (first :: rest) front tail)
    (directory : files.root.entry? top = some .directory)
    (free : files.root.entry? (top ++ [first]) = none) :
    files.Prepared target (top ++ first :: rest) files (files.lay top first rest) := by
  have within : files.Within (files.lay top first rest) := within_lay directory free
  have down : ∀ {names : Place}, names <+: first ::
      rest → (files.lay top first rest).root.entry? (top ++ names) = some .directory :=
    fun below => entry?_lay_prefix directory free below
  have kept := down List.nil_prefix
  rw [List.append_nil] at kept
  have led : Leads (files.lay top first rest).root true linkLimit (target.start files.cwd) front
      (.found top) :=
    foretold.leads.carry within.ways (kept.trans directory.symm)
  refine ⟨.refl sound _, fun _ _ held => held, within,
    fun earlier name later steps middle there _ => ?_, fun query _ => ?_, fun reached opens => ?_⟩
  · rcases Path.step_of_append (foretold.steps.symm.trans steps) with
        ⟨more, inFront⟩ | ⟨between, rfl, whole⟩
    · rw [inFront] at led
      exact led.taken there
    · have spelled := foretold.spelled
      rw [whole] at spelled
      obtain ⟨names, others, same, reaches, _⟩ := spelled.split
      obtain ⟨left, onward⟩ := there.behind led
      obtain rfl := onward.spelled (down (same ▸ List.prefix_append _ _)) reaches
      rw [List.append_assoc, down ⟨others, by simp [same]⟩]
      simp
  · rw [entry?_lay directory free]
    split
    · rename_i both
      exact .inr both.2
    · exact .inl rfl
  · have whole := opens.leads
    rw [foretold.steps] at whole
    obtain ⟨left, onward⟩ := whole.behind led
    refine ⟨onward.spelled (down (List.prefix_refl _)) foretold.spelled, fun below some => ?_⟩
    rw [entry?_lay directory free, if_neg fun both => some ?_]
    · have regrouped : top ++ first :: rest ++ below = top ++ [first] ++ (rest ++ below) := by simp
      rw [regrouped, Tree.entry?_append_of_none free]
    · have short := both.2.length_le
      simp only [List.length_append, List.length_cons] at short
      exact List.eq_nil_of_length_eq_zero (by omega)

/-- Where the first name cannot be made, nothing is. -/
theorem Foretold.prepared_stuck (sound : files.Sound)
    (foretold : files.Foretold target top (first :: rest) front tail)
    (stuck : files.root.entry? top = some .directory → files.root.entry? (top ++ [first]) ≠ none) :
    files.Prepared target (top ++ first :: rest) files files := by
  refine ⟨.refl sound _, fun _ _ held => held, .refl files,
    fun earlier name later steps middle there directory => ?_, fun _ _ => .inl rfl,
    fun reached opens => ?_⟩
  · rcases Path.step_of_append (foretold.steps.symm.trans steps) with
        ⟨more, inFront⟩ | ⟨between, rfl, whole⟩
    · have led := foretold.leads
      rw [inFront] at led
      exact led.taken there
    · have spelled := foretold.spelled
      rw [whole] at spelled
      obtain ⟨names, others, same, reaches, _⟩ := spelled.split
      cases names with
      | nil =>
        obtain ⟨rfl, rfl⟩ := List.cons.inj same
        obtain ⟨left, onward⟩ := there.behind foretold.leads
        have topDirectory : files.root.entry? top = some .directory := by
          cases between with
          | nil =>
            cases onward
            exact directory
          | cons step more => exact onward.directory_of_cons
        obtain rfl := onward.spelled (by simpa using topDirectory) reaches
        simpa using stuck topDirectory
      | cons other more =>
        obtain ⟨rfl, _⟩ := List.cons.inj same
        exact absurd directory (foretold.lost whole reaches there)
  · have whole := opens.leads
    rw [foretold.steps] at whole
    exact absurd opens.directory (foretold.lost (List.append_nil _).symm foretold.spelled whole)

theorem Foretold.prepared_absent (sound : files.Sound) {names : Place}
    (foretold : files.Foretold target top names front tail)
    (some : names ≠ []) : ∃ goal, files.Prepared target (top ++ names) files goal := by
  obtain ⟨first, rest, rfl⟩ := List.exists_cons_of_ne_nil some
  by_cases free : files.root.entry? top = .some .directory ∧
    files.root.entry? (top ++ [first]) = none
  · exact ⟨_, foretold.prepared_chain sound free.1 free.2⟩
  · exact ⟨_, foretold.prepared_stuck sound fun directory => fun none => free ⟨directory, none⟩⟩

/-! ## A directory -/

/-- Removing a directory fails at once, or empties it and may take it out as well. -/
theorem Opens.removeTree_cases (opens : files.Opens target place)
    (plain : ∀ place link, files.lstat target ≠ .ok (place, .leaf (.link link))) :
    (∃ cause, files.removeTree target = (.error cause, files)) ∨
      (files.emptied place).removeDirectory target = .ok (files.removeTree target).2 ∨
      (files.removeTree target).2 = files.emptied place := by
  rcases files.removeTree_cases target with failed | ⟨_, _, found, _⟩ |
    ⟨reached, inner, found, outcome⟩
  · exact .inl failed
  · exact absurd found (plain _ _)
  · obtain ⟨accepted, led, held⟩ := lstat_iff.1 found
    have directory : files.root.entry? reached = some .directory :=
      Tree.entry?_eq_directory.2 ⟨inner, held⟩
    have followed := leads_openSteps
      (led.follow_end fun link same => by rw [directory] at same; cases same)
    obtain rfl := opens.unique ⟨accepted, followed, directory⟩
    exact .inr outcome

/-- Removing a directory succeeds where it could be taken out, or could not be found for that. -/
theorem Opens.removeTree_ok (opens : files.Opens target place)
    (plain : ∀ place link, files.lstat target ≠ .ok (place, .leaf (.link link)))
    (done : (files.removeTree target).1 = .ok ()) :
    (files.emptied place).removeDirectory target = .ok (files.removeTree target).2 ∨
      (files.emptied place).removeDirectory target = .error .notFound ∧
        (files.removeTree target).2 = files.emptied place := by
  obtain ⟨inner, found⟩ := opens.lstat plain
  have emptied : { files with root := files.root.modify (fun _ => .empty) place } =
      files.emptied place := rfl
  simp only [removeTree, found, emptied] at done ⊢
  cases removed : (files.emptied place).removeDirectory target with
  | ok after => simp
  | error cause => cases cause <;> simp [removed] at done ⊢

/-- A state is prepared when it is the goal but for the directory at the place, and the goal is what
was there before but for that directory, which is empty in it. -/
theorem prepared_bare (still : goal.Opens target place) (bare : goal.root.Bare place)
    (beside : ∀ query, ¬place <+: query → goal.root.entry? query = before.root.entry? query)
    (sound : now.Sound) (cwd : now.cwd = before.cwd) (goalCwd : goal.cwd = now.cwd)
    (less : ∀ query entry, now.root.entry? query = some entry →
      before.root.entry? query = some entry)
    (differs : ∀ query, now.root.entry? query = goal.root.entry? query ∨
      query = place ∧ now.root.entry? query = none) :
    before.Prepared target place now goal := by
  have confined : before.Confined place now := by
    refine confined_of_less sound cwd less fun query outside => ?_
    rcases differs query with same | ⟨rfl, _⟩
    · rw [same, beside query outside]
    · exact absurd (List.prefix_refl _) outside
  have within : now.Within goal := by
    refine ⟨goalCwd.symm, fun query entry held => ?_, fun query entry held absent => ?_⟩
    · rcases differs query with same | ⟨_, none⟩
      · rw [← same, held]
      · rw [none] at held
        cases held
    · rcases differs query with same | ⟨rfl, _⟩
      · rw [same, held] at absent
        cases absent
      · rw [still.directory] at held
        exact (Option.some.inj held).symm
  exact ⟨confined, less, within, still.holds, fun query outside => .inl (beside query outside),
    fun reached reaches => ⟨reaches.unique still, bare⟩⟩

theorem prepared_emptied (sound : files.Sound) (opens : files.Opens target place)
    (steady : files.Steady target)
    (outcome : (files.emptied place).removeDirectory target = .ok now ∨ now = files.emptied place) :
    files.Prepared target place now (files.emptied place) := by
  obtain ⟨inner, found⟩ := Tree.entry?_eq_directory.1 opens.directory
  have still := steady place opens
  have entries := entry?_emptied found
  have bare : (files.emptied place).root.Bare place := fun below some => by
    rw [entries, if_pos ⟨List.prefix_append _ _, by simpa using some⟩]
  have emptiedLess : ∀ query entry, (files.emptied place).root.entry? query = some entry →
      files.root.entry? query = some entry := fun _ _ held => less_emptied found held
  have beside : ∀ query, ¬place <+: query →
      (files.emptied place).root.entry? query = files.root.entry? query := fun query outside => by
    rw [entries, if_neg fun both => outside both.1]
  rcases outcome with removed | rfl
  · -- The directory itself is gone as well.
    obtain ⟨above, name, names, empty, rfl⟩ := removeDirectory_ok removed
    obtain ⟨held, there⟩ := names.at?
    obtain rfl := still.unique (names.opens (Tree.entry?_eq_directory.2 ⟨_, empty⟩))
    have dropped := Tree.entry?_remove_bare there bare
    refine prepared_bare still bare beside ((sound.emptied found).removeDirectory removed) rfl rfl
      (fun query entry held => ?_) fun query => ?_
    · rw [drop_root, dropped] at held
      split at held
      · cases held
      · exact emptiedLess query entry held
    · rw [drop_root, dropped]
      split
      · rename_i here
        exact .inr ⟨here, rfl⟩
      · exact .inl rfl
  · exact prepared_bare still bare beside (sound.emptied found) rfl rfl emptiedLess
      fun _ => .inl rfl

/-! ## A file -/

/-- A leaf that is taken out under a path that is no link is the one the path leads to. -/
theorem unlink_here {content : Leaf} (stat : files.stat target = .ok (place, .leaf content))
    (plain : ∀ place link, files.lstat target ≠ .ok (place, .leaf (.link link)))
    (removed : files.unlink target = .ok now) :
    ∃ above name held, place = above ++ [name] ∧ files.Names target above name ∧
      files.root.entry? place = some (.leaf held) ∧ (∀ link, held ≠ .link link) ∧
      now = files.drop place := by
  obtain ⟨above, name, held, names, closed, leaf, rfl⟩ := unlink_ok removed
  obtain ⟨before, steps, led⟩ := names.steps
  have written : target.steps = before ++ [.into name] := by simp [Path.steps, closed, steps]
  have plainHere : ∀ link, held ≠ .link link := by
    rintro link rfl
    refine plain (above ++ [name]) link
      (lstat_iff.2 ⟨names.accepted, ?_, Tree.entry?_eq_leaf.1 leaf⟩)
    rw [written]
    have last : Leads files.root false 0 above [.into name] (.found (above ++ [name])) :=
      .atLink names.directory names.short leaf rfl
    exact led.append last (by simp)
  obtain rfl : place = above ++ [name] := by
    obtain ⟨_, reaches, _⟩ := stat_iff.1 stat
    rw [written] at reaches
    have last : Leads files.root true 0 above [.into name] (.found (above ++ [name])) :=
      .into names.directory names.short leaf
        (fun link same => plainHere link (Entry.leaf.inj same)) .arrived
    exact Spot.found.inj (reaches.unique (led.append last (by simp)))
  exact ⟨above, name, held, rfl, names, leaf, plainHere, rfl⟩

theorem prepared_unlinked (sound : files.Sound) {content : Leaf}
    (stat : files.stat target = .ok (place, .leaf content))
    (plain : ∀ place link, files.lstat target ≠ .ok (place, .leaf (.link link)))
    (removed : files.unlink target = .ok now) :
    ∃ goal, files.Prepared target place now goal := by
  obtain ⟨above, name, held, rfl, names, leaf, plainHere, rfl⟩ := unlink_here stat plain removed
  obtain ⟨inner, found⟩ := names.at?
  have bare := Tree.bare_of_leaf leaf
  have entries : ∀ query, (files.drop (above ++ [name])).root.entry? query =
      if query = above ++ [name] then none else files.root.entry? query :=
    Tree.entry?_remove_bare found bare
  let goal := files.put (above ++ [name]) (.branch .empty)
  have goalEntries : ∀ query, goal.root.entry? query =
      if query = above ++ [name] then some .directory else files.root.entry? query :=
    entry?_put_directory names.directory bare
  have ways : files.root.WaysIn goal.root := by
    intro query entry there passable
    rw [goalEntries, if_neg, there]
    rintro rfl
    rw [leaf] at there
    cases there
    cases held with
    | link link => exact plainHere link rfl
    | file _ => cases passable
    | special => cases passable
  have reaches : goal.Opens target (above ++ [name]) :=
    (names.carry ways rfl).opens (by rw [goalEntries, if_pos rfl])
  refine ⟨goal, prepared_bare reaches (fun below some => ?_) (fun query outside => ?_)
    (sound.drop names.directory) rfl rfl (fun query entry there => ?_) fun query => ?_⟩
  · rw [goalEntries, if_neg (by simpa using some), bare below some]
  · rw [goalEntries, if_neg]
    rintro rfl
    exact outside (List.prefix_refl _)
  · rw [entries] at there
    split at there
    · cases there
    · exact there
  · rw [entries, goalEntries]
    split
    · rename_i here
      exact .inr ⟨here, rfl⟩
    · exact .inl rfl

/-! ## The way for a copy -/

/-- A path that leads somewhere was foretold to lead there. -/
theorem Foretold.of_stat {names : Place} (foretold : files.Foretold target top names front tail)
    {node : Node} (stat : files.stat target = .ok (place, node)) : names = [] ∧ place = top := by
  by_cases some : names = []
  · obtain ⟨other, given⟩ := foretold.present some
    rw [given] at stat
    cases stat
    exact ⟨some, rfl⟩
  · have present := isPresent_iff.2 ⟨place, node, stat⟩
    rw [foretold.absent some] at present
    cases present

/-- Where the copy of a tree will stand: where something stands under the target, a link being one
thing more, or under the names that are missing. -/
inductive Lands (files : FileSystem) (target : Path) : Place → Prop
  | missing {top names : Place} {front tail : List Step} (some : names ≠ [])
      (foretold : files.Foretold target top names front tail) : Lands files target (top ++ names)
  | there {place : Place} {node : Node} (present : files.isPresent target = true)
      (found : files.lstat target = .ok (place, node)) : Lands files target place

theorem Foretold.lands {names : Place} (foretold : files.Foretold target top names front tail)
    (plain : ∀ place link, files.lstat target ≠ .ok (place, .leaf (.link link))) :
    files.Lands target (top ++ names) := by
  by_cases none : names = []
  · obtain ⟨_, stat⟩ := foretold.present none
    have present := isPresent_iff.2 ⟨_, _, stat⟩
    obtain ⟨reached, node, found⟩ := exists_lstat present
    obtain ⟨_, rfl⟩ := foretold.of_stat
      (stat_of_lstat found fun link same => plain reached link (same ▸ found))
    rw [none, List.append_nil]
    exact .there present found
  · exact .missing none foretold

/-- A target that is no link and does not lead through what is taken away is prepared. -/
theorem clear_prepares (sound : files.Sound)
    (plain : ∀ place link, files.lstat target ≠ .ok (place, .leaf (.link link)))
    (steady : files.Steady target) (lands : files.Lands target place) :
    (Pass.clear target).Ensures files (fun _ now => ∃ goal, files.Prepared target place now goal)
      (files.Confined place) := by
  cases lands with
  | missing some foretold =>
    have absent := foretold.absent some
    refine Pass.clear_ensures (fun directory => ?_) (fun _ present => ?_)
      fun _ => foretold.prepared_absent sound some
    · obtain ⟨reached, opens⟩ := isDirectory_iff.1 directory
      obtain ⟨inner, stat⟩ := opens_iff.1 opens
      rw [isPresent_iff.2 ⟨reached, _, stat⟩] at absent
      cases absent
    · rw [present] at absent
      cases absent
  | @there _ node present found =>
    have stat := stat_of_lstat found fun link same => plain place link (same ▸ found)
    refine Pass.clear_ensures (fun directory => ?_) (fun other _ => ?_)
      fun absent => by rw [present] at absent; cases absent
    · obtain ⟨reached, opens⟩ := isDirectory_iff.1 directory
      obtain ⟨inner, also⟩ := opens_iff.1 opens
      obtain ⟨rfl, _⟩ := Prod.mk.inj (Except.ok.inj (stat.symm.trans also))
      rcases opens.removeTree_cases plain with ⟨cause, failed⟩ | outcome
      · rw [failed]
        exact ⟨(fun done => by cases done), fun _ _ => .refl sound _⟩
      · have prepared := prepared_emptied sound opens steady outcome
        exact ⟨fun _ => ⟨_, prepared⟩, fun _ _ => prepared.confined⟩
    · refine ⟨fun after removed => ?_, .refl sound _⟩
      cases node with
      | leaf content => exact prepared_unlinked sound stat plain removed
      | branch inner =>
        have directory := isDirectory_iff.2 ⟨place, opens_iff.2 ⟨inner, stat⟩⟩
        rw [other] at directory
        cases directory

theorem clear_target (sound : files.Sound) (replaceable : files.Replaceable target) {names : Place}
    (foretold : files.Foretold target top names front tail) :
    (Pass.clear target).Ensures files
    (fun _ now => ∃ goal, files.Prepared target (top ++ names) now goal)
      (fun now => files.Confined (top ++ names) now) :=
  clear_prepares sound replaceable.plain replaceable.steady (foretold.lands replaceable.plain)

end FileSystem
end Retarget
