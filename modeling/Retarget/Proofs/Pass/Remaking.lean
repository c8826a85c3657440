import Retarget.Proofs.Pass.Filling
import Retarget.Proofs.Pass.Outcome

/-!
A target that is made a second time. Whatever the directory at its place was filled with, clearing
the way leaves a state in which making the target gives the very tree that it gave the first time.
What stood at the place in the beginning makes three cases: nothing, something that was taken out
whole, and a directory on the way of its own path, which was only emptied.
-/
namespace Retarget

/-- A tree with nothing but its directories. -/
def Tree.directories : Tree → Tree
  | .empty => .empty
  | .leaf _ _ rest => rest.directories
  | .branch name inner rest => .branch name inner.directories rest.directories

theorem Tree.find?_directories {tree : Tree} (wellFormed : tree.WellFormed) (name : Bytes) :
    tree.directories.find? name = match tree.find? name with
      | some (.branch inner) => some (.branch inner.directories)
      | _ => none := by
  induction tree with
  | empty => rfl
  | leaf found content rest ih =>
    obtain ⟨_, fresh, formed⟩ := wellFormed
    by_cases same : found = name
    · subst same
      simp [Tree.directories, Tree.find?, ih formed, fresh]
    · simp [Tree.directories, Tree.find?, same, ih formed]
  | branch found inner rest _ ih =>
    obtain ⟨_, _, _, formed⟩ := wellFormed
    by_cases same : found = name
    · simp [Tree.directories, Tree.find?, same]
    · simp [Tree.directories, Tree.find?, same, ih formed]

theorem Tree.entry?_directories {tree : Tree} (wellFormed : tree.WellFormed) (place : Place) :
    tree.directories.entry? place =
      if tree.entry? place = some .directory then some .directory else none := by
  induction place generalizing tree with
  | nil => simp
  | cons name rest ih =>
    rw [entry?_cons, entry?_cons, find?_directories wellFormed]
    cases held : tree.find? name with
    | none => simp
    | some node =>
      cases node with
      | leaf content =>
        by_cases top : rest = [] <;> simp [Node.entry?_leaf, Node.entry, top]
      | branch inner =>
        have formed : inner.WellFormed := (wellFormed.find? held).2
        simpa [Node.entry?_branch] using ih formed

namespace FileSystem

open Pass Act

variable {files before made now goal later after : FileSystem} {source target : Path}
  {place opened above top names rest : Place} {name first : Bytes} {front tail : List Step}
  {entries : List (Bytes × Entry)}

/-- The files once all but directories was taken away below a place. -/
def stripped (files : FileSystem) (place : Place) : FileSystem :=
  { files with root := files.root.modify Tree.directories place }

/-- A path does not lead through a link in the tree that stands where it leads: with the directories
of that tree alone it leads there as well. -/
def Direct (files : FileSystem) (path : Path) : Prop :=
  ∀ place, files.Opens path place → (files.stripped place).Opens path place

theorem entry?_stripped (sound : files.Sound)
    (directory : files.root.entry? place = some .directory) (query : Place) :
    (files.stripped place).root.entry? query =
      if place <+: query ∧ files.root.entry? query ≠ some .directory then none
      else files.root.entry? query := by
  obtain ⟨inner, found⟩ := Tree.entry?_eq_directory.1 directory
  have formed : inner.WellFormed := (sound.wellFormed.at? found).2
  by_cases inside : place <+: query
  · obtain ⟨below, rfl⟩ := inside
    rw [stripped, Tree.entry?_modify_inside found, Tree.entry?_directories formed,
      Tree.entry?_append_branch found]
    by_cases held : inner.entry? below = some .directory <;> simp [held]
  · rw [stripped, Tree.entry?_modify_outside inside, if_neg fun both => inside both.1]

theorem less_stripped (sound : files.Sound)
    (directory : files.root.entry? place = some .directory) {query : Place} {entry : Entry}
    (held : (files.stripped place).root.entry? query = some entry) :
    files.root.entry? query = some entry := by
  rw [entry?_stripped sound directory] at held
  split at held
  · cases held
  · exact held

/-- An emptied directory lacks the directories that it held. -/
theorem within_stripped (sound : files.Sound)
    (directory : files.root.entry? place = some .directory) :
    (files.emptied place).Within (files.stripped place) := by
  obtain ⟨inner, found⟩ := Tree.entry?_eq_directory.1 directory
  refine ⟨rfl, fun query entry held => ?_, fun query entry held absent => ?_⟩
  · rw [entry?_emptied found] at held
    split at held
    · cases held
    · rename_i notBelow
      rw [entry?_stripped sound directory, if_neg, held]
      rintro ⟨inside, other⟩
      refine notBelow ⟨inside, ?_⟩
      rintro rfl
      exact other directory
  · rw [entry?_stripped sound directory] at held
    split at held
    · cases held
    · rename_i kept
      rw [entry?_emptied found] at absent
      split at absent
      · rename_i below
        have stands : files.root.entry? query = some .directory := by
          by_contra other
          exact kept ⟨below.1, other⟩
        exact Option.some.inj (held.symm.trans stands)
      · rw [held] at absent
        cases absent

/-! ## What copying finds -/

/-- What copying finds of its source before it makes the target. -/
structure Sourced (now : FileSystem) (source : Path) (place : Place)
    (entries : List (Bytes × Entry)) : Prop where
  listed : ∃ reached node, now.lstat source = .ok (reached, node) ∧
    followed now [] source node.entry = .ok .directory
  opened : Pass.opened now source = .ok (place, entries)

theorem Sourced.opens (sourced : now.Sourced source place entries) : now.Opens source place := by
  obtain ⟨inner, found, _⟩ := opened_ok sourced.opened
  exact opens_iff.2 ⟨inner, found⟩

/-- Directories that are made elsewhere do not show in the source. -/
theorem Sourced.grow (sourced : now.Sourced source place entries) (grows : now.Grows later)
    (same : later.root.at? place = now.root.at? place) : later.Sourced source place entries := by
  have opens := sourced.opens.carry grows.ways grows.cwd
  constructor
  · obtain ⟨reached, node, found, seen⟩ := sourced.listed
    have entry : now.root.entry? reached = some node.entry := by
      simp [Tree.entry?, (lstat_iff.1 found).2.2]
    obtain ⟨other, there, alike⟩ :=
      lstat_carry found grows.ways grows.cwd (grows.kept reached _ entry)
    refine ⟨reached, other, there, ?_⟩
    rw [alike]
    unfold followed at seen ⊢
    split
    · obtain ⟨inner, stat⟩ := opens_iff.1 opens
      simp [stat]
    · rename_i plain
      split at seen
      · rename_i link same
        exact absurd same (plain link)
      · exact seen
  · obtain ⟨inner, found, rfl⟩ := opened_ok sourced.opened
    obtain ⟨_, _, held⟩ := stat_iff.1 found
    obtain ⟨tree, stat⟩ := opens_iff.1 opens
    obtain ⟨_, _, there⟩ := stat_iff.1 stat
    rw [same, held] at there
    obtain rfl : inner = tree := by simpa using there
    simp [Pass.opened, stat, bind, Except.bind, pure, Except.pure]

/-- Copying goes on from the made target by what it found. -/
theorem Sourced.outcome (sourced : now.Sourced source place entries) (written : source.bytes ≠ [])
    (made : now.makeDirectories (copyPath target []) = (.ok (), after)) :
    (copyInto source target).outcome now =
      (copyEntries source target 4095 [⟨source, place⟩] source entries).outcome after := by
  obtain ⟨reached, node, found, seen⟩ := sourced.listed
  exact outcome_copyInto written found seen sourced.opened made

/-- Copying, where it succeeds, found its source, made the target, and went on from there. -/
theorem copyInto_ensures {good : Nat → FileSystem → Prop} (written : source.bytes ≠ [])
    (opens : before.Opens source opened)
    (less : ∀ query entry, now.root.entry? query = some entry →
      before.root.entry? query = some entry) (cwd : now.cwd = before.cwd)
    (begun : ∀ entries, now.Sourced source opened entries →
      (now.makeDirectories (copyPath target [])).1 = .ok () →
      (copyEntries source target 4095 [⟨source, opened⟩] source entries).Ensures
        (now.makeDirectories (copyPath target [])).2 good fun _ => True) :
    (copyInto source target).Ensures now good fun _ => True := by
  refine Ensures.bind ((ensures_note _).2
    (Ensures.bind ((ensures_examine _).2 ⟨fun found listed => ?_, fun _ _ => trivial⟩)))
  have listed := mapError_eq_ok.1 listed
  have directory : ∀ {entry}, followed now [] source found.2.entry = .ok entry →
      entry = .directory := directory_of_followed opens less cwd listed
  refine copyFrom_ensures 4095 [] written (by simp) trivial (fun _ => trivial)
    (fun reached entries seen listing made => ?_) (fun contents _ _ seen _ _ => ?_)
    fun content seen _ => ?_
  · have sourced : now.Sourced source reached entries := ⟨⟨found.1, found.2, listed, seen⟩, listing⟩
    obtain rfl := (sourced.opens.carry (fun query entry held _ => less query entry held)
      cwd.symm).unique opens
    exact begun entries sourced made
  · cases directory seen
  · cases directory seen

/-! ## Clearing a second time -/

theorem Filled.clear (filled : made.Filled place later) (opens : made.Opens target place)
    {inner : Tree} (found : later.lstat target = .ok (place, .branch inner))
    (removed : (made.emptied place).removeDirectory target = .ok after ∨
      (made.emptied place).removeDirectory target = .error .notFound ∧
        after = made.emptied place) : (clear target).outcome later = (.ok (), after) := by
  refine outcome_clear (isDirectory_iff.2 ⟨place, filled.opens opens⟩) ?_
  have emptied : { later with root := later.root.modify (fun _ => .empty) place } =
      made.emptied place := filled.emptied
  unfold removeTree
  rw [found]
  dsimp only
  rw [emptied]
  rcases removed with done | ⟨failed, rfl⟩
  · rw [done]
  · rw [failed]

/-- The target was made in a cleared state, and will be made again from there: whatever the
directory at its place is filled with, copying begins as it began the first time. -/
structure Remade (before : FileSystem) (source target : Path) (place : Place)
    (cleared made : FileSystem) : Prop where
  underway : before.Underway target place made
  again : ∀ later, made.Filled place later → ∃ other,
    (Pass.clear target).outcome later = (.ok (), other) ∧
      (copyInto source target).outcome other = (copyInto source target).outcome cleared

/-- A directory that was made last, under the name its path takes, is taken out again. -/
theorem Filled.clear_put (filled : made.Filled (above ++ [name]) later)
    (same : made = now.put (above ++ [name]) (.branch .empty))
    (free : now.root.entry? (above ++ [name]) = none)
    (directory : now.root.entry? above = some .directory)
    (names : made.Names target above name) : (Pass.clear target).outcome later = (.ok (), now) := by
  obtain ⟨inner, found⟩ := Tree.entry?_eq_directory.1 directory
  have empty : made.root.at? (above ++ [name]) = some (.branch .empty) := by
    rw [same]
    exact Tree.at?_set_here found name _
  have opens := names.opens (Tree.entry?_eq_directory.2 ⟨_, empty⟩)
  have stands := filled.ways _ _ opens.directory rfl
  obtain ⟨tree, held⟩ := Tree.entry?_eq_directory.1 stands
  refine filled.clear opens ((names.carry filled.ways filled.cwd).lstat held) (.inl ?_)
  rw [emptied_of_empty empty, names.removeDirectory empty, same, drop_put free]

/-! ## Something that was taken out whole -/

/-- What was taken out is made again, and a path that named it names the directory in its place. -/
theorem Names.put_drop (names : files.Names target above name)
    (bare : files.root.Bare (above ++ [name]))
    (plain : ∀ link, files.root.entry? (above ++ [name]) ≠ some (.leaf (.link link))) :
    ((files.drop (above ++ [name])).put (above ++ [name]) (.branch .empty)).Names target above
      name := by
  obtain ⟨inner, found⟩ := names.at?
  have dropped := Tree.entry?_remove_bare found bare
  have directory : (files.drop (above ++ [name])).root.entry? above = some .directory := by
    rw [drop_root, dropped, if_neg (by simp), names.directory]
  have gone : (files.drop (above ++ [name])).root.entry? (above ++ [name]) = none := by
    rw [drop_root, dropped, if_pos rfl]
  refine names.carry (fun query entry there passable => ?_) rfl
  rw [entry?_put_directory directory (Tree.bare_of_none gone)]
  split
  · rename_i here
    rw [here] at there
    cases entry with
    | directory => rfl
    | leaf content =>
      cases content with
      | link link => exact absurd there (plain link)
      | file contents => cases passable
      | special => cases passable
  · rename_i other
    rw [drop_root, dropped, if_neg other, there]

/-- Where the place of the copy was taken, no directory of the goal is missing but that one. -/
theorem Prepared.missing_place (prepared : before.Prepared target place now goal)
    (bare : goal.root.Bare place) (stood : before.root.entry? place ≠ none) {query : Place}
    (makes : goal.root.entry? query = some .directory) (absent : now.root.entry? query = none) :
    query = place := by
  by_contra other
  by_cases inside : place <+: query
  · obtain ⟨below, rfl⟩ := inside
    rw [bare below fun top => other (by simp [top])] at makes
    cases makes
  · rw [prepared.confined.outside _ inside] at absent
    rcases prepared.made _ inside with old | ⟨more, rfl⟩
    · rw [old, absent] at makes
      cases makes
    · exact stood (Tree.entry?_append_of_none absent more)

/-- Where the place of the copy was taken, making the target makes one directory, at that place. -/
theorem Prepared.made_alone (prepared : before.Prepared target (above ++ [name]) now goal)
    (accepted : target.check = .ok ())
    (made : (now.makeDirectories (copyPath target [])).1 = .ok ())
    (stood : before.root.entry? (above ++ [name]) ≠ none)
    (gone : now.root.entry? (above ++ [name]) = none)
    (directory : now.root.entry? above = some .directory) :
    (now.makeDirectories (copyPath target [])).2 =
      now.put (above ++ [name]) (.branch .empty) := by
  obtain ⟨underway, _⟩ := prepared.underway accepted made
  have within := prepared.within_made
  obtain ⟨_, bare⟩ := prepared.only _ (underway.opens.carry within.ways within.cwd.symm)
  have entries := entry?_put_directory directory (Tree.bare_of_none gone)
  let early (state : FileSystem) : Prop := state.Within goal ∧
    (state = now ∨ state = now.put (above ++ [name]) (.branch .empty))
  suffices kept : early (now.makeDirectories (copyPath target [])).2 by
    refine kept.2.resolve_left fun same => ?_
    have stands := underway.opens.directory
    rw [same, gone] at stands
    cases stands
  refine makeDirectories_keeps early ?_ ⟨prepared.within, .inl rfl⟩
  rintro state parent after onWay ⟨held, same⟩ done
  have further := held.makeDirectory prepared.holds.copyPath onWay done
  refine ⟨further, .inr ?_⟩
  obtain ⟨reached, last, named, free, rfl⟩ := create_ok done
  obtain ⟨tree, there⟩ := named.at?
  have makes : goal.root.entry? (reached ++ [last]) = some .directory :=
    further.same _ _ (Tree.entry?_eq_directory.2 ⟨_, Tree.at?_set_here there last _⟩)
  rcases same with rfl | rfl
  · rw [prepared.missing_place bare stood makes free]
  · -- The directory is there already, and no other is missing.
    by_cases here : reached ++ [last] = above ++ [name]
    · rw [here, entries, if_pos rfl] at free
      cases free
    · rw [entries, if_neg here] at free
      exact absurd (prepared.missing_place bare stood makes free) here

theorem Prepared.remade (prepared : before.Prepared target (above ++ [name]) now goal)
    (accepted : target.check = .ok ())
    (made : (now.makeDirectories (copyPath target [])).1 = .ok ())
    (stood : before.root.entry? (above ++ [name]) ≠ none)
    (gone : now.root.entry? (above ++ [name]) = none)
    (directory : now.root.entry? above = some .directory)
    (names : (now.put (above ++ [name]) (.branch .empty)).Names target above name) :
    before.Remade source target (above ++ [name]) now
      (now.makeDirectories (copyPath target [])).2 := by
  have alone := prepared.made_alone accepted made stood gone directory
  refine ⟨(prepared.underway accepted made).1, fun later filled => ⟨now, ?_, rfl⟩⟩
  exact filled.clear_put alone gone directory (alone ▸ names)

/-! ## Nothing -/

/-- On the way to a target that is not there a directory is made only where the chain of names goes
that was foretold, and at its end only by the path itself. -/
theorem Foretold.names_chain (foretold : files.Foretold target top (first :: rest) front tail)
    (directory : files.root.entry? top = some .directory)
    (free : files.root.entry? (top ++ [first]) = none) (grows : files.Grows now)
    (within : now.Within (files.lay top first rest)) {parent : Path}
    (member : parent ∈ (copyPath target []).ancestors) (named : now.Names parent above name)
    (absent : now.root.entry? (above ++ [name]) = none) :
    above ++ [name] <+: top ++ first :: rest ∧
      (above ++ [name] = top ++ first :: rest → parent = copyPath target []) := by
  have onWay := Path.onWay_of_mem_ancestorsFrom member
  obtain ⟨before, steps, led⟩ := named.steps
  rw [onWay.start, start_copyPath target (by simp)] at led
  have down : ∀ {names : Place}, names <+: first :: rest →
      (files.lay top first rest).root.entry? (top ++ names) = some .directory :=
    fun below => entry?_lay_prefix directory free below
  -- Up to the end of the first part all is there, so the name is one of those behind it.
  have split : ∀ more, target.openSteps = before ++ .into name :: more →
      ∃ names others, first :: rest = names ++ name :: others ∧ Path.Spelled more others ∧
        above = top ++ names := by
    intro more whole
    have reached := grows.kept _ _ directory
    have here : Leads now.root true linkLimit (target.start now.cwd) front (.found top) :=
      grows.cwd ▸ foretold.leads.carry grows.ways (reached.trans directory.symm)
    rcases Path.step_of_append (foretold.steps.symm.trans whole) with
      ⟨later, inFront⟩ | ⟨between, rfl, inTail⟩
    · rw [inFront] at here
      exact absurd absent (here.taken led)
    · have spelled := foretold.spelled
      rw [inTail] at spelled
      obtain ⟨names, others, same, reaches, onward⟩ := spelled.split
      obtain ⟨left, steps⟩ := led.behind here
      have carried := steps.carry within.ways
        ((within.same _ _ named.directory).trans named.directory.symm)
      exact ⟨names, others, same, onward,
        carried.spelled (down (same ▸ List.prefix_append _ _)) reaches⟩
  obtain ⟨more, whole⟩ := onWay.steps
  rw [steps, openSteps_copyPath_nil, List.append_assoc] at whole
  obtain ⟨names, others, same, onward, rfl⟩ := split more whole.symm
  refine ⟨⟨others, by simp [same]⟩, fun here => ?_⟩
  refine (Path.steps_of_mem_ancestors member fun idle => ?_).resolve_right ?_
  · have stays := idle (.into name) (by rw [openSteps_copyPath_nil, ← whole]; simp)
    cases stays
  · rintro ⟨last, taken, moves⟩
    rw [openSteps_copyPath_nil, ← whole, steps, List.append_assoc] at taken
    obtain rfl := List.append_cancel_left (List.append_cancel_left taken)
    obtain rfl : others = [] := by simpa [same] using here.symm
    exact moves onward.idle

theorem Names.of_copyPath (accepted : target.check = .ok ())
    (names : now.Names (copyPath target []) above name) : now.Names target above name := by
  obtain ⟨before, steps, led⟩ := names.steps
  rw [openSteps_copyPath_nil] at steps
  rw [start_copyPath target (by simp)] at led
  exact ⟨accepted, ⟨before, steps, led⟩, names.directory, names.short⟩

theorem Names.not_idle (names : now.Names target above name) : ¬Path.Idle target.openSteps := by
  obtain ⟨before, steps, _⟩ := names.steps
  intro idle
  have stays := idle (.into name) (by simp [steps])
  cases stays

/-- Directories are made on the way to a copy: the source is as it was, and once the directory at
the place of the copy is there, the path itself made it. -/
structure Approaching (before : FileSystem) (target : Path) (opened place : Place)
    (goal now : FileSystem) : Prop where
  within : now.Within goal
  grows : before.Grows now
  source : now.root.at? opened = before.root.at? opened
  stage : now.root.entry? place = none ∨ now.root.entry? place = some .directory ∧
    ∃ last, before.Grows last ∧ last.root.at? opened = before.root.at? opened ∧
      last.makeDirectory (copyPath target []) = .ok now

/-- A directory made on the way to a target that is not there. -/
theorem Foretold.approaching_step (foretold : files.Foretold target top (first :: rest) front tail)
    (directory : files.root.entry? top = some .directory)
    (free : files.root.entry? (top ++ [first]) = none)
    (holds : (files.lay top first rest).Holds target) (apart : Apart opened (top ++ first :: rest))
    (source : files.root.entry? opened = some .directory) {parent : Path}
    (approaching : files.Approaching target opened (top ++ first :: rest)
      (files.lay top first rest) now)
    (member : parent ∈ (copyPath target []).ancestors)
    (made : now.makeDirectory parent = .ok after) :
    files.Approaching target opened (top ++ first :: rest) (files.lay top first rest) after := by
  have within := approaching.within.makeDirectory holds.copyPath
    (Path.onWay_of_mem_ancestorsFrom member) made
  have grows := approaching.grows.trans (grows_of_makeDirectory made)
  obtain ⟨above, name, named, absent, rfl⟩ := create_ok made
  obtain ⟨inside, only⟩ := foretold.names_chain directory free approaching.grows approaching.within
    member named absent
  have gone : ∀ {query : Place}, above ++ [name] <+: query → now.root.entry? query = none := by
    rintro query ⟨below, rfl⟩
    exact Tree.entry?_append_of_none absent below
  have entries := entry?_put_directory named.directory (Tree.bare_of_none absent)
  refine ⟨within, grows, (Tree.at?_set_apart _ (fun under => ?_) fun inward => ?_).trans
    approaching.source, ?_⟩
  · have stands := approaching.grows.kept _ _ source
    rw [gone under] at stands
    cases stands
  · exact apart.1 (inward.trans inside)
  · by_cases here : above ++ [name] = top ++ first :: rest
    · rw [only here] at made
      refine .inr ⟨?_, now, approaching.grows, approaching.source, made⟩
      rw [entries, if_pos here.symm]
    · left
      rw [entries, if_neg (Ne.symm here), gone inside]

theorem Foretold.approaching (sound : files.Sound)
    (foretold : files.Foretold target top (first :: rest) front tail)
    (directory : files.root.entry? top = some .directory)
    (free : files.root.entry? (top ++ [first]) = none) (apart : Apart opened (top ++ first :: rest))
    (source : files.root.entry? opened = some .directory) :
    files.Approaching target opened (top ++ first :: rest) (files.lay top first rest)
      (files.makeDirectories (copyPath target [])).2 := by
  have prepared := foretold.prepared_chain sound directory free
  refine makeDirectories_keeps_ancestors _ (fun _ _ _ member approaching made =>
    foretold.approaching_step directory free prepared.holds apart source approaching member made)
    ⟨prepared.within, .refl files, rfl, .inl ?_⟩
  have regrouped : top ++ first :: rest = top ++ [first] ++ rest := by simp
  rw [regrouped, Tree.entry?_append_of_none free]

/-- Where names are missing, the last directory made is the one at the place of the copy, and the
path makes it at once where its ancestors are there. -/
theorem Foretold.remade_chain (sound : files.Sound)
    (foretold : files.Foretold target top (first :: rest) front tail)
    (directory : files.root.entry? top = some .directory)
    (free : files.root.entry? (top ++ [first]) = none)
    (accepted : target.check = .ok ()) (apart : Apart opened (top ++ first :: rest))
    (written : source.bytes ≠ []) (sourced : files.Sourced source opened entries)
    (made : (files.makeDirectories (copyPath target [])).1 = .ok ()) :
    files.Remade source target (top ++ first :: rest) files
      (files.makeDirectories (copyPath target [])).2 := by
  have approaching := foretold.approaching sound directory free apart sourced.opens.directory
  obtain ⟨underway, _⟩ :=
    (foretold.prepared_chain sound directory free).underway accepted made
  have whole : files.makeDirectories (copyPath target []) =
      (.ok (), (files.makeDirectories (copyPath target [])).2) := by rw [← made]
  generalize (files.makeDirectories (copyPath target [])).2 = base at whole approaching underway ⊢
  rcases approaching.stage with absent | ⟨_, last, grows, same, done⟩
  · rw [underway.opens.directory] at absent
    cases absent
  · obtain ⟨above, name, named, gone, rfl⟩ := create_ok done
    have more := grows_of_makeDirectory done
    have names := (named.of_copyPath accepted).carry more.ways more.cwd
    obtain ⟨inner, found⟩ := named.at?
    have here := (names.opens (Tree.entry?_eq_directory.2
      ⟨_, Tree.at?_set_here found name _⟩)).unique underway.opens
    refine ⟨underway, fun later filled => ⟨last, ?_, ?_⟩⟩
    · rw [← here] at filled
      exact filled.clear_put rfl gone named.directory names
    · rw [sourced.outcome written whole, (sourced.grow grows same).outcome written
        (makeDirectories_of_makeDirectory named.not_idle done)]

/-- Where nothing stood, the names that are missing are made. -/
theorem Foretold.remade (sound : files.Sound)
    (foretold : files.Foretold target top names front tail) (some : names ≠ [])
    (accepted : target.check = .ok ()) (apart : Apart opened (top ++ names))
    (written : source.bytes ≠ []) (sourced : files.Sourced source opened entries)
    (made : (files.makeDirectories (copyPath target [])).1 = .ok ()) :
    files.Remade source target (top ++ names) files
      (files.makeDirectories (copyPath target [])).2 := by
  obtain ⟨first, rest, rfl⟩ := List.exists_cons_of_ne_nil some
  by_cases clear : files.root.entry? top = .some .directory ∧
      files.root.entry? (top ++ [first]) = none
  · exact foretold.remade_chain sound clear.1 clear.2 accepted apart written sourced made
  · -- Where they cannot be made, the target does not lead anywhere afterwards.
    have prepared := foretold.prepared_stuck sound fun directory free => clear ⟨directory, free⟩
    have within := prepared.within_made
    have opens := (prepared.underway accepted made).1.opens.carry within.ways within.cwd.symm
    obtain ⟨inner, stat⟩ := opens_iff.1 opens
    have present := isPresent_iff.2 ⟨_, _, stat⟩
    rw [foretold.absent some] at present
    cases present

/-! ## A directory on the way of its own path -/

/-- Emptying takes away again what making the target makes in the directory at its place. -/
theorem emptied_made (sound : files.Sound) (opens : files.Opens target place)
    (direct : files.Direct target) :
    ((files.emptied place).makeDirectories (copyPath target [])).2.emptied place =
      files.emptied place := by
  obtain ⟨inner, found⟩ := Tree.entry?_eq_directory.1 opens.directory
  have holds := (direct place opens).holds.copyPath
  have empty : (files.emptied place).root.at? place = some (.branch .empty) := by
    have inside : (files.emptied place).root.at? (place ++ []) = Tree.at? .empty [] :=
      Tree.at?_modify_inside found []
    simpa using inside
  let early (state : FileSystem) : Prop := state.Within (files.stripped place) ∧
    (files.emptied place).Grows state ∧ state.emptied place = files.emptied place
  suffices kept : early ((files.emptied place).makeDirectories (copyPath target [])).2 from
    kept.2.2
  refine makeDirectories_keeps early ?_
    ⟨within_stripped sound opens.directory, .refl _, emptied_of_empty empty⟩
  rintro state parent after onWay ⟨within, grows, same⟩ done
  have further := within.makeDirectory holds onWay done
  have more := grows.trans (grows_of_makeDirectory done)
  obtain ⟨above, name, named, free, rfl⟩ := create_ok done
  obtain ⟨tree, there⟩ := named.at?
  have makes : files.root.entry? (above ++ [name]) = some .directory :=
    less_stripped sound opens.directory
      (further.same _ _ (Tree.entry?_eq_directory.2 ⟨_, Tree.at?_set_here there name _⟩))
  have absent : (files.emptied place).root.entry? (above ++ [name]) = none := by
    by_contra held
    obtain ⟨entry, held⟩ := Option.ne_none_iff_exists'.1 held
    rw [grows.kept _ entry held] at free
    cases free
  rw [entry?_emptied found] at absent
  split at absent
  · rename_i inside
    obtain ⟨⟨below, whole⟩, other⟩ := inside
    rcases List.eq_nil_or_concat' below with rfl | ⟨front, last, rfl⟩
    · exact absurd (by simpa using whole.symm) other
    · rw [← List.append_assoc] at whole
      obtain ⟨rfl, _⟩ := List.append_inj' whole rfl
      exact ⟨further, more, (emptied_put state place front name _).trans same⟩
  · rw [makes] at absent
    cases absent

/-- A path that is no link is none where less is there. -/
theorem plain_of_less (less : ∀ query entry, now.root.entry? query = some entry →
      files.root.entry? query = some entry) (cwd : now.cwd = files.cwd)
    (plain : ∀ place link, files.lstat target ≠ .ok (place, .leaf (.link link)))
    (place : Place) (link : Path) : now.lstat target ≠ .ok (place, .leaf (.link link)) := by
  intro linked
  have leaf := Tree.entry?_eq_leaf.2 (lstat_iff.1 linked).2.2
  obtain ⟨there, seen, alike⟩ := lstat_carry linked (fun query entry held _ =>
    less query entry held) cwd.symm (less _ _ leaf)
  obtain rfl := Node.entry_eq_leaf.1 alike
  exact plain _ _ seen

/-- A target made again in an emptied directory on its way leads there, and nothing but directories
that stood there before is in it. -/
theorem Opens.underway_made (sound : files.Sound) (opens : files.Opens target place)
    (direct : files.Direct target)
    (made : ((files.emptied place).makeDirectories (copyPath target [])).1 = .ok ()) :
    files.Underway target place ((files.emptied place).makeDirectories (copyPath target [])).2 ∧
      ((files.emptied place).makeDirectories (copyPath target [])).2.Within
        (files.stripped place) := by
  obtain ⟨inner, found⟩ := Tree.entry?_eq_directory.1 opens.directory
  have still := direct place opens
  have whole : (files.emptied place).makeDirectories (copyPath target []) =
      (.ok (), ((files.emptied place).makeDirectories (copyPath target [])).2) := by rw [← made]
  have within := (within_stripped sound opens.directory).makeDirectories still.holds.copyPath
  have grows : (files.emptied place).Grows
      ((files.emptied place).makeDirectories (copyPath target [])).2 := grows_of_makeDirectories
  have formed := (sound.emptied found).makeDirectories (copyPath target [])
  generalize ((files.emptied place).makeDirectories (copyPath target [])).2 = after at *
  obtain ⟨reached, leads⟩ := opens_of_made opens.accepted whole
  obtain rfl := (leads.carry within.ways within.cwd.symm).unique still
  refine ⟨⟨⟨formed, within.cwd, fun query outside _ => ?_⟩, leads, fun below link held => ?_⟩,
    within⟩
  · cases held : after.root.entry? query with
    | some entry => rw [less_stripped sound opens.directory (within.same query entry held)]
    | none =>
      cases old : files.root.entry? query with
      | none => rfl
      | some entry =>
        have kept : (files.emptied reached).root.entry? query = some entry := by
          rw [entry?_emptied found, if_neg fun both => outside both.1, old]
        rw [grows.kept query entry kept] at held
        cases held
  · have there := within.same _ _ held
    rw [entry?_stripped sound opens.directory] at there
    split at there
    · cases there
    · rename_i kept
      exact kept ⟨List.prefix_append _ _, by rw [there]; simp⟩

/-- Where the directory at the place stayed because the path led through what it held, making the
target makes it as it is made after the next time it was emptied. -/
theorem Opens.remade (sound : files.Sound) (opens : files.Opens target place)
    (direct : files.Direct target)
    (plain : ∀ place link, files.lstat target ≠ .ok (place, .leaf (.link link)))
    (stays : (files.emptied place).removeDirectory target = .error .notFound)
    (made : ((files.emptied place).makeDirectories (copyPath target [])).1 = .ok ()) :
    files.Remade source target place (files.emptied place)
      ((files.emptied place).makeDirectories (copyPath target [])).2 := by
  obtain ⟨underway, within⟩ := opens.underway_made sound direct made
  have same := emptied_made sound opens direct
  generalize ((files.emptied place).makeDirectories (copyPath target [])).2 = base at *
  have nowPlain := plain_of_less (fun query entry held =>
    less_stripped sound opens.directory (within.same query entry held)) underway.cwd plain
  refine ⟨underway, fun later filled => ⟨files.emptied place, ?_, rfl⟩⟩
  obtain ⟨inner, listed⟩ := underway.opens.lstat nowPlain
  obtain ⟨there, seen, alike⟩ :=
    lstat_carry listed filled.ways filled.cwd (filled.ways _ _ underway.opens.directory rfl)
  obtain ⟨tree, rfl⟩ := Node.entry_eq_directory.1 alike
  exact filled.clear underway.opens seen (.inr ⟨same ▸ stays, same.symm⟩)

end FileSystem
end Retarget
