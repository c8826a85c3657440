import Retarget.Proofs.Resolution.Agreement

/-!
Changes made in two systems that agree. Whether an operation succeeds, or why it fails, is decided
by what stands on the way of its paths, and where there are no links it changes the place that its
path spells. So an operation on paths that stay near what two systems agree on ends alike in both
and leaves them agreeing.
-/
namespace Retarget

/-- Where the last step of a path takes a name, the path spells that name in the directory. -/
theorem Path.placeFrom_of_getLast? {path : Path} {cwd : Place} {name : Bytes}
    (last : path.openSteps.getLast? = some (.into name)) : path.placeFrom cwd =
      path.openSteps.dropLast.foldl Step.from (path.start cwd) ++ [name] := by
  obtain ⟨before, whole⟩ := List.getLast?_eq_some_iff.1 last
  rw [Path.placeFrom, whole, List.dropLast_concat, List.foldl_append]
  rfl

namespace FileSystem

variable {tops : List Place} {files other after again : FileSystem} {path : Path} {place cwd : Place}

/-- The same change of entries, made in both systems, leaves them agreeing. -/
theorem Agree.update (agree : Agree tops cwd files other) (sound : after.Sound)
    (otherSound : again.Sound) (same : after.cwd = files.cwd) (otherSame : again.cwd = other.cwd)
    (edit : Place → Option Entry → Option Entry)
    (plain : ∀ place entry link, edit place entry = some (.leaf (.link link)) →
      entry = some (.leaf (.link link)))
    (first : ∀ query, after.root.entry? query = edit query (files.root.entry? query))
    (second : ∀ query, again.root.entry? query = edit query (other.root.entry? query)) :
    Agree tops cwd after again := by
  refine ⟨sound, otherSound, fun below link held => ?_, fun below link held => ?_,
    same.trans agree.stands, otherSame.trans agree.otherStands, agree.names, fun query near => ?_⟩
  · rw [first] at held
    exact agree.linkless below link (plain _ _ _ held)
  · rw [second] at held
    exact agree.otherLinkless below link (plain _ _ _ held)
  · rw [first, second, agree.same query near]

/-- Operations that end alike and, where they succeed, leave the systems agreeing. -/
theorem agree_of_ends {result another : Except OsError FileSystem}
    (ends : Matches (fun _ _ => True) result another)
    (effect : ∀ after again, result = .ok after → another = .ok again → Agree tops cwd after again) :
    Matches (Agree tops cwd) result another := by
  cases ends with
  | ok _ => exact .ok (effect _ _ rfl rfl)
  | error cause => exact .error cause

/-! ## The last step -/

/-- The last step of a path, found in one directory in two systems. -/
inductive MeetsStep (files other : FileSystem) (path : Path) (cwd : Place) :
    Place × Tree × Option Step → Place × Tree × Option Step → Prop where
  | here {place : Place} {inner twin : Tree} (here : files.root.at? place = some (.branch inner))
      (there : other.root.at? place = some (.branch twin))
      (ends : path.openSteps.dropLast.foldl Step.from (path.start cwd) = place) :
      MeetsStep files other path cwd (place, inner, path.openSteps.getLast?)
        (place, twin, path.openSteps.getLast?)

/-- What the last step of a path is in two systems: a name near what they agree on, or no name. -/
inductive MeetsLast (tops : List Place) (files other : FileSystem) (path : Path) (cwd : Place) :
    Place × Tree × Option Step → Place × Tree × Option Step → Prop where
  | none {place : Place} {inner twin : Tree} :
      MeetsLast tops files other path cwd (place, inner, none) (place, twin, none)
  | stay {place : Place} {inner twin : Tree} :
      MeetsLast tops files other path cwd (place, inner, some .stay) (place, twin, some .stay)
  | up {place : Place} {inner twin : Tree} :
      MeetsLast tops files other path cwd (place, inner, some .up) (place, twin, some .up)
  | name {place : Place} {inner twin : Tree} {name : Bytes}
      (here : files.root.at? place = some (.branch inner))
      (there : other.root.at? place = some (.branch twin))
      (spelled : path.placeFrom cwd = place ++ [name]) (near : Near tops (place ++ [name])) :
      MeetsLast tops files other path cwd (place, inner, some (.into name))
        (place, twin, some (.into name))

theorem MeetsStep.last (stays : path.Stays tops cwd) {first second : Place × Tree × Option Step}
    (met : MeetsStep files other path cwd first second) :
    MeetsLast tops files other path cwd first second := by
  obtain ⟨here, there, ends⟩ := met
  cases last : path.openSteps.getLast? with
  | none => exact .none
  | some step =>
    cases step with
    | stay => exact .stay
    | up => exact .up
    | into name =>
      have spelled : path.placeFrom cwd = _ := Path.placeFrom_of_getLast? last
      rw [ends] at spelled
      exact .name here there spelled (spelled ▸ Retarget.Stays.last stays)

theorem lastStep_eq (files : FileSystem) (path : Path) : files.lastStep path =
    (files.spot true path (path.openSteps.dropLast ++ [.stay]) >>= files.nodeAt) >>=
      fun (found : Place × Node) => match found with
      | (_, .leaf _) => .error .notDirectory
      | (place, .branch inner) => .ok (place, inner, path.openSteps.getLast?) := by
  unfold FileSystem.lastStep
  cases files.spot true path (path.openSteps.dropLast ++ [.stay]) <;> rfl

theorem Agree.lastStep (agree : Agree tops cwd files other) (stays : path.Stays tops cwd) :
    Matches (MeetsStep files other path cwd) (files.lastStep path) (other.lastStep path) := by
  have before : Stays tops (path.start cwd) (path.openSteps.dropLast ++ [.stay]) :=
    (Stays.of_prefix stays (List.dropLast_prefix _)).close
  rw [lastStep_eq, lastStep_eq]
  refine (agree.found before true).bind fun _ _ met => ?_
  rw [List.foldl_append] at met
  cases met with
  | leaf here there => exact .error _
  | directory here there => exact .ok (.here here there rfl)

theorem Agree.lastNamed (agree : Agree tops cwd files other) (stays : path.Stays tops cwd) :
    Matches (MeetsLast tops files other path cwd) (files.lastStep path) (other.lastStep path) :=
  (agree.lastStep stays).imp fun _ _ met => met.last stays

theorem Agree.entryNamed (agree : Agree tops cwd files other) {inner twin : Tree} {name : Bytes}
    (here : files.root.at? place = some (.branch inner))
    (there : other.root.at? place = some (.branch twin)) (near : Near tops (place ++ [name])) :
    Matches (MeetsEntry files other (place ++ [name])) (entryNamed inner name)
      (entryNamed twin name) := by
  have met := agree.meets near
  rw [Tree.at?_concat here, Tree.at?_concat there] at met
  unfold FileSystem.entryNamed
  split
  · exact .error _
  · exact .ok met

/-! ## Making and taking away -/

theorem Agree.create_ends (agree : Agree tops cwd files other) (stays : path.Stays tops cwd)
    (node : Node) :
    Matches (fun _ _ => True) (files.create path node) (other.create path node) := by
  refine (agree.lastNamed stays).bind fun _ _ met => ?_
  cases met with
  | none | stay | up => exact .error _
  | name here there _ near =>
    refine (agree.entryNamed here there near).bind fun _ _ held => ?_
    cases held with
    | free => exact .ok trivial
    | directory => exact .error _
    | leaf => exact .error _

theorem Agree.makeDirectory (agree : Agree tops cwd files other) (stays : path.Stays tops cwd) :
    Matches (Agree tops cwd) (files.makeDirectory path) (other.makeDirectory path) := by
  refine agree_of_ends (agree.create_ends stays _) fun after again made also => ?_
  obtain ⟨place, name, names, _, stood, entries⟩ := makeDirectory_ok made
  obtain ⟨elsewhere, another, named, _, otherStood, otherEntries⟩ := makeDirectory_ok also
  have here := names.place_eq agree.linkless
  have there := named.place_eq agree.otherLinkless
  rw [agree.stands] at here
  rw [agree.otherStands] at there
  rw [here] at entries
  rw [there] at otherEntries
  refine agree.update (agree.sound.makeDirectory made) (agree.otherSound.makeDirectory also) stood
    otherStood (fun query entry => if query = path.placeFrom cwd then some .directory else entry)
    (fun query entry link held => ?_) entries otherEntries
  split at held
  · cases held
  · exact held

theorem Agree.unlink_ends (agree : Agree tops cwd files other) (stays : path.Stays tops cwd) :
    Matches (fun _ _ => True) (files.unlink path) (other.unlink path) := by
  refine (agree.lastNamed stays).bind fun _ _ met => ?_
  cases met with
  | none | stay | up => exact .error _
  | name here there _ near =>
    refine (agree.entryNamed here there near).bind fun _ _ held => ?_
    cases held with
    | free => exact .error _
    | directory => exact .error _
    | leaf =>
      dsimp only
      split
      · exact .error _
      · exact .ok trivial

/-- Names of one path, dropped in both systems. -/
theorem Agree.drop (agree : Agree tops cwd files other) {name another : Bytes} {elsewhere : Place}
    (names : files.Names path place name) (named : other.Names path elsewhere another) :
    Agree tops cwd (files.drop (place ++ [name])) (other.drop (elsewhere ++ [another])) := by
  have here := names.place_eq agree.linkless
  have there := named.place_eq agree.otherLinkless
  rw [agree.stands] at here
  rw [agree.otherStands] at there
  refine agree.update (agree.sound.drop names.directory) (agree.otherSound.drop named.directory)
    rfl rfl (fun query entry => if path.placeFrom cwd <+: query then none else entry)
    (fun query entry link held => ?_) (fun query => ?_) fun query => ?_
  · split at held
    · cases held
    · exact held
  · rw [← here]
    exact entry?_drop names.directory query
  · rw [← there]
    exact entry?_drop named.directory query

theorem Agree.unlink (agree : Agree tops cwd files other) (stays : path.Stays tops cwd) :
    Matches (Agree tops cwd) (files.unlink path) (other.unlink path) := by
  refine agree_of_ends (agree.unlink_ends stays) fun after again removed also => ?_
  obtain ⟨place, name, _, names, _, _, rfl⟩ := unlink_ok removed
  obtain ⟨elsewhere, another, _, named, _, _, rfl⟩ := unlink_ok also
  exact agree.drop names named

/-- Directories that were emptied are removed alike. -/
theorem Agree.removeDirectory (agree : Agree tops cwd files other) (stays : path.Stays tops cwd)
    (empty : files.root.at? (path.placeFrom cwd) = some (.branch .empty))
    (bare : other.root.at? (path.placeFrom cwd) = some (.branch .empty)) :
    Matches (Agree tops cwd) (files.removeDirectory path) (other.removeDirectory path) := by
  refine agree_of_ends ?_ fun after again removed also => ?_
  · refine (agree.lastNamed stays).bind fun _ _ met => ?_
    cases met with
    | none | stay | up => exact .error _
    | name here there spelled near =>
      rw [spelled] at empty bare
      refine (agree.entryNamed here there near).bind fun _ _ held => ?_
      cases held with
      | free => exact .error _
      | leaf => exact .error _
      | directory found seen =>
        rw [empty] at found
        rw [bare] at seen
        cases found
        cases seen
        exact .ok trivial
  · obtain ⟨place, name, names, _, rfl⟩ := removeDirectory_ok removed
    obtain ⟨elsewhere, another, named, _, rfl⟩ := removeDirectory_ok also
    exact agree.drop names named

theorem Agree.emptied (agree : Agree tops cwd files other) {inner twin : Tree}
    (here : files.root.at? place = some (.branch inner))
    (there : other.root.at? place = some (.branch twin)) :
    Agree tops cwd (files.emptied place) (other.emptied place) := by
  refine agree.update (agree.sound.emptied here) (agree.otherSound.emptied there) rfl rfl
    (fun query entry => if place <+: query ∧ query ≠ place then none else entry)
    (fun query entry link held => ?_) (entry?_emptied here) (entry?_emptied there)
  split at held
  · cases held
  · exact held

theorem at?_emptied {inner : Tree} (found : files.root.at? place = some (.branch inner)) :
    (files.emptied place).root.at? place = some (.branch .empty) := by
  have below : (files.emptied place).root.at? (place ++ []) = Tree.empty.at? [] :=
    Tree.at?_modify_inside found []
  rwa [List.append_nil] at below

/-- A directory is emptied before it is removed, and stays empty where it cannot be. -/
theorem removeTree_branch {inner : Tree} (found : files.lstat path = .ok (place, .branch inner)) :
    files.removeTree path = match (files.emptied place).removeDirectory path with
      | .ok files => (.ok (), files)
      | .error .notFound => (.ok (), files.emptied place)
      | .error cause => (.error cause, files.emptied place) := by
  unfold FileSystem.removeTree
  rw [found]
  rfl

theorem Agree.removeTree (agree : Agree tops cwd files other) (stays : path.Stays tops cwd) :
    (files.removeTree path).1 = (other.removeTree path).1 ∧
      Agree tops cwd (files.removeTree path).2 (other.removeTree path).2 := by
  have met := agree.lstat stays
  cases found : files.lstat path with
  | error cause =>
    rw [found] at met
    cases seen : other.lstat path with
    | ok pair =>
      rw [seen] at met
      cases met
    | error reason =>
      rw [seen] at met
      cases met
      simpa [FileSystem.removeTree, found, seen] using agree
  | ok pair =>
    rw [found] at met
    obtain ⟨another, seen, both⟩ := met.other_ok
    cases both with
    | leaf here there =>
      rename_i content
      cases content with
      | link link => exact absurd (Tree.entry?_eq_leaf.2 here) (agree.linkless _ _)
      | file contents => simpa [FileSystem.removeTree, found, seen] using agree
      | special => simpa [FileSystem.removeTree, found, seen] using agree
    | directory here there =>
      have emptied := agree.emptied here there
      have removed := emptied.removeDirectory stays (at?_emptied here) (at?_emptied there)
      rw [removeTree_branch found, removeTree_branch seen]
      generalize (files.emptied (path.placeFrom cwd)).removeDirectory path = result at removed
      generalize (other.emptied (path.placeFrom cwd)).removeDirectory path = outcome
        at removed
      cases removed with
      | ok still => exact ⟨rfl, still⟩
      | error cause => cases cause <;> exact ⟨rfl, emptied⟩

/-! ## Writing and renaming -/

theorem Agree.write_ends (agree : Agree tops cwd files other) (stays : path.Stays tops cwd)
    (contents : Bytes) :
    Matches (fun _ _ => True) (files.write path contents) (other.write path contents) := by
  unfold FileSystem.write
  rw [agree.spot stays]
  have spots : Matches (fun spot also => spot = also ∧ Near tops spot.place)
      (files.spot true path path.openSteps) (files.spot true path path.openSteps) := by
    refine .of_eq _ fun spot found => ⟨rfl, ?_⟩
    rw [spot_place_eq agree.linkless found, agree.stands]
    exact Stays.last stays
  refine spots.bind ?_
  rintro spot _ ⟨rfl, near⟩
  cases spot with
  | vacant directory name =>
    dsimp only
    split
    · exact .error _
    · exact .ok trivial
  | found place =>
    have met := agree.meets near
    simp only [FileSystem.at?, Spot.place] at met ⊢
    generalize files.root.at? place = held at met
    generalize other.root.at? place = seen at met
    cases met with
    | free => exact .error _
    | directory => exact .error _
    | leaf =>
      rename_i content _ _
      cases content with
      | file old =>
        dsimp only
        split
        · exact .error _
        · exact .ok trivial
      | link link => exact .ok trivial
      | special => exact .ok trivial

theorem Agree.write (agree : Agree tops cwd files other) (stays : path.Stays tops cwd)
    (contents : Bytes) :
    Matches (Agree tops cwd) (files.write path contents) (other.write path contents) := by
  refine agree_of_ends (agree.write_ends stays contents) fun after again written also => ?_
  obtain ⟨spot, led, first⟩ := agree.sound.write_cases written
  obtain ⟨goal, leads, second⟩ := agree.otherSound.write_cases also
  have here : spot.place = path.placeFrom files.cwd := led.lexical agree.linkless
  have there : goal.place = path.placeFrom other.cwd := leads.lexical agree.otherLinkless
  rw [agree.stands] at here
  rw [agree.otherStands] at there
  have same := agree.same _ (Stays.last stays)
  rw [here] at first
  rw [there] at second
  rcases first with ⟨rfl, content, held, idle⟩ | ⟨free, stood, entries⟩
  · rcases second with ⟨rfl, _⟩ | ⟨only, _⟩
    · exact agree
    · obtain ⟨old, file⟩ := only _ (same.trans held)
      exact absurd (Entry.leaf.inj file) (idle old)
  · rcases second with ⟨_, content, held, idle⟩ | ⟨_, otherStood, otherEntries⟩
    · obtain ⟨old, file⟩ := free _ (same.symm.trans held)
      exact absurd (Entry.leaf.inj file) (idle old)
    · refine agree.update (agree.sound.write written) (agree.otherSound.write also) stood
        otherStood (fun query entry =>
          if query = path.placeFrom cwd then some (.leaf (.file contents)) else entry)
        (fun query entry link held => ?_) entries otherEntries
      split at held
      · cases held
      · exact held

theorem Agree.rename_ends {target : Path} (agree : Agree tops cwd files other)
    (stays : path.Stays tops cwd) (targetStays : target.Stays tops cwd) :
    Matches (fun _ _ => True) (files.rename path target) (other.rename path target) := by
  by_cases zero : 0 ∈ path.bytes ∨ 0 ∈ target.bytes
  · simp only [FileSystem.rename, zero, if_true]
    exact .error _
  · simp only [FileSystem.rename, zero, if_false]
    have checks : ∀ path : Path, Matches (fun _ _ : Unit => True) path.check path.check :=
      fun path => .of_eq _ fun _ _ => trivial
    refine (checks path).bind fun _ _ _ => (checks target).bind fun _ _ _ => ?_
    refine (agree.lastNamed stays).bind fun _ _ met => (agree.lastNamed targetStays).bind
      fun _ _ targetMet => ?_
    cases met with
    | none | stay | up => exact .error _
    | name here there _ near =>
      cases targetMet with
      | none | stay | up => exact .error _
      | name goalHere goalThere _ targetNear =>
        refine (agree.entryNamed here there near).bind fun _ _ held => ?_
        cases held with
        | free => exact .error _
        | directory =>
          exact (agree.entryNamed goalHere goalThere targetNear).bind fun _ _ _ => .error _
        | leaf =>
          refine (agree.entryNamed goalHere goalThere targetNear).bind fun _ _ replaced => ?_
          dsimp only
          split
          · exact .error _
          · split
            · exact .ok trivial
            · cases replaced with
              | free => exact .ok trivial
              | directory => exact .error _
              | leaf => exact .ok trivial

theorem Agree.rename {target : Path} (agree : Agree tops cwd files other)
    (stays : path.Stays tops cwd) (targetStays : target.Stays tops cwd) :
    Matches (Agree tops cwd) (files.rename path target) (other.rename path target) := by
  refine agree_of_ends (agree.rename_ends stays targetStays) fun after again renamed also => ?_
  have sound := agree.sound.rename renamed
  have otherSound := agree.otherSound.rename also
  obtain ⟨place, name, elsewhere, fresh, content, names, goal, held, first⟩ := rename_ok renamed
  obtain ⟨place', name', elsewhere', fresh', content', named, aim, present, second⟩ := rename_ok also
  have here := names.place_eq agree.linkless
  have there := goal.place_eq agree.linkless
  have otherHere := named.place_eq agree.otherLinkless
  have otherThere := aim.place_eq agree.otherLinkless
  rw [agree.stands] at here there
  rw [agree.otherStands] at otherHere otherThere
  have alike : some (Entry.leaf content') = some (.leaf content) := by
    rw [← held, ← present, here, otherHere]
    exact agree.same _ (Stays.last stays)
  obtain rfl : content' = content := by simpa using alike
  rcases first with ⟨apart, rfl⟩ | ⟨apart, free, rfl⟩
  · rcases second with ⟨_, rfl⟩ | ⟨moves, _⟩
    · exact agree
    · rw [otherHere, otherThere, ← here, ← there] at moves
      exact absurd apart moves
  · rcases second with ⟨stands, _⟩ | ⟨otherApart, otherFree, rfl⟩
    · rw [otherHere, otherThere, ← here, ← there] at stands
      exact absurd stands apart
    · have moved := entry?_moved names.directory goal.directory held apart free
      have otherMoved := entry?_moved named.directory aim.directory present otherApart otherFree
      rw [here, there] at moved
      rw [otherHere, otherThere] at otherMoved
      refine agree.update sound otherSound rfl rfl
        (fun query entry => if query = target.placeFrom cwd then some (.leaf content')
          else if query = path.placeFrom cwd then none else entry)
        (fun query entry link given => ?_) ?_ ?_
      · split at given
        · rw [← held] at given
          exact absurd given (agree.linkless _ _)
        · split at given
          · cases given
          · exact given
      · rw [here, there]
        exact moved
      · rw [otherHere, otherThere]
        exact otherMoved

/-! ## Directories with their ancestors -/

theorem Agree.missing (agree : Agree tops cwd files other) {above : List Path}
    (stays : ∀ parent ∈ above, parent.Stays tops cwd) (absent : List Path) :
    Matches (fun first second : List Path × FileSystem =>
        first.1 = second.1 ∧ (∀ parent ∈ first.1, parent ∈ above ∨ parent ∈ absent) ∧
          Agree tops cwd first.2 second.2)
      (files.missing above absent) (other.missing above absent) := by
  induction above generalizing absent with
  | nil => exact .ok ⟨rfl, fun _ => .inr, agree⟩
  | cons parent rest ih =>
    have here := stays parent (by simp)
    unfold FileSystem.missing
    split
    · exact .ok ⟨rfl, fun _ => .inr, agree⟩
    · have made := agree.makeDirectory here
      rw [agree.isDirectory here]
      generalize files.makeDirectory parent = result at made
      generalize other.makeDirectory parent = outcome at made
      cases made with
      | ok still => exact .ok ⟨rfl, fun _ => .inr, still⟩
      | error cause =>
        cases cause
        case notFound =>
          refine (ih (fun other member => stays other (by simp [member])) (parent :: absent)).imp ?_
          rintro first second ⟨same, origin, still⟩
          refine ⟨same, fun found member => ?_, still⟩
          rcases origin found member with inside | waiting
          · exact .inl (List.mem_cons_of_mem _ inside)
          · rcases List.mem_cons.1 waiting with rfl | old
            · exact .inl List.mem_cons_self
            · exact .inr old
        all_goals
          dsimp only
          split
          · exact .ok ⟨rfl, fun _ => .inr, agree⟩
          · exact .error _

theorem Agree.makeAll {paths : List Path} (stays : ∀ parent ∈ paths, parent.Stays tops cwd)
    (agree : Agree tops cwd files other) :
    (FileSystem.makeAll paths files).1 = (FileSystem.makeAll paths other).1 ∧
      Agree tops cwd (FileSystem.makeAll paths files).2 (FileSystem.makeAll paths other).2 := by
  induction paths generalizing files other with
  | nil => exact ⟨rfl, agree⟩
  | cons parent rest ih =>
    have here := stays parent (by simp)
    have made := agree.makeDirectory here
    unfold FileSystem.makeAll
    rw [agree.isDirectory here]
    generalize files.makeDirectory parent = result at made
    generalize other.makeDirectory parent = outcome at made
    cases made with
    | ok still => exact ih (fun other member => stays other (by simp [member])) still
    | error cause =>
      dsimp only
      split
      · exact ih (fun other member => stays other (by simp [member])) agree
      · exact ⟨rfl, agree⟩

theorem Agree.makeDirectories (agree : Agree tops cwd files other)
    (stays : path.Stays tops cwd) :
    (files.makeDirectories path).1 = (other.makeDirectories path).1 ∧
      Agree tops cwd (files.makeDirectories path).2 (other.makeDirectories path).2 := by
  have ancestors : ∀ parent ∈ path.ancestors, parent.Stays tops cwd := fun parent member =>
    stays.onWay (Path.onWay_of_mem_ancestorsFrom member)
  unfold FileSystem.makeDirectories
  split
  · exact ⟨rfl, agree⟩
  · have found := agree.missing ancestors []
    generalize files.missing path.ancestors [] = result at found
    generalize other.missing path.ancestors [] = outcome at found
    cases found with
    | error cause => exact ⟨rfl, agree⟩
    | @ok first second both =>
      obtain ⟨left, middle⟩ := first
      obtain ⟨same, between⟩ := second
      obtain ⟨rfl, origin, still⟩ := both
      refine Agree.makeAll (fun parent member => ?_) still
      exact ancestors parent ((origin parent member).resolve_right (by simp))

end FileSystem
end Retarget
