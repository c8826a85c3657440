import Retarget.Proofs.Pass.Clearing
import Retarget.Proofs.Pass.Outcome
import Retarget.Proofs.Resolution.Lexical

/-!
What copying leaves alone. Once the target is made it leads to its place, and below that place there
is no link, so everything that is made or written by names from the target stands below the place.
Beside it nothing changes, whether copying succeeds or breaks off.
-/
namespace Retarget

namespace FileSystem

open Pass

variable {files before now goal after : FileSystem} {source target : Path} {place : Place}

/-- A copy on its way: its target leads to its place, and no link stands there. -/
structure Underway (before : FileSystem) (target : Path) (place : Place) (now : FileSystem) :
    Prop extends before.Spares place now where
  opens : now.Opens target place
  linkless : now.root.Linkless place

/-! ## Below the place -/

/-- A new entry below the place, or a file in the place of another, is no matter. -/
theorem Underway.change (underway : before.Underway target place now) (sound : after.Sound)
    (cwd : after.cwd = now.cwd)
    {below : Place} {entry : Entry} (plain : ∀ link, entry ≠ .leaf (.link link))
    (idle : ∀ old, now.root.entry? (place ++ below) = some old → old.passable = false)
    (entries : ∀ query, after.root.entry? query = if query = place ++ below then some entry else
      now.root.entry? query) :
    before.Underway target place after := by
  have ways : now.root.WaysIn after.root := by
    intro query old held passable
    rw [entries, if_neg, held]
    rintro rfl
    rw [idle old held] at passable
    cases passable
  refine ⟨⟨sound, cwd.trans underway.cwd, fun query outside notAbove => ?_⟩,
    underway.opens.carry ways cwd, fun more link => ?_⟩
  · rw [entries, if_neg, underway.beside query outside notAbove]
    rintro rfl
    exact outside (List.prefix_append _ _)
  · rw [entries]
    split
    · exact fun same => plain link (Option.some.inj same)
    · exact underway.linkless more link

theorem start_copyPath (target : Path) {names : Place} (legal : ∀ name ∈ names, Tree.Legal name)
    (cwd : Place) :
    (copyPath target names).start cwd = target.start cwd := by
  rw [Path.start, copyPath, Path.isAbsolute_join target (Path.isAbsolute_place legal), Path.start]

theorem placeFrom_copyPath {names : Place} (legal : ∀ name ∈ names, Tree.Legal name)
    (cwd : Place) : (copyPath target names).placeFrom cwd = target.placeFrom cwd ++ names := by
  rw [Path.placeFrom, start_copyPath target legal, copyPath, Path.openSteps_join_place target legal,
    List.foldl_append, (Path.spelled_names names).foldl_from, Path.placeFrom]

/-- A path below the target leads down from the place by its names. -/
theorem Underway.leads_below (underway : before.Underway target place now) {names : Place}
    {spot : Spot}
    (led : Leads now.root true linkLimit (target.start now.cwd)
      (target.openSteps ++ names.map .into) spot) :
    spot.place = place ++ names := by
  obtain ⟨left, onward⟩ := led.behind underway.opens.leads
  exact onward.linkless underway.linkless

/-- A name that is missing on the way to a path below the target is one of its names. -/
theorem Underway.names_onWay (underway : before.Underway target place now) {names : Place}
    (legal : ∀ name ∈ names, Tree.Legal name) {parent : Path}
    (onWay : parent.OnWay (copyPath target names)) {directory : Place} {name : Bytes}
    (named : now.Names parent directory name)
    (free : now.root.entry? (directory ++ [name]) = none) :
    ∃ above, directory = place ++ above ∧ above ++ [name] <+: names := by
  obtain ⟨earlier, steps, led⟩ := named.steps
  obtain ⟨more, whole⟩ := onWay.steps
  rw [onWay.start, start_copyPath target legal] at led
  rw [steps, copyPath, Path.openSteps_join_place target legal, List.append_assoc] at whole
  rcases Path.step_of_append whole.symm with ⟨later, inTarget⟩ | ⟨between, rfl, rest⟩
  · have opens := underway.opens.leads
    rw [inTarget] at opens
    exact absurd free (opens.taken led)
  · obtain ⟨above, others, rfl, rfl, further⟩ := List.map_eq_append_iff.1 rest
    obtain ⟨other, behind, rfl, same, _⟩ := List.map_eq_cons_iff.1 further
    obtain rfl := Step.into.inj same
    exact ⟨above, underway.leads_below led, by simp⟩

/-- A directory is made on the way to a path below the target only under one of its names. -/
theorem Underway.makeDirectory_ok (underway : before.Underway target place now) {names : Place}
    (legal : ∀ name ∈ names, Tree.Legal name)
    {parent : Path} (onWay : parent.OnWay (copyPath target names))
    (made : now.makeDirectory parent = .ok after) :
    ∃ below, below ≠ [] ∧ below <+: names ∧ now.root.entry? (place ++ below) = none ∧
    after.cwd = now.cwd ∧
      ∀ query, after.root.entry? query = if query = place ++ below then some .directory else
      now.root.entry? query := by
  obtain ⟨directory, name, named, free, cwd, entries⟩ := FileSystem.makeDirectory_ok made
  obtain ⟨above, rfl, inNames⟩ := underway.names_onWay legal onWay named free
  rw [List.append_assoc] at free entries
  exact ⟨above ++ [name], by simp, inNames, free, cwd, entries⟩

theorem Underway.makeDirectory (underway : before.Underway target place now) {names : Place}
    (legal : ∀ name ∈ names, Tree.Legal name)
    {parent : Path} (onWay : parent.OnWay (copyPath target names))
    (made : now.makeDirectory parent = .ok after) :
    before.Underway target place after := by
  obtain ⟨below, _, _, free, cwd, entries⟩ := underway.makeDirectory_ok legal onWay made
  refine underway.change (underway.sound.makeDirectory made) cwd (by simp)
    (fun old held => ?_) entries
  rw [free] at held
  cases held

theorem Underway.makeDirectories (underway : before.Underway target place now) {names : Place}
    (legal : ∀ name ∈ names, Tree.Legal name) :
    before.Underway target place (now.makeDirectories (copyPath target names)).2 :=
  makeDirectories_keeps (before.Underway target place) (fun _ _ _ onWay held made =>
    held.makeDirectory legal onWay made) underway

/-- A file is written under its names below the target. -/
theorem Underway.write_cases (underway : before.Underway target place now) {names : Place}
    (legal : ∀ name ∈ names, Tree.Legal name)
    {contents : Bytes} (written : now.write (copyPath target names) contents = .ok after) :
    (after = now ∧ ∃ content, now.root.entry? (place ++ names) = some (.leaf content) ∧ ∀ old,
      content ≠ .file old) ∨
      (∀ entry, now.root.entry? (place ++ names) = some entry → ∃ old, entry = .leaf (.file old)) ∧
      after.cwd = now.cwd ∧
        ∀ query, after.root.entry? query = if query = place ++ names then some
        (.leaf (.file contents)) else now.root.entry? query := by
  obtain ⟨spot, led, outcome⟩ := underway.sound.write_cases written
  rw [start_copyPath target legal, copyPath, Path.openSteps_join_place target legal] at led
  rwa [underway.leads_below led] at outcome

/-- A file that is written where nothing stood is the only change. -/
theorem Underway.write_new (underway : before.Underway target place now) {names : Place}
    (legal : ∀ name ∈ names, Tree.Legal name)
    (free : now.root.entry? (place ++ names) = none)
    {contents : Bytes} (written : now.write (copyPath target names) contents = .ok after) :
    after.cwd = now.cwd ∧ ∀ query, after.root.entry? query =
      if query = place ++ names then some (.leaf (.file contents)) else now.root.entry? query := by
  rcases underway.write_cases legal written with ⟨_, content, there, _⟩ | ⟨_, made⟩
  · rw [free] at there
    cases there
  · exact made

theorem Underway.write (underway : before.Underway target place now) {names : Place}
    (legal : ∀ name ∈ names, Tree.Legal name)
    {contents : Bytes} (written : now.write (copyPath target names) contents = .ok after) :
    before.Underway target place after := by
  rcases underway.write_cases legal written with ⟨rfl, _⟩ | ⟨idle, cwd, entries⟩
  · exact underway
  · refine underway.change (underway.sound.write written) cwd (by simp) (fun old held => ?_) entries
    obtain ⟨contents, rfl⟩ := idle old held
    rfl

/-! ## From the top -/

/-- The path to the copy of the top is the target with a slash behind it. -/
theorem bytes_copyPath_nil (written : target.bytes ≠ []) : (copyPath target []).bytes ≠ [] := by
  rw [copyPath, Path.join_relative target (Path.isAbsolute_place (by simp))]
  simp [written]

theorem openSteps_copyPath_nil (target : Path) :
    (copyPath target []).openSteps = target.openSteps := by
  rw [copyPath, Path.openSteps_join_place target (by simp), List.map_nil, List.append_nil]

/-- Where making the target succeeds, it leads to a directory. -/
theorem opens_of_made (accepted : target.check = .ok ())
    (made : now.makeDirectories (copyPath target []) = (.ok (), after)) :
    ∃ reached, after.Opens target reached := by
  have written := (Path.check_eq_ok_iff.1 accepted).2.1
  rcases makeDirectories_ok (bytes_copyPath_nil written) made with
    ⟨reached, opens⟩ | ⟨absolute, idle⟩
  · have led := opens.leads
    rw [openSteps_copyPath_nil, start_copyPath target (by simp)] at led
    exact ⟨reached, accepted, led, opens.directory⟩
  · rw [openSteps_copyPath_nil] at idle
    rw [copyPath, Path.isAbsolute_join target (Path.isAbsolute_place (by simp))] at absolute
    refine ⟨[], accepted, ?_, by simp⟩
    rw [Path.start, absolute, if_pos rfl]
    exact Leads.arrived.append_idle (by simp) idle

theorem Holds.copyPath (holds : goal.Holds target) : goal.Holds (copyPath target []) := by
  intro earlier name later steps directory there
  rw [openSteps_copyPath_nil] at steps
  rw [start_copyPath target (by simp)] at there
  exact holds earlier name later steps directory there

theorem Freed.within_made (freed : before.Freed target place now goal) :
    (now.makeDirectories (Pass.copyPath target [])).2.Within goal :=
  freed.within.makeDirectories freed.holds.copyPath

theorem Prepared.within_made (prepared : before.Prepared target place now goal) :
    (now.makeDirectories (Pass.copyPath target [])).2.Within goal :=
  prepared.freed.within_made

/-- Making the target changes nothing outside the place, except that directories above it come to be
there. -/
theorem Freed.beside (freed : before.Freed target place now goal) {query : Place}
    (outside : ¬place <+: query) :
    (now.makeDirectories (copyPath target [])).2.root.entry? query = before.root.entry? query ∨
      before.root.entry? query = none ∧ query <+: place := by
  have within := freed.within_made
  have kept : ∀ entry, before.root.entry? query = some entry →
      (now.makeDirectories (copyPath target [])).2.root.entry? query = some entry := by
    intro entry held
    rw [← freed.confined.outside query outside] at held
    exact grows_of_makeDirectories.kept query entry held
  cases old : before.root.entry? query with
  | some entry => exact .inl (kept entry old)
  | none =>
    rcases freed.made query outside with same | above
    · left
      by_contra made
      obtain ⟨entry, held⟩ := Option.ne_none_iff_exists'.1 made
      rw [← same, within.same query entry held] at old
      cases old
    · exact .inr ⟨rfl, above⟩

theorem Freed.spares (freed : before.Freed target place now goal) :
    before.Spares place (now.makeDirectories (copyPath target [])).2 :=
  ⟨freed.confined.sound.makeDirectories _,
    freed.within_made.cwd.trans (freed.within.cwd.symm.trans freed.confined.cwd),
    fun _ outside notAbove => (freed.beside outside).resolve_right fun both => notAbove both.2⟩

theorem Vacant.linkless (vacant : files.Vacant place) : files.root.Linkless place :=
  fun below _ => vacant below _

/-- Once the target is made, it leads to the place, and no file stands there yet. -/
theorem Freed.underway (freed : before.Freed target place now goal)
    (accepted : target.check = .ok ())
    (made : (now.makeDirectories (copyPath target [])).1 = .ok ()) :
    before.Underway target place (now.makeDirectories (copyPath target [])).2 ∧
      (now.makeDirectories (copyPath target [])).2.Vacant place := by
  have within := freed.within_made
  have whole : now.makeDirectories (copyPath target []) =
      (.ok (), (now.makeDirectories (copyPath target [])).2) := by
    rw [← made]
  obtain ⟨reached, opens⟩ := opens_of_made accepted whole
  obtain ⟨rfl, vacant⟩ := freed.only reached (opens.carry within.ways within.cwd.symm)
  have empty : (now.makeDirectories (copyPath target [])).2.Vacant reached :=
    fun below content held => vacant below content (within.same _ _ held)
  exact ⟨⟨freed.spares, opens, empty.linkless⟩, empty⟩

/-- Where the way was prepared, nothing at all stands in the target once it is made. -/
theorem Prepared.underway (prepared : before.Prepared target place now goal)
    (accepted : target.check = .ok ())
    (made : (now.makeDirectories (copyPath target [])).1 = .ok ()) :
    before.Underway target place (now.makeDirectories (copyPath target [])).2 ∧
      (now.makeDirectories (copyPath target [])).2.root.Bare place := by
  have underway := (prepared.freed.underway accepted made).1
  have within := prepared.within_made
  refine ⟨underway, fun below some => ?_⟩
  by_contra held
  obtain ⟨entry, held⟩ := Option.ne_none_iff_exists'.1 held
  have there := within.same _ _ held
  rw [(prepared.only place (underway.opens.carry within.ways within.cwd.symm)).2 below some] at there
  cases there

/-- What the top of the source is found to be once the way is clear, it was before. -/
theorem directory_of_followed {opened : Place} (opens : before.Opens source opened)
    (less : ∀ query entry, now.root.entry? query = some entry →
      before.root.entry? query = some entry) (cwd : now.cwd = before.cwd)
    {found : Place × Node} (listed : now.lstat source = .ok found) {ancestors : List Ancestor}
    {entry : Entry}
    (seen : followed now ancestors source found.2.entry = .ok entry) : entry = .directory := by
  have known : ∀ reached, Leads now.root true linkLimit (source.start now.cwd) source.steps
      (.found reached) →
        now.root.entry? reached = some entry → entry = .directory := by
    intro reached led held
    have ways : now.root.WaysIn before.root := fun query other there _ => less query other there
    have same := led.carry ways ((less _ _ held).trans held.symm)
    rw [cwd] at same
    obtain rfl := Spot.found.inj ((leads_openSteps same).unique opens.leads)
    have directory := less _ _ held
    rw [opens.directory] at directory
    exact (Option.some.inj directory).symm
  obtain ⟨place, node⟩ := found
  obtain ⟨_, led, held⟩ := lstat_iff.1 listed
  have here : now.root.entry? place = some node.entry := by simp [Tree.entry?, held]
  unfold followed at seen
  split at seen
  · split at seen
    · cases seen
    · rename_i reached content stat
      cases seen
      obtain ⟨_, onward, there⟩ := stat_iff.1 stat
      exact known reached onward (Tree.entry?_eq_leaf.2 there)
    · split at seen
      · cases seen
      · exact (Except.ok.inj seen).symm
  · rename_i other plain
    obtain rfl := Except.ok.inj seen
    exact known place (led.follow_end fun link same =>
      plain link (Option.some.inj (here.symm.trans same))) here

open Act in
/-- A copy begins in the directory that is made at its place once the way is clear. -/
theorem replaceTree_begins {opened : Place} (opens : files.Opens source opened)
    {ready : FileSystem → Prop} {good : Nat → FileSystem → Prop} {bad : FileSystem → Prop}
    (clears : (clear target).Ensures files (fun _ => ready) bad)
    (freed : ∀ now, ready now → ∃ goal, files.Freed target place now goal)
    (failed : ∀ now, files.Spares place now → bad now)
    (begun : ∀ now reached entries, ready now → Pass.opened now source = .ok (reached, entries) →
      (now.makeDirectories (copyPath target [])).1 = .ok () →
      (copyEntries source target 4095 [⟨source, reached⟩] source entries).Ensures
      (now.makeDirectories (copyPath target [])).2 good bad) :
    (replaceTree source target).Ensures files good bad := by
  have written := (Path.check_eq_ok_iff.1 opens.accepted).2.1
  refine Ensures.bind (clears.imp (fun _ now isReady => ?_) fun _ stopped => stopped)
  obtain ⟨goal, clear⟩ := freed now isReady
  have idle := failed _ clear.confined.spares
  refine Ensures.bind ((ensures_note _).2
    (Ensures.bind ((ensures_examine _).2 ⟨fun found listed => ?_, fun _ _ => idle⟩)))
  have directory : ∀ {entry}, followed now [] source found.2.entry = .ok entry →
      entry = .directory :=
    directory_of_followed opens clear.less clear.confined.cwd (mapError_eq_ok.1 listed)
  refine copyFrom_ensures 4095 [] written (by simp) idle (fun _ => failed _ clear.spares)
    (fun reached entries _ listing made => begun now reached entries isReady listing made)
    (fun contents _ _ seen _ _ => ?_)
    fun content seen _ => ?_
  · cases directory seen
  · cases directory seen

open Act in
/-- A copy that replaces a tree begins in the directory made at the place of the tree. -/
theorem replaceTree_ensures {opened : Place} (sound : files.Sound)
    (opens : files.Opens source opened)
    (replaceable : files.Replaceable target) {top names : Place} {front tail : List Step}
    (foretold : files.Foretold target top names front tail) {good : Nat → FileSystem → Prop}
    {bad : FileSystem → Prop}
    (failed : ∀ now, files.Spares (top ++ names) now → bad now)
    (begun : ∀ now goal reached entries, files.Prepared target (top ++ names) now goal →
      Pass.opened now source = .ok (reached, entries) →
      (now.makeDirectories (copyPath target [])).1 = .ok () →
      (copyEntries source target 4095 [⟨source, reached⟩] source entries).Ensures
      (now.makeDirectories (copyPath target [])).2 good bad) :
    (replaceTree source target).Ensures files good bad := by
  refine replaceTree_begins opens ((clear_target sound replaceable foretold).imp
    (fun _ _ prepared => prepared) fun now stopped => failed now stopped.spares) ?_ failed ?_
  · rintro now ⟨goal, prepared⟩
    exact ⟨goal, prepared.freed⟩
  · rintro now reached entries ⟨goal, prepared⟩ listing made
    exact begun now goal reached entries prepared listing made

open Act in
/-- Copying into a target whose way is clear changes nothing beside its place, and leaves the target
leading there. -/
theorem replaceTree_stays {opened : Place}
    (opens : files.Opens source opened) (accepted : target.check = .ok ())
    (clears : (clear target).Ensures files
      (fun _ now => ∃ goal, files.Freed target place now goal) (files.Spares place)) :
    (replaceTree source target).Ensures files (fun _ => files.Underway target place)
    (files.Spares place) := by
  refine replaceTree_begins opens clears (fun _ clear => clear) (fun _ spared => spared)
    fun now reached entries clear listing made => ?_
  obtain ⟨goal, freed⟩ := clear
  have written := (Path.check_eq_ok_iff.1 opens.accepted).2.1
  refine (copyEntries_keeps _ (fun name entry state legal kept => ?_)
    (fun _ member => legal_of_opened freed.confined.sound listing member)
    (freed.underway accepted made).1).imp (fun _ _ held => held) fun _ held => held.toSpares
  exact copyFrom_keeps (files.Underway target place) written (fun _ held => held.sound)
    (fun _ _ legal held => held.makeDirectories legal)
    (fun _ _ _ _ legal held done => held.write legal done) 4095 [⟨source, reached⟩] [name]
    (by simpa using legal) entry kept

open Act in
/-- Copying into a target changes nothing beside its place, and leaves the target leading there. -/
theorem replaceTree_spares {opened : Place} (sound : files.Sound)
    (opens : files.Opens source opened) (accepted : target.check = .ok ())
    (replaceable : files.Replaceable target) {top names : Place} {front tail : List Step}
    (foretold : files.Foretold target top names front tail) :
    (replaceTree source target).Ensures files (fun _ => files.Underway target (top ++ names))
    (files.Spares (top ++ names)) :=
  replaceTree_stays opens accepted ((clear_target sound replaceable foretold).imp
    (fun _ _ ⟨goal, prepared⟩ => ⟨goal, prepared.freed⟩) fun _ stopped => stopped.spares)

/-- A path that is refused is refused with a slash behind it. -/
theorem check_copyPath_nil {cause : OsError} (some : target.bytes ≠ [])
    (refused : target.check = .error cause) :
    ∃ other, (copyPath target []).check = .error other ∧ other ≠ .notFound := by
  have longer : target.bytes <+: (copyPath target []).bytes := by
    rw [copyPath, Path.join_relative target (Path.isAbsolute_place (by simp)), List.append_assoc]
    exact List.prefix_append _ _
  cases given : (copyPath target []).check with
  | ok _ =>
    rw [Path.check_of_prefix given longer some] at refused
    cases refused
  | error other =>
    refine ⟨other, rfl, ?_⟩
    rintro rfl
    unfold Path.check at given
    rw [if_neg (bytes_copyPath_nil some)] at given
    split at given
    · cases given
    · split at given <;> cases given

open Act in
/-- Nothing is copied to a path that is refused outright. -/
theorem replaceTree_refused {opened : Place} {cause : OsError} (opens : files.Opens source opened)
    (some : target.bytes ≠ [])
    (short : target.bytes.length < pathLimit) (refused : target.check = .error cause) :
    (replaceTree source target).Ensures files (fun _ _ => False) (· = files) := by
  have absent : ∀ place node, files.stat target ≠ .ok (place, node) := by
    intro place node found
    rw [(stat_iff.1 found).1] at refused
    cases refused
  have notPresent : files.isPresent target ≠ true := fun present => by
    obtain ⟨place, node, found⟩ := isPresent_iff.1 present
    exact absent place node found
  have notDirectory : files.isDirectory target ≠ true := fun directory => by
    obtain ⟨place, other⟩ := isDirectory_iff.1 directory
    obtain ⟨inner, found⟩ := opens_iff.1 other
    exact absent place _ found
  obtain ⟨other, alsoRefused, found⟩ := check_copyPath_nil some refused
  have unmade : (files.makeDirectories (copyPath target [])).2 = files :=
    makeDirectories_refused alsoRefused found
  refine Ensures.bind (clear_ensures (fun directory => absurd directory notDirectory)
    (fun _ present => absurd present notPresent) fun _ => ?_)
  refine Ensures.bind ((ensures_note _).2
    (Ensures.bind ((ensures_examine _).2 ⟨fun top listed => ?_, fun _ _ => rfl⟩)))
  have directory : ∀ {entry}, followed files [] source top.2.entry = .ok entry →
      entry = .directory :=
    directory_of_followed opens (fun _ _ held => held) rfl (mapError_eq_ok.1 listed)
  refine copyFrom_ensures 4095 [] (Path.check_eq_ok_iff.1 opens.accepted).2.1 (by simp) rfl
    (fun _ => unmade)
    (fun reached entries _ _ made => ?_) (fun contents _ _ seen _ _ => ?_) fun content seen _ => ?_
  · rcases makeDirectories_ok (bytes_copyPath_nil some) (by rw [← made]) with
      ⟨place, opens⟩ | ⟨absolute, idle⟩
    · rw [opens.accepted] at alsoRefused
      cases alsoRefused
    · rw [openSteps_copyPath_nil] at idle
      rw [Path.check_eq_ok_iff.2 ⟨idle.zero_not_mem, some, short⟩] at refused
      cases refused
  · cases directory seen
  · cases directory seen

open Act in
/-- Copying a tree whose overlap with the target was looked at comes to the same as replacing what
is at a place apart from it. -/
theorem copyTree_replaces {opened : Place} (standing : files.Standing)
    (opens : files.Opens source opened)
    (short : (files.absolute source).bytes.length < pathLimit) (some : target.bytes ≠ [])
    (targetShort : (files.absolute target).bytes.length < pathLimit)
    {good : Nat → FileSystem → Prop} {bad : FileSystem → Prop} (failed : bad files)
    (replaced : ∀ top names front tail, target.check = .ok () →
      files.Foretold target top names front tail → Apart opened (top ++ names) →
      (copyTree source target).outcome files = (replaceTree source target).outcome files →
      (replaceTree source target).Ensures files good bad) :
    (copyTree source target).Ensures files good bad := by
  refine copyTree_ensures failed fun first second directory seen foreseen apart => ?_
  cases checked : target.check with
  | error cause =>
    have refused := replaceTree_refused opens some
      ((length_absolute files target).trans_lt targetShort) checked
    exact refused.imp (fun _ _ never => never.elim) fun _ same => same ▸ failed
  | ok _ =>
    obtain ⟨top, names, front, tail, foretold, components⟩ :=
      (standing.based target).forecast_ok checked targetShort foreseen
    obtain ⟨other, given, whole⟩ := opens.forecast standing.sound standing.short short
    obtain rfl : other = first := Except.ok.inj (given.symm.trans seen)
    exact replaced top names front tail checked foretold
      ((overlapping_eq_false_iff whole components).1 apart)
      (outcome_copyTree directory seen foreseen apart)

end FileSystem
end Retarget
