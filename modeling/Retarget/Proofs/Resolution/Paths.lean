import Retarget.Proofs.Path.Steps
import Retarget.Proofs.Resolution.Stability

/-!
Where the paths of a file system lead. The operations look a path up as a whole, or up to its last
name; what they find is said with `Leads`, and names below a directory are taken one by one.
-/
namespace Retarget

namespace Leads

variable {tree : Tree} {follow : Bool} {budget : Nat} {place : Place} {spot : Spot}

theorem into_directory_iff {name : Bytes} (held : tree.entry? (place ++ [name]) = some .directory)
    {rest : List Step} :
    Leads tree follow budget place (.into name :: rest) spot ↔
      name.length ≤ nameLimit ∧ Leads tree follow budget (place ++ [name]) rest spot := by
  have here : tree.entry? place = some .directory := Tree.directory_above held (by simp)
  constructor
  · intro led
    cases led with
    | into _ short _ _ onward => exact ⟨short, onward⟩
    | vacant _ _ free => rw [free] at held; cases held
    | atLink _ _ link => rw [link] at held; cases held
    | through _ _ link => rw [link] at held; cases held
  · rintro ⟨short, onward⟩
    exact .into here short held (by simp) onward

/-- Names of directories lead down through them. -/
theorem names_append_iff {names : Place} (held : tree.entry? (place ++ names) = some .directory)
    {more : List Step} :
    Leads tree follow budget place (names.map .into ++ more) spot ↔
      (∀ name ∈ names, name.length ≤ nameLimit) ∧
      Leads tree follow budget (place ++ names) more spot := by
  induction names generalizing place with
  | nil => simp
  | cons name rest ih =>
    have regrouped : place ++ name :: rest = place ++ [name] ++ rest := by simp
    rw [regrouped] at held ⊢
    have next : tree.entry? (place ++ [name]) = some .directory := by
      cases rest with
      | nil => simpa using held
      | cons other others => exact Tree.directory_above held (by simp)
    rw [List.map_cons, List.cons_append, into_directory_iff next, ih held,
      List.forall_mem_cons, and_assoc]

/-- A name leads to a plain entry that stands under it. -/
theorem name_plain {name : Bytes} {entry : Entry}
    (held : tree.entry? (place ++ [name]) = some entry)
    (plain : ∀ target, entry ≠ .leaf (.link target))
    (led : Leads tree follow budget place [.into name] spot) :
    spot = .found (place ++ [name]) := by
  cases led with
  | into _ _ _ _ onward => cases onward; rfl
  | vacant _ _ free => rw [free] at held; cases held
  | atLink => rfl
  | through _ _ link =>
    rw [link] at held
    exact absurd (Option.some.inj held).symm (plain _)

end Leads

namespace FileSystem

variable {files : FileSystem} {path : Path} {place : Place}

theorem spot_iff {follow : Bool} {steps : List Step} {spot : Spot} :
    files.spot follow path steps = .ok spot ↔
      path.check = .ok () ∧
      Leads files.root follow linkLimit (path.start files.cwd) steps spot := by
  rw [FileSystem.spot]
  cases path.check with
  | error cause => simp [bind, Except.bind]
  | ok _ => simpa [bind, Except.bind] using Tree.reach_iff_leads

theorem nodeAt_iff {spot : Spot} {node : Node} :
    files.nodeAt spot = .ok (place, node) ↔ spot = .found place ∧
    files.root.at? place = some node := by
  cases spot with
  | vacant directory name => simp [nodeAt]
  | found reached =>
    by_cases same : reached = place
    · subst same
      cases held : files.root.at? reached <;> simp [nodeAt, FileSystem.at?, held]
    · cases held : files.root.at? reached <;> simp [nodeAt, FileSystem.at?, held, same]

theorem bind_nodeAt_iff {result : Except OsError Spot} {node : Node} :
    (result >>= files.nodeAt) = .ok (place, node) ↔ result = .ok (.found place) ∧
    files.root.at? place = some node := by
  cases result with
  | error cause => simp [bind, Except.bind]
  | ok spot => simp [bind, Except.bind, nodeAt_iff]

theorem stat_iff {node : Node} : files.stat path = .ok (place, node) ↔
    path.check = .ok () ∧ Leads files.root true linkLimit (path.start files.cwd) path.steps
    (.found place) ∧
      files.root.at? place = some node := by
  rw [stat, bind_nodeAt_iff, spot_iff, and_assoc]

theorem lstat_iff {node : Node} : files.lstat path = .ok (place, node) ↔
    path.check = .ok () ∧ Leads files.root false linkLimit (path.start files.cwd) path.steps
    (.found place) ∧
      files.root.at? place = some node := by
  rw [lstat, bind_nodeAt_iff, spot_iff, and_assoc]

/-- What is at the end of a path and is no link is what the path leads to. -/
theorem stat_of_lstat {node : Node} (found : files.lstat path = .ok (place, node))
    (plain : ∀ link, node ≠ .leaf (.link link)) : files.stat path = .ok (place, node) := by
  obtain ⟨accepted, led, held⟩ := lstat_iff.1 found
  refine stat_iff.2 ⟨accepted, led.follow_end fun link same => ?_, held⟩
  rw [Tree.entry?_eq_leaf, held] at same
  exact plain link (Option.some.inj same)

/-! ## Directories -/

/-- A path leads to a directory. -/
structure Opens (files : FileSystem) (path : Path) (place : Place) : Prop where
  accepted : path.check = .ok ()
  leads : Leads files.root true linkLimit (path.start files.cwd) path.openSteps (.found place)
  directory : files.root.entry? place = some .directory

/-- What stands below a directory and is none itself stands there under a name. -/
theorem Opens.concat_of_leaf (opens : files.Opens path place) {names : Place} {content : Leaf}
    (held : files.root.entry? (place ++ names) = some (.leaf content)) :
    ∃ above name, names = above ++ [name] := by
  rcases List.eq_nil_or_concat' names with rfl | concat
  · rw [List.append_nil, opens.directory] at held
    cases held
  · exact concat

/-- A slash at the end of a path makes no difference where the path leads to a directory. -/
theorem leads_steps_iff {start : Place} {spot : Spot}
    (directory : files.root.entry? place = some .directory)
    (found : spot = .found place) :
    Leads files.root true linkLimit start path.steps spot ↔
    Leads files.root true linkLimit start path.openSteps spot := by
  subst found
  unfold Path.steps
  split
  · rw [Leads.concat_stay_iff]
    simp [directory]
  · simp

/-- What a path leads to, it leads to as it is written, without regard to a slash at its end. -/
theorem leads_openSteps {start : Place} {budget : Nat}
    (led : Leads files.root true budget start path.steps (.found place)) :
    Leads files.root true budget start path.openSteps (.found place) := by
  unfold Path.steps at led
  split at led
  · obtain ⟨_, same, _, onward⟩ := Leads.concat_stay_iff.1 led
    exact same ▸ onward
  · simpa using led

theorem opens_iff : files.Opens path place ↔ ∃ inner,
    files.stat path = .ok (place, .branch inner) := by
  constructor
  · rintro ⟨accepted, leads, directory⟩
    obtain ⟨inner, held⟩ := Tree.entry?_eq_directory.1 directory
    exact ⟨inner, stat_iff.2 ⟨accepted, (leads_steps_iff directory rfl).2 leads, held⟩⟩
  · rintro ⟨inner, found⟩
    obtain ⟨accepted, leads, held⟩ := stat_iff.1 found
    have directory : files.root.entry? place = some .directory :=
      Tree.entry?_eq_directory.2 ⟨inner, held⟩
    exact ⟨accepted, (leads_steps_iff directory rfl).1 leads, directory⟩

/-- The place of the directory that a path leads to. -/
def opened? (files : FileSystem) (path : Path) : Option Place :=
  match files.stat path with
  | .ok (place, .branch _) => some place
  | _ => none

theorem opened?_eq_some : files.opened? path = some place ↔ files.Opens path place := by
  rw [opens_iff, opened?]
  split
  · rename_i reached inner same
    simp [same]
  · rename_i other
    simp only [reduceCtorEq, false_iff, not_exists]
    exact fun inner same => other place inner same

instance (files : FileSystem) (path : Path) (place : Place) :
    Decidable (files.Opens path place) :=
  decidable_of_iff (files.opened? path = some place) opened?_eq_some

theorem isDirectory_iff : files.isDirectory path = true ↔ ∃ place, files.Opens path place := by
  simp only [opens_iff]
  unfold isDirectory
  split
  · rename_i found inner same
    simp [same]
  · rename_i other
    simp only [Bool.false_eq_true, false_iff, not_exists]
    exact fun place inner same => other place inner same

theorem Opens.unique {other : Place} (first : files.Opens path place)
    (second : files.Opens path other) : place = other :=
  Spot.found.inj (first.leads.unique second.leads)

theorem isPresent_iff : files.isPresent path = true ↔ ∃ place node,
    files.stat path = .ok (place, node) := by
  unfold isPresent
  cases files.stat path with
  | error cause => simp [Except.isOk, Except.toBool]
  | ok found => simp [Except.isOk, Except.toBool, Prod.ext_iff]

/-- Under a path that leads somewhere there is something: what it leads to, or a link. -/
theorem exists_lstat (present : files.isPresent path = true) :
    ∃ place node, files.lstat path = .ok (place, node) := by
  obtain ⟨place, node, stat⟩ := isPresent_iff.1 present
  obtain ⟨accepted, led, held⟩ := stat_iff.1 stat
  rcases led.stop with led | ⟨ending, link, led, there⟩
  · exact ⟨place, node, lstat_iff.2 ⟨accepted, led, held⟩⟩
  · exact ⟨ending, _, lstat_iff.2 ⟨accepted, led, Tree.entry?_eq_leaf.1 there⟩⟩

/-- What is found without following a link at the end is found wherever the ways to it are. -/
theorem lstat_carry {other : FileSystem} {node : Node}
    (found : files.lstat path = .ok (place, node))
    (ways : files.root.WaysIn other.root) (same : other.cwd = files.cwd)
    (kept : other.root.entry? place = some node.entry) :
    ∃ there, other.lstat path = .ok (place, there) ∧ there.entry = node.entry := by
  obtain ⟨accepted, led, held⟩ := lstat_iff.1 found
  have entry : files.root.entry? place = some node.entry := by simp [Tree.entry?, held]
  obtain ⟨there, here, alike⟩ := Option.map_eq_some_iff.1 kept
  have onward := led.carry ways (kept.trans entry.symm)
  rw [← same] at onward
  exact ⟨there, lstat_iff.2 ⟨accepted, onward, here⟩, alike⟩

/-- A path that is no link leads to a directory without a link at its end being followed. -/
theorem Opens.lstat (opens : files.Opens path place)
    (plain : ∀ place link, files.lstat path ≠ .ok (place, .leaf (.link link))) :
    ∃ inner, files.lstat path = .ok (place, .branch inner) := by
  obtain ⟨inner, found⟩ := opens_iff.1 opens
  obtain ⟨accepted, led, held⟩ := stat_iff.1 found
  rcases led.stop with led | ⟨ending, link, led, there⟩
  · exact ⟨inner, lstat_iff.2 ⟨accepted, led, held⟩⟩
  · exact absurd (lstat_iff.2 ⟨accepted, led, Tree.entry?_eq_leaf.1 there⟩) (plain ending link)

/-! ## The last name of a path -/

/-- The last step of a path takes a name in a directory. -/
structure Names (files : FileSystem) (path : Path) (place : Place) (name : Bytes) : Prop where
  accepted : path.check = .ok ()
  steps : ∃ before, path.openSteps = before ++ [.into name] ∧
    Leads files.root true linkLimit (path.start files.cwd) before (.found place)
  directory : files.root.entry? place = some .directory
  short : name.length ≤ nameLimit

/-- A name stays the last of a path wherever the ways to it are. -/
theorem Names.carry {other : FileSystem} {name : Bytes} (names : files.Names path place name)
    (ways : files.root.WaysIn other.root) (same : other.cwd = files.cwd) :
    other.Names path place name := by
  obtain ⟨before, steps, led⟩ := names.steps
  have kept := ways _ _ names.directory rfl
  refine ⟨names.accepted, ⟨before, steps, ?_⟩, kept, names.short⟩
  rw [same]
  exact led.carry ways (kept.trans names.directory.symm)

theorem Names.opens {name : Bytes} (names : files.Names path place name)
    (directory : files.root.entry? (place ++ [name]) = some .directory) :
    files.Opens path (place ++ [name]) := by
  obtain ⟨before, steps, led⟩ := names.steps
  refine ⟨names.accepted, ?_, directory⟩
  rw [steps]
  have last : Leads files.root true 0 place [.into name] (.found (place ++ [name])) :=
    (Leads.into_directory_iff directory).2 ⟨names.short, .arrived⟩
  exact led.append last (by simp)

/-- A directory that a path names is found without following a link at the end. -/
theorem Names.lstat {name : Bytes} (names : files.Names path place name) {inner : Tree}
    (found : files.root.at? (place ++ [name]) = some (.branch inner)) :
    files.lstat path = .ok (place ++ [name], .branch inner) := by
  obtain ⟨before, steps, led⟩ := names.steps
  have directory := Tree.entry?_eq_directory.2 ⟨inner, found⟩
  refine lstat_iff.2 ⟨names.accepted, ?_, found⟩
  rw [Path.steps, steps, List.append_assoc]
  have last : Leads files.root false 0 place
      ([.into name] ++ if path.endsWithSlash = true then [.stay] else [])
      (.found (place ++ [name])) := by
    refine (Leads.into_directory_iff directory).2 ⟨names.short, ?_⟩
    split
    · exact .stay directory .arrived
    · exact .arrived
  exact led.append last (by simp)

/-- What a path without a slash at its end names is found without following a link. -/
theorem Names.lstat_closed {name : Bytes} (names : files.Names path place name)
    (closed : path.endsWithSlash = false) {node : Node}
    (found : files.root.at? (place ++ [name]) = some node) :
    files.lstat path = .ok (place ++ [name], node) := by
  obtain ⟨before, steps, led⟩ := names.steps
  have held : files.root.entry? (place ++ [name]) = some node.entry := by simp [Tree.entry?, found]
  have last : Leads files.root false 0 place [.into name] (.found (place ++ [name])) := by
    by_cases linked : ∃ link, node.entry = .leaf (.link link)
    · obtain ⟨link, same⟩ := linked
      exact .atLink names.directory names.short (held.trans (congrArg some same)) rfl
    · exact .into names.directory names.short held (fun link same => linked ⟨link, same⟩) .arrived
  refine lstat_iff.2 ⟨names.accepted, ?_, found⟩
  simpa [Path.steps, closed, steps] using led.append last (by simp)

theorem Opens.carry {other : FileSystem} (opens : files.Opens path place)
    (ways : files.root.WaysIn other.root)
    (same : other.cwd = files.cwd) : other.Opens path place := by
  have kept := ways _ _ opens.directory rfl
  refine ⟨opens.accepted, ?_, kept⟩
  rw [same]
  exact opens.leads.carry ways (kept.trans opens.directory.symm)

end FileSystem
end Retarget
