import Retarget.Proofs.Change.Soundness
import Retarget.Proofs.Path.Rooted
import Retarget.Proofs.Path.Spelled
import Retarget.Proofs.Resolution.Below

/-!
What a forecast says. Climbing from a path takes names off its end up to the first ancestor that
leads somewhere; the forecast is the place of that ancestor with the names behind it. A link on the
way is followed in the ancestor only, which is enough because the first name behind it leads to no
directory.
-/
namespace Retarget

namespace Path

theorem check_eq_ok_iff {path : Path} : path.check = .ok () ↔ 0 ∉ path.bytes ∧ path.bytes ≠ [] ∧
    path.bytes.length < pathLimit := by
  unfold check
  split
  · simp_all
  · split
    · simp_all
    · split
      · rename_i long
        simp [Nat.not_lt.2 long]
      · simp_all

/-- What stands at the front of an accepted path is accepted. -/
theorem check_of_prefix {path front : Path} (accepted : path.check = .ok ())
    (before : front.bytes <+: path.bytes)
    (written : front.bytes ≠ []) : front.check = .ok () := by
  obtain ⟨zero, _, short⟩ := check_eq_ok_iff.1 accepted
  exact check_eq_ok_iff.2 ⟨fun inside => zero (before.subset inside), written,
    before.length_le.trans_lt short⟩

theorem bytes_ne_nil_of_isAbsolute {path : Path} (absolute : path.isAbsolute = true) :
    path.bytes ≠ [] := by
  rintro none
  simp [isAbsolute, none] at absolute

end Path

/-- Spelled names of directories lead down through them. -/
theorem Leads.spelled {tree : Tree} {follow : Bool} {budget : Nat} {place reached names : Place}
    {steps : List Step}
    (held : tree.entry? (place ++ names) = some .directory) (spelled : Path.Spelled steps names)
    (led : Leads tree follow budget place steps (.found reached)) : reached = place ++ names := by
  induction spelled using Path.Spelled.induction generalizing place with
  | nil =>
    cases led
    simp
  | stay _ ih =>
    cases led with
    | stay _ onward => exact ih held onward
  | into name _ ih =>
    rw [List.append_cons] at held ⊢
    have next := Tree.directory_of_append held
    exact ih held ((Leads.into_directory_iff next).1 led).2

/-- Steps that lead to a directory start from one. -/
theorem Leads.directory_start {tree : Tree} {follow : Bool} {budget : Nat} {place reached : Place}
    {steps : List Step} (led : Leads tree follow budget place steps (.found reached))
    (directory : tree.entry? reached = some .directory) : tree.entry? place = some .directory := by
  cases steps with
  | nil =>
    cases led
    exact directory
  | cons step rest => exact led.directory_of_cons

namespace FileSystem

variable {files : FileSystem} {path present : Path}

/-- What a run relies on in the file system it starts from: names are as a directory takes them, and
the working directory is there. -/
structure Standing (files : FileSystem) : Prop where
  sound : files.Sound
  cwd : files.root.entry? files.cwd = some .directory
  short : ∀ name ∈ files.cwd, name.length ≤ nameLimit

theorem Standing.start (standing : files.Standing) (path : Path) :
    files.root.entry? (path.start files.cwd) = some .directory ∧
    ∀ name ∈ path.start files.cwd, name.length ≤ nameLimit ∧ Tree.Legal name := by
  unfold Path.start
  split
  · simp
  · exact ⟨standing.cwd, fun name member =>
      ⟨standing.short name member, standing.sound.wellFormed.legal standing.cwd name member⟩⟩

/-- The directory that a path starts from is there, and its names are as a directory takes them. An
absolute path has it whatever became of the working directory. -/
structure Based (files : FileSystem) (path : Path) : Prop where
  sound : files.Sound
  start : files.root.entry? (path.start files.cwd) = some .directory
  short : ∀ name ∈ path.start files.cwd, name.length ≤ nameLimit

theorem Standing.based (standing : files.Standing) (path : Path) : files.Based path := by
  obtain ⟨directory, names⟩ := standing.start path
  exact ⟨standing.sound, directory, fun name member => (names name member).1⟩

theorem based_of_start (sound : files.Sound) (names : ∀ name ∈ files.cwd, name.length ≤ nameLimit)
    (start : files.root.entry? (path.start files.cwd) = some .directory) : files.Based path := by
  refine ⟨sound, start, ?_⟩
  unfold Path.start
  split
  · simp
  · exact names

theorem Based.legal (based : files.Based path) :
    ∀ name ∈ path.start files.cwd, Tree.Legal name :=
  based.sound.wellFormed.legal based.start

/-! ## Absolute paths -/

theorem isAbsolute_absolute (files : FileSystem) (path : Path) :
    (files.absolute path).isAbsolute = true := by
  unfold absolute
  cases given : path.isAbsolute with
  | true => simp [Path.join, given]
  | false => rw [Path.isAbsolute_join _ given, Path.isAbsolute_ofPlace]

theorem length_absolute (files : FileSystem) (path : Path) :
    path.bytes.length ≤ (files.absolute path).bytes.length := by
  unfold absolute
  cases given : path.isAbsolute with
  | true => simp [Path.join, given]
  | false =>
    simp only [Path.join_relative _ given, List.length_append]
    omega

theorem start_legal (legal : ∀ name ∈ files.cwd, Tree.Legal name) (path : Path) :
    ∀ name ∈ path.start files.cwd, Tree.Legal name := by
  unfold Path.start
  split
  · simp
  · exact legal

theorem openSteps_absolute (files : FileSystem) (path : Path)
    (legal : ∀ name ∈ path.start files.cwd, Tree.Legal name) :
    (files.absolute path).openSteps = (path.start files.cwd).map .into ++ path.openSteps := by
  unfold absolute
  unfold Path.start at legal ⊢
  cases given : path.isAbsolute with
  | true => simp [Path.join, given]
  | false =>
    rw [given] at legal
    have whole : ∀ name ∈ files.cwd, Path.Whole name := fun name member =>
      (legal name (by simpa using member)).whole
    rw [Path.openSteps_join _ given, Path.openSteps_ofPlace whole]
    rfl

theorem Based.openSteps_absolute (based : files.Based path) :
    (files.absolute path).openSteps = (path.start files.cwd).map .into ++ path.openSteps :=
  FileSystem.openSteps_absolute files path based.legal

theorem endsWithSlash_absolute (written : path.bytes ≠ []) :
    (files.absolute path).endsWithSlash = path.endsWithSlash := by
  unfold absolute
  cases given : path.isAbsolute with
  | true => simp [Path.join, given]
  | false => exact Path.endsWithSlash_join given written

theorem Based.check_absolute (based : files.Based path) (accepted : path.check = .ok ())
    (short : (files.absolute path).bytes.length < pathLimit) :
    (files.absolute path).check = .ok () := by
  refine Path.check_eq_ok_iff.2
    ⟨?_, Path.bytes_ne_nil_of_isAbsolute (isAbsolute_absolute files path), short⟩
  have zero := not_mem_of_check accepted
  unfold absolute
  cases given : path.isAbsolute with
  | true => simpa [Path.join, given] using zero
  | false =>
    have legal := based.legal
    rw [Path.start, given, if_neg (by simp)] at legal
    have above : (0 : UInt8) ∉ [Path.slash].intercalate files.cwd :=
      Path.not_mem_intercalate (by decide) fun name member => (legal name member).2.2
    rw [Path.join_relative _ given]
    unfold Path.seam
    split <;> simpa [Path.ofPlace, Path.slash, zero] using above

/-- Steps of a path taken from the root lead where the path leads. -/
theorem Based.leads_iff (based : files.Based path) {follow : Bool} {budget : Nat}
    {steps : List Step} {spot : Spot} :
    Leads files.root follow budget [] ((path.start files.cwd).map .into ++ steps) spot ↔
      Leads files.root follow budget (path.start files.cwd) steps spot := by
  rw [Leads.names_append_iff (by simpa using based.start), and_iff_right based.short,
    List.nil_append]

/-- Made absolute, an accepted path leads to the same. -/
theorem Based.stat_absolute (based : files.Based path) (accepted : path.check = .ok ())
    (short : (files.absolute path).bytes.length < pathLimit) {place : Place} {node : Node} :
    files.stat (files.absolute path) = .ok (place, node) ↔ files.stat path = .ok (place, node) := by
  have written := (Path.check_eq_ok_iff.1 accepted).2.1
  have steps : (files.absolute path).steps = (path.start files.cwd).map .into ++ path.steps := by
    rw [Path.steps, based.openSteps_absolute, endsWithSlash_absolute written, Path.steps,
      List.append_assoc]
  have start : (files.absolute path).start files.cwd =
      [] := by simp [Path.start, isAbsolute_absolute]
  rw [stat_iff, stat_iff, steps, start, based.leads_iff]
  simp [accepted, based.check_absolute accepted short]

/-! ## Climbing -/

/-- An ancestor with the names between it and a path, all of them on paths that lead nowhere. -/
inductive Climbed (files : FileSystem) : Path → Path → Place → Prop where
  | here {path : Path} : Climbed files path path []
  | up {path parent top : Path} {name : Bytes} {names : Place}
      (absent : files.isPresent path = false) (given : path.parent? = some parent)
      (named : path.fileName? = some name) (rest : Climbed files parent top names) :
      Climbed files path top (names ++ [name])

theorem climbed_of_climb {count : Nat} {names gathered : Place}
    (found : files.climb count path names = (present, gathered)) :
    ∃ more, gathered = more ++ names ∧ files.Climbed path present more := by
  induction count generalizing path names with
  | zero =>
    cases found
    exact ⟨[], rfl, .here⟩
  | succ count ih =>
    unfold climb at found
    split at found
    · cases found
      exact ⟨[], rfl, .here⟩
    · rename_i absent
      split at found
      · rename_i parent name given named
        obtain ⟨more, rfl, rest⟩ := ih found
        exact ⟨more ++ [name], by simp, .up (by simpa using absent) given named rest⟩
      · cases found
        exact ⟨[], rfl, .here⟩

/-- The names left behind in climbing are spelled by the steps that were taken back. -/
theorem Climbed.spelled {names : Place} (climbed : files.Climbed path present names) :
    ∃ tail, path.openSteps = present.openSteps ++ tail ∧ Path.Spelled tail names := by
  induction climbed with
  | here => exact ⟨[], by simp, Path.spelled_nil⟩
  | up _ given named _ ih =>
    obtain ⟨before, after, idle, more, steps⟩ := Path.openSteps_parent_name given named
    obtain ⟨tail, whole, spelled⟩ := ih
    exact ⟨tail ++ (before ++ .into _ :: after), by rw [steps, whole, List.append_assoc],
      spelled.concat idle more _⟩

/-- A forecast that succeeds climbed to something that is there. -/
theorem climbed_of_forecast {seen : Path} (found : files.forecast path = .ok seen) :
    ∃ present names top node, files.Climbed (files.absolute path) present names ∧
      files.stat present = .ok (top, node) ∧
      seen = (names.foldl Path.joinName (Path.ofPlace top)).normalized := by
  unfold forecast at found
  rcases climb : files.climb ((files.absolute path).bytes.length + 1) (files.absolute path)
    [] with ⟨present, gathered⟩
  dsimp only at found
  rw [climb] at found
  dsimp only at found
  split at found
  · cases found
  · rename_i seenTop given
    obtain ⟨⟨top, node⟩, stat, same⟩ := bind_eq_ok.1 given
    obtain rfl : Path.ofPlace top = seenTop := Except.ok.inj same
    obtain ⟨names, whole, climbed⟩ := climbed_of_climb climb
    rw [List.append_nil] at whole
    subst gathered
    exact ⟨present, names, top, node, climbed, stat, (Except.ok.inj found).symm⟩

/-- A path that means the root can be looked at wherever a forecast of it can be made. -/
theorem check_of_forecast {seen : Path} (absolute : path.isAbsolute = true)
    (idle : Path.Idle path.openSteps) (found : files.forecast path = .ok seen) :
    path.check = .ok () := by
  have whole : files.absolute path = path := if_pos absolute
  obtain ⟨present, names, top, node, climbed, stat, _⟩ := climbed_of_forecast found
  rw [whole] at climbed
  cases climbed with
  | here => exact (stat_iff.1 stat).1
  | @up _ _ _ name _ _ given named _ =>
    -- A name left behind would be a step of the path.
    obtain ⟨before, after, _, _, steps⟩ := Path.openSteps_parent_name given named
    cases idle (.into name) (by rw [steps]; simp)

theorem Climbed.isAbsolute {names : Place} (climbed : files.Climbed path present names) :
    present.isAbsolute = path.isAbsolute := by
  induction climbed with
  | here => rfl
  | up _ given _ _ ih => rw [ih, (Path.openSteps_parent given).1]

theorem isPresent_of_leads (accepted : path.check = .ok ()) {reached : Place}
    (led : Leads files.root true linkLimit (path.start files.cwd) path.openSteps (.found reached))
    (directory : files.root.entry? reached = some .directory) : files.isPresent path = true := by
  obtain ⟨inner, found⟩ := opens_iff.1 ⟨accepted, led, directory⟩
  exact isPresent_iff.2 ⟨reached, _, found⟩

/-- Taking one step that leads on off steps behind a base, with those around it that stay, leaves
the base. -/
theorem steps_behind {base : Place} {steps before after rest : List Step} {name : Bytes}
    (first : Path.Idle before)
    (last : Path.Idle after) (goes : ¬Path.Idle rest)
    (whole : steps ++ (before ++ .into name :: after) = base.map .into ++ rest) :
    ∃ between, steps = base.map .into ++ between ∧
    rest = between ++ (before ++ .into name :: after) := by
  rcases List.append_eq_append_iff.1 whole with ⟨more, front, same⟩ | ⟨between, front, same⟩
  · cases more with
    | nil => exact ⟨[], by simpa using front.symm, by simpa using same.symm⟩
    | cons step others =>
      -- The base would reach beyond the step that leads on, with steps behind it that all stay.
      have intos : ∀ other ∈ step :: others, ∃ held, other = Step.into held := by
        intro other member
        have inside : other ∈ base.map Step.into := by simp [front, List.mem_append_right _ member]
        obtain ⟨held, _, rfl⟩ := List.mem_map.1 inside
        exact ⟨held, rfl⟩
      cases before with
      | cons opening _ =>
        obtain ⟨held, rfl⟩ := intos step (by simp)
        have stays := first opening (by simp)
        simp [stays] at same
      | nil =>
        have tail : after = others ++ rest := (List.cons.inj same).2
        exact absurd (fun other member => last other (by simp [tail, member])) goes
  · exact ⟨between, front, same⟩

/-- What climbing from a path tells of its steps behind a base that is there. -/
theorem Climbed.steps {base names : Place} {rest : List Step}
    (climbed : files.Climbed path present names)
    (accepted : path.check = .ok ()) (absolute : path.isAbsolute = true)
    (directory : files.root.entry? base = some .directory)
    (short : ∀ name ∈ base, name.length ≤ nameLimit)
    (whole : path.openSteps = base.map .into ++ rest) :
    ∃ front tail, present.openSteps = base.map .into ++ front ∧ rest = front ++ tail ∧
    Path.Spelled tail names ∧
      (names = [] → present = path) ∧ (names ≠ [] → files.isPresent path = false) ∧
      ∀ first others, names = first :: others → ∃ between later, Path.Idle between ∧
      tail = between ++ .into first :: later ∧
        ∀ reached, Leads files.root true linkLimit base (front ++ (between ++ [.into first]))
        (.found reached) →
          files.root.entry? reached ≠ some .directory := by
  have leads : ∀ {other : Path} {steps : List Step} {reached : Place}, other.check = .ok () →
      other.isAbsolute = true →
        other.openSteps = base.map .into ++ steps →
        Leads files.root true linkLimit base steps (.found reached) →
        files.root.entry? reached = some .directory → files.isPresent other = true := by
    intro other steps reached accepted absolute whole led there
    refine isPresent_of_leads accepted ?_ there
    rw [whole, Path.start, absolute, if_pos rfl, Leads.names_append_iff (by simpa using directory)]
    exact ⟨short, by simpa using led⟩
  induction climbed generalizing rest with
  | here => exact ⟨rest, [], whole, by simp, Path.spelled_nil, fun _ => rfl, by simp, by simp⟩
  | @up path parent top name names absent given named climbed ih =>
    obtain ⟨before, after, idle, more, steps⟩ := Path.openSteps_parent_name given named
    have goes : ¬Path.Idle rest := fun stays => by
      have there := leads accepted absolute whole
        (by simpa using Leads.arrived.append_idle directory stays) directory
      rw [absent] at there
      cases there
    obtain ⟨between, parentSteps, same⟩ := steps_behind idle more goes (steps.symm.trans whole)
    have parentAbsolute := (Path.openSteps_parent given).1.trans absolute
    have parentAccepted :=
      Path.check_of_prefix accepted (Path.bytes_parent_prefix given)
      (Path.bytes_ne_nil_of_isAbsolute parentAbsolute)
    obtain ⟨front, tail, topSteps, split, spelled, here, _, blocked⟩ :=
      ih parentAccepted parentAbsolute parentSteps
    refine ⟨front, tail ++ (before ++ .into name :: after),
      topSteps, by rw [same, split, List.append_assoc],
      spelled.concat idle more name, by simp, fun _ => absent, fun first others named => ?_⟩
    cases names with
    | cons other further =>
      obtain ⟨rfl, rfl⟩ := List.cons.inj named
      obtain ⟨between, later, stays, tailWhole, none⟩ := blocked _ _ rfl
      exact ⟨between, later ++ (before ++ .into name :: after), stays, by simp [tailWhole], none⟩
    | nil =>
      obtain ⟨rfl, rfl⟩ := List.cons.inj named
      obtain rfl : top = parent := here rfl
      have onlyFront : front = between := List.append_cancel_left (topSteps.symm.trans parentSteps)
      have none : tail = [] := by simpa [onlyFront] using split
      refine ⟨before, after, idle, by simp [none], fun reached led there => ?_⟩
      have steps : path.openSteps = base.map .into ++
          (front ++ (before ++ [.into name]) ++ after) := by
        rw [whole, same, onlyFront]
        simp
      have present := leads accepted absolute steps (led.append_idle there more) there
      rw [absent] at present
      cases present

/-- Where a path leads and how it goes on: `front` leads to a place, the rest spells names, and the
first of them leads to no directory. -/
structure Foretold (files : FileSystem) (path : Path) (top names : Place) (front tail : List Step) :
    Prop where
  steps : path.openSteps = front ++ tail
  spelled : Path.Spelled tail names
  legal : ∀ name ∈ names, Tree.Legal name
  leads : Leads files.root true linkLimit (path.start files.cwd) front (.found top)
  there : files.root.entry? top ≠ none
  present : names = [] → ∃ node, files.stat path = .ok (top, node)
  absent : names ≠ [] → files.isPresent path = false
  blocked : ∀ first rest, names = first :: rest → ∃ between later, Path.Idle between ∧
      tail = between ++ .into first :: later ∧
    ∀ reached, Leads files.root true linkLimit (path.start files.cwd)
    (front ++ (between ++ [.into first])) (.found reached) →
      files.root.entry? reached ≠ some .directory

/-- A forecast is the path of the place a path leads to with the names that follow. -/
theorem Based.forecast_ok (based : files.Based path) (accepted : path.check = .ok ())
    (short : (files.absolute path).bytes.length < pathLimit) {seen : Path}
    (found : files.forecast path = .ok seen) :
    ∃ top names front tail, files.Foretold path top names front tail ∧
    seen.components = Path.rooted (top ++ names) := by
  obtain ⟨present, names, top, node, climbed, stat, rfl⟩ := climbed_of_forecast found
  have absolute := isAbsolute_absolute files path
  obtain ⟨front, tail, presentSteps, steps, spelled, here, absent, blocked⟩ :=
    climbed.steps (based.check_absolute accepted short) absolute based.start based.short
      based.openSteps_absolute
  have legal : ∀ name ∈ names, Tree.Legal name := fun name member =>
    Path.legal_of_mem_openSteps (not_mem_of_check accepted) (by simp [steps, spelled.mem member])
  obtain ⟨_, reached, held⟩ := stat_iff.1 stat
  have there : files.root.entry? top ≠ none := by simp [Tree.entry?, held]
  refine ⟨top, names, front, tail,
    ⟨steps, spelled, legal, ?_, there, fun none => ?_, fun some => ?_, blocked⟩, ?_⟩
  · have led := leads_openSteps reached
    rw [presentSteps, Path.start, climbed.isAbsolute.trans absolute, if_pos rfl,
      based.leads_iff] at led
    exact led
  · rw [here none] at stat
    exact ⟨node, (based.stat_absolute accepted short).1 stat⟩
  · by_contra isPresent
    obtain ⟨place, other, given⟩ := isPresent_iff.1 (by simpa using isPresent)
    have still := isPresent_iff.2 ⟨place, other, (based.stat_absolute accepted short).2 given⟩
    rw [absent some] at still
    cases still
  · have above : ∀ name ∈ top, Tree.Legal name := (based.sound.wellFormed.at? held).1
    have whole : ∀ name ∈ top ++ names, Path.Whole name := fun name member =>
      ((List.mem_append.1 member).elim (above name) (legal name)).whole
    exact (congrArg Path.components (Path.normalized_descend whole)).trans
      (Path.components_ofPlace whole)

/-- Paths that do not overlap are paths of places of which neither contains the other. -/
theorem overlapping_eq_false_iff {first second : Path} {one other : Place}
    (left : first.components = Path.rooted one)
    (right : second.components = Path.rooted other) :
    overlapping first second = false ↔ ¬one <+: other ∧ ¬other <+: one := by
  unfold overlapping Path.startsWith
  rw [left, right, Bool.or_eq_false_iff, ← Bool.not_eq_true, ← Bool.not_eq_true,
    Path.rooted_isPrefixOf, Path.rooted_isPrefixOf, and_comm]

/-- A path that leads to a directory starts from one. -/
theorem Opens.directory_start {place : Place} (opens : files.Opens path place) :
    files.root.entry? (path.start files.cwd) = some .directory :=
  opens.leads.directory_start opens.directory

/-- A path that leads to a directory leads there when made absolute. -/
theorem Opens.absolute (sound : files.Sound) {place : Place} (opens : files.Opens path place)
    (names : ∀ name ∈ files.cwd, name.length ≤ nameLimit)
    (short : (files.absolute path).bytes.length < pathLimit) :
    files.Opens (files.absolute path) place := by
  obtain ⟨inner, stat⟩ := opens_iff.1 opens
  have based := based_of_start sound names opens.directory_start
  exact opens_iff.2 ⟨inner, (based.stat_absolute opens.accepted short).2 stat⟩

/-- The forecast of a path that leads to a directory is the path of that directory. -/
theorem Opens.forecast (sound : files.Sound) {place : Place} (opens : files.Opens path place)
    (names : ∀ name ∈ files.cwd, name.length ≤ nameLimit)
    (short : (files.absolute path).bytes.length < pathLimit) :
    ∃ seen, files.forecast path = .ok seen ∧ seen.components = Path.rooted place := by
  obtain ⟨inner, stat⟩ := opens_iff.1 (opens.absolute sound names short)
  have present := isPresent_iff.2 ⟨place, _, stat⟩
  have legal := (sound.wellFormed.at? (stat_iff.1 stat).2.2).1
  have whole : ∀ name ∈ place, Path.Whole name := fun name member => (legal name member).whole
  have folded := Path.normalized_eq_ofPlace whole (Path.components_ofPlace whole)
  refine ⟨Path.ofPlace place, ?_, Path.components_ofPlace whole⟩
  simp [FileSystem.forecast, climb, present, canonical, stat, folded, bind, Except.bind, pure,
    Except.pure]

/-- The names that follow lead to no directory, however far they are taken. -/
theorem Foretold.lost {top rest names : Place} {first : Bytes} {front tail steps more : List Step}
    (foretold : files.Foretold path top (first :: rest) front tail) (whole : tail = steps ++ more)
    (spelled : Path.Spelled steps (first :: names)) {reached : Place}
    (led : Leads files.root true linkLimit (path.start files.cwd) (front ++ steps)
      (.found reached)) :
    files.root.entry? reached ≠ some .directory := by
  intro directory
  obtain ⟨between, later, idle, tailWhole, none⟩ := foretold.blocked first rest rfl
  obtain ⟨before, after, rfl, stays, _⟩ := spelled.uncons
  obtain ⟨rfl, _, _⟩ :=
    idle.cancel stays (tailWhole.symm.trans (whole.trans (List.append_assoc _ _ _)))
  have regrouped : front ++ (between ++ .into first :: after) = front ++
      (between ++ [.into first]) ++ after := by simp
  rw [regrouped] at led
  by_cases last : after = []
  · rw [last, List.append_nil] at led
    exact none reached led directory
  · obtain ⟨middle, spent, left, sum, before, onward⟩ := led.split last
    obtain ⟨step, further, rfl⟩ := List.exists_cons_of_ne_nil last
    exact none middle (before.more (by omega)) onward.directory_of_cons

end FileSystem
end Retarget
