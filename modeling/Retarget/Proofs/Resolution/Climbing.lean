import Retarget.Proofs.Resolution.Lexical

/-!
Forecasts where there are no links and paths only go down. A forecast that succeeds is the path of
the place that is spelled, so it says nothing of what is there yet; and it succeeds in one system
exactly where it does in another with the same working directory.
-/
namespace Retarget.FileSystem

variable {files other : FileSystem} {path : Path} {names : Place}

/-- Where climbing ends at a place, the place and the names behind it are what the path spells. -/
theorem Climbed.place_eq {present : Path} {gathered reached : Place} {node : Node}
    (climbed : files.Climbed (files.absolute path) present gathered)
    (found : files.stat present = .ok (reached, node)) (linkless : files.root.Linkless [])
    (legal : ∀ name ∈ files.cwd, Tree.Legal name) :
    reached ++ gathered = path.placeFrom files.cwd := by
  obtain ⟨tail, steps, spells⟩ := climbed.spelled
  have absolute := climbed.isAbsolute.trans (isAbsolute_absolute files path)
  have here := place_eq_of_leads (stat_iff.1 found).2.1 linkless
  rw [Path.placeFrom, Path.start, absolute, if_pos rfl] at here
  have ends := congrArg (List.foldl Step.from []) steps
  rw [List.foldl_append, ← here, spells.foldl_from,
    openSteps_absolute files path (start_legal legal path), List.foldl_append,
    (Path.spelled_names _).foldl_from, List.nil_append] at ends
  exact ends.symm

/-- A forecast is the path of the place that is spelled. -/
theorem forecast_eq (linkless : files.root.Linkless [])
    (legal : ∀ name ∈ files.cwd, Tree.Legal name) (accepted : path.check = .ok ())
    (spelled : Path.Spelled path.openSteps names) {seen : Path}
    (found : files.forecast path = .ok seen) :
    seen = (Path.ofPlace (path.placeFrom files.cwd)).normalized := by
  obtain ⟨present, gathered, reached, node, climbed, stat, rfl⟩ := climbed_of_forecast found
  have placed := climbed.place_eq stat linkless legal
  have nameLegal : ∀ name ∈ names, Tree.Legal name := fun name member =>
    Path.legal_of_mem_openSteps (not_mem_of_check accepted) (spelled.mem member)
  have allLegal : ∀ name ∈ reached ++ gathered, Tree.Legal name := by
    have spelling : path.placeFrom files.cwd = path.start files.cwd ++ names := spelled.foldl_from _
    rw [placed, spelling]
    exact fun name member => (List.mem_append.1 member).elim (start_legal legal path name)
      (nameLegal name)
  rw [← placed]
  exact congrArg Path.normalized (Path.descend_ofPlace fun name member => (allLegal name member).whole)

theorem check_of_isPresent (present : files.isPresent path = true) : path.check = .ok () := by
  obtain ⟨place, node, found⟩ := isPresent_iff.1 present
  exact (stat_iff.1 found).1

theorem canonical_of_isPresent (present : files.isPresent path = true) :
    ∃ top, files.canonical path = .ok top := by
  obtain ⟨place, node, found⟩ := isPresent_iff.1 present
  exact ⟨Path.ofPlace place, by simp [canonical, found, bind, Except.bind, pure, Except.pure]⟩

/-- The root is there, however it is written. -/
theorem isPresent_of_idle (accepted : path.check = .ok ()) (absolute : path.isAbsolute = true)
    (idle : Path.Idle path.openSteps) : files.isPresent path = true := by
  have root : files.root.entry? [] = some .directory := by simp
  refine isPresent_of_leads accepted ?_ root
  rw [Path.start, absolute, if_pos rfl]
  exact Leads.arrived.append_idle root idle

/-- The parent of a path that only goes down is left with the last name. -/
theorem climb_step (spelled : Path.Spelled path.openSteps names)
    (goes : ¬Path.Idle path.openSteps) : ∃ parent name front, path.parent? = some parent ∧
      path.fileName? = some name ∧ parent.isAbsolute = path.isAbsolute ∧
      Path.Spelled parent.openSteps front ∧ parent.bytes.length < path.bytes.length := by
  rcases Path.parent?_cases path with
    ⟨idle, _⟩ | ⟨parent, last, before, after, given, absolute, steps, _, _, moves, file⟩
  · exact absurd idle goes
  · have taken := steps ▸ spelled
    obtain ⟨front, _, _, first, _⟩ := taken.cut
    have shorter := Path.parent?_shorter given goes
    cases last with
    | stay => exact absurd rfl moves
    | into name => exact ⟨parent, name, front, given, (file name).2 rfl, absolute, first, shorter⟩
    | up =>
      have inside : Step.up ∈ path.openSteps.filter (· ≠ .stay) := by
        rw [steps]
        simp
      rw [spelled] at inside
      simp at inside

theorem climb_of_nameless {count : Nat} {gathered : Place} (nameless : path.fileName? = none) :
    files.climb count path gathered = (path, gathered) := by
  cases count with
  | zero => rfl
  | succ count =>
    unfold climb
    rw [nameless]
    split
    · rfl
    · cases path.parent? <;> rfl

/-- Climbing from an accepted path ends at something that is there, the root at the latest. -/
theorem climb_ends {count : Nat} {gathered : Place} (accepted : path.check = .ok ())
    (absolute : path.isAbsolute = true) (spelled : Path.Spelled path.openSteps names)
    (enough : path.bytes.length < count) :
    ∃ top, files.canonical (files.climb count path gathered).1 = .ok top := by
  induction count generalizing path names gathered with
  | zero => cases enough
  | succ count ih =>
    unfold climb
    split
    · rename_i present
      exact canonical_of_isPresent present
    · rename_i absent
      have goes : ¬Path.Idle path.openSteps := fun idle =>
        absent (isPresent_of_idle accepted absolute idle)
      obtain ⟨parent, name, front, given, named, same, onward, shorter⟩ := climb_step spelled goes
      rw [given, named]
      have above := same.trans absolute
      exact ih (Path.check_of_prefix accepted (Path.bytes_parent_prefix given)
        (Path.bytes_ne_nil_of_isAbsolute above)) above onward (by omega)

/-- Where climbing ends at something that is there in one system, it does in every other. -/
theorem climb_follows {count : Nat} {gathered more : Place} (absolute : path.isAbsolute = true)
    (spelled : Path.Spelled path.openSteps names) (enough : path.bytes.length < count) {top : Path}
    (found : files.canonical (files.climb count path gathered).1 = .ok top) :
    ∃ top, other.canonical (other.climb count path more).1 = .ok top := by
  induction count generalizing path names gathered more with
  | zero => cases enough
  | succ count ih =>
    by_cases accepted : path.check = .ok ()
    · exact climb_ends accepted absolute spelled enough
    · have absent : files.isPresent path = false ∧ other.isPresent path = false := by
        constructor <;> rw [Bool.eq_false_iff] <;> exact fun present =>
          accepted (check_of_isPresent present)
      by_cases goes : Path.Idle path.openSteps
      · rcases Path.parent?_cases path with
          ⟨_, none, _⟩ | ⟨_, last, _, _, _, _, steps, _, _, moves, _⟩
        · rw [climb_of_nameless none] at found
          obtain ⟨_, stat, _⟩ := bind_eq_ok.1 found
          exact absurd (stat_iff.1 stat).1 accepted
        · exact absurd (goes last (by simp [steps])) moves
      · obtain ⟨parent, name, front, given, named, same, onward, shorter⟩ := climb_step spelled goes
        unfold climb at found ⊢
        rw [absent.1, given, named] at found
        rw [absent.2, given, named]
        exact ih (same.trans absolute) onward (by omega) found

theorem forecast_follows (same : other.cwd = files.cwd) (linkless : files.root.Linkless [])
    (otherLinkless : other.root.Linkless []) (legal : ∀ name ∈ files.cwd, Tree.Legal name)
    (accepted : path.check = .ok ()) (spelled : Path.Spelled path.openSteps names) {seen : Path}
    (found : files.forecast path = .ok seen) : other.forecast path = .ok seen := by
  have steps := openSteps_absolute files path (start_legal legal path)
  have whole : Path.Spelled (files.absolute path).openSteps (path.start files.cwd ++ names) := by
    rw [steps]
    exact (Path.spelled_names _).append spelled
  have sameStart : other.absolute path = files.absolute path := by
    rw [absolute, same, absolute]
  obtain ⟨top, canonical⟩ : ∃ top, files.canonical (files.climb
      ((files.absolute path).bytes.length + 1) (files.absolute path) []).1 = .ok top := by
    unfold forecast at found
    dsimp only at found
    split at found
    · cases found
    · rename_i top given
      exact ⟨top, given⟩
  obtain ⟨otherTop, follows⟩ : ∃ top, other.canonical (other.climb
      ((files.absolute path).bytes.length + 1) (files.absolute path) []).1 = .ok top :=
    climb_follows (isAbsolute_absolute files path) whole (by omega) canonical
  obtain ⟨otherSeen, given⟩ : ∃ seen, other.forecast path = .ok seen := by
    unfold forecast
    dsimp only
    rw [sameStart, follows]
    exact ⟨_, rfl⟩
  rw [given, forecast_eq otherLinkless (same.symm ▸ legal) accepted spelled given,
    forecast_eq linkless legal accepted spelled found, same]

end Retarget.FileSystem
