import Retarget.Proofs.Resolution.Lexical

/-!
What looking paths up depends on. Where there are no links a path leads only past places that it
spells on its way, so two systems that agree at these places answer every question about the path
alike, and with the same failure where there is one. The places a job is about are those on the way
to its source and its target and those below.
-/
namespace Retarget

/-- On the way to one of some places, or below one. -/
def Near (tops : List Place) (place : Place) : Prop :=
  ∃ top ∈ tops, place <+: top ∨ top <+: place

section Near

variable {tops : List Place} {place top : Place}

theorem near_of_prefix {other : Place} (near : Near tops other) (before : place <+: other) :
    Near tops place := by
  obtain ⟨top, member, above | below⟩ := near
  · exact ⟨top, member, .inl (before.trans above)⟩
  · exact ⟨top, member, List.prefix_or_prefix_of_prefix before below⟩

theorem near_below (member : top ∈ tops) (inside : top <+: place) : Near tops place :=
  ⟨top, member, .inr inside⟩

/-- Steps that are taken past near places only. -/
def Stays (tops : List Place) (place : Place) (steps : List Step) : Prop :=
  ∀ front, front <+: steps → Near tops (front.foldl Step.from place)

theorem Stays.here {steps : List Step} (stays : Stays tops place steps) : Near tops place :=
  stays [] List.nil_prefix

theorem Stays.last {steps : List Step} (stays : Stays tops place steps) :
    Near tops (steps.foldl Step.from place) :=
  stays steps (List.prefix_refl _)

theorem Stays.of_prefix {steps front : List Step} (stays : Stays tops place steps)
    (before : front <+: steps) : Stays tops place front :=
  fun first begins => stays first (begins.trans before)

theorem Stays.tail {step : Step} {rest : List Step} (stays : Stays tops place (step :: rest)) :
    Stays tops (step.from place) rest := by
  rintro front before
  exact stays (step :: front) ((List.prefix_cons_inj step).2 before)

theorem Stays.append {steps more : List Step} (stays : Stays tops place steps)
    (onward : Stays tops (steps.foldl Step.from place) more) :
    Stays tops place (steps ++ more) := by
  rintro front ⟨rest, whole⟩
  rcases List.append_eq_append_iff.1 whole with ⟨left, within, _⟩ | ⟨further, rfl, within⟩
  · exact stays front ⟨left, within.symm⟩
  · rw [List.foldl_append]
    exact onward further ⟨rest, within.symm⟩

theorem stays_nil (near : Near tops place) : Stays tops place [] := by
  rintro front before
  rwa [List.prefix_nil.1 before]

theorem stays_singleton {step : Step} (near : Near tops place)
    (next : Near tops (step.from place)) : Stays tops place [step] := by
  rintro front before
  rcases List.prefix_cons_iff.1 before with rfl | ⟨rest, rfl, none⟩
  · exact near
  · rw [List.prefix_nil.1 none]
    exact next

theorem Stays.close {steps : List Step} (stays : Stays tops place steps) :
    Stays tops place (steps ++ [.stay]) :=
  stays.append (stays_singleton stays.last stays.last)

/-- Steps without `..` go down, so where they end tells that they stay. -/
theorem stays_of_plain {steps : List Step} (plain : .up ∉ steps)
    (near : Near tops (steps.foldl Step.from place)) : Stays tops place steps := by
  rintro front ⟨more, rfl⟩
  obtain ⟨names, spelled⟩ :=
    Path.spelled_of_plain fun inside => plain (List.mem_append_right front inside)
  rw [List.foldl_append, spelled.foldl_from] at near
  exact near_of_prefix near (List.prefix_append _ _)

end Near

/-- A path all of whose steps are taken past near places. -/
def Path.Stays (path : Path) (tops : List Place) (cwd : Place) : Prop :=
  Retarget.Stays tops (path.start cwd) path.openSteps

theorem Path.Stays.steps {path : Path} {tops : List Place} {cwd : Place}
    (stays : path.Stays tops cwd) : Retarget.Stays tops (path.start cwd) path.steps := by
  unfold Path.steps
  split
  · exact Retarget.Stays.close stays
  · rw [List.append_nil]
    exact stays

theorem Path.Stays.onWay {path parent : Path} {tops : List Place} {cwd : Place}
    (stays : path.Stays tops cwd) (onWay : parent.OnWay path) : parent.Stays tops cwd := by
  unfold Path.Stays
  rw [onWay.start]
  exact Retarget.Stays.of_prefix stays onWay.steps

namespace Tree

variable {tree other : Tree} {follow : Bool} {tops : List Place} {place : Place}

theorem advance_absent {step : Step} {rest : List Step} (free : tree.entry? place = none) :
    tree.advance follow place (step :: rest) = .error .notFound := by
  rw [advance, Tree.entry?_eq_none.1 free]

theorem advance_leaf {step : Step} {rest : List Step} {content : Leaf}
    (held : tree.entry? place = some (.leaf content)) :
    tree.advance follow place (step :: rest) = .error .notDirectory := by
  rw [advance, Tree.entry?_eq_leaf.1 held]

theorem advance_long {name : Bytes} {rest : List Step}
    (here : tree.entry? place = some .directory) (long : nameLimit < name.length) :
    tree.advance follow place (.into name :: rest) = .error .nameTooLong := by
  obtain ⟨inner, found⟩ := entry?_eq_directory.1 here
  simp [advance, found, long]

/-- Trees that agree at the places steps go past make the same progress along them. -/
theorem advance_congr (same : ∀ place, Near tops place → other.entry? place = tree.entry? place)
    {steps : List Step} (stays : Stays tops place steps) :
    other.advance follow place steps = tree.advance follow place steps := by
  induction steps generalizing place with
  | nil => rfl
  | cons step rest ih =>
    have equal := same place stays.here
    cases here : tree.entry? place with
    | none => rw [advance_absent here, advance_absent (equal.trans here)]
    | some entry =>
      cases entry with
      | leaf content => rw [advance_leaf here, advance_leaf (equal.trans here)]
      | directory =>
        have there := equal.trans here
        cases step with
        | stay =>
          rw [advance_stay here, advance_stay there]
          exact ih stays.tail
        | up =>
          rw [advance_up here, advance_up there]
          exact ih stays.tail
        | into name =>
          by_cases short : name.length ≤ nameLimit
          · have next : other.entry? (place ++ [name]) = tree.entry? (place ++ [name]) :=
              same _ stays.tail.here
            have onward : other.advance follow (place ++ [name]) rest =
                tree.advance follow (place ++ [name]) rest := ih stays.tail
            rw [advance_into here short, advance_into there short, next, onward]
          · rw [advance_long here (Nat.lt_of_not_le short),
              advance_long there (Nat.lt_of_not_le short)]

/-- Progress stops at a link only where one stands. -/
theorem Linkless.advance_ne_linked (linkless : tree.Linkless []) {steps rest : List Step}
    {directory : Place} {target : Path} :
    tree.advance follow place steps ≠ .ok (.linked directory target rest) := by
  induction steps generalizing place with
  | nil => simp [advance]
  | cons step more ih =>
    intro moved
    obtain ⟨here, short⟩ := advance_cons_ok moved
    cases step with
    | stay => exact ih (advance_stay here ▸ moved)
    | up => exact ih (advance_up here ▸ moved)
    | into name =>
      rw [advance_into here (short name rfl)] at moved
      split at moved
      · split at moved <;> cases moved
      · rename_i link held
        exact linkless _ _ held
      · exact ih moved

theorem reach_congr (linkless : tree.Linkless [])
    (same : ∀ place, Near tops place → other.entry? place = tree.entry? place)
    {steps : List Step} (stays : Stays tops place steps) (budget : Nat) :
    other.reach follow budget place steps = tree.reach follow budget place steps := by
  have progress : other.advance follow place steps = tree.advance follow place steps :=
    advance_congr same stays
  unfold reach
  rw [progress]
  cases moved : tree.advance follow place steps with
  | error cause => rfl
  | ok progress =>
    cases progress with
    | arrived reached => rfl
    | vacant directory name => rfl
    | linked directory target rest => exact absurd moved linkless.advance_ne_linked

end Tree

namespace FileSystem

variable {tops : List Place} {files other : FileSystem} {path : Path} {place cwd : Place}

/-- Two systems without links that agree near some places. -/
structure Agree (tops : List Place) (cwd : Place) (files other : FileSystem) : Prop where
  sound : files.Sound
  otherSound : other.Sound
  linkless : files.root.Linkless []
  otherLinkless : other.root.Linkless []
  stands : files.cwd = cwd
  otherStands : other.cwd = cwd
  names : ∀ name ∈ cwd, Tree.Legal name
  same : ∀ place, Near tops place → other.root.entry? place = files.root.entry? place

theorem Agree.spot (agree : Agree tops cwd files other) {steps : List Step}
    (stays : Stays tops (path.start cwd) steps) (follow : Bool) :
    other.spot follow path steps = files.spot follow path steps := by
  unfold FileSystem.spot
  rw [agree.stands, agree.otherStands, Tree.reach_congr agree.linkless agree.same stays]

theorem spot_place_eq {follow : Bool} {steps : List Step} {spot : Spot}
    (linkless : files.root.Linkless []) (found : files.spot follow path steps = .ok spot) :
    spot.place = steps.foldl Step.from (path.start files.cwd) :=
  (spot_iff.1 found).2.lexical linkless

/-- What two systems hold at one place: nothing, directories, or the same leaf. -/
inductive MeetsEntry (files other : FileSystem) (place : Place) :
    Option Node → Option Node → Prop where
  | free : MeetsEntry files other place none none
  | directory {inner twin : Tree} (here : files.root.at? place = some (.branch inner))
      (there : other.root.at? place = some (.branch twin)) :
      MeetsEntry files other place (some (.branch inner)) (some (.branch twin))
  | leaf {content : Leaf} (here : files.root.at? place = some (.leaf content))
      (there : other.root.at? place = some (.leaf content)) :
      MeetsEntry files other place (some (.leaf content)) (some (.leaf content))

theorem Agree.meets (agree : Agree tops cwd files other) (near : Near tops place) :
    MeetsEntry files other place (files.root.at? place) (other.root.at? place) := by
  have same : other.root.entry? place = files.root.entry? place := agree.same place near
  cases held : files.root.entry? place with
  | none =>
    rw [Tree.entry?_eq_none.1 held, Tree.entry?_eq_none.1 (same.trans held)]
    exact .free
  | some entry =>
    cases entry with
    | directory =>
      obtain ⟨inner, here⟩ := Tree.entry?_eq_directory.1 held
      obtain ⟨twin, there⟩ := Tree.entry?_eq_directory.1 (same.trans held)
      rw [here, there]
      exact .directory here there
    | leaf content =>
      have here := Tree.entry?_eq_leaf.1 held
      have there := Tree.entry?_eq_leaf.1 (same.trans held)
      rw [here, there]
      exact .leaf here there

/-- Two look-ups that come to one place in two systems: directories, or the same leaf. -/
inductive Meets (files other : FileSystem) (place : Place) : Place × Node → Place × Node → Prop where
  | directory {inner twin : Tree} (here : files.root.at? place = some (.branch inner))
      (there : other.root.at? place = some (.branch twin)) :
      Meets files other place (place, .branch inner) (place, .branch twin)
  | leaf {content : Leaf} (here : files.root.at? place = some (.leaf content))
      (there : other.root.at? place = some (.leaf content)) :
      Meets files other place (place, .leaf content) (place, .leaf content)

theorem Agree.nodeAt (agree : Agree tops cwd files other) {spot : Spot}
    (near : Near tops spot.place) :
    Matches (Meets files other spot.place) (files.nodeAt spot) (other.nodeAt spot) := by
  cases spot with
  | vacant directory name => exact .error _
  | found reached =>
    have met := agree.meets near
    simp only [FileSystem.nodeAt, FileSystem.at?, Spot.place] at met ⊢
    generalize files.root.at? reached = held at met
    generalize other.root.at? reached = seen at met
    cases met with
    | free => exact .error _
    | directory here there => exact .ok (.directory here there)
    | leaf here there => exact .ok (.leaf here there)

theorem Agree.found (agree : Agree tops cwd files other) {steps : List Step}
    (stays : Stays tops (path.start cwd) steps) (follow : Bool) :
    Matches (Meets files other (steps.foldl Step.from (path.start cwd)))
      (files.spot follow path steps >>= files.nodeAt)
      (other.spot follow path steps >>= other.nodeAt) := by
  rw [agree.spot stays]
  have once : Matches (fun spot also => spot = also ∧
      spot.place = steps.foldl Step.from (path.start cwd))
      (files.spot follow path steps) (files.spot follow path steps) :=
    .of_eq _ fun spot found => ⟨rfl, agree.stands ▸ spot_place_eq agree.linkless found⟩
  refine once.bind ?_
  rintro spot _ ⟨rfl, ends⟩
  rw [← ends]
  exact agree.nodeAt (ends ▸ stays.last)

theorem Agree.stat (agree : Agree tops cwd files other) (stays : path.Stays tops cwd) :
    Matches (Meets files other (path.placeFrom cwd)) (files.stat path) (other.stat path) := by
  have met := agree.found stays.steps true
  rwa [Path.steps_foldl] at met

theorem Agree.lstat (agree : Agree tops cwd files other) (stays : path.Stays tops cwd) :
    Matches (Meets files other (path.placeFrom cwd)) (files.lstat path)
      (other.lstat path) := by
  have met := agree.found stays.steps false
  rwa [Path.steps_foldl] at met

/-! ## Questions about a path -/

/-- Two look-ups tell the same where the same is told of one failure, of two directories at the
place and of one leaf. -/
@[elab_as_elim]
theorem told_alike {first second : Except OsError (Place × Node)}
    {motive : Except OsError (Place × Node) → Except OsError (Place × Node) → Prop}
    (met : Matches (Meets files other place) first second)
    (error : ∀ cause, motive (.error cause) (.error cause))
    (directory : ∀ inner twin, files.root.at? place = some (.branch inner) →
      other.root.at? place = some (.branch twin) →
      motive (.ok (place, .branch inner)) (.ok (place, .branch twin)))
    (leaf : ∀ content, files.root.at? place = some (.leaf content) →
      motive (.ok (place, .leaf content)) (.ok (place, .leaf content))) : motive first second := by
  cases met with
  | error cause => exact error cause
  | ok both =>
    cases both with
    | directory here there => exact directory _ _ here there
    | leaf here _ => exact leaf _ here

theorem Agree.isPresent (agree : Agree tops cwd files other) (stays : path.Stays tops cwd) :
    other.isPresent path = files.isPresent path := by
  unfold FileSystem.isPresent
  exact told_alike (agree.stat stays) (fun _ => rfl) (fun _ _ _ _ => rfl) fun _ _ => rfl

theorem Agree.isDirectory (agree : Agree tops cwd files other) (stays : path.Stays tops cwd) :
    other.isDirectory path = files.isDirectory path := by
  unfold FileSystem.isDirectory
  exact told_alike (agree.stat stays) (fun _ => rfl) (fun _ _ _ _ => rfl) fun _ _ => rfl

theorem Agree.read (agree : Agree tops cwd files other) (stays : path.Stays tops cwd) :
    other.read path = files.read path := by
  unfold FileSystem.read
  exact told_alike (agree.stat stays) (fun _ => rfl) (fun _ _ _ _ => rfl) fun _ _ => rfl

theorem Agree.canonical (agree : Agree tops cwd files other) (stays : path.Stays tops cwd) :
    other.canonical path = files.canonical path := by
  unfold FileSystem.canonical
  exact told_alike (agree.stat stays) (fun _ => rfl) (fun _ _ _ _ => rfl) fun _ _ => rfl

/-! ## Forecasts -/

theorem Climbed.onWay {present : Path} {names : Place}
    (climbed : files.Climbed path present names) : present.OnWay path := by
  obtain ⟨tail, whole, _⟩ := climbed.spelled
  exact ⟨climbed.isAbsolute, tail, whole.symm⟩

theorem Agree.climb (agree : Agree tops cwd files other) (stays : path.Stays tops cwd)
    (count : Nat) (names : Place) :
    other.climb count path names = files.climb count path names := by
  induction count generalizing path names with
  | zero => rfl
  | succ count ih =>
    unfold FileSystem.climb
    rw [agree.isPresent stays]
    split
    · rfl
    · split
      · rename_i parent name given _
        obtain ⟨absolute, steps⟩ := Path.openSteps_parent given
        exact ih (stays.onWay ⟨absolute, steps⟩) (name :: names)
      · rfl

/-- Made absolute, a path goes past the working directory first. -/
theorem stays_absolute (legal : ∀ name ∈ files.cwd, Tree.Legal name)
    (stays : path.Stays tops files.cwd) : (files.absolute path).Stays tops files.cwd := by
  have down := (Path.spelled_names (path.start files.cwd)).foldl_from []
  rw [List.nil_append] at down
  unfold Path.Stays
  rw [Path.start, isAbsolute_absolute, if_pos rfl,
    openSteps_absolute files path (start_legal legal path)]
  refine Stays.append (stays_of_plain (by simp) ?_) ?_
  · rw [down]
    exact stays.here
  · rw [down]
    exact stays

theorem Agree.forecast (agree : Agree tops cwd files other) (stays : path.Stays tops cwd) :
    other.forecast path = files.forecast path := by
  have here := agree.stands
  subst here
  have absolute := stays_absolute agree.names stays
  have same : other.absolute path = files.absolute path := by
    unfold FileSystem.absolute
    rw [agree.otherStands]
  unfold FileSystem.forecast
  rw [same]
  dsimp only
  rw [agree.climb absolute]
  rcases climb : files.climb ((files.absolute path).bytes.length + 1) (files.absolute path)
    [] with ⟨present, gathered⟩
  obtain ⟨_, _, climbed⟩ := climbed_of_climb climb
  dsimp only
  rw [agree.canonical (absolute.onWay climbed.onWay)]

end FileSystem
end Retarget
