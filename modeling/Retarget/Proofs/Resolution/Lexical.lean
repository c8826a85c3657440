import Retarget.Proofs.Resolution.Forecast

/-!
Paths where there are no links. The place a path leads to can then be read off the path: each step
is taken as it is written, `..` going back on the name before it. A forecast that succeeds says that
of these steps only names at the end can be missing.
-/
namespace Retarget

/-- No link stands at a place or below. -/
def Tree.Linkless (tree : Tree) (place : Place) :
    Prop := ∀ below link, tree.entry? (place ++ below) ≠ some (.leaf (.link link))

/-- A tree that has no link and gets none still has none. -/
theorem Tree.Linkless.of_new {tree other : Tree} (linkless : tree.Linkless [])
    (new : ∀ query entry, other.entry? query = some entry →
      tree.entry? query = some entry ∨ ∀ link, entry ≠ .leaf (.link link)) : other.Linkless [] := by
  intro query link held
  rcases new _ _ held with old | plain
  · exact linkless query link old
  · exact plain link rfl

/-- Spelled names with no link among them lead straight down. -/
theorem Leads.straight {tree : Tree} {follow : Bool} {budget : Nat} {place names : Place}
    {steps : List Step} {spot : Spot} (spelled : Path.Spelled steps names)
    (plain : ∀ above link, above <+: names →
      tree.entry? (place ++ above) ≠ some (.leaf (.link link)))
    (led : Leads tree follow budget place steps spot) : spot.place = place ++ names := by
  induction spelled using Path.Spelled.induction generalizing place with
  | nil =>
    cases led
    simp [Spot.place]
  | stay _ ih =>
    cases led with
    | stay _ onward => exact ih plain onward
  | @into rest others name spelled ih =>
    have here := fun link => plain [name] link ⟨others, rfl⟩
    cases led with
    | into _ _ _ _ onward =>
      have below := ih (fun above link before => by
        simpa using plain (name :: above) link ((List.prefix_cons_inj name).2 before)) onward
      simpa using below
    | vacant =>
      obtain rfl : others = [] := List.map_eq_nil_iff.1 spelled.symm
      rfl
    | atLink _ _ held => exact absurd held (here _)
    | through _ _ held => exact absurd held (here _)

/-- Without links, names lead straight down. -/
theorem Leads.linkless {tree : Tree} {follow : Bool} {budget : Nat} {place names : Place}
    {spot : Spot} (none : tree.Linkless place)
    (led : Leads tree follow budget place (names.map .into) spot) :
    spot.place = place ++ names :=
  led.straight (Path.spelled_names names) fun above link _ => none above link

/-- Where a step leads when no link is in the way. -/
def Step.from (place : Place) : Step → Place
  | .stay => place
  | .up => place.dropLast
  | .into name => place ++ [name]

/-- The place a path spells. -/
def Path.placeFrom (path : Path) (cwd : Place) : Place :=
  path.openSteps.foldl Step.from (path.start cwd)

/-- The slash at the end leads nowhere else. -/
theorem Path.steps_foldl (path : Path) (place : Place) :
    path.steps.foldl Step.from place = path.openSteps.foldl Step.from place := by
  rw [Path.steps, List.foldl_append]
  split <;> rfl

theorem Path.Spelled.foldl_from {steps : List Step} {names : Place}
    (spelled : Path.Spelled steps names) (place : Place) :
    steps.foldl Step.from place = place ++ names := by
  induction spelled using Path.Spelled.induction generalizing place with
  | nil => simp
  | stay _ ih => exact ih place
  | into name _ ih => simp [Step.from, ih]

/-- Steps that only descend lead to a directory below. -/
theorem leads_of_spelled {tree : Tree} {budget : Nat} {place names : Place} {steps : List Step}
    (spelled : Path.Spelled steps names) (short : ∀ name ∈ names, name.length ≤ nameLimit)
    (held : tree.entry? (place ++ names) = some .directory) :
    Leads tree true budget place steps (.found (place ++ names)) := by
  induction spelled using Path.Spelled.induction generalizing place with
  | nil =>
    rw [List.append_nil]
    exact .arrived
  | stay _ ih => exact .stay (Tree.directory_of_append held) (ih short held)
  | into name _ ih =>
    have here := Tree.directory_of_append held
    rw [List.append_cons] at held ⊢
    have next := Tree.directory_of_append held
    have onward := ih (fun other member => short other (List.mem_cons_of_mem _ member)) held
    exact .into here (short name List.mem_cons_self) next (by simp) onward

/-- Steps without `..` spell names. -/
theorem Path.spelled_of_plain {steps : List Step} (plain : .up ∉ steps) :
    ∃ names, Path.Spelled steps names := by
  induction steps with
  | nil => exact ⟨[], Path.spelled_nil⟩
  | cons step rest ih =>
    rw [List.mem_cons, not_or] at plain
    obtain ⟨names, spelled⟩ := ih plain.2
    cases step with
    | stay => exact ⟨names, spelled.stay⟩
    | up => exact absurd rfl plain.1
    | into name => exact ⟨name :: names, spelled.into name⟩

/-- Without links steps lead where they are written to lead. -/
theorem Leads.lexical {tree : Tree} {follow : Bool} {budget : Nat} {place : Place}
    {steps : List Step} {spot : Spot} (linkless : tree.Linkless [])
    (led : Leads tree follow budget place steps spot) :
    spot.place = steps.foldl Step.from place := by
  induction led with
  | arrived => rfl
  | stay _ _ ih => exact ih
  | up _ _ ih => exact ih
  | into _ _ _ _ _ ih => exact ih
  | vacant => rfl
  | atLink _ _ held => exact absurd held (linkless _ _)
  | through _ _ held => exact absurd held (linkless _ _)

/-- Steps that lead to a place lead to one at every point before. -/
theorem Leads.upto {tree : Tree} {budget : Nat} {place reached : Place} {steps more : List Step}
    (led : Leads tree true budget place (steps ++ more) (.found reached)) :
    ∃ middle less, Leads tree true less place steps (.found middle) := by
  by_cases none : more = []
  · exact ⟨reached, budget, by simpa [none] using led⟩
  · obtain ⟨middle, less, _, _, before, _⟩ := led.split none
    exact ⟨middle, less, before⟩

namespace FileSystem

variable {files : FileSystem} {path : Path} {place : Place}

theorem Opens.place_eq (opens : files.Opens path place) (linkless : files.root.Linkless []) :
    place = path.placeFrom files.cwd :=
  opens.leads.lexical linkless

theorem Names.place_eq {name : Bytes} (names : files.Names path place name)
    (linkless : files.root.Linkless []) : place ++ [name] = path.placeFrom files.cwd := by
  obtain ⟨before, steps, led⟩ := names.steps
  have here : place = before.foldl Step.from (path.start files.cwd) := led.lexical linkless
  rw [Path.placeFrom, steps, List.foldl_append, ← here]
  rfl

/-- Looking a path up leads to the place it spells, with the link at its end followed or not. -/
theorem place_eq_of_leads {follow : Bool} {budget : Nat}
    (led : Leads files.root follow budget (path.start files.cwd) path.steps (.found place))
    (linkless : files.root.Linkless []) : place = path.placeFrom files.cwd :=
  (led.lexical linkless).trans (path.steps_foldl _)

/-! ## Forecasts -/

/-- On the way of a path every place is there, or it lies on the way to where the path ends. -/
def Reaches (files : FileSystem) (path : Path) : Prop :=
  ∀ steps, steps <+: path.openSteps →
    files.root.entry? (steps.foldl Step.from (path.start files.cwd)) ≠ none ∨
      steps.foldl Step.from (path.start files.cwd) <+: path.placeFrom files.cwd

/-- A path that only goes down is always on the way to where it ends. -/
theorem reaches_of_plain (plain : .up ∉ path.openSteps) : files.Reaches path := by
  rintro steps ⟨rest, whole⟩
  obtain ⟨names, spelled⟩ := Path.spelled_of_plain plain
  rw [← whole] at spelled
  obtain ⟨front, back, _, first, second⟩ := spelled.cut
  right
  rw [Path.placeFrom, ← whole, List.foldl_append, second.foldl_from]
  exact List.prefix_append _ _

theorem Standing.reaches_of_forecast (standing : files.Standing)
    (linkless : files.root.Linkless []) {seen : Path} (found : files.forecast path = .ok seen) :
    files.Reaches path := by
  obtain ⟨present, names, top, node, climbed, stat, _⟩ := climbed_of_forecast found
  obtain ⟨tail, whole, spelled⟩ := climbed.spelled
  have absolute := climbed.isAbsolute.trans (isAbsolute_absolute files path)
  obtain ⟨_, led, _⟩ := stat_iff.1 stat
  have led := leads_openSteps led
  rw [Path.start, absolute, if_pos rfl] at led
  have start : ∀ steps : List Step, steps.foldl Step.from (path.start files.cwd) =
      ((path.start files.cwd).map Step.into ++ steps).foldl Step.from [] := by
    intro steps
    rw [List.foldl_append, (Path.spelled_names _).foldl_from, List.nil_append]
  rw [(standing.based path).openSteps_absolute] at whole
  rintro steps ⟨rest, same⟩
  rw [Path.placeFrom, start, start, whole]
  rw [← same, ← List.append_assoc] at whole
  rcases List.append_eq_append_iff.1 whole with ⟨more, front, _⟩ | ⟨more, front, back⟩
  · left
    rw [front] at led
    obtain ⟨reached, budget, before⟩ := led.upto
    rw [← show reached = _ from before.lexical linkless]
    exact before.present (by simp)
  · right
    obtain ⟨above, below, rfl, first, _⟩ := (back ▸ spelled).cut
    rw [front, List.foldl_append, List.foldl_append, first.foldl_from, spelled.foldl_from,
      ← List.append_assoc]
    exact List.prefix_append _ _

end FileSystem
end Retarget
