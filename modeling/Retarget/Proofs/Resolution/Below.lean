import Retarget.Proofs.Path.Base
import Retarget.Proofs.Resolution.Paths

/-!
Paths below a directory that a path leads to. Descending by the names of directories leads to the
place with these names, and so does every path made from such a path by putting another name last.
-/
namespace Retarget

theorem Leads.append_idle {tree : Tree} {budget : Nat} {place reached : Place}
    {steps idle : List Step}
    (led : Leads tree true budget place steps (.found reached))
    (directory : tree.entry? reached = some .directory)
    (stays : Path.Idle idle) : Leads tree true budget place (steps ++ idle) (.found reached) := by
  have onward : ∀ more : List Step, Path.Idle more →
      Leads tree true 0 reached more (.found reached) := by
    intro more
    induction more with
    | nil => exact fun _ => .arrived
    | cons step rest ih =>
      intro stays
      obtain rfl : step = .stay := stays step (by simp)
      exact .stay directory (ih fun other member => stays other (List.mem_cons_of_mem _ member))
  by_cases none : idle = []
  · simpa [none] using led
  · exact led.append (onward idle stays) none

namespace FileSystem

variable {files : FileSystem} {directory : Path} {place : Place} {above : Place} {name : Bytes}

/-- The names of directories below lead down to the last of them. -/
theorem Opens.place_below (opens : files.Opens directory place)
    (held : files.root.entry? (place ++ above) = some .directory)
    {reached : Place} (there : files.root.entry? reached = some .directory)
    (led : Leads files.root true linkLimit (directory.start files.cwd)
      (directory.openSteps ++ above.map .into) (.found reached)) :
    reached = place ++ above := by
  have asked : Leads files.root true _ _ _ _ := Leads.concat_stay_iff.2 ⟨reached, rfl, there, led⟩
  rw [List.append_assoc] at asked
  obtain ⟨top, first, left, _, before, after⟩ := asked.split (by simp)
  obtain rfl := Spot.found.inj (before.unique_of_budgets opens.leads)
  obtain ⟨_, last⟩ := (Leads.names_append_iff held).1 after
  cases last with
  | stay _ onward => cases onward; rfl

/-- What a path below a directory leads to is what its last name leads to in the directory above. -/
theorem Opens.leads_below (opens : files.Opens directory place)
    (held : files.root.entry? (place ++ above) = some .directory)
    (legal : ∀ other ∈ above ++ [name], Tree.Legal other) {follow : Bool} {spot : Spot}
    (led : Leads files.root follow linkLimit ((directory.descend (above ++ [name])).start files.cwd)
      (directory.descend (above ++ [name])).openSteps spot) :
    Leads files.root follow linkLimit (place ++ above) [.into name] spot := by
  rw [Path.start_descend directory legal, Path.openSteps_descend directory legal,
    List.map_append] at led
  obtain ⟨top, first, left, _, before, after⟩ := led.split (by simp)
  obtain rfl := Spot.found.inj (before.unique_of_budgets opens.leads)
  exact ((Leads.names_append_iff held).1 after).2.more (by omega)

/-- The last name of a path below a directory stands in the directory above it. -/
theorem Opens.names_below (opens : files.Opens directory place)
    (held : files.root.entry? (place ++ above) = some .directory)
    (legal : ∀ other ∈ above ++ [name], Tree.Legal other) {reached : Place} {last : Bytes}
    (names : files.Names (directory.descend (above ++ [name])) reached last) :
    reached = place ++ above ∧ last = name := by
  obtain ⟨before, steps, led⟩ := names.steps
  rw [Path.openSteps_descend directory legal, List.map_append, ← List.append_assoc] at steps
  obtain ⟨rfl, same⟩ := List.append_inj' steps rfl
  rw [Path.start_descend directory legal] at led
  exact ⟨opens.place_below held names.directory led, by simpa using same.symm⟩

/-- Another name put last stands beside the first. -/
theorem Opens.names_beside (opens : files.Opens directory place)
    (held : files.root.entry? (place ++ above) = some .directory)
    (legal : ∀ other ∈ above ++ [name], Tree.Legal other) {beside : Bytes}
    (slashless : Path.slash ∉ beside)
    (some : beside ≠ []) {reached : Place} {last : Bytes}
    (names : files.Names ((directory.descend (above ++ [name])).withFileName beside) reached last) :
    reached = place ++ above ∧ last = beside := by
  have nameLegal : Tree.Legal name := legal name (by simp)
  have aboveLegal : ∀ other ∈ above, Tree.Legal other :=
    fun other member => legal other (by simp [member])
  obtain ⟨parent, idle, whole, steps, stays, absolute⟩ :=
    Path.withFileName_joinName (directory.descend above) nameLegal beside
  rw [Path.descend_concat, whole] at names
  have relative : Path.isAbsolute ⟨beside⟩ = false := by
    obtain ⟨byte, rest, rfl⟩ := List.exists_cons_of_ne_nil some
    have apart : byte ≠ Path.slash := fun same => slashless (by simp [same])
    simp [Path.isAbsolute, apart]
  obtain ⟨before, taken, led⟩ := names.steps
  obtain ⟨step, given, only⟩ := Path.step?_of_ne_nil some
  rw [Path.joinName, Path.openSteps_join parent relative,
    Path.openSteps_piece slashless, given] at taken
  obtain ⟨rfl, same⟩ := List.append_inj' taken rfl
  have start : Path.start (parent.joinName beside) files.cwd = directory.start files.cwd := by
    rw [Path.start, Path.joinName, Path.isAbsolute_join parent relative, absolute,
      ← Path.descend_concat,
      Path.isAbsolute_descend directory legal, Path.start]
  rw [start] at led
  have regrouped := led.append_idle names.directory stays
  rw [← steps, Path.openSteps_descend directory aboveLegal] at regrouped
  exact ⟨opens.place_below held names.directory regrouped, only last (by simpa using same)⟩

end FileSystem
end Retarget
