import Retarget.Proofs.Pass.Clearing
import Retarget.Proofs.Resolution.Lexical

/-!
Whether forecasts come true. A path that was forecast and is then made with all that is missing above
it leads to the place that was forecast exactly if no link stands on the way to that place: up to the
ancestor that was found nothing is other than before, and behind it the names are taken as they are
written. As long as the path can be looked at once it is made absolute, no link can stand there,
since the first name that is missing would have to be made in its place.
-/
namespace Retarget

namespace FileSystem

variable {files after : FileSystem} {path seen present : Path} {place top names : Place} {node : Node}

/-- No link stands on the way down to the place that a path spells. -/
def Unlinked (files : FileSystem) (path : Path) : Prop :=
  ∀ above link, above <+: path.placeFrom files.cwd →
    files.root.entry? above ≠ some (.leaf (.link link))

theorem placeFrom_ofPlace (whole : ∀ name ∈ place, Path.Whole name) (cwd : Place) :
    (Path.ofPlace place).placeFrom cwd = place := by
  rw [Path.placeFrom, Path.openSteps_ofPlace whole, (Path.spelled_names place).foldl_from,
    Path.start, Path.isAbsolute_ofPlace, if_pos rfl, List.nil_append]

/-! ## What is forecast -/

/-- A forecast is the path of a place: the one that was found, with the names left behind. -/
theorem forecast_place (sound : files.Sound) (found : files.forecast path = .ok seen) :
    ∃ present top names node, files.Climbed (files.absolute path) present names ∧
      files.stat present = .ok (top, node) ∧
      (∀ name ∈ top ++ names, Path.Whole name) ∧ seen = Path.ofPlace (top ++ names) := by
  obtain ⟨present, names, top, node, climbed, stat, rfl⟩ := climbed_of_forecast found
  obtain ⟨tail, steps, spelled⟩ := climbed.spelled
  have legal := (sound.wellFormed.at? (stat_iff.1 stat).2.2).1
  have whole : ∀ name ∈ top ++ names, Path.Whole name := by
    intro name member
    rcases List.mem_append.1 member with inside | behind
    · exact (legal name inside).whole
    · refine @Path.whole_of_mem_openSteps (files.absolute path) _ ?_
      rw [steps]
      exact List.mem_append_right _ (spelled.mem behind)
  exact ⟨present, top, names, node, climbed, stat, whole, Path.normalized_descend whole⟩

/-! ## What is made -/

theorem Opens.canonical (opens : files.Opens path place) :
    files.canonical path = .ok (Path.ofPlace place) := by
  obtain ⟨inner, stat⟩ := opens_iff.1 opens
  simp [FileSystem.canonical, stat, bind, Except.bind, pure, Except.pure]

/-- A path that was forecast and made leads to a directory, the root included. -/
theorem exists_opens_of_made (written : path.bytes ≠ []) (found : files.forecast path = .ok seen)
    (made : files.makeDirectories path = (.ok (), after)) : ∃ place, after.Opens path place := by
  rcases makeDirectories_ok written made with opens | ⟨absolute, idle⟩
  · exact opens
  · refine ⟨[], check_of_forecast absolute idle found, ?_, by simp⟩
    rw [Path.start, absolute, if_pos rfl]
    simpa using Leads.arrived.append_idle (by simp) idle

/-- A path can be made only where the directory that it starts from is there. -/
theorem Opens.directory_start_before (opens : after.Opens path place)
    (made : files.makeDirectories path = (.ok (), after)) :
    files.root.entry? (path.start files.cwd) = some .directory := by
  by_contra absent
  have same : (files.makeDirectories path).2 = files := by
    refine makeDirectories_keeps (· = files) (fun now parent later onWay same done => ?_) rfl
    subst same
    obtain ⟨above, name, named, _⟩ := makeDirectory_ok done
    obtain ⟨before, _, led⟩ := named.steps
    rw [onWay.start] at led
    exact absurd (led.directory_start named.directory) absent
  rw [made] at same
  obtain rfl : after = files := same
  exact absent opens.directory_start

/-- What a path leads to, it leads to in every later state that has all entries still. -/
theorem Grows.leads (grows : files.Grows after) (stat : files.stat path = .ok (place, node)) :
    Leads after.root true linkLimit (path.start files.cwd) path.openSteps (.found place) := by
  obtain ⟨_, led, held⟩ := stat_iff.1 stat
  have entry : files.root.entry? place = some node.entry := by simp [Tree.entry?, held]
  exact (leads_openSteps led).carry grows.ways ((grows.kept _ _ entry).trans entry.symm)

/-- From the ancestor that was found, the names left behind lead where the path leads once it was
made. -/
theorem Climbed.leads_made (climbed : files.Climbed (files.absolute path) present names)
    (stat : files.stat present = .ok (top, node)) (based : files.Based path)
    (grows : files.Grows after) (opens : after.Opens path place) :
    ∃ tail left, Path.Spelled tail names ∧ Leads after.root true left top tail (.found place) := by
  obtain ⟨tail, steps, spelled⟩ := climbed.spelled
  have front := grows.leads stat
  rw [Path.start, climbed.isAbsolute.trans (isAbsolute_absolute files path), if_pos rfl] at front
  have base := grows.kept _ _ based.start
  have onward := opens.leads
  rw [grows.cwd] at onward
  have whole : Leads after.root true linkLimit [] (files.absolute path).openSteps
      (.found place) := by
    rw [based.openSteps_absolute, Leads.names_append_iff (by simpa using base), List.nil_append]
    exact ⟨based.short, onward⟩
  rw [steps] at whole
  obtain ⟨left, behind⟩ := whole.behind front
  exact ⟨tail, left, spelled, behind⟩

/-- The names left behind are the way down exactly if no link stands on it. -/
theorem Climbed.place_made_iff (climbed : files.Climbed (files.absolute path) present names)
    (stat : files.stat present = .ok (top, node)) (based : files.Based path)
    (made : files.makeDirectories path = (.ok (), after)) (opens : after.Opens path place) :
    place = top ++ names ↔ ∀ above link, above <+: top ++ names →
      files.root.entry? above ≠ some (.leaf (.link link)) := by
  have grows : files.Grows (files.makeDirectories path).2 := grows_of_makeDirectories
  rw [made] at grows
  constructor
  · rintro rfl above link ⟨below, whole⟩ linked
    have directory := opens.directory
    rw [← whole] at directory
    have there := Tree.directory_of_append directory
    rw [grows.kept _ _ linked] at there
    cases there
  · intro plain
    obtain ⟨tail, left, spelled, led⟩ := climbed.leads_made stat based grows opens
    refine led.straight spelled fun above link before linked => ?_
    have onWay : top ++ above <+: top ++ names := (List.prefix_append_right_inj top).2 before
    have later : (files.makeDirectories path).2.root.entry? (top ++ above) =
        some (.leaf (.link link)) := by rw [made, linked]
    -- Only directories were made, so the link was there before.
    rcases of_makeDirectories later with old | directory
    · exact plain _ _ onWay old
    · cases directory

/-- A path that can be looked at once it is absolute leads where was forecast. -/
theorem Based.place_made (based : files.Based path)
    (short : (files.absolute path).bytes.length < pathLimit)
    (found : files.forecast path = .ok seen)
    (made : files.makeDirectories path = (.ok (), after)) (opens : after.Opens path place) :
    seen.components = Path.rooted place := by
  obtain ⟨top, names, front, tail, foretold, components⟩ :=
    based.forecast_ok opens.accepted short found
  suffices same : place = top ++ names by rw [components, same]
  by_cases none : names = []
  · obtain ⟨node, stat⟩ := foretold.present none
    have grows : files.Grows (files.makeDirectories path).2 := grows_of_makeDirectories
    rw [made] at grows
    have led := opens.leads
    rw [grows.cwd] at led
    rw [none, List.append_nil]
    exact Spot.found.inj (led.unique (grows.leads stat))
  · obtain ⟨goal, prepared⟩ := foretold.prepared_absent based.sound none
    have within := prepared.within.makeDirectories prepared.holds
    rw [made] at within
    exact (prepared.only place (opens.carry within.ways within.cwd.symm)).1

/-! ## Coming true -/

/-- A forecast is an absolute path without `.` and `..`. Once the path was made it leads exactly there,
if it is short enough to be looked at when made absolute; and however long it is, if and only if no
link stands on the way that was forecast. -/
theorem forecast_comes_true (sound : files.Sound)
    (short : ∀ name ∈ files.cwd, name.length ≤ nameLimit) (written : path.bytes ≠ [])
    (found : files.forecast path = .ok seen) :
    (seen.isAbsolute = true ∧ .stay ∉ seen.openSteps ∧ .up ∉ seen.openSteps) ∧
      ∀ after, files.makeDirectories path = (.ok (), after) →
        ((files.absolute path).bytes.length < pathLimit → after.canonical path = .ok seen) ∧
          (after.canonical path = .ok seen ↔ files.Unlinked seen) := by
  obtain ⟨present, top, names, node, climbed, stat, whole, rfl⟩ := forecast_place sound found
  have steps := Path.openSteps_ofPlace whole
  refine ⟨⟨Path.isAbsolute_ofPlace _, by simp [steps], by simp [steps]⟩, fun after made => ?_⟩
  obtain ⟨place, opens⟩ := exists_opens_of_made written found made
  have based := based_of_start sound short (opens.directory_start_before made)
  have leads : after.canonical path = .ok (Path.ofPlace (top ++ names)) ↔ place = top ++ names := by
    have later : (files.makeDirectories path).2.Sound := sound.makeDirectories path
    rw [made] at later
    have placeWhole : ∀ name ∈ place, Path.Whole name := fun name member =>
      (later.wellFormed.legal opens.directory name member).whole
    rw [opens.canonical, Except.ok.injEq]
    exact ⟨Path.ofPlace_inj placeWhole whole, congrArg Path.ofPlace⟩
  refine ⟨fun limit => leads.2 ?_, ?_⟩
  · have components := based.place_made limit found made opens
    exact Path.rooted_inj (components.symm.trans (Path.components_ofPlace whole))
  · rw [leads, climbed.place_made_iff stat based made opens, Unlinked, placeFrom_ofPlace whole]

end FileSystem

namespace Crossing

/-- A working directory with a link that leads out of it and down into another directory. -/
def files : FileSystem := ⟨.branch (utf8 "a") (.leaf (utf8 "l") (.link ⟨utf8 "../b/c"⟩) .empty)
  (.branch (utf8 "b") (.branch (utf8 "c") .empty .empty) .empty), [utf8 "a"]⟩

/-- Through the link, up again, and on to names that are missing. -/
def path : Path := ⟨utf8 "l/.././new/in"⟩

end Crossing

namespace FileSystem

theorem forecast_comes_true_crossing :
    Crossing.files.Sound ∧ (∀ name ∈ Crossing.files.cwd, name.length ≤ nameLimit) ∧
      Crossing.path.bytes ≠ [] ∧ Crossing.files.forecast Crossing.path = .ok ⟨utf8 "/b/new/in"⟩ ∧
      ∃ after, Crossing.files.makeDirectories Crossing.path = (.ok (), after) ∧
        (Crossing.files.absolute Crossing.path).bytes.length < pathLimit ∧
        after.canonical Crossing.path = .ok ⟨utf8 "/b/new/in"⟩ ∧
        Crossing.files.Unlinked ⟨utf8 "/b/new/in"⟩ := by
  have sound : Crossing.files.Sound := by decide
  have short : ∀ name ∈ Crossing.files.cwd, name.length ≤ nameLimit := by decide
  have found : Crossing.files.forecast Crossing.path = .ok ⟨utf8 "/b/new/in"⟩ := by decide
  have limit : (Crossing.files.absolute Crossing.path).bytes.length < pathLimit := by decide
  have made : (Crossing.files.makeDirectories Crossing.path).1 = .ok () := by decide
  obtain ⟨_, comes⟩ := forecast_comes_true sound short (by decide) found
  obtain ⟨there, unlinked⟩ := comes _ (Prod.ext made rfl)
  exact ⟨sound, short, by decide, found, _, Prod.ext made rfl, limit, there limit,
    unlinked.1 (there limit)⟩

end FileSystem

namespace Overlong

/-- A link from one directory to another beside it. -/
def files : FileSystem := ⟨.branch (utf8 "w") (.branch (utf8 "b")
  (.leaf (utf8 "l") (.link ⟨utf8 "../o"⟩) .empty) (.branch (utf8 "o") .empty .empty)) .empty,
  [utf8 "w"]⟩

/-- A path to the link that is too long once it is made absolute. -/
def path : Path := ⟨utf8 "b" ++ List.replicate 4092 Path.slash ++ utf8 "l"⟩

end Overlong

namespace FileSystem

/-- Beyond the limit a link at the end is forecast as it is written. Nothing has to be made here for
the path to lead to a directory elsewhere. -/
theorem forecast_misses_link :
    Overlong.files.Sound ∧ (∀ name ∈ Overlong.files.cwd, name.length ≤ nameLimit) ∧
      Overlong.path.bytes ≠ [] ∧ Overlong.files.forecast Overlong.path = .ok ⟨utf8 "/w/b/l"⟩ ∧
      Overlong.files.makeDirectories Overlong.path = (.ok (), Overlong.files) ∧
      Overlong.files.canonical Overlong.path = .ok ⟨utf8 "/w/o"⟩ ∧
      Overlong.files.canonical Overlong.path ≠ .ok ⟨utf8 "/w/b/l"⟩ := by
  have leads : Overlong.files.canonical Overlong.path = .ok ⟨utf8 "/w/o"⟩ := by decide +kernel
  refine ⟨by decide, by decide, by decide, by decide +kernel, by decide +kernel, leads, ?_⟩
  rw [leads]
  decide

end FileSystem
end Retarget
