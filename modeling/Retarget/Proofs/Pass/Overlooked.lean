import Retarget.Proofs.Pass.Swapping

/-!
What renaming replaces and what it reports. Whether something stands under a new name is looked up
through links, while renaming replaces a link itself. So an entry is gone for each file reported to have
overwritten something, and one more for each that took the place of a link that leads nowhere.
-/
namespace Retarget

namespace FileSystem

variable {files now after : FileSystem} {place from_ to_ other : Place}

def isLink (files : FileSystem) (place : Place) : Bool :=
  match files.root.entry? place with
  | some (.leaf (.link _)) => true
  | _ => false

theorem isLink_iff : files.isLink place = true ↔
    ∃ link, files.root.entry? place = some (.leaf (.link link)) := by
  unfold isLink
  split
  · rename_i link held
    simp [held]
  · rename_i other
    simpa using fun link held => other link held

/-- No link comes up where there was none. -/
theorem Confined.isLink {before : FileSystem} (confined : before.Confined place now) {query : Place}
    (linked : now.isLink query = true) : before.isLink query = true := by
  obtain ⟨link, held⟩ := isLink_iff.1 linked
  exact isLink_iff.2 ⟨link, confined.ways query _ held rfl⟩

/-- What is no link goes from one place below a directory to another, whatever is there. -/
structure Displaces (place from_ to_ : Place) (now after : FileSystem) : Prop where
  stood : now.root.entry? (place ++ from_) ≠ none
  plain : now.isLink (place ++ from_) = false
  apart : to_ ≠ from_
  named : from_ ≠ [] ∧ to_ ≠ []
  entries : ∀ query, after.root.entry? query =
    if query = place ++ to_ then now.root.entry? (place ++ from_)
    else if query = place ++ from_ then none else now.root.entry? query

theorem Displaces.entriesBelow (displaces : Displaces place from_ to_ now after) :
    after.entriesBelow place = insert to_ (now.entriesBelow place \ {from_}) := by
  ext below
  simp only [FileSystem.entriesBelow, Set.mem_ofPred_eq, displaces.entries, Set.mem_insert_iff,
    Set.mem_sdiff, Set.mem_singleton_iff, List.append_cancel_left_eq]
  by_cases here : below = to_
  · simp [here, displaces.named.2, displaces.stood]
  · by_cases gone : below = from_
    · subst gone
      simp [here]
    · simp [here, gone]

/-- There is one entry less exactly if something stood at the new place. -/
theorem Displaces.ncard (displaces : Displaces place from_ to_ now after) (sound : now.Sound) :
    (to_ ∈ now.entriesBelow place →
      (now.entriesBelow place).ncard = (after.entriesBelow place).ncard + 1) ∧
    (to_ ∉ now.entriesBelow place →
      (now.entriesBelow place).ncard = (after.entriesBelow place).ncard) := by
  rw [displaces.entriesBelow]
  exact ncard_insert_sdiff (entriesBelow_finite sound.wellFormed place)
    ⟨displaces.named.1, displaces.stood⟩ displaces.apart

/-- A link elsewhere stays. -/
theorem Displaces.isLink (displaces : Displaces place from_ to_ now after) (elsewhere : other ≠ to_)
    (linked : now.isLink (place ++ other) = true) : after.isLink (place ++ other) = true := by
  obtain ⟨link, held⟩ := isLink_iff.1 linked
  refine isLink_iff.2 ⟨link, ?_⟩
  rw [displaces.entries, if_neg (by simpa using elsewhere), if_neg, held]
  intro same
  rw [same, displaces.plain] at linked
  cases linked

end FileSystem

/-- The place below the directory at which a renamed file was put. -/
def RenamedFile.goal (report : RenamedFile) : Place := report.target.bytes.splitOn Path.slash

namespace Pass

open Act FileSystem

variable {before now after : FileSystem} {directory : Path} {place : Place} {listed : List Found}
  {naming : Naming}

/-- A file that is reported to have overwritten nothing was put in the place of a link. -/
def Overlooks (before : FileSystem) (place : Place) (report : RenamedFile) : Bool :=
  !report.overwrote && before.isLink (place ++ report.goal)

theorem Reported.goal_eq {found : Found} {report : RenamedFile}
    (reported : Reported naming found report) {goal : Place}
    (moves : naming.relocate? found.place = some goal)
    (legal : ∀ name ∈ goal, Tree.Legal name) : report.goal = goal := by
  obtain ⟨other, also, _, target⟩ := reported
  obtain rfl := Option.some.inj (also.symm.trans moves)
  obtain ⟨above, _, fresh, _, rfl, _⟩ := Naming.relocate?_eq_some.1 moves
  rw [RenamedFile.goal, target]
  exact List.splitOn_intercalate Path.slash (fun name member => (legal name member).2.1) (by simp)

section Step

variable {found : Found} {fresh : Bytes} {goal : Place}

/-- One file renamed: it goes to the place its new name gives it. -/
theorem rename_displaces (lists : before.Lists directory place listed) (sound : before.Sound)
    (marked : naming.target ≠ "") (slashless : Path.slash ∉ utf8 naming.target)
    (different : naming.source ≠ naming.target) (confined : before.Confined place now)
    (member : found ∈ listed) (given : naming.rename? found.name = some fresh)
    (renamed : now.rename found.path (found.path.withFileName fresh) = .ok after) :
    ∃ goal, naming.relocate? found.place = some goal ∧
      Displaces place found.place goal now after := by
  obtain ⟨goal, content, moves, leaf, outcome⟩ :=
    rename_listed lists sound marked slashless confined member given renamed
  obtain ⟨above, old, last, stood, rfl, renames⟩ := Naming.relocate?_eq_some.1 moves
  have apart : above ++ [last] ≠ found.place := fun same =>
    ne_of_rename? different renames (by simpa [stood] using same)
  obtain ⟨_, _, _, entries⟩ := outcome.resolve_left fun same => apart same.1
  refine ⟨_, moves, by simp [leaf], ?_, apart, by simp [stood], by simpa [leaf] using entries⟩
  -- Only files are listed, so what is moved is no link.
  obtain ⟨contents, _, file⟩ := lists.held found member
  refine Bool.eq_false_iff.2 fun linked => ?_
  obtain ⟨link, held⟩ := isLink_iff.1 (confined.isLink linked)
  rw [file] at held
  cases held

/-- Whether something stands at the new place is looked up rightly if no link stands there, and the
report names the place. -/
theorem rename_notices (lists : before.Lists directory place listed) (sound : before.Sound)
    (marked : naming.target ≠ "") (slashless : Path.slash ∉ utf8 naming.target)
    (confined : before.Confined place now) (member : found ∈ listed)
    (given : naming.rename? found.name = some fresh)
    (renamed : now.rename found.path (found.path.withFileName fresh) = .ok after)
    (moves : naming.relocate? found.place = some goal) :
    (∀ report : RenamedFile,
        report.target = (found.path.withFileName fresh).relativeTo directory → report.goal = goal) ∧
      (now.isLink (place ++ goal) = false →
        (now.isPresent (found.path.withFileName fresh) = true ↔
          goal ∈ now.entriesBelow place)) := by
  obtain ⟨above, old, _, stood, renames, _, names, _, _⟩ :=
    rename_beside lists sound marked slashless confined member given renamed
  have here : naming.relocate? found.place = some (above ++ [fresh]) := by
    rw [stood, Naming.relocate?_concat, renames]
    rfl
  obtain rfl := Option.some.inj (moves.symm.trans here)
  have legal := lists.legal sound.wellFormed member
  rw [stood, List.forall_mem_append] at legal
  refine ⟨fun report target => ?_, fun plain => ?_⟩
  · have reported := reported_beside lists sound member stood renames names.legal report.overwrote
    rw [RenamedFile.goal, target]
    exact reported.goal_eq moves (List.forall_mem_append.2 ⟨legal.1, by simpa using names.legal⟩)
  · rw [names.isPresent_iff (closed_beside lists sound member names.legal) fun link linked => ?_]
    · simp [entriesBelow]
    · rw [List.append_assoc] at linked
      rw [isLink_iff.2 ⟨link, linked⟩] at plain
      cases plain

/-- One file renamed: there is one entry less if something is reported to be overwritten, and also if a
link is in the way and nothing is reported. -/
theorem rename_counts_entries (lists : before.Lists directory place listed) (sound : before.Sound)
    (marked : naming.target ≠ "") (slashless : Path.slash ∉ utf8 naming.target)
    (different : naming.source ≠ naming.target) (confined : before.Confined place now)
    (member : found ∈ listed) (given : naming.rename? found.name = some fresh)
    (renamed : now.rename found.path (found.path.withFileName fresh) = .ok after)
    {report : RenamedFile}
    (target : report.target = (found.path.withFileName fresh).relativeTo directory)
    (overwrote : report.overwrote = now.isPresent (found.path.withFileName fresh)) :
    (now.entriesBelow place).ncard = (after.entriesBelow place).ncard +
      ([report].countP (·.overwrote) + [report].countP (Overlooks now place)) := by
  obtain ⟨goal, moves, displaces⟩ :=
    rename_displaces lists sound marked slashless different confined member given renamed
  obtain ⟨names, notices⟩ :=
    rename_notices lists sound marked slashless confined member given renamed moves
  obtain ⟨fewer, same⟩ := displaces.ncard confined.sound
  simp only [List.countP_singleton, Overlooks, names report target, overwrote]
  cases linked : now.isLink (place ++ goal) with
  | true =>
    obtain ⟨link, held⟩ := isLink_iff.1 linked
    rw [fewer ⟨displaces.named.2, by simp [held]⟩]
    cases now.isPresent (found.path.withFileName fresh) <;> rfl
  | false =>
    have notices := notices linked
    cases present : now.isPresent (found.path.withFileName fresh) with
    | true => exact fewer (notices.1 present)
    | false => exact same fun taken => by simp [notices.2 taken] at present

/-- How far the pass has come: as many entries are gone as are accounted for, and the links under new
names that are still to be taken are as they were. -/
structure Tallied (naming : Naming) (before : FileSystem) (place : Place) (listed : List Found)
    (reports : List RenamedFile) (left : List Candidate) (now : FileSystem) : Prop where
  confined : before.Confined place now
  count : (before.entriesBelow place).ncard = (now.entriesBelow place).ncard +
    (reports.countP (·.overwrote) + reports.countP (Overlooks before place))
  waits : ∃ waiting, waiting <:+ listed ∧ left = waiting.filterMap (candidate? naming) ∧
    ∀ found ∈ waiting, ∀ goal, naming.relocate? found.place = some goal →
      before.isLink (place ++ goal) = true → now.isLink (place ++ goal) = true

theorem Tallied.step (lists : before.Lists directory place listed) (sound : before.Sound)
    (marked : naming.target ≠ "") (slashless : Path.slash ∉ utf8 naming.target)
    (different : naming.source ≠ naming.target) {reports : List RenamedFile}
    {candidate : Candidate} {left : List Candidate}
    (tallied : Tallied naming before place listed reports (candidate :: left) now) :
    (renameFile directory candidate).Ensures now (fun report after =>
      Tallied naming before place listed (reports ++ [report]) left after) fun _ => True := by
  obtain ⟨waiting, suffix, waits, links⟩ := tallied.waits
  obtain ⟨skipped, found, more, rfl, _, given, rfl⟩ := List.filterMap_eq_cons_iff.1 waits.symm
  have member : found ∈ listed := suffix.subset (by simp)
  have later : found :: more <:+ listed := (List.suffix_append skipped _).trans suffix
  obtain ⟨fresh, named, rfl⟩ := candidate?_eq_some.1 given
  refine renameFile_ensures (fun after moved => ?_) trivial
  generalize told : RenamedFile.mk _ _ _ = report
  have target : report.target = (found.path.withFileName fresh).relativeTo directory := by
    rw [← told]
  have overwrote : report.overwrote = now.isPresent (found.path.withFileName fresh) := by
    rw [← told]
  obtain ⟨goal, moves, displaces⟩ := rename_displaces lists sound marked slashless different
    tallied.confined member named moved
  obtain ⟨names, _⟩ :=
    rename_notices lists sound marked slashless tallied.confined member named moved moves
  have counted := rename_counts_entries lists sound marked slashless different tallied.confined
    member named moved target overwrote
  have overlooks : Overlooks now place report = Overlooks before place report := by
    have steady : before.isLink (place ++ goal) = now.isLink (place ++ goal) :=
      Bool.eq_iff_iff.2 ⟨links found (by simp) goal moves, tallied.confined.isLink⟩
    rw [Overlooks, Overlooks, names report target, steady]
  refine ⟨confined_of_rename lists sound marked slashless tallied.confined member named moved, ?_,
    more, (List.suffix_cons found more).trans later, rfl, fun other inside to_ also linked => ?_⟩
  · rw [tallied.count, counted, List.countP_append, List.countP_append]
    simp only [List.countP_singleton, overlooks]
    omega
  · refine displaces.isLink ?_ (links other (by simp [inside]) to_ also linked)
    rintro rfl
    have places := lists.distinct.sublist (later.sublist.map Found.place)
    rw [List.map_cons, List.nodup_cons] at places
    exact places.1 (Naming.relocate?_injective also moves ▸ List.mem_map_of_mem inside)

end Step

theorem renameFiles_tallies (sound : before.Sound) (marked : naming.target ≠ "")
    (slashless : Path.slash ∉ utf8 naming.target) (different : naming.source ≠ naming.target) :
    (renameFiles directory naming).Ensures before (fun reports after => ∃ place,
      before.Opens directory place ∧ ∃ listed, Tallied naming before place listed reports [] after)
      fun _ => True := by
  refine Ensures.bind ((ensures_note _).2
    (Ensures.bind ((ensures_examine _).2 ⟨fun listed found => ?_, fun _ _ => trivial⟩)))
  obtain ⟨place, lists⟩ := filesBelow_ok sound.wellFormed found
  refine (ensures_mapM (Tallied naming before place listed) ?_ _
    ⟨.refl sound place, by simp, listed, List.suffix_rfl, rfl, fun _ _ _ _ linked => linked⟩).imp
    (fun _ _ tallied => ⟨place, lists.opens, listed, tallied⟩) fun _ failed => failed
  rintro reports candidate left now tallied
  exact tallied.step lists sound marked slashless different

/-- A pass that succeeds leaves as many entries fewer as it reports to have overwritten, and one less
still for each link that it took the place of without a word. Both numbers agree exactly if there is no
such link. -/
theorem renameFiles_counts_entries (sound : before.Sound) (marked : naming.target ≠ "")
    (slashless : Path.slash ∉ utf8 naming.target) (different : naming.source ≠ naming.target)
    {log : List Event} {reports : List RenamedFile} {after : Session}
    (ran : (renameFiles directory naming).runOn ⟨before, log⟩ = (.ok reports, after)) :
    ∃ place, before.Opens directory place ∧ (before.entriesBelow place).Finite ∧
      (after.files.entriesBelow place).Finite ∧
      (before.entriesBelow place).ncard = (after.files.entriesBelow place).ncard +
        (reports.countP (·.overwrote) + reports.countP (Overlooks before place)) ∧
      ((before.entriesBelow place).ncard =
          (after.files.entriesBelow place).ncard + reports.countP (·.overwrote) ↔
        ∀ report ∈ reports, report.overwrote = false →
          before.isLink (place ++ report.goal) = false) := by
  obtain ⟨place, opens, listed, tallied⟩ := (renameFiles_tallies sound marked slashless different).ok ran
  refine ⟨place, opens, entriesBelow_finite sound.wellFormed place,
    entriesBelow_finite tallied.confined.sound.wellFormed place, tallied.count, ?_⟩
  rw [tallied.count, ← Nat.add_assoc, Nat.add_eq_left, List.countP_eq_zero]
  simp [Overlooks]

namespace Signposts

/-- A file system with one directory. -/
def holding (inner : Tree) : FileSystem := ⟨.branch (utf8 "t") inner .empty, []⟩

theorem at?_holding (inner : Tree) :
    (holding inner).root.at? [utf8 "t"] = some (.branch inner) := by
  simp [holding, Tree.at?, Tree.find?]

/-- Files to be renamed: one over a file, one over a link to a file and one over a link that leads
nowhere. -/
def crowded : Tree := .leaf (utf8 "D1") (.file (utf8 "1")) (.leaf (utf8 "D2") (.file (utf8 "2"))
  (.leaf (utf8 "D3") (.file (utf8 "3")) (.leaf (utf8 "S1") (.file (utf8 "4"))
    (.leaf (utf8 "S2") (.link ⟨utf8 "S1"⟩) (.leaf (utf8 "S3") (.link ⟨utf8 "gone"⟩) .empty)))))

def reports : List RenamedFile := [⟨⟨utf8 "D1"⟩, ⟨utf8 "S1"⟩, true⟩,
  ⟨⟨utf8 "D2"⟩, ⟨utf8 "S2"⟩, true⟩, ⟨⟨utf8 "D3"⟩, ⟨utf8 "S3"⟩, false⟩]

/-- A file to be renamed over a link that leads nowhere. -/
def dangling : Tree :=
  .leaf (utf8 "Dx") (.file (utf8 "1")) (.leaf (utf8 "Sx") (.link ⟨utf8 "gone"⟩) .empty)

def settled : Tree := .leaf (utf8 "Sx") (.file (utf8 "1")) .empty

end Signposts

open Signposts

theorem renameFiles_counts_entries_signposts :
    ∃ after, (renameFiles ⟨utf8 "t"⟩ Naming.standard).runOn ⟨holding crowded, []⟩ =
        (.ok Signposts.reports, after) ∧
      ((holding crowded).entriesBelow [utf8 "t"]).ncard =
        (after.files.entriesBelow [utf8 "t"]).ncard + (2 + 1) := by
  obtain ⟨reports, after, ran, told⟩ := yields_iff.1 (by decide :
    (renameFiles ⟨utf8 "t"⟩ Naming.standard).yields ⟨holding crowded, []⟩
      (fun reports _ => reports = Signposts.reports) = true)
  obtain rfl := of_decide_eq_true told
  obtain ⟨place, opens, _, _, counted, _⟩ := renameFiles_counts_entries (by decide)
    (by decide) (by decide) (by decide) ran
  obtain rfl := opens.unique (by decide : (holding crowded).Opens _ [utf8 "t"])
  have overwrote : Signposts.reports.countP (·.overwrote) = 2 := by decide
  have overlooked : Signposts.reports.countP (Overlooks (holding crowded) [utf8 "t"]) = 1 := by
    decide
  rw [overwrote, overlooked] at counted
  exact ⟨after, ran, counted⟩

/-- A link that leads nowhere is replaced by the file that gets its name. Nothing is reported to be
overwritten, and there is one entry less. -/
theorem renameFiles_replaces_dangling_link :
    (holding dangling).Sound ∧ (holding dangling).Opens ⟨utf8 "t"⟩ [utf8 "t"] ∧ ∃ after,
      (renameFiles ⟨utf8 "t"⟩ Naming.standard).runOn ⟨holding dangling, []⟩ =
        (.ok [⟨⟨utf8 "Dx"⟩, ⟨utf8 "Sx"⟩, false⟩], after) ∧
      ((holding dangling).entriesBelow [utf8 "t"]).ncard = 2 ∧
      (after.files.entriesBelow [utf8 "t"]).ncard = 1 := by
  obtain ⟨reports, after, ran, told⟩ := yields_iff.1 (by decide :
    (renameFiles ⟨utf8 "t"⟩ Naming.standard).yields ⟨holding dangling, []⟩
      (fun reports after => reports = [⟨⟨utf8 "Dx"⟩, ⟨utf8 "Sx"⟩, false⟩] ∧
        after.files = holding settled) = true)
  obtain ⟨rfl, left⟩ := of_decide_eq_true told
  have sound : (holding dangling).Sound := by decide
  have soundLeft : (holding settled).Sound := by decide
  refine ⟨sound, by decide, after, ran, ?_, ?_⟩
  · rw [ncard_entriesBelow sound.wellFormed (at?_holding dangling)]
    decide
  · rw [left, ncard_entriesBelow soundLeft.wellFormed (at?_holding settled)]
    decide

end Pass
end Retarget
