import Retarget.Proofs.Path.Beside
import Retarget.Proofs.Pass.Counting
import Retarget.Proofs.Pass.Refusals

/-!
Renaming as one swap of marks. Where no new name carries the source mark, no file that is renamed is in
the way of another, so the files that were listed with the source mark move as if all at once, and a
pass that breaks off has moved the first of them and nothing else.
-/
namespace Retarget.Pass

open Act FileSystem

variable {before now after : FileSystem} {directory : Path} {place : Place} {listed : List Found}
  {naming : Naming}

/-- The listed files that carry the source mark. -/
def candidates (naming : Naming) (listed : List Found) : List Found :=
  listed.filter fun found => naming.isSource found.name

theorem candidates_forall₂ (naming : Naming) (listed : List Found) :
    List.Forall₂ (fun found candidate => candidate? naming found = some candidate)
      (candidates naming listed) (listed.filterMap (candidate? naming)) := by
  induction listed with
  | nil => exact .nil
  | cons found rest ih =>
    cases given : naming.rename? found.name with
    | none =>
      have idle : candidate? naming found = none := by simp [candidate?, given]
      rw [List.filterMap_cons_none idle, candidates,
        List.filter_cons_of_neg (by simp [Naming.rename?_eq_none.1 given])]
      exact ih
    | some fresh =>
      have marked : naming.isSource found.name = true := by
        by_contra plain
        rw [Naming.rename?_eq_none.2 (by simpa using plain)] at given
        cases given
      rw [List.filterMap_cons_some (candidate?_eq_some.2 ⟨fresh, given, rfl⟩), candidates,
        List.filter_cons_of_pos (by exact marked)]
      exact .cons (candidate?_eq_some.2 ⟨fresh, given, rfl⟩) ih

/-- A report names the place where a file stood and the one where its new name puts it. -/
def Reported (naming : Naming) (found : Found) (report : RenamedFile) : Prop :=
  ∃ goal, naming.relocate? found.place = some goal ∧
    report.source = ⟨[Path.slash].intercalate found.place⟩ ∧
    report.target = ⟨[Path.slash].intercalate goal⟩

/-- A report tells whether something stood at the new place before the first file moved. A link there
is looked through, so of it nothing is said. -/
def Flagged (naming : Naming) (before : FileSystem) (place : Place) (found : Found)
    (report : RenamedFile) : Prop :=
  ∀ goal, naming.relocate? found.place = some goal →
    (∀ link, before.root.entry? (place ++ goal) ≠ some (.leaf (.link link))) →
      (report.overwrote = true ↔ before.root.entry? (place ++ goal) ≠ none)

/-- What is reported of a listed file and its new name. -/
theorem reported_beside (lists : before.Lists directory place listed) (sound : before.Sound)
    {found : Found} (member : found ∈ listed) {above : Place} {old fresh : Bytes}
    (stood : found.place = above ++ [old]) (given : naming.rename? old = some fresh)
    (legal : Tree.Legal fresh) (overwrote : Bool) :
    Reported naming found ⟨found.path.relativeTo directory,
      (found.path.withFileName fresh).relativeTo directory, overwrote⟩ := by
  have moves : naming.relocate? found.place = some (above ++ [fresh]) := by
    rw [stood, Naming.relocate?_concat, given]
    rfl
  have names := lists.legal sound.wellFormed member
  have written : directory.bytes ≠ [] := (Path.check_eq_ok_iff.1 lists.opens.accepted).2.1
  rw [lists.descends found member]
  refine ⟨_, moves, Path.relativeTo_descend written names, ?_⟩
  rw [stood] at names ⊢
  exact Path.relativeTo_withFileName written names legal

/-- How far the pass has come: some files have moved and are reported, the others wait. -/
structure Swapping (naming : Naming) (before : FileSystem) (place : Place) (listed done : List Found)
    (waiting : List Candidate) (reports : List RenamedFile) (now : FileSystem) : Prop where
  confined : before.Confined place now
  reported : List.Forall₂ (Reported naming) done reports
  settled : Once naming listed → Renamed naming before place done now ∧
    List.Forall₂ (Flagged naming before place) done reports
  left : ∃ rest, candidates naming listed = done ++ rest ∧
    List.Forall₂ (fun found candidate => candidate? naming found = some candidate) rest waiting

theorem Swapping.start (sound : before.Sound) (place : Place) (listed : List Found) :
    Swapping naming before place listed [] (listed.filterMap (candidate? naming)) [] before :=
  ⟨.refl sound place, .nil, fun _ => ⟨.nil naming before place, .nil⟩, _, rfl,
    candidates_forall₂ naming listed⟩

section Step

variable {done : List Found} {candidate : Candidate} {waiting : List Candidate}
  {reports : List RenamedFile}

/-- The file that is next. -/
theorem Swapping.next
    (swapping : Swapping naming before place listed done (candidate :: waiting) reports now) :
    ∃ found rest fresh, candidates naming listed = done ++ found :: rest ∧
      List.Forall₂ (fun found candidate => candidate? naming found = some candidate) rest waiting ∧
      naming.rename? found.name = some fresh ∧
      candidate = ⟨found.path, found.path.withFileName fresh⟩ := by
  obtain ⟨rest, whole, waits⟩ := swapping.left
  cases waits with
  | @cons found _ more _ given waits =>
    obtain ⟨fresh, named, rfl⟩ := candidate?_eq_some.1 given
    exact ⟨found, more, fresh, whole, waits, named, rfl⟩

/-- One more file moves, and is reported as what it was before the first moved. -/
theorem Swapping.step (lists : before.Lists directory place listed) (sound : before.Sound)
    (marked : naming.target ≠ "") (slashless : Path.slash ∉ utf8 naming.target)
    (swapping : Swapping naming before place listed done (candidate :: waiting) reports now) :
    (renameFile directory candidate).Ensures now (fun report after => ∃ done,
      Swapping naming before place listed done waiting (reports ++ [report]) after)
      fun _ => True := by
  obtain ⟨found, rest, fresh, whole, waits, given, rfl⟩ := swapping.next
  have inside : ∀ other ∈ done ++ found :: rest, other ∈ listed :=
    fun other member => (List.mem_filter.1 (whole ▸ member : other ∈ candidates naming listed)).1
  have member : found ∈ listed := inside found (by simp)
  have distinct : ∀ other ∈ done, other.place ≠ found.place := by
    have places : ((candidates naming listed).map Found.place).Nodup :=
      List.Nodup.sublist (List.filter_sublist.map _) lists.distinct
    rw [whole, List.map_append, List.nodup_append] at places
    exact fun other there => places.2.2 _ (List.mem_map_of_mem there) _ (by simp)
  refine renameFile_ensures (fun after moved => ⟨done ++ [found], ?_⟩) trivial
  obtain ⟨above, old, content, stood, renames, names, otherNames, leaf, outcome⟩ :=
    rename_beside lists sound marked slashless swapping.confined member given moved
  have moves : naming.relocate? found.place = some (above ++ [fresh]) := by
    rw [stood, Naming.relocate?_concat, renames]
    rfl
  refine ⟨confined_of_rename lists sound marked slashless swapping.confined member given moved,
    List.rel_append swapping.reported (.cons (reported_beside lists sound member stood renames
      otherNames.legal _) .nil), fun once => ?_, rest, by simp [whole], waits⟩
  · have onceHere : Once naming (done ++ [found]) := fun other there =>
      once other (inside other (List.mem_append.2 ((List.mem_append.1 there).imp id
        fun last => List.mem_cons.2 (.inl (List.mem_singleton.1 last)))))
    obtain ⟨renamed, flagged⟩ := swapping.settled once
    have untaken := renamed.untaken onceHere distinct moves
    refine ⟨?_, List.rel_append flagged (.cons (fun goal goes plain => ?_) .nil)⟩
    · obtain ⟨goal, content, goes, leaf, same | ⟨_, free, _, entries⟩⟩ :=
        rename_listed lists sound marked slashless swapping.confined member given moved
      · -- A name that stays the same would carry the source mark again.
        have again := once found member goal goes
        rw [same.1, goes] at again
        cases again
      · exact renamed.step onceHere distinct goes leaf free entries
    · obtain rfl := Option.some.inj (moves.symm.trans goes)
      rw [← untaken, ← List.append_assoc] at plain ⊢
      exact otherNames.isPresent_iff (closed_beside lists sound member otherNames.legal) plain

end Step

/-! ## The whole pass -/

/-- A pass that comes to its end reports all candidates in order. Where no new name carries the source
mark, they have all moved. -/
theorem renameFiles_moves (sound : before.Sound) (marked : naming.target ≠ "")
    (slashless : Path.slash ∉ utf8 naming.target) :
    (renameFiles directory naming).Ensures before (fun reports after => ∃ place listed,
      before.filesBelow directory = .ok listed ∧ before.Lists directory place listed ∧
        before.Confined place after ∧
        List.Forall₂ (Reported naming) (candidates naming listed) reports ∧
        (Once naming listed → Renamed naming before place (candidates naming listed) after ∧
          List.Forall₂ (Flagged naming before place) (candidates naming listed) reports))
      fun _ => True := by
  refine Ensures.bind ((ensures_note _).2
    (Ensures.bind ((ensures_examine _).2 ⟨fun listed found => ?_, fun _ _ => trivial⟩)))
  obtain ⟨place, lists⟩ := filesBelow_ok sound.wellFormed found
  have gone : ((listed.filterMap (candidate? naming)).mapM (renameFile directory)).Ensures before
      (fun reports after => ∃ done, Swapping naming before place listed done [] reports after)
      fun _ => True := by
    refine ensures_mapM (fun reports waiting now =>
      ∃ done, Swapping naming before place listed done waiting reports now) ?_ _
      ⟨[], .start sound place listed⟩
    rintro reports candidate waiting now ⟨done, swapping⟩
    exact swapping.step lists sound marked slashless
  refine gone.imp ?_ fun _ _ => trivial
  rintro reports after ⟨done, swapped⟩
  obtain ⟨rest, whole, none⟩ := swapped.left
  cases none
  rw [List.append_nil] at whole
  exact ⟨place, listed, found, lists, swapped.confined, whole ▸ swapped.reported,
    whole ▸ swapped.settled⟩

/-- A pass that the system stops at a file has moved the candidates before it and nothing else. -/
theorem renameFiles_stops (sound : before.Sound) (apart : naming.Apart) (marked : naming.target ≠ "")
    (slashless : Path.slash ∉ utf8 naming.target) :
    (renameFiles directory naming).Rejects before fun failure after =>
      (after = before ∧ ∀ path cause, failure ≠ .refused path cause) ∨
      ∃ place listed done found rest cause, before.filesBelow directory = .ok listed ∧
        before.Lists directory place listed ∧
        candidates naming listed = done ++ found :: rest ∧ failure = .refused found.path cause ∧
        Renamed naming before place done after := by
  refine (rejects_note _).bind ((ensures_note _).2 (Rejects.bind
    ((rejects_examine _).2 fun failure missing => .inl ⟨rfl, ?_⟩)
    ((ensures_examine _).2 ⟨fun listed found => ?_, fun _ _ => trivial⟩)))
  · rintro path cause rfl
    exact filesBelow_not_refused missing
  · obtain ⟨place, lists⟩ := filesBelow_ok sound.wellFormed found
    refine rejects_mapM (fun reports waiting now =>
      ∃ done, Swapping naming before place listed done waiting reports now) ?_ ?_ _
      ⟨[], .start sound place listed⟩
    · rintro reports candidate waiting now ⟨done, swapping⟩
      exact swapping.step lists sound marked slashless
    · rintro reports candidate waiting now ⟨done, swapping⟩
      obtain ⟨next, rest, fresh, whole, _, _, rfl⟩ := swapping.next
      refine (renameFile_rejects directory _ now).imp ?_
      rintro _ _ ⟨rfl, cause, rfl, _⟩
      exact .inr ⟨place, listed, done, next, rest, cause, found, lists, whole, rfl,
        (swapping.settled (once_of_apart apart marked)).1⟩

/-- A pass moves the candidates, in the order of the walk, as if all at once. When the system refuses
one of them, those before it have moved and nothing else has. -/
theorem renameFiles_swaps (sound : before.Sound) (apart : naming.Apart)
    (slashless : Path.slash ∉ utf8 naming.target) (log : List Event) :
    match (renameFiles directory naming).runOn ⟨before, log⟩ with
    | (.ok reports, after) => ∃ place listed, before.filesBelow directory = .ok listed ∧
        before.Lists directory place listed ∧
        Renamed naming before place (candidates naming listed) after.files ∧
        List.Forall₂ (Reported naming) (candidates naming listed) reports ∧
        List.Forall₂ (Flagged naming before place) (candidates naming listed) reports
    | (.error (.refused path _), after) => ∃ place listed done found rest,
        before.filesBelow directory = .ok listed ∧ before.Lists directory place listed ∧
        candidates naming listed = done ++ found :: rest ∧ found.path = path ∧
        Renamed naming before place done after.files
    | (.error _, after) => after.files = before := by
  have marked : naming.target ≠ "" := by
    rintro none
    exact apart.2 (by rw [none]; exact List.nil_prefix)
  rcases ran : (renameFiles directory naming).runOn ⟨before, log⟩ with ⟨failure | reports, after⟩
  · have stopped := (renameFiles_stops sound apart marked slashless).outcome log failure after ran
    rcases stopped with ⟨same, other⟩ | ⟨place, listed, done, found, rest, cause, given, lists,
      whole, rfl, renamed⟩
    · cases failure with
      | refused path cause => exact absurd rfl (other path cause)
      | _ => exact same
    · exact ⟨place, listed, done, found, rest, given, lists, whole, rfl, renamed⟩
  · obtain ⟨place, listed, given, lists, _, reported, moved⟩ :=
      (renameFiles_moves sound marked slashless).ok ran
    obtain ⟨renamed, flagged⟩ := moved (once_of_apart apart marked)
    exact ⟨place, listed, given, lists, renamed, reported, flagged⟩

namespace Shelves

/-- Two directories with files to be renamed. In one a file is in the way, in the other a
directory. -/
def files : FileSystem :=
  ⟨.branch (utf8 "a")
    (.leaf (utf8 "D1") (.file (utf8 "1")) (.leaf (utf8 "D2") (.file (utf8 "2"))
      (.leaf (utf8 "S2") (.file (utf8 "3")) .empty)))
    (.branch (utf8 "b")
      (.leaf (utf8 "D1") (.file (utf8 "1")) (.leaf (utf8 "D2") (.file (utf8 "2"))
        (.leaf (utf8 "D3") (.file (utf8 "3")) (.branch (utf8 "S2") .empty .empty))))
      .empty), []⟩

theorem sound : files.Sound := by decide

end Shelves

theorem renameFiles_swaps_shelves :
    (∃ reports after, (renameFiles ⟨utf8 "a"⟩ Naming.standard).runOn ⟨Shelves.files, []⟩ =
        (.ok reports, after) ∧
      after.files.root.entry? [utf8 "a", utf8 "S2"] = some (.leaf (.file (utf8 "2")))) ∧
    ∃ cause after, (renameFiles ⟨utf8 "b"⟩ Naming.standard).runOn ⟨Shelves.files, []⟩ =
        (.error (.refused ⟨utf8 "b/D2"⟩ cause), after) ∧
      ∃ place listed done found rest, Shelves.files.filesBelow ⟨utf8 "b"⟩ = .ok listed ∧
        candidates Naming.standard listed = done ++ found :: rest ∧ found.path = ⟨utf8 "b/D2"⟩ ∧
        Renamed Naming.standard Shelves.files place done after.files := by
  have apart : Naming.standard.Apart := by
    unfold Naming.Apart
    decide
  constructor
  · obtain ⟨reports, after, ran, _⟩ := yields_iff.1 (by decide +kernel :
      (renameFiles ⟨utf8 "a"⟩ Naming.standard).yields ⟨Shelves.files, []⟩ (fun _ _ => true) = true)
    have swapped := @renameFiles_swaps Shelves.files ⟨utf8 "a"⟩ Naming.standard Shelves.sound apart
      (by decide) []
    rw [ran] at swapped
    obtain ⟨place, listed, given, lists, renamed, _⟩ := swapped
    obtain rfl := lists.opens.unique (by decide +kernel : Shelves.files.Opens _ [utf8 "a"])
    obtain ⟨found, member, here⟩ := lists.complete [utf8 "D2"] (utf8 "2") (by decide)
    refine ⟨reports, after, ran, ?_⟩
    exact (renamed.arrived found (List.mem_filter.2 ⟨member, by rw [Found.name, here]; decide⟩)
      [utf8 "S2"] (by rw [here]; decide)).trans (by rw [here]; decide)
  · have stopped : ((renameFiles ⟨utf8 "b"⟩ Naming.standard).runOn ⟨Shelves.files, []⟩).1 =
        .error (.refused ⟨utf8 "b/D2"⟩ .isDirectory) := by decide +kernel
    refine ⟨_, _, Prod.ext stopped rfl, ?_⟩
    have swapped := @renameFiles_swaps Shelves.files ⟨utf8 "b"⟩ Naming.standard Shelves.sound apart
      (by decide) []
    rw [Prod.ext stopped rfl] at swapped
    obtain ⟨place, listed, done, found, rest, given, _, whole, named, renamed⟩ := swapped
    exact ⟨place, listed, done, found, rest, given, whole, named, renamed⟩

end Retarget.Pass
