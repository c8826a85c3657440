import Mathlib.Logic.Relation
import Retarget.Pass.Rename
import Retarget.Proofs.Change.Confined
import Retarget.Proofs.Marks
import Retarget.Proofs.Pass.Listing
import Retarget.Proofs.Resolution.Below
import Retarget.Proofs.Session.Ensures

/-!
What the renaming pass leaves. The files it settles on are renamed one by one, each beside itself.
Where the marks are apart, no renamed file is met again, so each file that carried the source mark
stands under its new name and everything else is as it was.
-/
namespace Retarget.Pass

open Act FileSystem

variable {before now after : FileSystem} {directory : Path} {place : Place} {listed : List Found}
  {naming : Naming}

/-- Renaming a listed file takes the last step of both its paths in the directory it stands in. -/
theorem rename_beside (lists : before.Lists directory place listed) (sound : before.Sound)
    (marked : naming.target ≠ "")
    (slashless : Path.slash ∉ utf8 naming.target) (confined : before.Confined place now)
    {found : Found}
    (member : found ∈ listed) {fresh : Bytes} (given : naming.rename? found.name = some fresh)
    (renamed : now.rename found.path (found.path.withFileName fresh) = .ok after) :
    ∃ above old content, found.place = above ++ [old] ∧ naming.rename? old = some fresh ∧
      now.Names found.path (place ++ above) old ∧
      now.Names (found.path.withFileName fresh) (place ++ above) fresh ∧
      now.root.entry? (place ++ above ++ [old]) = some (.leaf content) ∧
      ((fresh = old ∧ after = now) ∨
        (fresh ≠ old ∧ now.root.entry? (place ++ above ++ [fresh]) ≠ some .directory ∧
          after = (now.drop (place ++ above ++ [old])).put (place ++ above ++ [fresh])
            (.leaf content))) := by
  obtain ⟨above, name, whole, named, held⟩ := lists.above member
  have legal := lists.legal sound.wellFormed member
  rw [lists.descends found member, whole] at renamed ⊢
  rw [whole] at legal
  rw [named] at given
  obtain ⟨source, rest, nameWhole, freshWhole⟩ := Naming.rename?_eq_some.1 given
  have freshSlashless : Path.slash ∉ fresh :=
    Naming.slash_not_mem_of_rename? slashless (legal name (by simp)).2.1 given
  have freshSome : fresh ≠ [] := by simp [freshWhole, utf8_ne_nil marked]
  obtain ⟨from_, old, to_, new, content, names, otherNames, leaf, outcome⟩ := rename_ok renamed
  obtain ⟨rfl, rfl⟩ := lists.opens.names_below held legal
    (names.carry confined.ways confined.cwd.symm)
  obtain ⟨rfl, rfl⟩ := lists.opens.names_beside held legal freshSlashless freshSome
    (otherNames.carry confined.ways confined.cwd.symm)
  refine ⟨above, old, content, rfl, given, names, otherNames, leaf, ?_⟩
  rcases outcome with ⟨same, still⟩ | ⟨apart, free, moved⟩
  · exact .inl ⟨by simpa using same.symm, still⟩
  · exact .inr ⟨fun same => apart (by rw [same]), free, moved⟩

/-- One file renamed: it goes to where its new name puts it, and nothing else changes. -/
theorem rename_listed (lists : before.Lists directory place listed) (sound : before.Sound)
    (marked : naming.target ≠ "")
    (slashless : Path.slash ∉ utf8 naming.target) (confined : before.Confined place now)
    {found : Found}
    (member : found ∈ listed) {fresh : Bytes} (given : naming.rename? found.name = some fresh)
    (renamed : now.rename found.path (found.path.withFileName fresh) = .ok after) :
    ∃ goal content, naming.relocate? found.place = some goal ∧
      now.root.entry? (place ++ found.place) = some (.leaf content) ∧
      ((goal = found.place ∧ after = now) ∨
        (goal ≠ found.place ∧ now.root.entry? (place ++ goal) ≠ some .directory ∧
          after.cwd = now.cwd ∧
          ∀ query, after.root.entry? query =
            if query = place ++ goal then some (.leaf content)
            else if query = place ++ found.place then none else now.root.entry? query)) := by
  obtain ⟨above, old, content, whole, given, names, otherNames, leaf, outcome⟩ :=
    rename_beside lists sound marked slashless confined member given renamed
  refine ⟨above ++ [fresh], content,
    Naming.relocate?_eq_some.2 ⟨above, old, fresh, whole, rfl, given⟩, ?_, ?_⟩
  · rwa [whole, ← List.append_assoc]
  · rw [whole, ← List.append_assoc, ← List.append_assoc]
    rcases outcome with ⟨rfl, still⟩ | ⟨apart, free, rfl⟩
    · exact .inl ⟨rfl, still⟩
    · refine .inr ⟨fun same => apart (by simpa using same), free, rfl, ?_⟩
      exact entry?_moved names.directory otherNames.directory leaf
        (fun same => apart (by simpa using same.symm)) free

theorem confined_of_rename (lists : before.Lists directory place listed) (sound : before.Sound)
    (marked : naming.target ≠ "")
    (slashless : Path.slash ∉ utf8 naming.target) (confined : before.Confined place now)
    {found : Found}
    (member : found ∈ listed) {fresh : Bytes} (given : naming.rename? found.name = some fresh)
    (renamed : now.rename found.path (found.path.withFileName fresh) = .ok after) :
    before.Confined place after := by
  obtain ⟨goal, content, _, leaf, same | ⟨_, _, cwd, entries⟩⟩ :=
    rename_listed lists sound marked slashless confined member given renamed
  · exact same.2 ▸ confined
  · refine ⟨confined.sound.rename renamed, cwd.trans confined.cwd, ?_, ?_⟩
    · intro query entry held passable
      rw [entries] at held
      split at held
      · -- Only files are listed, so what was moved is no link.
        obtain rfl := Option.some.inj held
        obtain ⟨contents, _, file⟩ := lists.held found member
        rw [confined.ways _ _ leaf passable] at file
        cases file
        cases passable
      · split at held
        · cases held
        · exact confined.ways query entry held passable
    · intro query outside
      have apart : ∀ below, query ≠ place ++ below := fun below same => outside ⟨below, same.symm⟩
      rw [entries, if_neg (apart _), if_neg (apart _), confined.outside query outside]

/-! ## All of them -/

/-- What the entries are once some of the listed files were dealt with, in terms of what they were
before. -/
structure Renamed (naming : Naming) (before : FileSystem) (place : Place) (passed : List Found)
    (now : FileSystem) : Prop where
  arrived : ∀ found ∈ passed, ∀ goal, naming.relocate? found.place = some goal →
    now.root.entry? (place ++ goal) = before.root.entry? (place ++ found.place)
  gone : ∀ found ∈ passed, naming.relocate? found.place ≠ none →
      now.root.entry? (place ++ found.place) = none
  free : ∀ found ∈ passed, ∀ goal, naming.relocate? found.place = some goal →
      before.root.entry? (place ++ goal) ≠ some .directory
  others : ∀ query, (∀ found ∈ passed, ∀ goal, naming.relocate? found.place = some goal →
    query ≠ place ++ found.place ∧ query ≠ place ++ goal) →
    now.root.entry? query = before.root.entry? query

/-- A place below is where a file was renamed to, where one was renamed from, or untouched. -/
theorem Renamed.cases (renamed : Renamed naming before place listed after) (below : Place) :
    (∃ found ∈ listed, naming.relocate? found.place = some below) ∨
      (∃ found ∈ listed, found.place = below ∧ naming.relocate? below ≠ none) ∨
      ((∀ found ∈ listed, naming.relocate? found.place ≠ some below) ∧
        (∀ found ∈ listed, found.place = below → naming.relocate? below = none) ∧
        after.root.entry? (place ++ below) = before.root.entry? (place ++ below)) := by
  by_cases arrives : ∃ found ∈ listed, naming.relocate? found.place = some below
  · exact .inl arrives
  · by_cases leaves : ∃ found ∈ listed, found.place = below ∧ naming.relocate? below ≠ none
    · exact .inr (.inl leaves)
    · push Not at arrives leaves
      refine .inr (.inr ⟨arrives, leaves, renamed.others _ fun found member goal moves =>
        ⟨fun same => ?_, fun same => ?_⟩⟩)
      · obtain rfl := List.append_cancel_left same
        rw [leaves found member rfl] at moves
        cases moves
      · obtain rfl := List.append_cancel_left same
        exact arrives found member moves

theorem Renamed.directory_iff (lists : before.Lists directory place listed)
    (renamed : Renamed naming before place listed after) (below : Place) :
    after.root.entry? (place ++ below) = some .directory ↔
      before.root.entry? (place ++ below) = some .directory := by
  rcases renamed.cases below with
    ⟨found, member, moves⟩ | ⟨found, member, rfl, moves⟩ | ⟨_, _, same⟩
  · obtain ⟨contents, _, held⟩ := lists.held found member
    rw [renamed.arrived found member below moves, held]
    simp [renamed.free found member below moves]
  · obtain ⟨contents, _, held⟩ := lists.held found member
    simp [renamed.gone found member moves, held]
  · rw [same]

/-- What is no directory is a file or was there before. -/
theorem Renamed.leaf_cases (lists : before.Lists directory place listed)
    (renamed : Renamed naming before place listed after) {below : Place} {content : Leaf}
    (stands : after.root.entry? (place ++ below) = some (.leaf content)) :
    (∃ contents, content = .file contents) ∨
      before.root.entry? (place ++ below) = some (.leaf content) := by
  rcases renamed.cases below with
    ⟨found, member, moves⟩ | ⟨found, member, rfl, moves⟩ | ⟨_, _, same⟩
  · obtain ⟨contents, _, held⟩ := lists.held found member
    rw [renamed.arrived found member below moves, held] at stands
    cases stands
    exact .inl ⟨contents, rfl⟩
  · rw [renamed.gone found member moves] at stands
    cases stands
  · exact .inr (same ▸ stands)

/-! ## Names that are settled -/

/-- Which file ends up under a name of a directory: one that is renamed to it, else the one that has
it and keeps it. -/
inductive Settles (naming : Naming) (files : FileSystem) (place above : Place)
    (name contents : Bytes) : Prop where
  | renamed {old : Bytes}
      (held : files.root.entry? (place ++ (above ++ [old])) = some (.leaf (.file contents)))
      (given : naming.rename? old = some name)
  | kept (held : files.root.entry? (place ++ (above ++ [name])) = some (.leaf (.file contents)))
      (stays : naming.rename? name = none)
      (alone : ∀ old other, naming.rename? old = some name →
        files.root.entry? (place ++ (above ++ [old])) ≠ some (.leaf (.file other)))

theorem settles_congr {other : FileSystem} {elsewhere above : Place} {name contents : Bytes}
    (same : ∀ below contents,
      before.root.entry? (place ++ below) = some (.leaf (.file contents)) ↔
        other.root.entry? (elsewhere ++ below) = some (.leaf (.file contents))) :
    Settles naming before place above name contents ↔
      Settles naming other elsewhere above name contents := by
  constructor
  · intro settles
    cases settles with
    | renamed held given => exact .renamed ((same _ _).1 held) given
    | kept held stays alone =>
      exact .kept ((same _ _).1 held) stays fun old last given =>
        mt (same _ _).2 (alone old last given)
  · intro settles
    cases settles with
    | renamed held given => exact .renamed ((same _ _).2 held) given
    | kept held stays alone =>
      exact .kept ((same _ _).2 held) stays fun old last given =>
        mt (same _ _).1 (alone old last given)

/-- A file arrives under a name if it is the one that settles there. -/
theorem Renamed.arrived_iff {found : Found} {above : Place} {old name contents fresh : Bytes}
    (renamed : Renamed naming before place listed after) (member : found ∈ listed)
    (whole : found.place = above ++ [old]) (given : naming.rename? old = some name)
    (held : before.root.entry? (place ++ (above ++ [old])) = some (.leaf (.file contents))) :
    after.root.entry? (place ++ (above ++ [name])) = some (.leaf (.file fresh)) ↔
      Settles naming before place above name fresh := by
  have moves : naming.relocate? found.place = some (above ++ [name]) := by
    rw [whole, Naming.relocate?_concat, given]
    rfl
  rw [renamed.arrived found member _ moves, whole, held]
  constructor
  · intro same
    cases same
    exact .renamed held given
  · intro settles
    cases settles with
    | renamed stands also =>
      obtain rfl := Naming.rename?_injective given also
      rw [← held, stands]
    | kept _ _ alone => exact absurd held (alone old contents given)

/-- After renaming, a file stands under a name exactly if it settles there. -/
theorem Renamed.file_iff (apart : naming.Apart) (marked : naming.target ≠ "")
    (lists : before.Lists directory place listed)
    (renamed : Renamed naming before place listed after) {above : Place} {name contents : Bytes} :
    after.root.entry? (place ++ (above ++ [name])) = some (.leaf (.file contents)) ↔
      Settles naming before place above name contents := by
  rcases renamed.cases (above ++ [name]) with
    ⟨found, member, moves⟩ | ⟨found, member, whole, moves⟩ | ⟨unreached, unmoved, same⟩
  · obtain ⟨front, old, last, whole, ends, given⟩ := Naming.relocate?_eq_some.1 moves
    obtain ⟨rfl, ends⟩ := List.append_inj' ends rfl
    obtain rfl : name = last := by simpa using ends
    obtain ⟨held, _, file⟩ := lists.held found member
    exact renamed.arrived_iff member whole given (whole ▸ file)
  · have gone := renamed.gone found member (whole ▸ moves)
    rw [whole] at gone
    rw [gone]
    refine ⟨(fun none => by cases none), fun settles => absurd ?_ moves⟩
    cases settles with
    | @renamed old held given =>
      have arrives : naming.relocate? (above ++ [old]) = some (above ++ [name]) := by
        rw [Naming.relocate?_concat, given]
        rfl
      exact apart.relocate?_goal marked arrives
    | kept _ stays _ =>
      rw [Naming.relocate?_concat, stays]
      rfl
  · rw [same]
    have unmet : ∀ old other, naming.rename? old = some name →
        before.root.entry? (place ++ (above ++ [old])) ≠ some (.leaf (.file other)) := by
      intro old other given held
      obtain ⟨found, member, here⟩ := lists.complete _ _ held
      refine unreached found member ?_
      rw [here, Naming.relocate?_concat, given]
      rfl
    constructor
    · intro held
      obtain ⟨found, member, here⟩ := lists.complete _ _ held
      have stays := unmoved found member here
      rw [Naming.relocate?_concat, Option.map_eq_none_iff] at stays
      exact .kept held stays unmet
    · intro settles
      cases settles with
      | renamed held given => exact absurd held (unmet _ _ given)
      | kept held _ _ => exact held

/-! ## What stays -/

/-- What carries the source mark does not stay. -/
theorem Renamed.isSource_of_present (lists : before.Lists directory place listed)
    (renamed : Renamed naming before place listed now)
    {above : Place} {name contents : Bytes}
    (held : before.root.entry? (place ++ (above ++ [name])) = some (.leaf (.file contents)))
    (present : now.root.entry? (place ++ (above ++ [name])) ≠ none) :
    naming.isSource name = false := by
  by_contra marked
  obtain ⟨fresh, given⟩ := Option.ne_none_iff_exists'.1 (mt Naming.rename?_eq_none.1 marked)
  obtain ⟨found, member, same⟩ := lists.complete _ _ held
  rw [← same] at present
  exact present (renamed.gone found member (by simp [same, Naming.relocate?_concat, given]))

/-- No file below two directories carries the source mark. -/
def Unmoved (naming : Naming) (files : FileSystem) (inner place : Place) : Prop :=
  ∀ above name contents, inner <+: above → place <+: above →
    files.root.entry? (above ++ [name]) = some (.leaf (.file contents)) →
      naming.isSource name = false

/-- A directory with no file to be renamed below it stays as it is. -/
theorem Renamed.keeps (lists : before.Lists directory place listed)
    (renamed : Renamed naming before place listed now) {inner : Place}
    (stands : before.root.entry? inner = some .directory)
    (unmoved : Unmoved naming before inner place) {query : Place} (inside : inner <+: query) :
    now.root.entry? query = before.root.entry? query := by
  -- A file is renamed beside itself, so it stands below both directories before and after, or
  -- outside one of them.
  have outside : ∀ {above : Place} {name last : Bytes} {contents : Bytes},
      before.root.entry? (place ++ (above ++ [name])) = some (.leaf (.file contents)) →
      naming.rename? name ≠ none →
      before.root.entry? (place ++ (above ++ [last])) ≠ some .directory →
      query ≠ place ++ (above ++ [last]) := by
    rintro above name last contents file given notDirectory rfl
    rw [← List.append_assoc] at inside notDirectory file
    rcases List.prefix_concat_iff.1 inside with same | within
    · rw [← same, stands] at notDirectory
      exact notDirectory rfl
    · exact given (Naming.rename?_eq_none.2
        (unmoved _ name contents within (List.prefix_append _ _) file))
  refine renamed.others query fun found member goal moves => ?_
  obtain ⟨contents, _, file⟩ := lists.held found member
  have free := renamed.free found member goal moves
  obtain ⟨above, name, fresh, whole, rfl, given⟩ := Naming.relocate?_eq_some.1 moves
  rw [whole] at file ⊢
  exact ⟨outside file (by simp [given]) (by simp [file]), outside file (by simp [given]) free⟩

theorem Renamed.nil (naming : Naming) (before : FileSystem) (place : Place) :
    Renamed naming before place [] before :=
  ⟨by simp, by simp, by simp, fun _ _ => rfl⟩

theorem Renamed.skip {passed : List Found} (renamed : Renamed naming before place passed now)
    {skipped : List Found}
    (kept : ∀ found ∈ skipped, naming.relocate? found.place = none) :
    Renamed naming before place (passed ++ skipped) now := by
  refine ⟨fun found member goal moves => ?_, fun found member moves => ?_,
    fun found member goal moves => ?_, fun query apart => ?_⟩
  · rcases List.mem_append.1 member with old | new
    · exact renamed.arrived found old goal moves
    · rw [kept found new] at moves
      cases moves
  · rcases List.mem_append.1 member with old | new
    · exact renamed.gone found old moves
    · exact absurd (kept found new) moves
  · rcases List.mem_append.1 member with old | new
    · exact renamed.free found old goal moves
    · rw [kept found new] at moves
      cases moves
  · exact renamed.others query fun found member => apart found (List.mem_append_left _ member)

/-- No new name of a file carries the source mark, so each file is renamed at most once. -/
def Once (naming : Naming) (listed : List Found) : Prop :=
  ∀ found ∈ listed, ∀ goal, naming.relocate? found.place = some goal →
    naming.relocate? goal = none

theorem once_of_apart (apart : naming.Apart) (marked : naming.target ≠ "") : Once naming listed :=
  fun _ _ _ moves => apart.relocate?_goal marked moves

section Step

variable {passed : List Found} {found : Found} {goal : Place}

theorem Once.apart (once : Once naming listed) (member : found ∈ listed)
    (moves : naming.relocate? found.place = some goal) {other : Place}
    (also : naming.relocate? other ≠ none) : goal ≠ other :=
  fun same => also (same ▸ once found member goal moves)

/-- A file that is still to be renamed is as it was. -/
theorem Renamed.waiting (once : Once naming passed) (renamed : Renamed naming before place passed now)
    (fresh : ∀ other ∈ passed, other.place ≠ found.place)
    (moves : naming.relocate? found.place ≠ none) :
    now.root.entry? (place ++ found.place) = before.root.entry? (place ++ found.place) := by
  refine renamed.others _ fun other member to_ moved => ⟨?_, ?_⟩
  · simpa using (fresh other member).symm
  · simpa using (once.apart member moved moves).symm

/-- Where a file is still to be renamed to, everything is as it was. -/
theorem Renamed.untaken (once : Once naming (passed ++ [found]))
    (renamed : Renamed naming before place passed now)
    (fresh : ∀ other ∈ passed, other.place ≠ found.place)
    (moves : naming.relocate? found.place = some goal) :
    now.root.entry? (place ++ goal) = before.root.entry? (place ++ goal) := by
  refine renamed.others _ fun other member to_ moved => ⟨?_, ?_⟩
  · simpa using once.apart (by simp) moves (by simp [moved])
  · rintro same
    obtain rfl := List.append_cancel_left same
    exact fresh other member (Naming.relocate?_injective moved moves)

theorem Renamed.step (once : Once naming (passed ++ [found]))
    (renamed : Renamed naming before place passed now)
    (fresh : ∀ other ∈ passed, other.place ≠ found.place)
    (moves : naming.relocate? found.place = some goal) {content : Leaf}
    (leaf : now.root.entry? (place ++ found.place) = some (.leaf content))
    (free : now.root.entry? (place ++ goal) ≠ some .directory)
    (entries : ∀ query, after.root.entry? query = if query = place ++ goal then some (.leaf content)
      else if query = place ++ found.place then none else now.root.entry? query) :
    Renamed naming before place (passed ++ [found]) after := by
  have earlier : Once naming passed := fun other member =>
    once other (List.mem_append_left _ member)
  have untouched := renamed.waiting earlier fresh (moves.trans_ne (Option.some_ne_none goal))
  have elsewhere : ∀ other ∈ passed, ∀ to_, naming.relocate? other.place = some to_ → to_ ≠ goal :=
    fun other old to_ moved same =>
    fresh other old (Naming.relocate?_injective moved (same ▸ moves))
  refine ⟨fun other member to_ moved => ?_, fun other member moved => ?_,
    fun other member to_ moved => ?_, fun query away => ?_⟩
  · rw [entries]
    rcases List.mem_append.1 member with old | new
    · rw [if_neg (by simpa using elsewhere other old to_ moved),
        if_neg (by simpa using earlier.apart old moved (by simp [moves]))]
      exact renamed.arrived other old to_ moved
    · obtain rfl : other = found := by simpa using new
      obtain rfl : to_ = goal := Option.some.inj (moved.symm.trans moves)
      rw [if_pos rfl, ← untouched, leaf]
  · rw [entries, if_neg (by simpa using (once.apart (by simp) moves moved).symm)]
    rcases List.mem_append.1 member with old | new
    · rw [renamed.gone other old moved, ite_self]
    · obtain rfl : other = found := by simpa using new
      rw [if_pos rfl]
  · rcases List.mem_append.1 member with old | new
    · exact renamed.free other old to_ moved
    · obtain rfl : other = found := by simpa using new
      obtain rfl : to_ = goal := Option.some.inj (moved.symm.trans moves)
      rwa [← renamed.untaken once fresh moves]
  · obtain ⟨notFrom, notTo⟩ := away found (by simp) goal moves
    rw [entries, if_neg notTo, if_neg notFrom]
    exact renamed.others query fun other member => away other (List.mem_append_left _ member)

end Step

theorem candidate?_eq_some {found : Found} {candidate : Candidate} :
    candidate? naming found = some candidate ↔
    ∃ fresh, naming.rename? found.name = some fresh ∧
    ⟨found.path, found.path.withFileName fresh⟩ = candidate := by
  simp [candidate?]

theorem relocate?_of_candidate? (lists : before.Lists directory place listed) {found : Found}
    (member : found ∈ listed) :
    naming.relocate? found.place = none ↔ candidate? naming found = none := by
  obtain ⟨above, name, whole, named, _⟩ := lists.above member
  rw [whole, Naming.relocate?_concat]
  simp [candidate?, named]

theorem renameFile_ensures {candidate : Candidate} {good : RenamedFile → FileSystem → Prop}
    {bad : FileSystem → Prop}
    (done : ∀ after, now.rename candidate.source candidate.target = .ok after →
      good ⟨candidate.source.relativeTo directory, candidate.target.relativeTo directory,
        now.isPresent candidate.target⟩ after)
    (failed : bad now) : (renameFile directory candidate).Ensures now good bad := by
  have changed : (do
      note (.writing candidate.target)
      change candidate.source (·.rename candidate.source candidate.target)
      pure ⟨candidate.source.relativeTo directory, candidate.target.relativeTo directory,
        now.isPresent candidate.target⟩ : Act Failure RenamedFile).Ensures now good bad := by
    refine Ensures.bind ((ensures_note _).2
      (Ensures.bind (ensures_change.2 ⟨fun after renamed => ?_, fun _ _ => failed⟩)))
    exact (ensures_pure _).2 (done after renamed)
  refine Ensures.bind ((ensures_look _).2 ?_)
  dsimp only
  split
  · exact Ensures.bind ((ensures_note _).2 changed)
  · exact changed

/-- The pass confines its changes to the directory; where the marks are apart, all marked files have
moved. -/
theorem renameFiles_ensures (sound : before.Sound) (marked : naming.target ≠ "")
    (slashless : Path.slash ∉ utf8 naming.target) :
    (renameFiles directory naming).Ensures before
      (fun _ after => ∃ place listed, before.Lists directory place listed ∧
        before.Confined place after ∧
        (naming.Apart → Renamed naming before place listed after))
      (fun after => after = before ∨ ∃ place, before.Opens directory place ∧
        before.Confined place after) := by
  refine Ensures.bind ((ensures_note _).2
    (Ensures.bind ((ensures_examine _).2 ⟨fun listed found => ?_, fun _ _ => .inl rfl⟩)))
  obtain ⟨place, lists⟩ := filesBelow_ok sound.wellFormed found
  let invariant (left : List Candidate) (now : FileSystem) : Prop :=
    before.Confined place now ∧ ∃ passed waiting, listed = passed ++ waiting ∧
    left = waiting.filterMap (candidate? naming) ∧
      (naming.Apart → Renamed naming before place passed now)
  refine (ensures_mapM (fun _ => invariant) ?_ _ ?_).imp ?_ fun _ failed => failed
  · rintro results candidate rest now ⟨confined, passed, waiting, whole, left, renamed⟩
    obtain ⟨skipped, found, more, rfl, none, given, rfl⟩ := List.filterMap_eq_cons_iff.1 left.symm
    have member : found ∈ listed := by simp [whole]
    obtain ⟨fresh, named, rfl⟩ := candidate?_eq_some.1 given
    refine renameFile_ensures (fun after done => ?_) (.inr ⟨place, lists.opens, confined⟩)
    refine ⟨confined_of_rename lists sound marked slashless confined member named done,
      passed ++ skipped ++ [found], more,
      by simp [whole], rfl, fun apart => ?_⟩
    have skip : ∀ other ∈ skipped, naming.relocate? other.place = Option.none := fun other inside =>
      (relocate?_of_candidate? lists (by simp [whole, inside])).2 (none other inside)
    have distinct : ∀ other ∈ passed ++ skipped, other.place ≠ found.place := by
      have places := lists.distinct
      rw [whole, ← List.append_assoc, List.map_append, List.nodup_append] at places
      exact fun other inside => places.2.2 _ (List.mem_map_of_mem inside) _ (by simp)
    obtain ⟨goal, content, moves, leaf, same | ⟨_, free, _, entries⟩⟩ :=
      rename_listed lists sound marked slashless confined member named done
    · -- A name that stays the same would carry both marks.
      have settled := apart.relocate?_goal marked moves
      rw [same.1, moves] at settled
      cases settled
    · exact ((renamed apart).skip skip).step (once_of_apart apart marked) distinct moves leaf free
        entries
  · exact ⟨.refl sound place, [], listed, rfl, rfl, fun _ => .nil naming before place⟩
  · rintro _ after ⟨confined, passed, waiting, whole, left, renamed⟩
    refine ⟨place, listed, lists, confined, fun apart => ?_⟩
    rw [whole]
    refine (renamed apart).skip fun other inside => ?_
    exact (relocate?_of_candidate? lists (by simp [whole, inside])).2
      (List.filterMap_eq_nil_iff.1 left.symm other inside)

/-- What changes below the directory keep, the pass keeps, whether it comes to its end or breaks
off. -/
theorem renameFiles_confined (keeps : FileSystem → Prop) (sound : before.Sound)
    (marked : naming.target ≠ "") (slashless : Path.slash ∉ utf8 naming.target)
    (confined : ∀ place after, before.Opens directory place → before.Confined place after →
      keeps after) (start : keeps before) :
    (renameFiles directory naming).Ensures before (fun _ => keeps) keeps := by
  refine (renameFiles_ensures sound marked slashless).imp ?_ ?_
  · rintro _ after ⟨place, listed, lists, inside, _⟩
    exact confined place after lists.opens inside
  · rintro after (rfl | ⟨place, opens, inside⟩)
    · exact start
    · exact confined place after opens inside

/-- What renaming a file beside itself below the directory keeps, the pass keeps, whether it comes
to its end or breaks off. -/
theorem renameFiles_keeps (keeps : FileSystem → Prop) (sound : before.Sound)
    (marked : naming.target ≠ "") (slashless : Path.slash ∉ utf8 naming.target)
    (step : ∀ place above old fresh content source target now after,
      before.Opens directory place → keeps now →
      now.Names source (place ++ above) old → now.Names target (place ++ above) fresh →
      now.rename source target = .ok after →
      now.root.entry? (place ++ above ++ [old]) = some (.leaf content) →
      (fresh = old ∧ after = now ∨
        fresh ≠ old ∧ now.root.entry? (place ++ above ++ [fresh]) ≠ some .directory ∧
          after = (now.drop (place ++ above ++ [old])).put (place ++ above ++ [fresh])
            (.leaf content)) → keeps after)
    (start : keeps before) :
    (renameFiles directory naming).Ensures before (fun _ => keeps) keeps := by
  refine Ensures.bind ((ensures_note _).2
    (Ensures.bind ((ensures_examine _).2 ⟨fun listed found => ?_, fun _ _ => start⟩)))
  obtain ⟨place, lists⟩ := filesBelow_ok sound.wellFormed found
  refine (ensures_mapM (fun _ left now => (∀ candidate ∈ left, ∃ found ∈ listed,
    candidate? naming found = some candidate) ∧ before.Confined place now ∧ keeps now) ?_ _
    ⟨?_, .refl sound place, start⟩).imp (fun _ _ held => held.2.2) fun _ failed => failed
  · rintro results candidate rest now ⟨inside, confined, kept⟩
    obtain ⟨found, member, given⟩ := inside candidate List.mem_cons_self
    obtain ⟨fresh, named, rfl⟩ := candidate?_eq_some.1 given
    refine renameFile_ensures (fun after done => ?_) kept
    obtain ⟨above, old, content, _, _, names, otherNames, leaf, outcome⟩ :=
      rename_beside lists sound marked slashless confined member named done
    exact ⟨fun other later => inside other (List.mem_cons_of_mem _ later),
      confined_of_rename lists sound marked slashless confined member named done,
      step place above old fresh content _ _ now after lists.opens kept names otherNames done leaf
        outcome⟩
  · exact fun candidate member => List.mem_filterMap.1 member

/-- A file renamed where it is: both its paths take their last step in one directory. -/
def InPlace (now after : FileSystem) : Prop :=
  ∃ source target place old fresh, now.Names source place old ∧ now.Names target place fresh ∧
    now.rename source target = .ok after

/-- The pass only renames files where they are. -/
theorem renameFiles_inPlace (sound : before.Sound) (marked : naming.target ≠ "")
    (slashless : Path.slash ∉ utf8 naming.target) :
    (renameFiles directory naming).Ensures before
      (fun _ => Relation.ReflTransGen InPlace before) (Relation.ReflTransGen InPlace before) :=
  renameFiles_keeps _ sound marked slashless
    (fun _ _ _ _ _ _ _ _ _ _ steps names otherNames done _ _ =>
      steps.tail ⟨_, _, _, _, _, names, otherNames, done⟩) .refl

end Retarget.Pass
