import Retarget.Proofs.Pass.Filling
import Retarget.Proofs.Pass.Stocking

/-!
What renaming and rewriting count. A renamed file leaves its place and takes another, so there is one
file less exactly where another stood at the new place; that is known before the file is renamed, and
reported. Rewriting makes and removes no file, and reports each file it looks at at most once.
-/
namespace Retarget

namespace FileSystem

variable {files now after : FileSystem} {path : Path} {place above from_ to_ : Place} {name : Bytes}

/-- A path without a slash at its end leads to something if its last name is taken. -/
theorem Names.isPresent_iff (names : files.Names path above name)
    (closed : path.endsWithSlash = false)
    (plain : ∀ link, files.root.entry? (above ++ [name]) ≠ some (.leaf (.link link))) :
    files.isPresent path = true ↔ files.root.entry? (above ++ [name]) ≠ none := by
  obtain ⟨before, steps, led⟩ := names.steps
  have whole : path.steps = before ++ [.into name] := by simp [Path.steps, closed, steps]
  rw [FileSystem.isPresent_iff]
  constructor
  · rintro ⟨reached, node, stat⟩ free
    obtain ⟨_, leads, _⟩ := stat_iff.1 stat
    rw [whole] at leads
    obtain ⟨left, onward⟩ := leads.behind led
    cases onward with
    | into _ _ held _ _ => simp [free] at held
    | atLink _ _ held _ => simp [free] at held
    | through _ _ held _ _ _ => simp [free] at held
  · intro taken
    obtain ⟨entry, held⟩ := Option.ne_none_iff_exists'.1 taken
    obtain ⟨node, found, rfl⟩ := Option.map_eq_some_iff.1 held
    have last : Leads files.root true 0 above [.into name] (.found (above ++ [name])) :=
      .into names.directory names.short held (fun link same => plain link (same ▸ held)) .arrived
    exact ⟨above ++ [name], node, stat_iff.2 ⟨names.accepted, whole ▸ led.append last (by simp),
      found⟩⟩

/-! ## A file that moves -/

/-- Something leaves one place for another: there is one thing less where the place was taken, and as
many as before where it was free. -/
theorem ncard_insert_sdiff {things : Set Place} (finite : things.Finite) (stood : from_ ∈ things)
    (apart : to_ ≠ from_) :
    (to_ ∈ things → things.ncard = (insert to_ (things \ {from_})).ncard + 1) ∧
      (to_ ∉ things → things.ncard = (insert to_ (things \ {from_})).ncard) := by
  have left := Set.ncard_sdiff_singleton_add_one stood finite
  constructor
  · intro taken
    rw [Set.insert_eq_of_mem (Set.mem_sdiff_singleton.2 ⟨taken, apart⟩), left]
  · intro free
    rw [Set.ncard_insert_of_notMem (fun inside => free inside.1) finite.sdiff, left]

/-- A file leaves one place for another, and what was there is gone. -/
structure Moves (place from_ to_ : Place) (now after : FileSystem) : Prop where
  stood : from_ ∈ now.filesAt place
  apart : to_ ≠ from_
  filesAt : after.filesAt place = insert to_ (now.filesAt place \ {from_})

/-- There is one file less where the place was taken, and as many as before where it was free. -/
theorem Moves.ncard (moves : Moves place from_ to_ now after) (sound : now.Sound) :
    (to_ ∈ now.filesAt place →
      (now.filesAt place).ncard = (after.filesAt place).ncard + 1) ∧
    (to_ ∉ now.filesAt place → (now.filesAt place).ncard = (after.filesAt place).ncard) := by
  rw [moves.filesAt]
  exact ncard_insert_sdiff (filesAt_finite sound.wellFormed place) moves.stood moves.apart

/-- A file that leaves one name for another moves, whatever file it puts an end to. -/
theorem moves_of_entries {contents : Bytes}
    (stood : now.root.entry? (place ++ from_) = some (.leaf (.file contents))) (apart : to_ ≠ from_)
    (entries : ∀ below, after.root.entry? (place ++ below) =
      if below = to_ then some (.leaf (.file contents))
      else if below = from_ then none else now.root.entry? (place ++ below)) :
    Moves place from_ to_ now after := by
  refine ⟨⟨contents, stood⟩, apart, ?_⟩
  ext below
  simp only [filesAt, Set.mem_ofPred_eq, entries, Set.mem_insert_iff, Set.mem_sdiff,
    Set.mem_singleton_iff]
  by_cases here : below = to_
  · simp [here]
  · by_cases gone : below = from_
    · simp [gone]
    · simp [here, gone]

/-- Among regular files, a path leads to something exactly if it leads to one of them. -/
theorem Regular.isPresent_iff (regular : now.Regular place)
    (names : now.Names path (place ++ above) name) (closed : path.endsWithSlash = false)
    (free : now.root.entry? (place ++ above ++ [name]) ≠ some .directory) :
    now.isPresent path = true ↔ above ++ [name] ∈ now.filesAt place := by
  rw [List.append_assoc] at free
  have plain : ∀ link, now.root.entry? (place ++ above ++ [name]) ≠ some (.leaf (.link link)) := by
    intro link linked
    rw [List.append_assoc] at linked
    obtain ⟨_, same⟩ := regular _ _ linked
    cases same
  rw [names.isPresent_iff closed plain, List.append_assoc]
  constructor
  · intro taken
    obtain ⟨entry, held⟩ := Option.ne_none_iff_exists'.1 taken
    cases entry with
    | directory => exact absurd held free
    | leaf other =>
      obtain ⟨others, rfl⟩ := regular _ _ held
      exact ⟨others, held⟩
  · rintro ⟨others, held⟩
    simp [held]

end FileSystem

namespace Pass

open Act FileSystem

variable {before now after : FileSystem} {directory : Path} {place : Place} {listed : List Found}
  {naming : Naming} {table : Table}

/-! ## Renaming -/

/-- A name changes where the marks differ. -/
theorem ne_of_rename? (different : naming.source ≠ naming.target) {name fresh : Bytes}
    (given : naming.rename? name = some fresh) : fresh ≠ name := by
  obtain ⟨_, rest, rfl, rfl⟩ := Naming.rename?_eq_some.1 given
  exact fun same => different (utf8_injective (List.append_cancel_right same).symm)

/-- Of a path beside a listed one, a slash is not the last. -/
theorem closed_beside (lists : before.Lists directory place listed) (sound : before.Sound)
    {found : Found} (member : found ∈ listed) {fresh : Bytes} (legal : Tree.Legal fresh) :
    (found.path.withFileName fresh).endsWithSlash = false := by
  obtain ⟨above, name, whole, _⟩ := lists.above member
  have named : Tree.Legal name := lists.legal sound.wellFormed member name (by simp [whole])
  rw [lists.descends found member, whole, Path.descend_concat]
  obtain ⟨parent, _, same, _⟩ := Path.withFileName_joinName (directory.descend above) named fresh
  rw [same]
  exact Path.endsWithSlash_joinName parent legal

/-- One file renamed: there is one file less if its new path led to something. -/
theorem rename_counts (lists : before.Lists directory place listed) (sound : before.Sound)
    (marked : naming.target ≠ "") (slashless : Path.slash ∉ utf8 naming.target)
    (different : naming.source ≠ naming.target) (confined : before.Confined place now)
    (regular : now.Regular place) {found : Found} (member : found ∈ listed) {fresh : Bytes}
    (given : naming.rename? found.name = some fresh)
    (renamed : now.rename found.path (found.path.withFileName fresh) = .ok after) :
    after.Regular place ∧ (now.filesAt place).ncard = (after.filesAt place).ncard +
      if now.isPresent (found.path.withFileName fresh) then 1 else 0 := by
  obtain ⟨above, old, content, whole, given, names, otherNames, leaf, outcome⟩ :=
    rename_beside lists sound marked slashless confined member given renamed
  obtain ⟨fresh_ne, free, rfl⟩ := outcome.resolve_left fun same => ne_of_rename? different given same.1
  have apart : place ++ above ++ [old] ≠ place ++ above ++ [fresh] :=
    fun same => fresh_ne (by simpa using same.symm)
  have entries := entry?_moved names.directory otherNames.directory leaf apart free
  rw [List.append_assoc] at leaf
  obtain ⟨contents, rfl⟩ := regular _ _ leaf
  have inside : ∀ below : Place,
      ((now.drop (place ++ above ++ [old])).put (place ++ above ++ [fresh])
        (.leaf (.file contents))).root.entry? (place ++ below) =
      if below = above ++ [fresh] then some (.leaf (.file contents))
      else if below = above ++ [old] then none else now.root.entry? (place ++ below) := by
    intro below
    rw [entries]
    simp only [List.append_assoc, List.append_cancel_left_eq]
  have moves : Moves place (above ++ [old]) (above ++ [fresh]) now
      ((now.drop (place ++ above ++ [old])).put (place ++ above ++ [fresh])
        (.leaf (.file contents))) :=
    moves_of_entries leaf (fun same => fresh_ne (by simpa using same)) inside
  have present := regular.isPresent_iff otherNames
    (closed_beside lists sound member otherNames.legal) free
  refine ⟨fun below other held => ?_, ?_⟩
  · rw [inside] at held
    split at held
    · exact ⟨contents, (Entry.leaf.inj (Option.some.inj held)).symm⟩
    · split at held
      · cases held
      · exact regular below other held
  · obtain ⟨taken, vacant⟩ := moves.ncard confined.sound
    split
    · rename_i isPresent
      exact taken (present.1 isPresent)
    · rename_i absent
      exact vacant fun inside => absent (present.2 inside)

/-- Renaming loses as many files as it reports to have overwritten. -/
theorem renameFiles_counts (sound : before.Sound) (opens : before.Opens directory place)
    (marked : naming.target ≠ "") (slashless : Path.slash ∉ utf8 naming.target)
    (different : naming.source ≠ naming.target) (regular : before.Regular place) :
    (renameFiles directory naming).Ensures before
      (fun renamed after => after.Regular place ∧ (before.filesAt place).ncard =
        (after.filesAt place).ncard + renamed.countP (·.overwrote)) fun _ => True := by
  refine Ensures.bind ((ensures_note _).2
    (Ensures.bind ((ensures_examine _).2 ⟨fun listed found => ?_, fun _ _ => trivial⟩)))
  obtain ⟨reached, lists⟩ := filesBelow_ok sound.wellFormed found
  obtain rfl := lists.opens.unique opens
  let invariant (renamed : List RenamedFile) (left : List Candidate) (now : FileSystem) : Prop :=
    (∀ candidate ∈ left, ∃ found ∈ listed, candidate? naming found = some candidate) ∧
      before.Confined reached now ∧ now.Regular reached ∧
      (before.filesAt reached).ncard =
        (now.filesAt reached).ncard + renamed.countP (·.overwrote)
  have gone : ((listed.filterMap (candidate? naming)).mapM (renameFile directory)).Ensures before
      (fun renamed => invariant renamed []) fun _ => True := by
    refine ensures_mapM invariant ?_ _ ⟨fun candidate => List.mem_filterMap.1, .refl sound reached,
      regular, by simp⟩
    rintro renamed candidate rest now ⟨inside, confined, stillRegular, counted⟩
    obtain ⟨found, member, given⟩ := inside candidate List.mem_cons_self
    obtain ⟨fresh, named, rfl⟩ := candidate?_eq_some.1 given
    refine renameFile_ensures (fun after done => ?_) trivial
    obtain ⟨further, fewer⟩ := rename_counts lists sound marked slashless different confined
      stillRegular member named done
    refine ⟨fun other later => inside other (List.mem_cons_of_mem _ later),
      confined_of_rename lists sound marked slashless confined member named done, further, ?_⟩
    rw [counted, fewer, List.countP_append, List.countP_singleton, Nat.add_right_comm, Nat.add_assoc]
  exact gone.imp (fun _ _ held => held.2.2) fun _ _ => trivial

/-! ## Rewriting -/

/-- The path a finding tells of. -/
def Finding.path? : Finding → Option Path
  | .kept => none
  | .skipped file => some file.path
  | .rewritten file => some file.path

/-- The files that were rewritten and those that were skipped are those that findings tell of. -/
theorem Finding.paths_perm (findings : List Finding) :
    ((Finding.outcome findings).rewritten.map (·.path) ++
      (Finding.outcome findings).skipped.map (·.path)).Perm
        (findings.filterMap Finding.path?) := by
  unfold Finding.outcome
  induction findings with
  | nil => exact .refl _
  | cons finding rest ih =>
    cases finding with
    | kept => simpa only [rewritten?, skipped?, path?, List.filterMap_cons] using ih
    | rewritten file =>
      simp only [rewritten?, skipped?, path?, List.filterMap_cons, List.map_cons]
      exact ih.cons _
    | skipped file =>
      simp only [rewritten?, skipped?, path?, List.filterMap_cons, List.map_cons]
      exact List.perm_middle.trans (ih.cons _)

/-- What is found of a file tells of that file, if of any. -/
theorem Finding.path?_of {path told : Path} {contents : Bytes}
    (tells : (Finding.of table path contents).path? = some told) : told = path := by
  unfold Finding.of at tells
  split at tells
  · exact (Option.some.inj tells).symm
  · split at tells
    · cases tells
    · exact (Option.some.inj tells).symm

/-- Findings tell of different files, in the order of the files. -/
theorem Finds.sublist {chosen : List Found} {findings : List Finding}
    (finds : List.Forall₂ (Finds table before directory place) chosen findings) :
    (findings.filterMap Finding.path?).Sublist
      (chosen.map fun file => file.path.relativeTo directory) := by
  induction finds with
  | nil => exact .slnil
  | @cons file finding _ _ found _ ih =>
    obtain ⟨contents, _, rfl⟩ := found
    rw [List.map_cons]
    cases tells : (Finding.of table (file.path.relativeTo directory) contents).path? with
    | none =>
      rw [List.filterMap_cons_none tells]
      exact ih.cons _
    | some told =>
      rw [List.filterMap_cons_some tells, Finding.path?_of tells]
      exact ih.cons_cons _

/-- As many files are scanned as carry the target mark, and of these at most each is rewritten or
skipped once. -/
theorem rewriteFiles_reports (sound : before.Sound) :
    (rewriteFiles directory naming table).Ensures before
      (fun outcome _ => ∃ place listed, before.Lists directory place listed ∧
        outcome.scanned = (listed.filter fun found => naming.isTarget found.name).length ∧
        (outcome.rewritten.map (·.path) ++ outcome.skipped.map (·.path)).Subperm
          ((listed.filter fun found => naming.isTarget found.name).map fun file =>
            file.path.relativeTo directory)) fun _ => True := by
  refine Ensures.bind ((ensures_note _).2
    (Ensures.bind ((ensures_examine _).2 ⟨fun listed found => ?_, fun _ _ => trivial⟩)))
  obtain ⟨place, lists⟩ := filesBelow_ok sound.wellFormed found
  refine Ensures.bind ((rewriteEach_ensures lists sound List.filter_sublist).imp
    (fun findings after ⟨_, _, _, finds⟩ => ?_) fun _ _ => trivial)
  exact (ensures_pure _).2 ⟨place, listed, lists, finds.length_eq.symm,
    (Finding.paths_perm findings).subperm.trans (Finds.sublist finds).subperm⟩

end Pass
end Retarget
