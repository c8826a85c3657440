import Retarget.Proofs.Change.Agreement
import Retarget.Proofs.Marks
import Retarget.Proofs.Pass.Outcome
import Retarget.Proofs.Pass.Listing
import Retarget.Proofs.Pass.Replacing
import Retarget.Proofs.Session.Parallel
import Retarget.Proofs.Tree.Order

/-!
The passes in two systems that agree. A pass looks up paths below the source and below the target
only, and what it makes of a directory depends on the entries there and not on how they came to be.
So in two systems that agree at these places it goes the same way, gives the same and leaves them
agreeing.
-/
namespace Retarget

variable {tops : List Place} {cwd : Place}

/-! ## Paths below a base -/

theorem Stays.down {place names : Place} {steps : List Step} (stays : Stays tops place steps)
    (near : Near tops (steps.foldl Step.from place ++ names)) :
    Stays tops place (steps ++ names.map .into) := by
  refine stays.append (stays_of_plain (by simp) ?_)
  rwa [(Path.spelled_names names).foldl_from]

theorem Path.placeFrom_descend (path : Path) {names : Place}
    (legal : ∀ name ∈ names, Tree.Legal name) :
    (path.descend names).placeFrom cwd = path.placeFrom cwd ++ names := by
  rw [placeFrom, start_descend path legal, openSteps_descend path legal, List.foldl_append,
    (spelled_names names).foldl_from, placeFrom]

namespace Path.Stays

variable {path : Path}

theorem descend (stays : path.Stays tops cwd) {names : Place}
    (legal : ∀ name ∈ names, Tree.Legal name) (near : Near tops (path.placeFrom cwd ++ names)) :
    (path.descend names).Stays tops cwd := by
  unfold Path.Stays
  rw [start_descend path legal, openSteps_descend path legal]
  exact Retarget.Stays.down stays near

theorem copyPath (stays : path.Stays tops cwd) {names : Place}
    (legal : ∀ name ∈ names, Tree.Legal name) (near : Near tops (path.placeFrom cwd ++ names)) :
    (Pass.copyPath path names).Stays tops cwd := by
  unfold Path.Stays
  rw [FileSystem.start_copyPath path legal, Pass.copyPath, openSteps_join_place path legal]
  exact Retarget.Stays.down stays near

/-- Another last name stays near where everything below does. -/
theorem withFileName (stays : path.Stays tops cwd)
    (below : ∀ names, Near tops (path.placeFrom cwd ++ names)) {above : Place} {name fresh : Bytes}
    (legal : ∀ other ∈ above ++ [name], Tree.Legal other) (slashless : slash ∉ fresh) :
    ((path.descend (above ++ [name])).withFileName fresh).Stays tops cwd := by
  have aboveLegal : ∀ other ∈ above, Tree.Legal other :=
    fun other member => legal other (by simp [member])
  obtain ⟨parent, idle, whole, steps, stay, absolute⟩ :=
    withFileName_joinName (path.descend above) (legal name (by simp)) fresh
  have relative : Path.isAbsolute ⟨fresh⟩ = false := by
    cases fresh with
    | nil => rfl
    | cons byte rest =>
      have apart : byte ≠ slash := fun same => slashless (by simp [same])
      simp [Path.isAbsolute, apart]
  have reached : Retarget.Stays tops (path.start cwd) (path.openSteps ++ above.map .into) :=
    Retarget.Stays.down stays (below above)
  have start : (parent.joinName fresh).start cwd = path.start cwd := by
    rw [Path.start, joinName, isAbsolute_join parent relative, absolute, ← descend_concat,
      isAbsolute_descend path legal, Path.start]
  rw [openSteps_descend path aboveLegal] at steps
  have none : Path.Spelled idle [] := stay.filter
  have here : parent.openSteps.foldl Step.from (path.start cwd) = path.placeFrom cwd ++ above := by
    have whole := congrArg (List.foldl Step.from (path.start cwd)) steps
    rw [List.foldl_append, List.foldl_append, none.foldl_from, List.append_nil,
      (Path.spelled_names above).foldl_from] at whole
    exact whole.symm
  rw [Path.descend_concat, whole]
  unfold Path.Stays
  rw [start, joinName, openSteps_join parent relative, openSteps_piece slashless]
  refine (reached.of_prefix ⟨idle, steps.symm⟩).append ?_
  rw [here]
  cases step? fresh with
  | none => exact stays_nil (below above)
  | some step =>
    refine stays_singleton (below above) ?_
    cases step with
    | stay => exact below above
    | up => exact near_of_prefix (below above) (List.dropLast_prefix _)
    | into name =>
      rw [Step.from, List.append_assoc]
      exact below _

end Path.Stays

namespace FileSystem

variable {files other : FileSystem} {path : Path} {place : Place}

/-! ## What a pass looks at -/

/-- Directories that two systems hold at one place have the same entries where all is near. -/
theorem Agree.inside (agree : Agree tops cwd files other) {inner twin : Tree}
    (here : files.root.at? place = some (.branch inner))
    (there : other.root.at? place = some (.branch twin)) {names : Place}
    (near : Near tops (place ++ names)) : twin.entry? names = inner.entry? names := by
  rw [← Tree.entry?_append_branch there, ← Tree.entry?_append_branch here]
  exact agree.same _ near

theorem Agree.opened (agree : Agree tops cwd files other) (stays : path.Stays tops cwd)
    (below : ∀ names, Near tops (path.placeFrom cwd ++ names)) :
    Pass.opened other path = Pass.opened files path := by
  unfold Pass.opened
  refine told_alike (agree.stat stays) (fun _ => rfl) (fun inner twin here there => ?_) fun _ _ => rfl
  have formed := (agree.sound.wellFormed.at? here).2
  have otherFormed := (agree.otherSound.wellFormed.at? there).2
  have listed := Tree.listing_congr otherFormed formed fun name => by
    have entries : twin.entry? [name] = inner.entry? [name] :=
      agree.inside here there (below [name])
    simpa [Tree.entry?, Tree.at?] using entries
  exact congrArg (fun entries => Except.ok (path.placeFrom cwd, entries)) listed

theorem Agree.followed (agree : Agree tops cwd files other) (stays : path.Stays tops cwd)
    (above : List Pass.Ancestor) (listed : Entry) :
    Pass.followed other above path listed = Pass.followed files above path listed := by
  unfold Pass.followed
  split
  · exact told_alike (agree.stat stays) (fun _ => rfl) (fun _ _ _ _ => rfl) fun _ _ => rfl
  · rfl

theorem Agree.walk (agree : Agree tops cwd files other) (stays : path.Stays tops cwd)
    (below : ∀ names, Near tops (path.placeFrom cwd ++ names)) :
    other.walk path = files.walk path := by
  have walked : ∀ {inner twin : Tree}, files.root.at? (path.placeFrom cwd) = some (.branch inner) →
      other.root.at? (path.placeFrom cwd) = some (.branch twin) →
      twin.walkFrom path = inner.walkFrom path := by
    intro inner twin here there
    have same : twin.walk = inner.walk :=
      Tree.walk_congr (agree.otherSound.wellFormed.at? there).2
        (agree.sound.wellFormed.at? here).2 fun names => agree.inside here there (below names)
    rw [Tree.walkFrom, same, Tree.walkFrom]
  unfold FileSystem.walk
  refine told_alike (agree.lstat stays) (fun _ => rfl)
    (fun _ _ here there => congrArg _ (walked here there)) fun content here => ?_
  cases content with
  | link link => exact absurd (Tree.entry?_eq_leaf.2 here) (agree.linkless _ _)
  | file contents => rfl
  | special => rfl

/-- What a walk meets has the path that leads down to its place. -/
theorem paths_of_walk (sound : files.Sound) {found : Found} (met : .ok found ∈ files.walk path) :
    found.path = path.descend found.place ∧ ∀ name ∈ found.place, Tree.Legal name := by
  have inside : ∀ {place : Place} {inner : Tree}, files.root.at? place = some (.branch inner) →
      .ok found ∈ inner.walkFrom path →
      found.path = path.descend found.place ∧ ∀ name ∈ found.place, Tree.Legal name := by
    intro place inner here member
    obtain ⟨⟨below, entry⟩, visited, given⟩ := List.mem_flatMap.1 member
    have formed : inner.WellFormed := (sound.wellFormed.at? here).2
    have same : found = ⟨path.descend below, below, entry⟩ := by
      dsimp only at given
      split at given <;> simpa using given
    rw [same]
    exact ⟨rfl, formed.legal ((Tree.mem_walk formed).1 visited).2⟩
  have top : ∀ {entry : Entry}, found = ⟨path, [], entry⟩ →
      found.path = path.descend found.place ∧ ∀ name ∈ found.place, Tree.Legal name := by
    rintro entry rfl
    exact ⟨rfl, by simp⟩
  unfold FileSystem.walk at met
  split at met
  · simp at met
  · rename_i place inner seen
    rcases List.mem_cons.1 met with first | later
    · exact top (Except.ok.inj first)
    · exact inside (lstat_iff.1 seen).2.2 later
  · split at met
    · simp at met
    · rename_i place inner seen
      rcases List.mem_cons.1 met with first | later
      · exact top (Except.ok.inj first)
      · exact inside (stat_iff.1 seen).2.2 later
    · exact top (Except.ok.inj (List.mem_singleton.1 met))
  · exact top (Except.ok.inj (List.mem_singleton.1 met))

theorem Agree.filesBelow (agree : Agree tops cwd files other) (stays : path.Stays tops cwd)
    (below : ∀ names, Near tops (path.placeFrom cwd ++ names)) :
    other.filesBelow path = files.filesBelow path := by
  unfold FileSystem.filesBelow
  rw [agree.isDirectory stays, agree.walk stays below]

theorem Agree.marksOn (agree : Agree tops cwd files other) (top : Path)
    {walk : List (Except WalkError Found)}
    (stays : ∀ found, .ok found ∈ walk → found.path.Stays tops cwd) :
    other.marksOn top walk = files.marksOn top walk := by
  induction walk with
  | nil => rfl
  | cons item rest ih =>
    have onward := ih fun found member => stays found (List.mem_cons_of_mem _ member)
    cases item with
    | error error => rfl
    | ok found =>
      have read := agree.read (stays found (by simp))
      simp only [FileSystem.marksOn, FileSystem.mark, FileSystem.contents, read, onward]

theorem Agree.fingerprint (agree : Agree tops cwd files other) (stays : path.Stays tops cwd)
    (below : ∀ names, Near tops (path.placeFrom cwd ++ names)) :
    other.fingerprint path = files.fingerprint path := by
  unfold FileSystem.fingerprint FileSystem.marks
  rw [agree.walk stays below, agree.marksOn path]
  intro found member
  obtain ⟨whole, legal⟩ := paths_of_walk agree.sound member
  rw [whole]
  exact stays.descend legal (below _)

end FileSystem

namespace Pass

open Act FileSystem

variable {source target directory : Path}

/-! ## Copying -/

theorem parallel_copyFile {path copy : Path} (stays : path.Stays tops cwd)
    (copyStays : copy.Stays tops cwd) (relative : Path) :
    Parallel (Agree tops cwd) Eq (copyFile path copy relative) (copyFile path copy relative) := by
  refine (parallel_view fun files others agree => ?_).follow fun contents => ?_
  · rw [agree.read stays]
  · exact (parallel_change copy fun files others agree => agree.write copyStays contents).follow
      fun _ => parallel_note _

theorem parallel_copyEntries {depth : Nat} {above : List Ancestor} {path : Path}
    {entries : List (Bytes × Entry)}
    (each : ∀ name entry, (name, entry) ∈ entries → Parallel (Agree tops cwd) Eq
      (copyFrom source target depth above (path.joinName name) entry)
      (copyFrom source target depth above (path.joinName name) entry)) :
    Parallel (Agree tops cwd) Eq (copyEntries source target depth above path entries)
      (copyEntries source target depth above path entries) := by
  refine parallel_foldlM entries (fun count item member => ?_) 0
  obtain ⟨name, entry⟩ := item
  exact (each name entry member).follow fun more => parallel_pure rfl

theorem parallel_copyFrom (written : source.bytes ≠ []) (stays : source.Stays tops cwd)
    (copyStays : target.Stays tops cwd) (inSource : source.placeFrom cwd ∈ tops)
    (inTarget : target.placeFrom cwd ∈ tops) (depth : Nat) (above : List Ancestor) (place : Place)
    (legal : ∀ name ∈ place, Tree.Legal name) (listed : Entry) :
    Parallel (Agree tops cwd) Eq
      (copyFrom source target depth above (source.descend place) listed)
      (copyFrom source target depth above (source.descend place) listed) := by
  have below : ∀ names, Near tops (source.placeFrom cwd ++ names) := fun names =>
    near_below inSource (List.prefix_append _ _)
  have copied : ∀ names, Near tops (target.placeFrom cwd ++ names) := fun names =>
    near_below inTarget (List.prefix_append _ _)
  induction depth generalizing above place listed with
  | zero => exact parallel_throw _
  | succ depth ih =>
    have here := stays.descend legal (below place)
    have copy := copyStays.copyPath legal (copied place)
    unfold copyFrom
    rw [Path.relativeTo_descend written legal]
    refine (parallel_view fun files others agree => ?_).follow fun entry => ?_
    · rw [agree.followed here]
    cases entry with
    | directory =>
      have listings : Parallel (Agree tops cwd) (fun listing again => listing = again ∧
          ∀ reached entries, listing = .ok (reached, entries) → ∀ item ∈ entries,
            Tree.Legal item.1)
          (look (opened · (source.descend place)) : Act Failure _)
          (look (opened · (source.descend place))) := by
        refine parallel_look fun files others agree => ⟨?_, fun reached entries listing item => ?_⟩
        · refine (agree.opened here fun names => ?_).symm
          rw [Path.placeFrom_descend source legal, List.append_assoc]
          exact below _
        · exact legal_of_opened agree.sound listing
      refine listings.bind ?_
      rintro listing _ ⟨rfl, named⟩
      refine (parallel_changePartly _ fun files others agree => agree.makeDirectories copy).follow
        fun _ => ?_
      have given : Matches (fun found again => found = again ∧ ∀ item ∈ found.2,
          Tree.Legal item.1) (listing.mapError fun cause => Failure.walk (.refused
            (source.descend place) cause)) (listing.mapError _) :=
        .of_eq _ fun found same => ⟨rfl, named found.1 found.2 (mapError_eq_ok.1 same)⟩
      refine (parallel_ofExcept given).bind ?_
      rintro ⟨reached, entries⟩ _ ⟨rfl, named⟩
      refine parallel_copyEntries fun name entry member => ?_
      rw [← Path.descend_concat]
      refine ih _ (place ++ [name]) (fun other inside => ?_) entry
      rcases List.mem_append.1 inside with old | new
      · exact legal other old
      · exact List.mem_singleton.1 new ▸ named (name, entry) member
    | leaf content =>
      cases content with
      | file contents =>
        exact (parallel_copyFile here copy _).follow fun _ => parallel_pure rfl
      | link link => exact parallel_pure rfl
      | special => exact parallel_pure rfl

theorem parallel_clear (stays : target.Stays tops cwd) :
    Parallel (Agree tops cwd) Eq (clear target) (clear target) := by
  refine (parallel_look fun files others agree => (agree.isDirectory stays).symm).follow
    fun directory => ?_
  cases directory with
  | true =>
    exact (parallel_note _).follow fun _ =>
      parallel_changePartly target fun files others agree => agree.removeTree stays
  | false =>
    refine (parallel_look fun files others agree => (agree.isPresent stays).symm).follow
      fun present => ?_
    cases present with
    | true =>
      have removed : Parallel (Agree tops cwd) Eq (change target (·.unlink target))
          (change target (·.unlink target)) :=
        parallel_change target fun files others agree => agree.unlink stays
      exact removed
    | false => exact parallel_pure rfl

theorem parallel_copyInto (written : source.bytes ≠ []) (stays : source.Stays tops cwd)
    (copyStays : target.Stays tops cwd) (inSource : source.placeFrom cwd ∈ tops)
    (inTarget : target.placeFrom cwd ∈ tops) :
    Parallel (Agree tops cwd) Eq (copyInto source target) (copyInto source target) := by
  have top : Parallel (Agree tops cwd)
      (fun first second : Place × Node => first.2.entry = second.2.entry)
      (examine fun files => (files.lstat source).mapError fun cause =>
        Failure.walk (.refused source cause))
      (examine fun files => (files.lstat source).mapError fun cause =>
        .walk (.refused source cause)) :=
    parallel_examine fun files others agree => ((agree.lstat stays).imp
      fun first second both => by cases both <;> rfl).mapError _
  refine (parallel_note _).follow fun _ => top.bind fun first second same => ?_
  dsimp only
  rw [same]
  exact parallel_copyFrom written stays copyStays inSource inTarget pathLimit [] [] (by simp) _

theorem parallel_copyTree (written : source.bytes ≠ []) (stays : source.Stays tops cwd)
    (copyStays : target.Stays tops cwd) (inSource : source.placeFrom cwd ∈ tops)
    (inTarget : target.placeFrom cwd ∈ tops) :
    Parallel (Agree tops cwd) Eq (copyTree source target) (copyTree source target) := by
  have forecasts : ∀ path : Path, path.Stays tops cwd → Parallel (Agree tops cwd) Eq
      (forecast path) (forecast path) := fun path stays =>
    parallel_view fun files others agree => by rw [agree.forecast stays]
  exact (parallel_look fun files others agree => (agree.isDirectory stays).symm).follow
    fun directory => Parallel.unless <| (forecasts source stays).follow fun first =>
      (forecasts target copyStays).follow fun second => Parallel.unless <|
        (parallel_clear copyStays).follow fun _ =>
          parallel_copyInto written stays copyStays inSource inTarget

/-! ## Renaming and rewriting -/

theorem parallel_renameFile {candidate : Candidate} (stays : candidate.source.Stays tops cwd)
    (freshStays : candidate.target.Stays tops cwd) :
    Parallel (Agree tops cwd) Eq (renameFile directory candidate)
      (renameFile directory candidate) := by
  refine (parallel_look fun files others agree => (agree.isPresent freshStays).symm).follow
    fun overwrote => ?_
  have renamed : Parallel (Agree tops cwd) Eq
      (change candidate.source (·.rename candidate.source candidate.target))
      (change candidate.source (·.rename candidate.source candidate.target)) :=
    parallel_change _ fun files others agree => agree.rename stays freshStays
  dsimp only
  split
  · exact (parallel_note _).follow fun _ => (parallel_note _).follow fun _ =>
      renamed.follow fun _ => parallel_pure rfl
  · exact (parallel_note _).follow fun _ => renamed.follow fun _ => parallel_pure rfl

/-- Both systems list the same files, each with the path that leads down to it. -/
theorem parallel_filesBelow (stays : directory.Stays tops cwd)
    (below : ∀ names, Near tops (directory.placeFrom cwd ++ names)) :
    Parallel (Agree tops cwd) (fun listed again => listed = again ∧ ∀ found ∈ listed,
        ∃ above name, found.path = directory.descend (above ++ [name]) ∧ found.name = name ∧
          ∀ other ∈ above ++ [name], Tree.Legal other)
      (examine (·.filesBelow directory)) (examine (·.filesBelow directory)) := by
  refine parallel_examine fun files others agree => ?_
  rw [agree.filesBelow stays below]
  refine .of_eq _ fun listed found => ⟨rfl, fun file member => ?_⟩
  obtain ⟨place, lists⟩ := filesBelow_ok agree.sound.wellFormed found
  obtain ⟨above, name, whole, named, _⟩ := lists.above member
  have legal := lists.legal agree.sound.wellFormed member
  rw [whole] at legal
  exact ⟨above, name, whole ▸ lists.descends file member, named, legal⟩

theorem parallel_renameFiles {naming : Naming} (slashless : Path.slash ∉ utf8 naming.target)
    (stays : directory.Stays tops cwd)
    (below : ∀ names, Near tops (directory.placeFrom cwd ++ names)) :
    Parallel (Agree tops cwd) Eq (renameFiles directory naming) (renameFiles directory naming) := by
  refine (parallel_note _).follow fun _ => (parallel_filesBelow stays below).bind ?_
  rintro listed _ ⟨rfl, paths⟩
  refine parallel_mapM _ fun candidate member => ?_
  obtain ⟨found, inside, given⟩ := List.mem_filterMap.1 member
  obtain ⟨fresh, renamed, rfl⟩ := Option.map_eq_some_iff.1 given
  obtain ⟨above, name, whole, named, legal⟩ := paths found inside
  rw [named] at renamed
  have freshSlashless := Naming.slash_not_mem_of_rename? slashless (legal name (by simp)).2.1 renamed
  refine parallel_renameFile ?_ ?_
  · rw [whole]
    exact stays.descend legal (below _)
  · rw [whole]
    exact stays.withFileName below legal freshSlashless

theorem parallel_rewriteFile {found : Found} (stays : found.path.Stays tops cwd) (table : Table) :
    Parallel (Agree tops cwd) Eq (rewriteFile directory table found)
      (rewriteFile directory table found) := by
  refine (parallel_view fun files others agree => ?_).follow fun contents => ?_
  · rw [FileSystem.contents, agree.read stays, FileSystem.contents]
  · cases text? contents with
    | none => exact (parallel_note _).follow fun _ => parallel_pure rfl
    | some text =>
      dsimp only
      split
      · exact parallel_pure rfl
      · exact (parallel_note _).follow fun _ => (parallel_change _ fun files others agree =>
          agree.write stays _).follow fun _ => parallel_pure rfl

theorem parallel_rewriteFiles (stays : directory.Stays tops cwd)
    (below : ∀ names, Near tops (directory.placeFrom cwd ++ names)) (naming : Naming)
    (table : Table) : Parallel (Agree tops cwd) Eq (rewriteFiles directory naming table)
      (rewriteFiles directory naming table) := by
  refine (parallel_note _).follow fun _ => (parallel_filesBelow stays below).bind ?_
  rintro listed _ ⟨rfl, paths⟩
  refine (parallel_mapM _ fun found member => ?_).follow fun _ => parallel_pure rfl
  obtain ⟨above, name, whole, _, legal⟩ := paths found (List.mem_of_mem_filter member)
  refine parallel_rewriteFile ?_ table
  rw [whole]
  exact stays.descend legal (below _)

end Pass
end Retarget
