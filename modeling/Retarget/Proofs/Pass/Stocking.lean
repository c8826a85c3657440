import Retarget.Proofs.Pass.Vacating
import Retarget.Proofs.Tree.Regulars

/-!
How many files copying makes. Each name of a directory is copied to where no file stands yet, and the
files that are made for one name stand apart from those made for another, so what copying counts is
the number of files in the target, whatever the source is and whatever links it holds.
-/
namespace Retarget.FileSystem

open Pass Act

variable {files before now middle after : FileSystem} {source target path : Path}
  {place above names query : Place} {name : Bytes} {content : Leaf} {count more : Nat}

/-- What is no directory, at a place and below it, is a regular file. -/
def Regular (files : FileSystem) (place : Place) : Prop :=
  ∀ below content, files.root.entry? (place ++ below) = some (.leaf content) →
    ∃ contents, content = .file contents

theorem Vacant.regular (vacant : files.Vacant place) : files.Regular place :=
  fun below content held => absurd held (vacant below content)

theorem Vacant.filesAt (vacant : files.Vacant place) : files.filesAt place = ∅ := by
  rw [Set.eq_empty_iff_forall_notMem]
  rintro below ⟨contents, held⟩
  exact vacant below _ held

/-- Making directories makes nothing else. -/
theorem leaf_makeDirectories_iff :
    (now.makeDirectories path).2.root.entry? query = some (.leaf content) ↔
      now.root.entry? query = some (.leaf content) := by
  constructor
  · refine makeDirectories_keeps (fun state => state.root.entry? query = some (.leaf content) →
      now.root.entry? query = some (.leaf content)) (fun state _ after _ kept made held => ?_) id
    obtain ⟨_, _, _, _, _, entries⟩ := makeDirectory_ok made
    rw [entries] at held
    split at held
    · cases held
    · exact kept held
  · exact grows_of_makeDirectories.kept query _

/-! ## A number of files -/

/-- A later state in which a number of files stands below a place where there was none. Elsewhere
every file and link is as it was. -/
structure Stocks (now : FileSystem) (place : Place) (count : Nat) (after : FileSystem) : Prop where
  regular : after.Regular place
  count : (after.filesAt place).ncard = count
  outside : ∀ query content, ¬place <+: query →
    (after.root.entry? query = some (.leaf content) ↔ now.root.entry? query = some (.leaf content))

theorem Vacant.stocks (vacant : now.Vacant place) : now.Stocks place 0 now :=
  ⟨vacant.regular, by rw [vacant.filesAt, Set.ncard_empty], fun _ _ _ => Iff.rfl⟩

/-- Directories made before the files do not count. -/
theorem Stocks.of_middle (stocks : middle.Stocks place count after)
    (same : ∀ query content, middle.root.entry? query = some (.leaf content) ↔
      now.root.entry? query = some (.leaf content)) : now.Stocks place count after :=
  ⟨stocks.regular, stocks.count, fun query content outside =>
    (stocks.outside query content outside).trans (same query content)⟩

/-- One file that is written where nothing but directories stood counts for one. -/
theorem stocks_file (vacant : now.Vacant place) {contents : Bytes}
    (entries : ∀ query, after.root.entry? query =
      if query = place then some (.leaf (.file contents)) else now.root.entry? query) :
    now.Stocks place 1 after := by
  have inside : ∀ below content, after.root.entry? (place ++ below) = some (.leaf content) →
      below = [] ∧ content = .file contents := by
    intro below content held
    rw [entries] at held
    split at held
    · rename_i top
      exact ⟨by simpa using top, (Entry.leaf.inj (Option.some.inj held)).symm⟩
    · exact absurd held (vacant below content)
  refine ⟨fun below content held => ⟨contents, (inside below content held).2⟩, ?_,
    fun query content outside => ?_⟩
  · have only : after.filesAt place = {[]} := by
      ext below
      constructor
      · rintro ⟨_, held⟩
        exact (inside below _ held).1
      · rintro rfl
        exact ⟨contents, by rw [entries, if_pos (List.append_nil _)]⟩
    rw [only, Set.ncard_singleton]
  · rw [entries, if_neg]
    rintro rfl
    exact outside (List.prefix_refl _)

/-! ## One name after another -/

theorem prefix_cons_iff {place below : Place} {name : Bytes} :
    place ++ [name] <+: place ++ below ↔ ∃ rest, below = name :: rest := by
  rw [List.prefix_append_right_inj]
  constructor
  · rintro ⟨rest, rfl⟩
    exact ⟨rest, rfl⟩
  · rintro ⟨rest, rfl⟩
    exact ⟨rest, rfl⟩

/-- The files made for one name come to those that were there. -/
theorem Stocks.filesAt_name (stocks : now.Stocks (place ++ [name]) more after)
    (vacant : now.Vacant (place ++ [name])) :
    after.filesAt place = now.filesAt place ∪ (name :: ·) '' after.filesAt (place ++ [name]) := by
  ext below
  by_cases inside : place ++ [name] <+: place ++ below
  · obtain ⟨rest, rfl⟩ := prefix_cons_iff.1 inside
    have regrouped : place ++ name :: rest = place ++ [name] ++ rest := by simp
    constructor
    · rintro ⟨contents, held⟩
      exact .inr ⟨rest, ⟨contents, regrouped ▸ held⟩, rfl⟩
    · rintro (⟨contents, held⟩ | ⟨below, ⟨contents, held⟩, same⟩)
      · exact absurd (regrouped ▸ held) (vacant rest _)
      · obtain ⟨_, rfl⟩ := List.cons.inj same
        exact ⟨contents, regrouped ▸ held⟩
  · constructor
    · rintro ⟨contents, held⟩
      exact .inl ⟨contents, (stocks.outside _ _ inside).1 held⟩
    · rintro (⟨contents, held⟩ | ⟨rest, _, rfl⟩)
      · exact ⟨contents, (stocks.outside _ _ inside).2 held⟩
      · exact absurd (prefix_cons_iff.2 ⟨rest, rfl⟩) inside

theorem Stocks.ncard_name (stocks : now.Stocks (place ++ [name]) more after)
    (vacant : now.Vacant (place ++ [name])) (sound : now.Sound) (afterSound : after.Sound) :
    (after.filesAt place).ncard = (now.filesAt place).ncard + more := by
  have apart : Disjoint (now.filesAt place) ((name :: ·) '' after.filesAt (place ++ [name])) := by
    rw [Set.disjoint_left]
    rintro _ ⟨contents, held⟩ ⟨rest, _, rfl⟩
    exact vacant rest (.file contents) (by simpa using held)
  rw [stocks.filesAt_name vacant, Set.ncard_union_eq apart (filesAt_finite sound.wellFormed _)
    ((filesAt_finite afterSound.wellFormed _).image _),
    Set.ncard_image_of_injective _ (List.cons_injective), stocks.count]

/-- With the files made for another name, all that was made for a directory so far. -/
theorem Stocks.step {start : FileSystem} (stocks : start.Stocks place count now)
    (further : now.Stocks (place ++ [name]) more after) (vacant : now.Vacant (place ++ [name]))
    (sound : now.Sound) (afterSound : after.Sound) :
    start.Stocks place (count + more) after := by
  refine ⟨fun below content held => ?_, ?_, fun query content outside => ?_⟩
  · by_cases inside : place ++ [name] <+: place ++ below
    · obtain ⟨rest, rfl⟩ := prefix_cons_iff.1 inside
      exact further.regular rest content (by simpa using held)
    · exact stocks.regular below content ((further.outside _ _ inside).1 held)
  · rw [further.ncard_name vacant sound afterSound, stocks.count]
  · rw [further.outside query content fun inside =>
      outside ((List.prefix_append _ _).trans inside), stocks.outside query content outside]

/-- Under another name there is still no file. -/
theorem Stocks.vacant_beside (stocks : now.Stocks (place ++ [name]) more after) {other : Bytes}
    (apart : other ≠ name) (vacant : now.Vacant (place ++ [other])) :
    after.Vacant (place ++ [other]) := by
  intro below content held
  refine vacant below content ((stocks.outside _ _ fun inside => apart ?_).1 held)
  rw [List.append_assoc, prefix_cons_iff] at inside
  obtain ⟨rest, same⟩ := inside
  exact (List.cons.inj same).1

/-- Copying the entries of a directory makes as many files as are counted, if copying each does. -/
theorem copyEntries_stocks {copy : Place} {depth : Nat} {ancestors : List Ancestor}
    {entries : List (Bytes × Entry)} (nodup : (entries.map Prod.fst).Nodup)
    (named : ∀ item ∈ entries, Tree.Legal item.1)
    (copies : ∀ name entry state, Tree.Legal name → before.Underway target place state →
      state.Vacant (copy ++ [name]) →
      (copyFrom source target depth ancestors (path.joinName name) entry).Ensures state
        (fun count after => before.Underway target place after ∧
          state.Stocks (copy ++ [name]) count after) fun _ => True)
    (underway : before.Underway target place now) (vacant : now.Vacant copy) :
    (copyEntries source target depth ancestors path entries).Ensures now
      (fun count after => before.Underway target place after ∧ now.Stocks copy count after)
      fun _ => True := by
  let invariant (count : Nat) (left : List (Bytes × Entry)) (state : FileSystem) : Prop :=
    before.Underway target place state ∧ now.Stocks copy count state ∧
      (left.map Prod.fst).Nodup ∧
      ∀ item ∈ left, Tree.Legal item.1 ∧ state.Vacant (copy ++ [item.1])
  have start : invariant 0 entries now :=
    ⟨underway, vacant.stocks, nodup, fun item member => ⟨named item member,
      fun below content held => vacant ([item.1] ++ below) content (by simpa using held)⟩⟩
  have gone : (copyEntries source target depth ancestors path entries).Ensures now
      (fun count => invariant count []) fun _ => True := by
    refine ensures_foldlM invariant ?_ entries start
    rintro count ⟨name, entry⟩ rest state ⟨underway, stocks, distinct, waiting⟩
    obtain ⟨fresh, distinct⟩ := List.nodup_cons.1 distinct
    obtain ⟨legal, free⟩ := waiting (name, entry) (by simp)
    refine Ensures.bind ((copies name entry state legal underway free).imp
      (fun more after ⟨further, made⟩ => ?_) fun _ _ => trivial)
    refine (ensures_pure _).2 ⟨further, stocks.step made free underway.sound further.sound, distinct,
      fun item member => ?_⟩
    obtain ⟨other, still⟩ := waiting item (List.mem_cons_of_mem _ member)
    refine ⟨other, made.vacant_beside (fun same => fresh ?_) still⟩
    exact List.mem_map.2 ⟨item, member, same⟩
  exact gone.imp (fun _ _ held => ⟨held.1, held.2.1⟩) fun _ _ => trivial

/-! ## A whole tree -/

/-- Copying to a place where no file stands makes as many files as are counted. -/
theorem copyFrom_stocks {depth : Nat} {ancestors : List Ancestor} {entry : Entry}
    (written : source.bytes ≠ []) (underway : before.Underway target place now)
    (legal : ∀ other ∈ names, Tree.Legal other) (vacant : now.Vacant (place ++ names)) :
    (copyFrom source target depth ancestors (source.descend names) entry).Ensures now
      (fun count after => before.Underway target place after ∧
        now.Stocks (place ++ names) count after) fun _ => True := by
  induction depth generalizing now ancestors names entry with
  | zero => exact (ensures_throw _).2 trivial
  | succ depth ih =>
    refine copyFrom_ensures depth names written legal trivial (fun _ => trivial)
      (fun reached entries _ listing _ => ?_) (fun _ given after _ _ done => ?_)
      fun _ _ _ => ⟨underway, vacant.stocks⟩
    · obtain ⟨inner, stat, same⟩ := opened_ok listing
      have formed := (underway.sound.wellFormed.at? (stat_iff.1 stat).2.2).2
      have nodup : (entries.map Prod.fst).Nodup := by
        rw [same, List.map_map]
        exact Tree.nodup_listing formed
      refine (copyEntries_stocks nodup (fun _ => legal_of_opened underway.sound listing)
        (fun name child state named held free => ?_) (underway.makeDirectories legal)
        fun below content held => vacant below content (leaf_makeDirectories_iff.1 held)).imp
          (fun _ after made => ⟨made.1, made.2.of_middle fun _ _ => leaf_makeDirectories_iff⟩)
          fun _ _ => trivial
      rw [List.append_assoc] at free ⊢
      rw [← Path.descend_concat]
      refine ih held (fun other member => ?_) free
      rcases List.mem_append.1 member with old | new
      · exact legal other old
      · rwa [List.mem_singleton.1 new]
    · refine ⟨underway.write legal done, ?_⟩
      rcases underway.write_cases legal done with ⟨_, content, held, _⟩ | ⟨_, _, entries⟩
      · exact absurd (by simpa using held) (vacant [] content)
      · exact stocks_file vacant entries

/-- What copying gives is the number of files in the directory that it made. -/
theorem copyTree_counts (standing : files.Standing) (grounded : files.Grounded target)
    (written : target.bytes ≠ []) :
    (copyTree source target).Ensures files
      (fun count after => after.Sound ∧ ∃ place, after.Opens target place ∧ after.Regular place ∧
        (after.filesAt place).ncard = count) fun _ => True := by
  refine copyTree_begins standing grounded written
    fun place opened entries made underway vacant some legal nodup => ?_
  refine (copyEntries_stocks nodup legal (fun name entry state named held free => ?_) underway
    vacant).imp (fun count after ⟨further, stocks⟩ =>
      ⟨further.sound, place, further.opens, stocks.regular, stocks.count⟩) fun _ _ => trivial
  rw [← Path.descend_nil source, ← Path.descend_concat]
  exact copyFrom_stocks some held (by simpa using named) free

end Retarget.FileSystem
