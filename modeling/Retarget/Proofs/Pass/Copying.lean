import Retarget.Pass.Copy
import Retarget.Proofs.Change.Soundness
import Retarget.Proofs.Path.Base
import Retarget.Proofs.Session.Ensures
import Retarget.Proofs.Tree.Walk

/-!
The copying pass goes down by names from the top of the source, and what it makes or writes it
reaches from the target by the same names. So what making and writing by names below the target
keep, the pass keeps.
-/
namespace Retarget.Pass

open Act FileSystem

variable {before files after : FileSystem} {source target : Path}

/-- The path to the copy of what stands at a place below the source. -/
def copyPath (target : Path) (place : Place) : Path := target.join ⟨[Path.slash].intercalate place⟩

theorem opened_ok {path : Path} {place : Place} {entries : List (Bytes × Entry)}
    (listed : opened files path = .ok (place, entries)) :
    ∃ inner, files.stat path = .ok (place, .branch inner) ∧
      entries = inner.listing.map fun (name, node) => (name, node.entry) := by
  obtain ⟨⟨reached, node⟩, found, listed⟩ := bind_eq_ok.1 listed
  cases node with
  | leaf content => cases listed
  | branch inner =>
    cases listed
    exact ⟨inner, found, rfl⟩

theorem legal_of_opened (sound : files.Sound) {path : Path} {place : Place}
    {entries : List (Bytes × Entry)}
    (listed : opened files path = .ok (place, entries)) {name : Bytes} {entry : Entry}
    (member : (name, entry) ∈ entries) :
    Tree.Legal name := by
  obtain ⟨inner, found, rfl⟩ := opened_ok listed
  obtain ⟨⟨held, node⟩, inside, same⟩ := List.mem_map.1 member
  obtain rfl : held = name := congrArg Prod.fst same
  have formed : inner.WellFormed := (sound.wellFormed.at? (stat_iff.1 found).2.2).2
  exact (formed.find? ((Tree.mem_listing formed).1 inside)).1

theorem copyFile_ensures {path copy relative : Path} {good : Unit → FileSystem → Prop}
    {bad : FileSystem → Prop}
    (done : ∀ contents after, files.read path = .ok contents →
      files.write copy contents = .ok after → good () after)
    (failed : bad files) : (copyFile path copy relative).Ensures files good bad := by
  refine Ensures.bind ((ensures_examine _).2 ⟨fun contents given => ?_, fun _ _ => failed⟩)
  refine Ensures.bind (ensures_change.2 ⟨fun after written => ?_, fun _ _ => failed⟩)
  exact (ensures_note _).2 (done contents after (mapError_eq_ok.1 given) written)

/-- Copies the entries of a directory one after another. -/
def copyEntries (source target : Path) (depth : Nat) (above : List Ancestor) (path : Path)
    (entries : List (Bytes × Entry)) :
    Act Failure Nat :=
  entries.foldlM (fun count (name, entry) => do
    let more ← copyFrom source target depth above (path.joinName name) entry
    pure (count + more)) 0

/-- Copying what stands at a place: a directory is listed, made and gone through, a file written. -/
theorem copyFrom_ensures {good : Nat → FileSystem → Prop} {bad : FileSystem → Prop} (depth : Nat)
    {above : List Ancestor} (place : Place)
    {listed : Entry} (written : source.bytes ≠ []) (legal : ∀ name ∈ place, Tree.Legal name)
    (failed : bad files)
    (halfway : followed files above (source.descend place) listed = .ok .directory →
      bad (files.makeDirectories (copyPath target place)).2)
    (directory : ∀ reached entries,
      followed files above (source.descend place) listed = .ok .directory →
      opened files (source.descend place) = .ok (reached, entries) →
      (files.makeDirectories (copyPath target place)).1 = .ok () →
      (copyEntries source target depth (⟨source.descend place, reached⟩ :: above)
        (source.descend place) entries).Ensures
        (files.makeDirectories (copyPath target place)).2 good bad)
    (file : ∀ contents given after,
      followed files above (source.descend place) listed = .ok (.leaf (.file contents)) →
      files.read (source.descend place) = .ok given →
      files.write (copyPath target place) given = .ok after → good 1 after)
    (other : ∀ content, followed files above (source.descend place) listed = .ok (.leaf content) →
      (∀ contents, content ≠ .file contents) → good 0 files) :
    (copyFrom source target (depth + 1) above (source.descend place) listed).Ensures
    files good bad := by
  unfold copyFrom
  rw [Path.relativeTo_descend written legal]
  refine Ensures.bind ((ensures_examine _).2 ⟨fun entry given => ?_, fun _ _ => failed⟩)
  have seen := mapError_eq_ok.1 given
  cases entry with
  | directory =>
    refine Ensures.bind ((ensures_look _).2
      (Ensures.bind (ensures_changePartly.2 ⟨fun made => ?_, fun _ _ => halfway seen⟩)))
    refine Ensures.bind ((ensures_ofExcept _).2 ⟨?_, fun _ _ => halfway seen⟩)
    rintro ⟨reached, entries⟩ listing
    exact directory reached entries seen (mapError_eq_ok.1 listing) made
  | leaf content =>
    cases content with
    | file contents =>
      refine Ensures.bind (copyFile_ensures (fun given after read done => ?_) failed)
      exact (ensures_pure _).2 (file contents given after seen read done)
    | link link => exact (ensures_pure _).2 (other _ seen (by simp))
    | special => exact (ensures_pure _).2 (other _ seen (by simp))

theorem copyEntries_ensures (invariant : List (Bytes × Entry) → FileSystem → Prop)
    (bad : FileSystem → Prop) {depth : Nat}
    {above : List Ancestor} {path : Path}
    (kept : ∀ name entry rest now, invariant ((name, entry) :: rest) now →
      (copyFrom source target depth above (path.joinName name) entry).Ensures now
      (fun _ => invariant rest) bad)
    (entries : List (Bytes × Entry)) (start : invariant entries files) :
    (copyEntries source target depth above path entries).Ensures files
    (fun _ => invariant []) bad := by
  refine ensures_foldlM (fun _ => invariant) ?_ entries start
  rintro count ⟨name, entry⟩ rest now held
  exact Ensures.bind ((kept name entry rest now held).imp
    (fun more after done => (ensures_pure _).2 done) fun _ failed => failed)

/-- What copying what stands under each name keeps, copying the entries keeps. -/
theorem copyEntries_keeps (keeps : FileSystem → Prop) {depth : Nat} {above : List Ancestor}
    {path : Path} {entries : List (Bytes × Entry)}
    (copies : ∀ name entry now, Tree.Legal name → keeps now →
      (copyFrom source target depth above (path.joinName name) entry).Ensures now
        (fun _ => keeps) keeps)
    (legal : ∀ item ∈ entries, Tree.Legal item.1) (start : keeps files) :
    (copyEntries source target depth above path entries).Ensures files (fun _ => keeps) keeps := by
  refine (copyEntries_ensures (fun left now => (∀ item ∈ left, Tree.Legal item.1) ∧ keeps now)
    keeps ?_ entries ⟨legal, start⟩).imp (fun _ _ held => held.2) fun _ failed => failed
  rintro name entry rest now ⟨named, kept⟩
  exact (copies name entry now (named (name, entry) (by simp)) kept).imp
    (fun _ after held => ⟨fun item member => named item (List.mem_cons_of_mem _ member), held⟩)
    fun _ failed => failed

/-- What making directories and writing files below the target keep, copying keeps. -/
theorem copyFrom_keeps (keeps : FileSystem → Prop) (written : source.bytes ≠ [])
    (sound : ∀ files, keeps files → files.Sound)
    (making : ∀ files place, (∀ name ∈ place, Tree.Legal name) → keeps files →
      keeps (files.makeDirectories (copyPath target place)).2)
    (writing : ∀ files place contents after, (∀ name ∈ place, Tree.Legal name) → keeps files →
      files.write (copyPath target place) contents = .ok after → keeps after)
    (depth : Nat) (above : List Ancestor) (place : Place) (legal : ∀ name ∈ place, Tree.Legal name)
    (listed : Entry)
    (start : keeps files) :
    (copyFrom source target depth above (source.descend place) listed).Ensures files
    (fun _ => keeps) keeps := by
  induction depth generalizing files above place listed with
  | zero => exact (ensures_throw _).2 start
  | succ depth ih =>
    refine copyFrom_ensures depth place written legal start
      (fun _ => making files place legal start) (fun reached entries _ listing _ => ?_)
      (fun _ given after _ _ done => writing files place given after legal start done) fun _ _ _ =>
      start
    refine copyEntries_keeps keeps (fun name entry now named kept => ?_)
      (fun _ member => legal_of_opened (sound files start) listing member)
      (making files place legal start)
    rw [← Path.descend_concat]
    refine ih _ (place ++ [name]) (fun other member => ?_) entry kept
    rcases List.mem_append.1 member with old | new
    · exact legal other old
    · rwa [List.mem_singleton.1 new]

/-! ## Before the first file -/

theorem clear_ensures {good : Unit → FileSystem → Prop} {bad : FileSystem → Prop}
    (directory : files.isDirectory target = true →
      ((files.removeTree target).1 = .ok () → good () (files.removeTree target).2) ∧
      ∀ cause, (files.removeTree target).1 = .error cause → bad (files.removeTree target).2)
    (other : files.isDirectory target = false → files.isPresent target = true →
      (∀ after, files.unlink target = .ok after → good () after) ∧ bad files)
    (nothing : files.isPresent target = false → good () files) :
    (clear target).Ensures files good bad := by
  refine Ensures.bind ((ensures_look _).2 ?_)
  split
  · rename_i isDirectory
    exact Ensures.bind ((ensures_note _).2 (ensures_changePartly.2 (directory isDirectory)))
  · rename_i notDirectory
    refine Ensures.bind ((ensures_look _).2 ?_)
    split
    · rename_i present
      obtain ⟨done, failed⟩ := other (by simpa using notDirectory) present
      exact ensures_change.2 ⟨done, fun _ _ => failed⟩
    · rename_i absent
      exact (ensures_pure _).2 (nothing (by simpa using absent))

/-- Copying once source and target are known not to overlap. -/
def replaceTree (source target : Path) : Act Failure Nat := do
  clear target
  note (.copying source target)
  let (_, top) ← examine fun files => (files.lstat source).mapError fun cause =>
    .walk (.refused source cause)
  copyFrom source target pathLimit [] source top.entry

theorem copyTree_ensures {good : Nat → FileSystem → Prop} {bad : FileSystem → Prop}
    (failed : bad files)
    (copied : ∀ first second, files.isDirectory source = true → files.forecast source = .ok first →
      files.forecast target = .ok second → overlapping first second = false →
      (replaceTree source target).Ensures files good bad) :
      (copyTree source target).Ensures files good bad := by
  refine Ensures.bind ((ensures_look _).2 ?_)
  dsimp only
  split
  · exact Ensures.bind ((ensures_throw _).2 failed)
  · rename_i directory
    refine Ensures.bind ((ensures_examine _).2 ⟨fun first given => ?_, fun _ _ => failed⟩)
    refine Ensures.bind ((ensures_examine _).2 ⟨fun second also => ?_, fun _ _ => failed⟩)
    split
    · exact Ensures.bind ((ensures_throw _).2 failed)
    · rename_i apart
      exact copied first second (by simpa using directory) (mapError_eq_ok.1 given)
        (mapError_eq_ok.1 also) (by simpa using apart)

/-- Copying begins with a source that leads to a directory. -/
theorem copyTree_of_opens {good : Nat → FileSystem → Prop} {bad : FileSystem → Prop}
    (failed : bad files)
    (opened : ∀ place, files.Opens source place → (copyTree source target).Ensures files good bad) :
    (copyTree source target).Ensures files good bad := by
  cases directory : files.isDirectory source with
  | true =>
    obtain ⟨place, opens⟩ := isDirectory_iff.1 directory
    exact opened place opens
  | false =>
    refine copyTree_ensures failed fun _ _ present _ _ _ => ?_
    rw [directory] at present
    cases present

theorem clear_continues (continues : before.Continues files) (target : Path) :
    (clear target).Ensures files (fun _ => before.Continues) before.Continues :=
  clear_ensures
    (fun _ => ⟨fun _ => continues.removeTree target, fun _ _ => continues.removeTree target⟩)
    (fun _ _ => ⟨fun _ removed => continues.unlink removed, continues⟩) fun _ => continues

theorem copyTree_continues (written : source.bytes ≠ []) (continues : before.Continues files) :
    (copyTree source target).Ensures files (fun _ => before.Continues) before.Continues := by
  refine copyTree_ensures continues fun _ _ _ _ _ _ =>
    Ensures.bind ((clear_continues continues target).imp (fun _ cleared held => ?_) ?_)
  · refine Ensures.bind ((ensures_note _).2
      (Ensures.bind ((ensures_examine _).2 ⟨fun top _ => ?_, fun _ _ => held⟩)))
    exact copyFrom_keeps before.Continues written (fun _ held => held.sound)
      (fun _ _ _ held => held.makeDirectories _)
      (fun _ _ _ _ _ held done => held.write done) pathLimit [] [] (by simp) top.2.entry held
  · exact fun _ held => held

end Retarget.Pass
