import Retarget.Proofs.Pass.Listing
import Retarget.Proofs.Path.Base
import Retarget.Proofs.Resolution.Forecast
import Retarget.Proofs.Tree.Regulars

/-!
The files below a directory as a report tells of them: each by its path from the directory, in the
order of a walk.
-/
namespace Retarget

/-- A regular file below a directory. -/
structure StoredFile where
  place : Place
  contents : Bytes
deriving DecidableEq

namespace StoredFile

def name (file : StoredFile) : Bytes := file.place.getLast?.getD []

/-- The path of a file from the directory. -/
def path (file : StoredFile) : Path := ⟨[Path.slash].intercalate file.place⟩

def found (directory : Path) (file : StoredFile) : Found :=
  ⟨directory.descend file.place, file.place, .leaf (.file file.contents)⟩

end StoredFile

namespace FileSystem

variable {files : FileSystem} {directory : Path} {place : Place} {inventory : List StoredFile}

/-- All regular files below the directory that a path leads to. A walk goes through them in the order
of their places, compared name by name. -/
structure Inventory (files : FileSystem) (directory : Path) (place : Place)
    (inventory : List StoredFile) : Prop where
  opens : files.Opens directory place
  walked : files.filesBelow directory = .ok (inventory.map (StoredFile.found directory))
  held : ∀ file, file ∈ inventory ↔
    files.root.entry? (place ++ file.place) = some (.leaf (.file file.contents))
  ascending : (inventory.map StoredFile.place).Pairwise (· < ·)

/-- The files among what a walk meets. -/
theorem filter_isFile (directory : Path) (visits : List (Place × Entry)) :
    (visits.map fun visit => Found.mk (directory.descend visit.1) visit.1 visit.2).filter
        Found.isFile =
      (visits.filterMap Tree.regular?).map fun file =>
        StoredFile.found directory ⟨file.1, file.2⟩ := by
  induction visits with
  | nil => rfl
  | cons visit rest ih =>
    obtain ⟨place, entry⟩ := visit
    cases entry with
    | directory => exact ih
    | leaf content =>
      cases content with
      | file contents => exact congrArg (List.cons _) ih
      | link target => exact ih
      | special => exact ih

/-- Where the files below a directory can be listed, the list is their inventory. -/
theorem filesBelow_inventory (wellFormed : files.root.WellFormed) {listed : List Found}
    (below : files.filesBelow directory = .ok listed) :
    ∃ place inventory, files.Inventory directory place inventory ∧
      listed = inventory.map (StoredFile.found directory) := by
  have given := below
  unfold filesBelow at given
  split at given
  · rename_i isDirectory
    obtain ⟨place, opens⟩ := isDirectory_iff.1 isDirectory
    obtain ⟨inner, held⟩ := Tree.entry?_eq_directory.1 opens.directory
    have formed : inner.WellFormed := (wellFormed.at? held).2
    cases whole : unbroken (files.walk directory) with
    | error error => simp [whole, Except.map] at given
    | ok met =>
      simp only [whole, Except.map, Except.ok.injEq] at given
      obtain ⟨top, notFile, rfl⟩ := walk_unbroken opens held (unbroken_ok.1 whole)
      let inventory := inner.regulars.map fun file => StoredFile.mk file.1 file.2
      have same : listed = inventory.map (StoredFile.found directory) := by
        rw [← given, List.filter_cons_of_neg (by simp [notFile]), filter_isFile]
        simp [inventory, Tree.regulars, Function.comp_def]
      refine ⟨place, inventory, ⟨opens, same ▸ below, fun file => ?_, ?_⟩, same⟩
      · have met : (file.place, file.contents) ∈ inner.regulars ↔
            inner.entry? file.place = some (.leaf (.file file.contents)) :=
          Tree.mem_regulars formed
        rw [Tree.entry?_append_branch held, ← met]
        constructor
        · intro member
          obtain ⟨_, inside, rfl⟩ := List.mem_map.1 member
          exact inside
        · exact fun inside => List.mem_map.2 ⟨_, inside, rfl⟩
      · simpa [inventory, Function.comp_def] using Tree.regulars_ascending formed
  · cases given

theorem Inventory.legal (kept : files.Inventory directory place inventory)
    (wellFormed : files.root.WellFormed) {file : StoredFile} (member : file ∈ inventory) :
    ∀ name ∈ file.place, Tree.Legal name :=
  fun name inside => wellFormed.legal ((kept.held file).1 member) name
    (List.mem_append_right _ inside)

theorem Inventory.lists (kept : files.Inventory directory place inventory) :
    files.Lists directory place (inventory.map (StoredFile.found directory)) := by
  refine ⟨kept.opens, ?_, ?_, fun below contents there => ?_, ?_⟩
  · intro found member
    obtain ⟨file, _, rfl⟩ := List.mem_map.1 member
    rfl
  · intro found member
    obtain ⟨file, inside, rfl⟩ := List.mem_map.1 member
    exact ⟨file.contents, rfl, (kept.held file).1 inside⟩
  · exact ⟨_, List.mem_map_of_mem ((kept.held ⟨below, contents⟩).2 there), rfl⟩
  · rw [List.map_map]
    refine kept.ascending.imp fun less => ?_
    rintro rfl
    exact List.lt_irrefl _ less

theorem Inventory.above (kept : files.Inventory directory place inventory) {file : StoredFile}
    (member : file ∈ inventory) : ∃ above, file.place = above ++ [file.name] := by
  obtain ⟨above, _, whole, rfl, _⟩ := kept.lists.above (List.mem_map_of_mem member)
  exact ⟨above, whole⟩

/-- The path of a file below a directory, cut short to lead there from the directory. -/
theorem Inventory.relativeTo (kept : files.Inventory directory place inventory)
    (wellFormed : files.root.WellFormed) {file : StoredFile} (member : file ∈ inventory) :
    (file.found directory).path.relativeTo directory = file.path :=
  Path.relativeTo_descend (Path.check_eq_ok_iff.1 kept.opens.accepted).2.1
    (kept.legal wellFormed member)

end FileSystem

/-- Items that are told of one by one, each as it should be, among those that are passed over. -/
theorem forall₂_filter_filterMap {α β : Type} {keep : α → Bool} {pick : α → Option β}
    {related : α → β → Prop} {items : List α}
    (picks : ∀ item ∈ items, keep item = (pick item).isSome)
    (agree : ∀ item ∈ items, ∀ told, pick item = some told → related item told) :
    List.Forall₂ related (items.filter keep) (items.filterMap pick) := by
  induction items with
  | nil => exact .nil
  | cons item rest ih =>
    rw [List.forall_mem_cons] at picks agree
    have others := ih picks.2 agree.2
    cases told : pick item with
    | none =>
      rw [List.filterMap_cons_none told, List.filter_cons_of_neg (by simp [picks.1, told])]
      exact others
    | some result =>
      rw [List.filterMap_cons_some told, List.filter_cons_of_pos (by simp [picks.1, told])]
      exact .cons (agree.1 result told) others

end Retarget
