import Mathlib.Data.Set.Card
import Mathlib.Data.Set.Finite.List
import Retarget.Proofs.Resolution.Paths
import Retarget.Proofs.Tree.Legality
import Retarget.Proofs.Tree.Order

/-!
The regular files below a directory. A walk meets each once, in ascending order of the places, and
as many as there are places with a file.
-/
namespace Retarget

namespace Tree

def regular? : Place × Entry → Option (Place × Bytes)
  | (place, .leaf (.file contents)) => some (place, contents)
  | _ => none

/-- The regular files below a directory with their contents, in the order of a walk. -/
def regulars (tree : Tree) : List (Place × Bytes) := tree.walk.filterMap regular?

variable {tree other : Tree}

theorem regular?_eq_some {visit : Place × Entry} {file : Place × Bytes} :
    regular? visit = some file ↔ visit = (file.1, .leaf (.file file.2)) := by
  obtain ⟨place, entry⟩ := visit
  obtain ⟨met, contents⟩ := file
  cases entry with
  | directory => simp [regular?]
  | leaf content => cases content <;> simp [regular?]

theorem mem_regulars (wellFormed : tree.WellFormed) {file : Place × Bytes} :
    file ∈ tree.regulars ↔ tree.entry? file.1 = some (.leaf (.file file.2)) := by
  unfold regulars
  simp only [List.mem_filterMap, regular?_eq_some, exists_eq_right]
  rw [mem_walk wellFormed, and_iff_right_of_imp]
  rintro held top
  simp [top] at held

/-- Regular files are listed in ascending order of their places. -/
theorem regulars_ascending (wellFormed : tree.WellFormed) :
    (tree.regulars.map Prod.fst).Pairwise (· < ·) := by
  rw [List.pairwise_map]
  refine List.pairwise_filterMap.2 ((List.pairwise_map.1 (walk_ascending wellFormed)).imp ?_)
  intro first second less file given other also
  rw [regular?_eq_some.1 given, regular?_eq_some.1 also] at less
  exact less

theorem nodup_regulars (wellFormed : tree.WellFormed) : (tree.regulars.map Prod.fst).Nodup := by
  refine (regulars_ascending wellFormed).imp fun less => ?_
  rintro rfl
  exact List.lt_irrefl _ less

/-- The regular files alone decide what is listed, and in which order. -/
theorem regulars_congr (wellFormed : tree.WellFormed) (otherFormed : other.WellFormed)
    (same : ∀ place contents, tree.entry? place = some (.leaf (.file contents)) ↔
      other.entry? place = some (.leaf (.file contents))) : tree.regulars = other.regulars := by
  have alike : tree.regulars.Perm other.regulars := by
    rw [List.perm_ext_iff_of_nodup (nodup_regulars wellFormed).of_map
      (nodup_regulars otherFormed).of_map]
    intro file
    rw [mem_regulars wellFormed, mem_regulars otherFormed, same]
  exact alike.eq_of_pairwise (fun _ _ _ _ less greater => absurd greater (List.lt_asymm less))
    (List.pairwise_map.1 (regulars_ascending wellFormed))
    (List.pairwise_map.1 (regulars_ascending otherFormed))

end Tree

namespace FileSystem

variable {files : FileSystem} {place : Place}

/-- The places below a directory at which there is anything. -/
def entriesBelow (files : FileSystem) (place : Place) : Set Place :=
  {below | below ≠ [] ∧ files.root.entry? (place ++ below) ≠ none}

theorem entriesBelow_finite (wellFormed : files.root.WellFormed) (place : Place) :
    (files.entriesBelow place).Finite := by
  have injective : Function.Injective fun below : Place => place ++ below :=
    List.append_right_injective place
  refine ((List.finite_toSet (files.root.walk.map Prod.fst)).preimage
    injective.injOn).subset ?_
  rintro below ⟨apart, taken⟩
  obtain ⟨entry, held⟩ := Option.ne_none_iff_exists'.1 taken
  have some : place ++ below ≠ [] := by simp [apart]
  exact List.mem_map.2 ⟨_, (Tree.mem_walk wellFormed).2 ⟨some, held⟩, rfl⟩

/-- There are as many entries below a directory as are met on a walk. -/
theorem ncard_entriesBelow {inner : Tree} (wellFormed : files.root.WellFormed)
    (held : files.root.at? place = some (.branch inner)) :
    (files.entriesBelow place).ncard = inner.walk.length := by
  have formed := (wellFormed.at? held).2
  have whole : files.entriesBelow place = ↑(inner.walk.map Prod.fst).toFinset := by
    ext below
    rw [List.coe_toFinset]
    simp [entriesBelow, Tree.entry?_append_branch held, Tree.mem_walk formed,
      Option.ne_none_iff_exists']
  rw [whole, Set.ncard_coe_finset, List.toFinset_card_of_nodup (Tree.nodup_walk formed),
    List.length_map]

/-- The places below a directory at which there is a regular file. -/
def filesAt (files : FileSystem) (place : Place) : Set Place :=
  {below | ∃ contents, files.root.entry? (place ++ below) = some (.leaf (.file contents))}

theorem filesAt_finite (wellFormed : files.root.WellFormed) (place : Place) :
    (files.filesAt place).Finite := by
  -- The directory itself may turn out to be a file.
  refine ((entriesBelow_finite wellFormed place).insert []).subset ?_
  rintro below ⟨contents, held⟩
  by_cases top : below = []
  · exact .inl top
  · exact .inr ⟨top, by simp [held]⟩

theorem filesAt_eq {inner : Tree} (wellFormed : files.root.WellFormed)
    (held : files.root.at? place = some (.branch inner)) :
    files.filesAt place = ↑(inner.regulars.map Prod.fst).toFinset := by
  ext below
  rw [List.coe_toFinset]
  simp [filesAt, Tree.entry?_append_branch held, Tree.mem_regulars (wellFormed.at? held).2]

/-- There are as many files below a directory as are met on a walk. -/
theorem ncard_filesAt {inner : Tree} (wellFormed : files.root.WellFormed)
    (held : files.root.at? place = some (.branch inner)) :
    (files.filesAt place).ncard = inner.regulars.length := by
  rw [filesAt_eq wellFormed held, Set.ncard_coe_finset,
    List.toFinset_card_of_nodup (Tree.nodup_regulars (wellFormed.at? held).2), List.length_map]

end FileSystem

end Retarget
