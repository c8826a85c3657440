import Mathlib.Data.List.Nodup
import Retarget.Proofs.Tree.Legality

/-!
A walk meets every entry of a well-formed tree at its place, and meets no place twice. Both are said
of the walk up to the order of its steps, in which each directory gives its own entries one by one.
-/
namespace Retarget.Tree

theorem insertNamed_perm {α : Type} (name : Bytes) (item : α) (listed : List (Bytes × α)) :
    (insertNamed name item listed).Perm ((name, item) :: listed) := by
  induction listed with
  | nil => exact List.Perm.refl _
  | cons first rest ih =>
    unfold insertNamed
    split
    · exact (ih.cons first).trans (List.Perm.swap _ _ _)
    · exact List.Perm.refl _

theorem foldr_insertNamed_perm (entries : List (Bytes × Node)) :
    (entries.foldr (fun entry listed => insertNamed entry.1 entry.2 listed) []).Perm entries := by
  induction entries with
  | nil => exact List.Perm.refl _
  | cons entry rest ih => exact (insertNamed_perm entry.1 entry.2 _).trans (ih.cons entry)

theorem listing_perm (tree : Tree) : tree.listing.Perm tree.toList :=
  foldr_insertNamed_perm tree.toList

theorem toList_cons (name : Bytes) (rest : Tree) (node : Node) :
    (cons name rest node).toList = (name, node) :: rest.toList := by cases node <;> rfl

theorem mem_toList {tree : Tree} (wellFormed : tree.WellFormed) {name : Bytes} {node : Node} :
    (name, node) ∈ tree.toList ↔ tree.find? name = some node := by
  induction tree using cons_induction with
  | empty => simp [toList, find?]
  | cons first held rest ih =>
    obtain ⟨_, fresh, _, restFormed⟩ := wellFormed_cons_iff.1 wellFormed
    rw [toList_cons, List.mem_cons, ih restFormed, find?_cons]
    by_cases same : first = name
    · subst same
      simp [fresh, eq_comm]
    · simp [same, Ne.symm same]

/-- The listing of a directory holds each entry under its name. -/
theorem mem_listing {tree : Tree} (wellFormed : tree.WellFormed) {name : Bytes} {node : Node} :
    (name, node) ∈ tree.listing ↔ tree.find? name = some node :=
  (listing_perm tree).mem_iff.trans (mem_toList wellFormed)

theorem nodup_toList {tree : Tree} (wellFormed : tree.WellFormed) :
    (tree.toList.map Prod.fst).Nodup := by
  induction tree using cons_induction with
  | empty => exact List.nodup_nil
  | cons name held rest ih =>
    obtain ⟨_, fresh, _, formed⟩ := wellFormed_cons_iff.1 wellFormed
    rw [toList_cons, List.map_cons]
    refine List.nodup_cons.2 ⟨fun again => ?_, ih formed⟩
    obtain ⟨⟨other, node⟩, member, rfl⟩ := List.mem_map.1 again
    rw [(mem_toList formed).1 member] at fresh
    cases fresh

theorem nodup_listing {tree : Tree} (wellFormed : tree.WellFormed) :
    (tree.listing.map Prod.fst).Nodup :=
  ((listing_perm tree).map Prod.fst).nodup_iff.2 (nodup_toList wellFormed)

theorem walk_leaf_perm (name : Bytes) (content : Leaf) (rest : Tree) :
    (leaf name content rest).walk.Perm (([name], .leaf content) :: rest.walk) := by
  have sorted := insertNamed_perm name [([name], Entry.leaf content)] rest.visits
  exact sorted.flatMap_right (·.2)

theorem walk_branch_perm (name : Bytes) (inner rest : Tree) :
    (branch name inner rest).walk.Perm
      (([name], .directory) :: (inner.walk.map fun visit =>
        (name :: visit.1, visit.2)) ++ rest.walk) := by
  have sorted := insertNamed_perm name
    (([name], Entry.directory) :: (inner.walk.map fun visit => (name :: visit.1, visit.2)))
    rest.visits
  exact sorted.flatMap_right (·.2)

/-- A walk meets exactly what is below the top, each thing at its place. -/
theorem mem_walk {tree : Tree} (wellFormed : tree.WellFormed) {place : Place} {entry : Entry} :
    (place, entry) ∈ tree.walk ↔ place ≠ [] ∧ tree.entry? place = some entry := by
  induction tree generalizing place with
  | empty => cases place <;> simp [walk, visits, entry?_cons, find?]
  | leaf name content rest ih =>
    obtain ⟨_, fresh, restFormed⟩ := wellFormed
    rw [(walk_leaf_perm name content rest).mem_iff, List.mem_cons, ih restFormed]
    cases place with
    | nil => simp
    | cons next more =>
      by_cases same : name = next
      · subst same
        simp [entry?_cons, find?, fresh, Node.entry?_leaf, eq_comm]
      · simp [entry?_cons, find?, same, Ne.symm same]
  | branch name inner rest innerIh ih =>
    obtain ⟨_, fresh, innerFormed, restFormed⟩ := wellFormed
    rw [(walk_branch_perm name inner rest).mem_iff, List.cons_append, List.mem_cons,
      List.mem_append, ih restFormed]
    cases place with
    | nil => simp
    | cons next more =>
      by_cases same : name = next
      · subst same
        have below : (∃ visit ∈ inner.walk, (name :: visit.1, visit.2) = (name :: more, entry)) ↔
            (more, entry) ∈ inner.walk := by
          simp
        rw [List.mem_map, below, innerIh innerFormed]
        cases more with
        | nil => simp [entry?_cons, find?, fresh, Node.entry, eq_comm]
        | cons deeper others => simp [entry?_cons, find?, fresh]
      · simp [entry?_cons, find?, same, Ne.symm same]

theorem not_mem_walk_of_fresh {tree : Tree} (wellFormed : tree.WellFormed) {name : Bytes}
    (fresh : tree.find? name = none)
    (place : Place) : name :: place ∉ tree.walk.map Prod.fst := by
  intro inside
  obtain ⟨⟨found, entry⟩, visited, rfl⟩ := List.mem_map.1 inside
  have present := ((mem_walk wellFormed).1 visited).2
  rw [entry?_cons, fresh] at present
  cases present

/-- A walk meets no place twice. -/
theorem nodup_walk {tree : Tree} (wellFormed : tree.WellFormed) :
    (tree.walk.map Prod.fst).Nodup := by
  induction tree with
  | empty => exact List.nodup_nil
  | leaf name content rest ih =>
    obtain ⟨_, fresh, restFormed⟩ := wellFormed
    rw [((walk_leaf_perm name content rest).map Prod.fst).nodup_iff, List.map_cons, List.nodup_cons]
    exact ⟨not_mem_walk_of_fresh restFormed fresh [], ih restFormed⟩
  | branch name inner rest innerIh ih =>
    obtain ⟨_, fresh, innerFormed, restFormed⟩ := wellFormed
    rw [((walk_branch_perm name inner rest).map Prod.fst).nodup_iff, List.cons_append,
      List.map_cons, List.map_append,
      List.nodup_cons, List.nodup_append]
    have places : (inner.walk.map fun visit => (name :: visit.1, visit.2)).map Prod.fst =
        (inner.walk.map Prod.fst).map (name :: ·) := by simp
    rw [places]
    refine ⟨?_, List.Nodup.map List.cons_injective (innerIh innerFormed), ih restFormed, ?_⟩
    · rw [List.mem_append, not_or]
      refine ⟨?_, not_mem_walk_of_fresh restFormed fresh []⟩
      intro inside
      obtain ⟨place, visited, same⟩ := List.mem_map.1 inside
      obtain ⟨⟨found, entry⟩, walked, rfl⟩ := List.mem_map.1 visited
      exact ((mem_walk innerFormed).1 walked).1 (List.cons.inj same).2
    · intro first inside second outside same
      obtain ⟨place, _, rfl⟩ := List.mem_map.1 inside
      exact not_mem_walk_of_fresh restFormed fresh place (same ▸ outside)

end Retarget.Tree
