import Retarget.Proofs.Tree.Walk

/-!
The order of a walk. Places are compared name by name, a place before what is below it, and a walk
meets them in ascending order. So the entries below a directory settle its walk, whatever the order
in which they were made.
-/
namespace Retarget.Tree

theorem insertNamed_ascending {α : Type} {name : Bytes} (item : α) {listed : List (Bytes × α)}
    (ascending : listed.Pairwise fun first second => first.1 < second.1)
    (fresh : name ∉ listed.map Prod.fst) :
    (insertNamed name item listed).Pairwise fun first second => first.1 < second.1 := by
  induction listed with
  | nil => exact List.pairwise_singleton _ _
  | cons first rest ih =>
    obtain ⟨before, ascends⟩ := List.pairwise_cons.1 ascending
    rw [List.map_cons, List.mem_cons, not_or] at fresh
    unfold insertNamed
    split
    · rename_i less
      refine List.pairwise_cons.2 ⟨fun other member => ?_, ih ascends fresh.2⟩
      rcases List.mem_cons.1 ((insertNamed_perm name item rest).mem_iff.1 member) with rfl | old
      · exact less
      · exact before other old
    · rename_i notLess
      have more : name < first.1 := by
        have ordered : name < first.1 ∨ name = first.1 ∨ first.1 < name :=
          Std.Trichotomous.rel_or_eq_or_rel_swap
        rcases ordered with less | same | greater
        · exact less
        · exact absurd same fresh.1
        · exact absurd greater notLess
      refine List.pairwise_cons.2 ⟨fun other member => ?_, ascending⟩
      rcases List.mem_cons.1 member with rfl | later
      · exact more
      · exact List.lt_trans more (before other later)

theorem listing_ascending {tree : Tree} (wellFormed : tree.WellFormed) :
    tree.listing.Pairwise fun first second => first.1 < second.1 := by
  have distinct := nodup_toList wellFormed
  unfold listing
  generalize tree.toList = entries at distinct
  induction entries with
  | nil => exact List.Pairwise.nil
  | cons entry rest ih =>
    obtain ⟨fresh, others⟩ := List.nodup_cons.1 distinct
    refine insertNamed_ascending entry.2 (ih others) ?_
    exact fun again => fresh (((foldr_insertNamed_perm rest).map Prod.fst).mem_iff.1 again)

/-- Two directories with the same entry under each name are listed alike. -/
theorem listing_congr {tree other : Tree} (wellFormed : tree.WellFormed)
    (otherFormed : other.WellFormed)
    (same : ∀ name, (tree.find? name).map Node.entry = (other.find? name).map Node.entry) :
    (tree.listing.map fun (name, node) => (name, node.entry)) =
      other.listing.map fun (name, node) => (name, node.entry) := by
  have listed : ∀ {tree : Tree}, tree.WellFormed → ∀ name entry,
      (name, entry) ∈ (tree.listing.map fun (name, node) => (name, node.entry)) ↔
        (tree.find? name).map Node.entry = some entry := by
    intro tree formed name entry
    rw [List.mem_map, Option.map_eq_some_iff]
    constructor
    · rintro ⟨⟨found, node⟩, member, equal⟩
      obtain ⟨rfl, rfl⟩ := Prod.mk.inj equal
      exact ⟨node, (mem_listing formed).1 member, rfl⟩
    · rintro ⟨node, found, rfl⟩
      exact ⟨(name, node), (mem_listing formed).2 found, rfl⟩
  have ordered : ∀ {tree : Tree}, tree.WellFormed →
      (tree.listing.map fun (name, node) => (name, node.entry)).Pairwise
        fun first second => first.1 < second.1 :=
    fun formed => List.pairwise_map.2 (listing_ascending formed)
  have distinct : ∀ {tree : Tree}, tree.WellFormed →
      (tree.listing.map fun (name, node) => (name, node.entry)).Nodup := by
    intro tree formed
    refine List.Nodup.of_map Prod.fst ?_
    simpa [Function.comp_def] using nodup_listing formed
  have alike : (tree.listing.map fun (name, node) => (name, node.entry)).Perm
      (other.listing.map fun (name, node) => (name, node.entry)) := by
    rw [List.perm_ext_iff_of_nodup (distinct wellFormed) (distinct otherFormed)]
    rintro ⟨name, entry⟩
    rw [listed wellFormed, listed otherFormed, same]
  exact alike.eq_of_pairwise (fun _ _ _ _ less greater => absurd greater (List.lt_asymm less))
    (ordered wellFormed) (ordered otherFormed)

/-- The visits of a first entry take their place among the others, all with its name in front. -/
theorem visits_cons (name : Bytes) (rest : Tree) (node : Node) :
    ∃ below : List (Place × Entry), (cons name rest node).visits =
      insertNamed name (([name], node.entry) :: below.map fun visit => (name :: visit.1, visit.2))
        rest.visits := by
  cases node with
  | leaf content => exact ⟨[], rfl⟩
  | branch inner => exact ⟨inner.walk, rfl⟩

/-- What is visited from an entry on downwards has its name in front. -/
theorem visits_below (tree : Tree) {item : Bytes × List (Place × Entry)}
    (member : item ∈ tree.visits) {visit : Place × Entry} (visited : visit ∈ item.2) :
    ∃ below, visit.1 = item.1 :: below := by
  induction tree using cons_induction with
  | empty => cases member
  | cons name node rest ih =>
    obtain ⟨below, visits⟩ := visits_cons name rest node
    rw [visits] at member
    rcases List.mem_cons.1 ((insertNamed_perm _ _ _).mem_iff.1 member) with rfl | later
    · rcases List.mem_cons.1 visited with rfl | inside
      · exact ⟨[], rfl⟩
      · obtain ⟨deeper, _, rfl⟩ := List.mem_map.1 inside
        exact ⟨deeper.1, rfl⟩
    · exact ih later

theorem find?_of_mem_visits {tree : Tree} {name : Bytes}
    (member : name ∈ tree.visits.map Prod.fst) : tree.find? name ≠ none := by
  induction tree using cons_induction with
  | empty => cases member
  | cons first node rest ih =>
    obtain ⟨below, visits⟩ := visits_cons first rest node
    rw [visits, ((insertNamed_perm _ _ _).map Prod.fst).mem_iff, List.map_cons,
      List.mem_cons] at member
    rw [find?_cons]
    split
    · simp
    · rename_i other
      exact ih (member.resolve_left (Ne.symm other))

theorem visits_ascending {tree : Tree} (wellFormed : tree.WellFormed) :
    tree.visits.Pairwise fun first second => first.1 < second.1 := by
  induction tree using cons_induction with
  | empty => exact .nil
  | cons name node rest ih =>
    obtain ⟨_, fresh, _, formed⟩ := wellFormed_cons_iff.1 wellFormed
    obtain ⟨below, visits⟩ := visits_cons name rest node
    rw [visits]
    exact insertNamed_ascending _ (ih formed) fun again => find?_of_mem_visits again fresh

/-- Entries visited one after another ascend when their names do and each is visited in order. -/
theorem walk_ascending_of_visits {tree : Tree} (wellFormed : tree.WellFormed)
    (inside : ∀ item ∈ tree.visits, (item.2.map Prod.fst).Pairwise (· < ·)) :
    (tree.walk.map Prod.fst).Pairwise (· < ·) := by
  rw [walk, List.map_flatMap, List.pairwise_flatMap]
  refine ⟨inside, (visits_ascending wellFormed).imp_of_mem ?_⟩
  intro first second member other less place visited after visitedAfter
  obtain ⟨visit, inFirst, rfl⟩ := List.mem_map.1 visited
  obtain ⟨later, inSecond, rfl⟩ := List.mem_map.1 visitedAfter
  obtain ⟨below, whole⟩ := visits_below tree member inFirst
  obtain ⟨deeper, wholeAfter⟩ := visits_below tree other inSecond
  rw [whole, wholeAfter]
  exact List.cons_lt_cons_iff.2 (.inl less)

theorem visits_inside_ascending {tree : Tree} (wellFormed : tree.WellFormed) :
    ∀ item ∈ tree.visits, (item.2.map Prod.fst).Pairwise (· < ·) := by
  induction tree with
  | empty => exact fun _ member => nomatch member
  | leaf name content rest ih =>
    intro item member
    rcases List.mem_cons.1 ((insertNamed_perm _ _ _).mem_iff.1 member) with rfl | later
    · exact List.pairwise_singleton _ _
    · exact ih wellFormed.2.2 item later
  | branch name inner rest innerIh ih =>
    obtain ⟨_, _, innerFormed, formed⟩ := wellFormed
    intro item member
    rcases List.mem_cons.1 ((insertNamed_perm _ _ _).mem_iff.1 member) with rfl | later
    · have below := walk_ascending_of_visits innerFormed (innerIh innerFormed)
      have places : (inner.walk.map fun visit => (name :: visit.1, visit.2)).map Prod.fst =
          (inner.walk.map Prod.fst).map (name :: ·) := by simp
      rw [List.map_cons]
      refine List.pairwise_cons.2 ⟨fun place visited => ?_, ?_⟩
      · change place ∈ (inner.walk.map fun visit => (name :: visit.1, visit.2)).map Prod.fst
          at visited
        rw [places] at visited
        obtain ⟨deeper, inWalk, rfl⟩ := List.mem_map.1 visited
        obtain ⟨visit, walked, rfl⟩ := List.mem_map.1 inWalk
        obtain ⟨first, others, some⟩ :=
          List.exists_cons_of_ne_nil ((mem_walk innerFormed).1 walked).1
        rw [some]
        exact List.cons_lt_cons_iff.2 (.inr ⟨rfl, List.nil_lt_cons _ _⟩)
      · change ((inner.walk.map fun visit => (name :: visit.1, visit.2)).map Prod.fst).Pairwise _
        rw [places, List.pairwise_map]
        exact below.imp fun less => List.cons_lt_cons_iff.2 (.inr ⟨rfl, less⟩)
    · exact ih formed item later

/-- A walk meets places in ascending order. -/
theorem walk_ascending {tree : Tree} (wellFormed : tree.WellFormed) :
    (tree.walk.map Prod.fst).Pairwise (· < ·) :=
  walk_ascending_of_visits wellFormed (visits_inside_ascending wellFormed)

/-- What a walk meets before an entry has smaller places, and what it meets after it greater ones. -/
theorem walk_around {tree : Tree} (wellFormed : tree.WellFormed) {visit : Place × Entry}
    {front back : List (Place × Entry)} (whole : tree.walk = front ++ visit :: back) :
    (∀ other ∈ front, other.1 < visit.1) ∧ ∀ other ∈ back, visit.1 < other.1 := by
  have ascending := walk_ascending wellFormed
  rw [whole, List.map_append, List.pairwise_append] at ascending
  obtain ⟨_, after, across⟩ := ascending
  exact ⟨fun other member => across _ (List.mem_map_of_mem member) _ (by simp),
    fun other member => (List.pairwise_cons.1 after).1 _ (List.mem_map_of_mem member)⟩

/-- Two directories with the same entries below them are walked alike. -/
theorem walk_congr {tree other : Tree} (wellFormed : tree.WellFormed)
    (otherFormed : other.WellFormed)
    (same : ∀ place, tree.entry? place = other.entry? place) : tree.walk = other.walk := by
  have alike : tree.walk.Perm other.walk := by
    rw [List.perm_ext_iff_of_nodup (nodup_walk wellFormed).of_map (nodup_walk otherFormed).of_map]
    rintro ⟨place, entry⟩
    rw [mem_walk wellFormed, mem_walk otherFormed, same]
  have ascending := List.pairwise_map.1 (walk_ascending wellFormed)
  exact alike.eq_of_pairwise (fun _ _ _ _ less greater => absurd greater (List.lt_asymm less))
    ascending (List.pairwise_map.1 (walk_ascending otherFormed))

end Retarget.Tree
