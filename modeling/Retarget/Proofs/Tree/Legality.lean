import Retarget.Proofs.Tree.Entries

/-!
What well-formedness gives, and that the changes of a tree keep it: every name on the way to an
entry is legal, and a tree put together from well-formed parts is well-formed.
-/
namespace Retarget

def Node.WellFormed : Node → Prop
  | .leaf _ => True
  | .branch inner => inner.WellFormed

namespace Tree

/-- A directory with one entry more is well-formed exactly if the entry is new, legal and well-formed. -/
theorem wellFormed_cons_iff {name : Bytes} {rest : Tree} {node : Node} :
    (cons name rest node).WellFormed ↔
      Legal name ∧ rest.find? name = none ∧ node.WellFormed ∧ rest.WellFormed := by
  cases node <;> simp [cons, WellFormed, Node.WellFormed]

theorem WellFormed.find? {tree : Tree} (wellFormed : tree.WellFormed) {name : Bytes} {node : Node}
    (found : tree.find? name = some node) : Legal name ∧ node.WellFormed := by
  induction tree using cons_induction with
  | empty => cases found
  | cons first held rest ih =>
    obtain ⟨legal, _, heldFormed, restFormed⟩ := wellFormed_cons_iff.1 wellFormed
    rw [find?_cons] at found
    split at found
    · rename_i same
      obtain rfl := Option.some.inj found
      exact ⟨same ▸ legal, heldFormed⟩
    · exact ih restFormed found

theorem WellFormed.at? {tree : Tree} (wellFormed : tree.WellFormed) {place : Place} {node : Node}
    (found : tree.at? place = some node) : (∀ name ∈ place, Legal name) ∧ node.WellFormed := by
  induction place generalizing tree with
  | nil =>
    have same : Node.branch tree = node := by simpa using found
    subst same
    exact ⟨by simp, wellFormed⟩
  | cons name rest ih =>
    rw [at?_cons] at found
    obtain ⟨held, here, below⟩ := Option.bind_eq_some_iff.1 found
    obtain ⟨legal, heldFormed⟩ := wellFormed.find? here
    cases held with
    | branch inner =>
      obtain ⟨others, formed⟩ := ih heldFormed (by simpa using below)
      exact ⟨by simpa [legal] using others, formed⟩
    | leaf content =>
      cases rest with
      | nil =>
        have same : Node.leaf content = node := by simpa using below
        subst same
        exact ⟨by simpa using legal, trivial⟩
      | cons next more => simp [Node.at?] at below

theorem WellFormed.legal {tree : Tree} (wellFormed : tree.WellFormed) {place : Place}
    {entry : Entry}
    (found : tree.entry? place = some entry) : ∀ name ∈ place, Legal name := by
  obtain ⟨node, here, _⟩ := Option.map_eq_some_iff.1 found
  exact (wellFormed.at? here).1

theorem WellFormed.put {tree : Tree} (wellFormed : tree.WellFormed) {name : Bytes} {node : Node}
    (legal : Legal name)
    (nodeFormed : node.WellFormed) : (tree.put name node).WellFormed := by
  induction tree using cons_induction with
  | empty => exact wellFormed_cons_iff.2 ⟨legal, rfl, nodeFormed, trivial⟩
  | cons first held rest ih =>
    obtain ⟨firstLegal, fresh, heldFormed, restFormed⟩ := wellFormed_cons_iff.1 wellFormed
    rw [put_cons]
    split
    · rename_i same
      exact wellFormed_cons_iff.2 ⟨legal, same ▸ fresh, nodeFormed, restFormed⟩
    · rename_i other
      have still : (rest.put name node).find? first = none := by
        rw [find?_put, if_neg (Ne.symm other), fresh]
      exact wellFormed_cons_iff.2 ⟨firstLegal, still, heldFormed, ih restFormed⟩

theorem WellFormed.erase {tree : Tree} (wellFormed : tree.WellFormed) (name : Bytes) :
    (tree.erase name).WellFormed := by
  induction tree using cons_induction with
  | empty => trivial
  | cons first held rest ih =>
    obtain ⟨firstLegal, fresh, heldFormed, restFormed⟩ := wellFormed_cons_iff.1 wellFormed
    rw [erase_cons]
    split
    · exact ih restFormed
    · have still : (rest.erase name).find? first = none := by rw [find?_erase, fresh, ite_self]
      exact wellFormed_cons_iff.2 ⟨firstLegal, still, heldFormed, ih restFormed⟩

theorem WellFormed.modify {change : Tree → Tree} {tree : Tree} {place : Place}
    (wellFormed : tree.WellFormed)
    (keeps : ∀ inner : Tree, inner.WellFormed → (change inner).WellFormed) :
    (tree.modify change place).WellFormed := by
  induction place generalizing tree with
  | nil => simpa [Tree.modify] using keeps tree wellFormed
  | cons name rest ih =>
    unfold Tree.modify
    split
    · rename_i inner here
      obtain ⟨legal, innerFormed⟩ := wellFormed.find? here
      exact wellFormed.put legal (ih innerFormed)
    · exact wellFormed

theorem WellFormed.set {tree : Tree} (wellFormed : tree.WellFormed) {place : Place} {name : Bytes}
    {node : Node}
    (legal : Legal name) (nodeFormed : node.WellFormed) :
    (tree.set (place ++ [name]) node).WellFormed := by
  rw [set_concat]
  exact wellFormed.modify fun inner innerFormed => innerFormed.put legal nodeFormed

theorem WellFormed.remove {tree : Tree} (wellFormed : tree.WellFormed) (place : Place) :
    (tree.remove place).WellFormed := by
  unfold Tree.remove
  split
  · exact wellFormed
  · exact wellFormed.modify fun inner innerFormed => innerFormed.erase _

end Tree
end Retarget
