import Retarget.Proofs.Tree.Entries

/-!
Changes that undo or absorb each other, tree for tree and not only entry by entry: what was put last
is taken out without a trace, and a directory that is emptied forgets what was done below it.
-/
namespace Retarget

namespace Tree

/-! ## Names of one directory -/

theorem put_put (tree : Tree) (name : Bytes) (first second : Node) :
    (tree.put name first).put name second = tree.put name second := by
  induction tree using cons_induction with
  | empty => simp [put, put_cons]
  | cons found held rest ih => by_cases same : found = name <;> simp [put_cons, same, ih]

theorem put_eq_self {tree : Tree} {name : Bytes} {node : Node}
    (held : tree.find? name = some node) : tree.put name node = tree := by
  induction tree using cons_induction with
  | empty => cases held
  | cons found first rest ih =>
    rw [find?_cons] at held
    rw [put_cons]
    split at held
    · rename_i same
      obtain rfl := Option.some.inj held
      rw [if_pos same, same]
    · rename_i other
      rw [if_neg other, ih held]

theorem erase_put {tree : Tree} {name : Bytes} (free : tree.find? name = none) (node : Node) :
    (tree.put name node).erase name = tree := by
  induction tree using cons_induction with
  | empty => simp [put, erase_cons, erase]
  | cons found held rest ih =>
    rw [find?_cons] at free
    split at free
    · cases free
    · rename_i other
      rw [put_cons, if_neg other, erase_cons, if_neg other, ih free]

/-! ## Directories further down -/

/-- A change below a place and then one at the place are one change at the place. -/
theorem modify_modify (tree : Tree) (first second : Tree → Tree) (place more : Place) :
    (tree.modify first (place ++ more)).modify second place =
      tree.modify (fun inner => second (inner.modify first more)) place := by
  induction place generalizing tree with
  | nil => rfl
  | cons name rest ih =>
    rw [List.cons_append]
    cases held : tree.find? name with
    | none => simp [modify, held]
    | some node =>
      cases node with
      | leaf content => simp [modify, held]
      | branch inner =>
        have still : (tree.put name (.branch (inner.modify first (rest ++ more)))).find? name =
            some (.branch (inner.modify first (rest ++ more))) := by rw [find?_put, if_pos rfl]
        rw [modify_cons held, modify_cons still, modify_cons held, put_put, ih]

theorem modify_eq_self {tree : Tree} {change : Tree → Tree} {place : Place}
    (fixed : ∀ inner, tree.at? place = some (.branch inner) → change inner = inner) :
    tree.modify change place = tree := by
  induction place generalizing tree with
  | nil => exact fixed tree (at?_nil tree)
  | cons name rest ih =>
    cases held : tree.find? name with
    | none => simp [modify, held]
    | some node =>
      cases node with
      | leaf content => simp [modify, held]
      | branch inner =>
        have same : inner.modify change rest = inner := ih fun deeper found =>
          fixed deeper (by rw [at?_cons, held]; simpa using found)
        rw [modify_cons held, same, put_eq_self held]

/-- A node put under a name leaves what stands apart from that name. -/
theorem at?_set_apart {tree : Tree} {place query : Place} {name : Bytes} (node : Node)
    (outside : ¬place ++ [name] <+: query) (beside : ¬query <+: place ++ [name]) :
    (tree.set (place ++ [name]) node).at? query = tree.at? query := by
  rw [set_concat]
  induction place generalizing tree query with
  | nil =>
    cases query with
    | nil => exact absurd List.nil_prefix beside
    | cons next more =>
      have other : name ≠ next := fun same => outside (by simp [same])
      rw [modify, at?_cons, at?_cons, find?_put, if_neg other]
  | cons first rest ih =>
    cases query with
    | nil => exact absurd List.nil_prefix beside
    | cons next more =>
      cases held : tree.find? first with
      | none => simp [modify, held]
      | some entry =>
        cases entry with
        | leaf content => simp [modify, held]
        | branch inner =>
          rw [modify_cons held, at?_cons, at?_cons, find?_put]
          by_cases same : first = next
          · subst same
            have below : (inner.modify (·.put name node) rest).at? more = inner.at? more :=
              ih (fun inside => outside (by simpa using inside))
                fun inside => beside (by simpa using inside)
            simpa [held] using below
          · rw [if_neg same]

end Tree
end Retarget
