import Mathlib.Data.List.Basic
import Mathlib.Tactic.Common
import Retarget.FileSystem.Tree

/-!
A tree seen as the function from places to entries. Every change of a tree is one equation about
that function, so what a change leaves alone can be read off without opening the tree.
-/
namespace Retarget

/-- What stands at a place below a node. -/
def Node.at? : Node → Place → Option Node
  | node, [] => some node
  | .branch inner, place => inner.at? place
  | .leaf _, _ :: _ => none

def Node.entry? (node : Node) (place : Place) : Option Entry := (node.at? place).map Node.entry

namespace Tree

@[simp] theorem at?_nil (tree : Tree) : tree.at? [] = some (.branch tree) := by
  unfold at?
  rfl

end Tree

namespace Node

@[simp] theorem at?_nil (node : Node) : node.at? [] = some node := by cases node <;> rfl

@[simp] theorem at?_branch (inner : Tree) (place : Place) :
    (branch inner).at? place = inner.at? place := by
  cases place <;> simp [Node.at?]

theorem entry_eq_directory {node : Node} :
    node.entry = .directory ↔ ∃ inner, node = branch inner := by
  cases node <;> simp [Node.entry]

theorem entry_eq_leaf {node : Node} {content : Leaf} :
    node.entry = .leaf content ↔ node = leaf content := by
  cases node <;> simp [Node.entry]

@[simp] theorem entry?_nil (node : Node) : node.entry? [] = some node.entry := by simp [Node.entry?]

@[simp] theorem entry?_branch (inner : Tree) (place : Place) :
    Node.entry? (branch inner) place = inner.entry? place := by
  simp [Node.entry?, Tree.entry?]

theorem entry?_leaf (content : Leaf) (place : Place) :
    Node.entry? (leaf content) place = if place = [] then some (.leaf content) else none := by
  cases place <;> rfl

end Node

namespace Tree

/-! ## Looking up -/

theorem at?_cons (tree : Tree) (name : Bytes) (place : Place) :
    tree.at? (name :: place) = (tree.find? name).bind (·.at? place) := by
  cases place with
  | nil => cases found : tree.find? name <;> simp [at?, found]
  | cons next rest =>
    cases found : tree.find? name with
    | none => simp [at?, found]
    | some node => cases node <;> simp [at?, found, Node.at?]

theorem at?_append (tree : Tree) (first second : Place) :
    tree.at? (first ++ second) = (tree.at? first).bind (·.at? second) := by
  induction first generalizing tree with
  | nil => simp
  | cons name rest ih =>
    rw [List.cons_append, at?_cons, at?_cons]
    cases tree.find? name with
    | none => rfl
    | some node =>
      cases node with
      | branch inner => simpa using ih inner
      | leaf content => cases rest <;> cases second <;> rfl

@[simp] theorem entry?_nil (tree : Tree) :
    tree.entry? [] = some .directory := by simp [Tree.entry?, Node.entry]

theorem entry?_eq_directory {tree : Tree} {place : Place} :
    tree.entry? place = some .directory ↔ ∃ inner, tree.at? place = some (.branch inner) := by
  simp [Tree.entry?, Option.map_eq_some_iff, Node.entry_eq_directory]

theorem entry?_eq_leaf {tree : Tree} {place : Place} {content : Leaf} :
    tree.entry? place = some (.leaf content) ↔ tree.at? place = some (.leaf content) := by
  simp [Tree.entry?, Option.map_eq_some_iff, Node.entry_eq_leaf]

theorem entry?_eq_none {tree : Tree} {place : Place} :
    tree.entry? place = none ↔ tree.at? place = none := by
  simp [Tree.entry?]

theorem entry?_append_of_at? {tree : Tree} {first : Place} {node : Node}
    (found : tree.at? first = some node)
    (second : Place) : tree.entry? (first ++ second) = node.entry? second := by
  simp [Tree.entry?, Node.entry?, at?_append, found]

theorem entry?_append_branch {tree inner : Tree} {first : Place}
    (found : tree.at? first = some (.branch inner))
    (second : Place) : tree.entry? (first ++ second) = inner.entry? second := by
  rw [entry?_append_of_at? found, Node.entry?_branch]

theorem entry?_append_of_none {tree : Tree} {first : Place} (absent : tree.entry? first = none)
    (second : Place) :
    tree.entry? (first ++ second) = none := by
  rw [entry?_eq_none] at absent ⊢
  rw [at?_append, absent]
  rfl

theorem entry?_append_leaf {tree : Tree} {first : Place} {content : Leaf}
    (found : tree.entry? first = some (.leaf content)) {second : Place} (below : second ≠ []) :
    tree.entry? (first ++ second) = none := by
  rw [entry?_append_of_at? (entry?_eq_leaf.1 found), Node.entry?_leaf, if_neg below]

/-- Only a directory has anything below it. -/
theorem directory_above {tree : Tree} {first second : Place} {entry : Entry}
    (found : tree.entry? (first ++ second) = some entry) (below : second ≠ []) :
    tree.entry? first = some .directory := by
  cases above : tree.entry? first with
  | none => rw [entry?_append_of_none above] at found; cases found
  | some entry =>
    cases entry with
    | directory => rfl
    | leaf content => rw [entry?_append_leaf above below] at found; cases found

/-- Above a directory there are only directories. -/
theorem directory_of_append {tree : Tree} {place names : Place}
    (held : tree.entry? (place ++ names) = some .directory) :
    tree.entry? place = some .directory := by
  by_cases none : names = []
  · rwa [none, List.append_nil] at held
  · exact directory_above held none

theorem at?_concat {tree inner : Tree} {place : Place}
    (found : tree.at? place = some (.branch inner)) (name : Bytes) :
    tree.at? (place ++ [name]) = inner.find? name := by
  rw [at?_append, found]
  simp [at?_cons]

theorem entry?_concat {tree inner : Tree} {place : Place}
    (found : tree.at? place = some (.branch inner)) (name : Bytes) :
    tree.entry? (place ++ [name]) = (inner.find? name).map Node.entry := by
  rw [entry?_append_branch found, entry?, at?_cons]
  cases inner.find? name <;> simp

/-- The places below a directory: each begins with the name of an entry. -/
theorem entry?_cons {tree : Tree} {name : Bytes} {place : Place} :
    tree.entry? (name :: place) = (tree.find? name).bind fun node => node.entry? place := by
  rw [Tree.entry?, at?_cons]
  cases tree.find? name <;> rfl

theorem entry?_empty (place : Place) :
    empty.entry? place = if place = [] then some .directory else none := by
  cases place <;> simp [entry?_cons, find?]

/-! ## Changing a directory -/

@[simp] theorem find?_cons (name : Bytes) (rest : Tree) (node : Node) (query : Bytes) :
    (cons name rest node).find? query = if name = query then some node else rest.find? query := by
  cases node <;> rfl

/-- A directory taken entry by entry, whether an entry is a leaf or a directory again. -/
@[elab_as_elim]
theorem cons_induction {motive : Tree → Prop} (empty : motive empty)
    (cons : ∀ name node rest, motive rest → motive (cons name rest node)) (tree : Tree) :
    motive tree := by
  induction tree with
  | empty => exact empty
  | leaf name content rest ih => exact cons name (.leaf content) rest ih
  | branch name inner rest _ ih => exact cons name (.branch inner) rest ih

theorem put_cons (found name : Bytes) (rest : Tree) (held node : Node) :
    (cons found rest held).put name node =
      if found = name then cons name rest node else cons found (rest.put name node) held := by
  cases held <;> rfl

theorem erase_cons (found name : Bytes) (rest : Tree) (held : Node) :
    (cons found rest held).erase name =
      if found = name then rest.erase name else cons found (rest.erase name) held := by
  cases held <;> rfl

theorem find?_put (tree : Tree) (name : Bytes) (node : Node) (query : Bytes) :
    (tree.put name node).find? query = if name = query then some node else tree.find? query := by
  induction tree using cons_induction with
  | empty => simp [put]
  | cons found held rest ih =>
    rw [put_cons]
    by_cases same : found = name
    · subst same
      by_cases here : found = query <;> simp [here]
    · by_cases here : found = query
      · subst here
        simp [same, Ne.symm same]
      · simp [same, here, ih]

theorem find?_erase (tree : Tree) (name query : Bytes) :
    (tree.erase name).find? query = if name = query then none else tree.find? query := by
  induction tree using cons_induction with
  | empty => simp [erase, find?]
  | cons found held rest ih =>
    rw [erase_cons]
    by_cases same : found = name
    · subst same
      by_cases here : found = query
      · simpa [here] using ih
      · simp [here, ih]
    · by_cases here : found = query
      · subst here
        simp [same, Ne.symm same]
      · simp [same, here, ih]

theorem modify_cons {change : Tree → Tree} {tree inner : Tree} {name : Bytes} {place : Place}
    (found : tree.find? name = some (.branch inner)) :
    tree.modify change (name :: place) = tree.put name (.branch (inner.modify change place)) := by
  simp [modify, found]

/-- The directory at a place lies on the way: the first name leads to a directory that holds the
rest. -/
theorem at?_cons_branch {tree inner : Tree} {name : Bytes} {place : Place}
    (found : tree.at? (name :: place) = some (.branch inner)) :
    ∃ held, tree.find? name = some (.branch held) ∧ held.at? place = some (.branch inner) := by
  rw [at?_cons] at found
  obtain ⟨node, here, below⟩ := Option.bind_eq_some_iff.1 found
  cases node with
  | branch held => exact ⟨held, here, by simpa using below⟩
  | leaf content => cases place <;> simp [Node.at?] at below

/-- A change of the directory at a place shows below that place. -/
theorem at?_modify_inside {change : Tree → Tree} {tree inner : Tree} {place : Place}
    (found : tree.at? place = some (.branch inner)) (below : Place) :
    (tree.modify change place).at? (place ++ below) = (change inner).at? below := by
  induction place generalizing tree with
  | nil =>
    have same : tree = inner := by simpa using found
    simp [modify, same]
  | cons name rest ih =>
    obtain ⟨held, here, found⟩ := at?_cons_branch found
    rw [modify_cons here, List.cons_append, at?_cons, find?_put, if_pos rfl]
    simpa using ih found

theorem entry?_modify_inside {change : Tree → Tree} {tree inner : Tree} {place : Place}
    (found : tree.at? place = some (.branch inner)) (below : Place) :
    Tree.entry? (tree.modify change place) (place ++ below) = Tree.entry? (change inner) below := by
  simp only [Tree.entry?, at?_modify_inside found]

/-- A change of the directory at a place shows nowhere else. -/
theorem entry?_modify_outside {change : Tree → Tree} {tree : Tree} {place query : Place}
    (outside : ¬place <+: query) :
    Tree.entry? (tree.modify change place) query = tree.entry? query := by
  induction place generalizing tree query with
  | nil => exact absurd (List.nil_prefix) outside
  | cons name rest ih =>
    unfold modify
    split
    · rename_i inner here
      cases query with
      | nil => simp
      | cons next more =>
        rw [Tree.entry?, entry?, at?_cons, at?_cons, find?_put]
        by_cases same : name = next
        · subst same
          have outside : ¬rest <+: more := fun inside => outside (by simpa using inside)
          simpa [here, entry?] using ih outside
        · rw [if_neg same]
    · rfl

theorem set_concat (tree : Tree) (place : Place) (name : Bytes) (node : Node) :
    tree.set (place ++ [name]) node = tree.modify (·.put name node) place := by simp [set]

theorem remove_concat (tree : Tree) (place : Place) (name : Bytes) :
    tree.remove (place ++ [name]) = tree.modify (·.erase name) place := by simp [remove]

theorem entry?_set_inside {tree inner : Tree} {place : Place}
    (found : tree.at? place = some (.branch inner))
    (name : Bytes) (node : Node) (below : Place) :
    Tree.entry? (tree.set (place ++ [name]) node)
    (place ++ [name] ++ below) = node.entry? below := by
  rw [set_concat, List.append_assoc, entry?_modify_inside found]
  simp [Tree.entry?, at?_cons, find?_put, Node.entry?]

theorem at?_set_here {tree inner : Tree} {place : Place}
    (found : tree.at? place = some (.branch inner)) (name : Bytes) (node : Node) :
    (tree.set (place ++ [name]) node).at? (place ++ [name]) = some node := by
  rw [set_concat, at?_modify_inside found, at?_cons, find?_put, if_pos rfl]
  simp

/-- A change of one name in a directory shows at that name and below it only. -/
theorem entry?_modify_name {change : Tree → Tree} {tree inner : Tree} {place query : Place}
    {name : Bytes}
    (found : tree.at? place = some (.branch inner))
    (others : ∀ other, name ≠ other → (change inner).find? other = inner.find? other)
    (outside : ¬place ++ [name] <+: query) :
    Tree.entry? (tree.modify change place) query = tree.entry? query := by
  by_cases above : place <+: query
  · obtain ⟨below, rfl⟩ := above
    rw [entry?_modify_inside found, entry?_append_branch found]
    cases below with
    | nil => simp
    | cons next more =>
      have other : name ≠ next := fun same => outside (by simp [same, List.prefix_append_right_inj])
      rw [Tree.entry?, entry?, at?_cons, at?_cons, others next other]
  · exact entry?_modify_outside above

theorem entry?_set_outside {tree inner : Tree} {place : Place}
    (found : tree.at? place = some (.branch inner))
    {name : Bytes} {node : Node} {query : Place} (outside : ¬place ++ [name] <+: query) :
    Tree.entry? (tree.set (place ++ [name]) node) query = tree.entry? query := by
  rw [set_concat]
  exact entry?_modify_name found (fun other apart => by rw [find?_put, if_neg apart]) outside

theorem entry?_remove_inside {tree inner : Tree} {place : Place}
    (found : tree.at? place = some (.branch inner))
    (name : Bytes) (below : Place) :
    Tree.entry? (tree.remove (place ++ [name])) (place ++ [name] ++ below) = none := by
  rw [remove_concat, List.append_assoc, entry?_modify_inside found]
  simp [Tree.entry?, at?_cons, find?_erase]

theorem entry?_remove_outside {tree inner : Tree} {place : Place}
    (found : tree.at? place = some (.branch inner))
    {name : Bytes} {query : Place} (outside : ¬place ++ [name] <+: query) :
    Tree.entry? (tree.remove (place ++ [name])) query = tree.entry? query := by
  rw [remove_concat]
  exact entry?_modify_name found (fun other apart => by rw [find?_erase, if_neg apart]) outside

/-! ## Changing one entry -/

/-- Nothing stands below a place. -/
def Bare (tree : Tree) (place : Place) :
    Prop := ∀ below, below ≠ [] → tree.entry? (place ++ below) = none

theorem bare_of_none {tree : Tree} {place : Place} (absent : tree.entry? place = none) :
    tree.Bare place :=
  fun below _ => entry?_append_of_none absent below

theorem bare_of_leaf {tree : Tree} {place : Place} {content : Leaf}
    (found : tree.entry? place = some (.leaf content)) :
    tree.Bare place := fun _ more => entry?_append_leaf found more

theorem bare_of_ne_directory {tree : Tree} {place : Place}
    (other : tree.entry? place ≠ some .directory) : tree.Bare place := by
  cases held : tree.entry? place with
  | none => exact bare_of_none held
  | some entry =>
    cases entry with
    | directory => exact absurd held other
    | leaf content => exact bare_of_leaf held

/-- Nothing stands below an entry that was put there by itself. -/
theorem Bare.put {tree after : Tree} {place : Place} (bare : tree.Bare place) {entry : Entry}
    (entries : ∀ query, after.entry? query = if query = place then some entry else tree.entry? query) :
    after.Bare place := fun below more => by
  rw [entries, if_neg (by simpa using more), bare below more]

/-- A node that stands alone, put where nothing stands below, is the only change. -/
theorem entry?_set_alone {tree inner : Tree} {place : Place}
    (found : tree.at? place = some (.branch inner)) {name : Bytes}
    (bare : tree.Bare (place ++ [name])) {node : Node} (alone : ∀ below, below ≠ [] →
      node.entry? below = none)
    (query : Place) : Tree.entry? (tree.set (place ++ [name]) node) query =
      if query = place ++ [name] then some node.entry else tree.entry? query := by
  by_cases inside : place ++ [name] <+: query
  · obtain ⟨below, rfl⟩ := inside
    rw [entry?_set_inside found]
    by_cases here : below = []
    · simp [here]
    · rw [alone below here, bare below here, if_neg (by simpa using here)]
  · rw [entry?_set_outside found inside, if_neg]
    rintro rfl
    exact inside (List.prefix_refl _)

theorem entry?_remove_bare {tree inner : Tree} {place : Place}
    (found : tree.at? place = some (.branch inner)) {name : Bytes}
    (bare : tree.Bare (place ++ [name])) (query : Place) :
    Tree.entry? (tree.remove (place ++ [name])) query = if query = place ++ [name] then none else
    tree.entry? query := by
  by_cases inside : place ++ [name] <+: query
  · obtain ⟨below, rfl⟩ := inside
    rw [entry?_remove_inside found]
    by_cases here : below = []
    · simp [here]
    · rw [bare below here, ite_self]
  · rw [entry?_remove_outside found inside, if_neg]
    rintro rfl
    exact inside (List.prefix_refl _)

end Tree
end Retarget
