import Retarget.FileSystem.Path

/-!
What stands below a directory: named entries, in the order they were made. `at?` and `set` reach
any depth by a place, the list of names on the way; `walk` visits everything, each directory in the
order of its names and before its own entries.

An entry is its name, its kind and what it holds. Second names of one file, permissions, owners and
times are left out: a change under one name shows under no other, and no entry refuses access.
-/
namespace Retarget

abbrev Place := List Bytes

inductive Leaf where
  | file (contents : Bytes)
  | link (target : Path)
  | special
deriving DecidableEq

/-- The entries of a directory, the first of them with the rest. -/
inductive Tree where
  | empty
  | leaf (name : Bytes) (content : Leaf) (rest : Tree)
  | branch (name : Bytes) (inner rest : Tree)
deriving DecidableEq

inductive Node where
  | leaf (content : Leaf)
  | branch (inner : Tree)
deriving DecidableEq

/-- A node without what stands below it. -/
inductive Entry where
  | leaf (content : Leaf)
  | directory
deriving DecidableEq

def Node.entry : Node → Entry
  | .leaf content => .leaf content
  | .branch _ => .directory

namespace Tree

def toList : Tree → List (Bytes × Node)
  | .empty => []
  | .leaf name content rest => (name, .leaf content) :: rest.toList
  | .branch name inner rest => (name, .branch inner) :: rest.toList

def cons (name : Bytes) (rest : Tree) : Node → Tree
  | .leaf content => .leaf name content rest
  | .branch inner => .branch name inner rest

def find? (tree : Tree) (name : Bytes) : Option Node :=
  match tree with
  | .empty => none
  | .leaf found content rest => if found = name then some (.leaf content) else rest.find? name
  | .branch found inner rest => if found = name then some (.branch inner) else rest.find? name

/-- A node under a name, in the place of what had the name before, or last. -/
def put (tree : Tree) (name : Bytes) (node : Node) : Tree :=
  match tree with
  | .empty => cons name .empty node
  | .leaf found content rest => if found = name then cons name rest node else .leaf found content (rest.put name node)
  | .branch found inner rest =>
    if found = name then cons name rest node else .branch found inner (rest.put name node)

def erase (tree : Tree) (name : Bytes) : Tree :=
  match tree with
  | .empty => .empty
  | .leaf found content rest => if found = name then rest.erase name else .leaf found content (rest.erase name)
  | .branch found inner rest => if found = name then rest.erase name else .branch found inner (rest.erase name)

def at? : Tree → Place → Option Node
  | tree, [] => some (.branch tree)
  | tree, [name] => tree.find? name
  | tree, name :: rest =>
    match tree.find? name with
    | some (.branch inner) => inner.at? rest
    | _ => none

/-- Changes the directory at a place; without one there, nothing. -/
def modify (change : Tree → Tree) : Tree → Place → Tree
  | tree, [] => change tree
  | tree, name :: rest =>
    match tree.find? name with
    | some (.branch inner) => tree.put name (.branch (modify change inner rest))
    | _ => tree

/-- A node at a place whose directory is there. The top itself stays. -/
def set (tree : Tree) (place : Place) (node : Node) : Tree :=
  match place.getLast? with
  | none => tree
  | some name => tree.modify (·.put name node) place.dropLast

def remove (tree : Tree) (place : Place) : Tree :=
  match place.getLast? with
  | none => tree
  | some name => tree.modify (·.erase name) place.dropLast

def entry? (tree : Tree) (place : Place) : Option Entry := (tree.at? place).map Node.entry

/-- Puts a named item before the first whose name is not smaller. -/
def insertNamed {α : Type} (name : Bytes) (item : α) : List (Bytes × α) → List (Bytes × α)
  | [] => [(name, item)]
  | first :: rest =>
    if first.1 < name then first :: insertNamed name item rest else (name, item) :: first :: rest

/-- The entries of a directory in the order of their names. -/
def listing (tree : Tree) : List (Bytes × Node) :=
  tree.toList.foldr (fun entry listed => insertNamed entry.1 entry.2 listed) []

/-- For each entry, in the order of names, what a walk meets from it on downwards. -/
def visits : Tree → List (Bytes × List (Place × Entry))
  | .empty => []
  | .leaf name content rest => insertNamed name [([name], .leaf content)] rest.visits
  | .branch name inner rest =>
    let below := (inner.visits.flatMap (·.2)).map fun visit => (name :: visit.1, visit.2)
    insertNamed name (([name], .directory) :: below) rest.visits

/-- Everything below a directory with its place, a directory before its entries. -/
def walk (tree : Tree) : List (Place × Entry) := tree.visits.flatMap (·.2)

/-- A name that a directory can hold: one whole component of a path. -/
def Legal (name : Bytes) : Prop := Path.component? name = some (.name name) ∧ Path.slash ∉ name ∧ 0 ∉ name

/-- Every name is legal and stands once in its directory. -/
def WellFormed : Tree → Prop
  | .empty => True
  | .leaf name _ rest => Legal name ∧ rest.find? name = none ∧ rest.WellFormed
  | .branch name inner rest => Legal name ∧ rest.find? name = none ∧ inner.WellFormed ∧ rest.WellFormed

end Tree
end Retarget
