import Retarget.Text.Utf8

/-!
Paths as bytes, and what can be said of them without looking at a file system. A path is cut at its
slashes; empty pieces and `.` mean nothing, except that a `.` at the very front is kept. Joining,
taking a parent and stripping a base keep the bytes they do not remove.
-/
namespace Retarget

structure Path where
  bytes : Bytes
deriving DecidableEq

inductive Component where
  | root
  | here
  | up
  | name (name : Bytes)
deriving DecidableEq

namespace Path

def slash : UInt8 := 0x2F

def dot : Bytes := [0x2E]

def dots : Bytes := [0x2E, 0x2E]

def ofText (text : String) : Path := ⟨utf8 text⟩

def display (path : Path) : String := lossyText path.bytes

def text? (path : Path) : Option String := Retarget.text? path.bytes

def isAbsolute (path : Path) : Bool := path.bytes.head? = some slash

/-- What stands in front of the named part of a path. -/
inductive Anchor where
  | none
  | root
  | here
deriving DecidableEq

namespace Anchor

def bytes : Anchor → Bytes
  | none => []
  | root => [slash]
  | here => dot

def components : Anchor → List Component
  | none => []
  | root => [.root]
  | here => [.here]

end Anchor

/-- A path with its pieces apart. -/
structure Parts where
  anchor : Anchor
  pieces : List Bytes

def Parts.path (parts : Parts) : Path := ⟨parts.anchor.bytes ++ [slash].intercalate parts.pieces⟩

def parts (path : Path) : Parts :=
  match path.bytes.splitOn slash with
  | [] => ⟨.none, []⟩
  | first :: rest =>
    if first = [] ∧ rest ≠ [] then ⟨.root, rest⟩
    else if first = dot then ⟨.here, if rest = [] then [] else [] :: rest⟩
    else ⟨.none, first :: rest⟩

def component? (piece : Bytes) : Option Component :=
  if piece = [] ∨ piece = dot then none
  else if piece = dots then some .up
  else some (.name piece)

/-- Pieces without those at the end that mean nothing. -/
def trimmed (pieces : List Bytes) : List Bytes :=
  (pieces.reverse.dropWhile fun piece => (component? piece).isNone).reverse

def components (path : Path) : List Component :=
  path.parts.anchor.components ++ path.parts.pieces.filterMap component?

/-- Two paths are the same when their components are. -/
def same (first second : Path) : Bool := first.components = second.components

/-- An absolute path replaces what it is joined to; a slash is put between when there is none. -/
def join (path other : Path) : Path :=
  if other.isAbsolute then other
  else if path.bytes = [] ∨ path.bytes.getLast? = some slash then ⟨path.bytes ++ other.bytes⟩
  else ⟨path.bytes ++ slash :: other.bytes⟩

def joinName (path : Path) (name : Bytes) : Path := path.join ⟨name⟩

/-- The path without its last component. The root has none, nor has the empty path. -/
def parent? (path : Path) : Option Path :=
  let parts := path.parts
  let pieces := trimmed parts.pieces
  if pieces = [] then (if parts.anchor = .here then some ⟨[]⟩ else none)
  else some (Parts.path ⟨parts.anchor, trimmed pieces.dropLast⟩)

/-- The last component, when it is a name. -/
def fileName? (path : Path) : Option Bytes :=
  match (trimmed path.parts.pieces).getLast? with
  | none => none
  | some piece => if piece = dots then none else some piece

def withFileName (path : Path) (name : Bytes) : Path :=
  match path.fileName? with
  | none => path.joinName name
  | some _ => (path.parent?.getD path).joinName name

def startsWith (path base : Path) : Bool := base.components.isPrefixOf path.components

/-- Takes components off the front of pieces, passing over pieces that mean nothing. -/
def dropComponents : List Component → List Bytes → Option (List Bytes)
  | [], pieces => some pieces
  | _ :: _, [] => none
  | component :: rest, piece :: pieces =>
    match component? piece with
    | none => dropComponents (component :: rest) pieces
    | some found => if found = component then dropComponents rest pieces else none

/-- What is left of a path after a base it starts with. -/
def stripBase? (path base : Path) : Option Path :=
  let parts := path.parts
  if base.components = [] then some (Parts.path ⟨parts.anchor, trimmed parts.pieces⟩)
  else if base.parts.anchor ≠ parts.anchor then none
  else
    (dropComponents (base.parts.pieces.filterMap component?) parts.pieces).map fun pieces =>
      Parts.path ⟨.none, (trimmed pieces).dropWhile fun piece => (component? piece).isNone⟩

/-- The path seen from a base, or the path itself when it does not lie below. -/
def relativeTo (path base : Path) : Path := (path.stripBase? base).getD path

/-- The first `count` of a path, its parent, the parent of that, and so on. -/
def ancestorsFrom : (count : Nat) → Path → List Path
  | 0, _ => []
  | count + 1, path =>
    path :: match path.parent? with
      | none => []
      | some parent => ancestorsFrom count parent

def ancestors (path : Path) : List Path := ancestorsFrom (path.bytes.length + 1) path

/-- The components folded: `.` is dropped and `..` takes back the name before it. -/
def fold : List Component → List Component → List Component
  | folded, [] => folded.reverse
  | folded, .here :: rest => fold folded rest
  | .name _ :: folded, .up :: rest => fold folded rest
  | folded, .up :: rest => fold folded rest
  | folded, component :: rest => fold (component :: folded) rest

def ofComponent : Component → Path
  | .root => ⟨[slash]⟩
  | .here => ⟨dot⟩
  | .up => ⟨dots⟩
  | .name name => ⟨name⟩

def ofComponents (components : List Component) : Path :=
  components.foldl (fun path component => path.join (ofComponent component)) ⟨[]⟩

def normalized (path : Path) : Path := ofComponents (fold [] path.components)

end Path
end Retarget
