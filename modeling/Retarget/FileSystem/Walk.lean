import Retarget.FileSystem.Resolve

/-!
Visiting a whole tree by path. Links below the top are met and not followed. A walk is the list of
what it meets, in order; it may break off at a directory whose path is too long to be opened.
-/
namespace Retarget

inductive WalkError where
  | refused (path : Path) (cause : OsError)
  | loop (ancestor child : Path)
deriving DecidableEq

def WalkError.message : WalkError → String
  | refused path cause => "IO error for operation on " ++ path.display ++ ": " ++ cause.message
  | loop ancestor child =>
    "File system loop found: " ++ child.display ++ " points to an ancestor " ++ ancestor.display

/-- Something met on a walk. `place` is where it stands, seen from the top. -/
structure Found where
  path : Path
  place : Place
  entry : Entry
deriving DecidableEq

namespace Found

def name (found : Found) : Bytes := found.place.getLast?.getD []

def isFile (found : Found) : Bool :=
  match found.entry with
  | .leaf (.file _) => true
  | _ => false

end Found

namespace Path

def descend (path : Path) (place : Place) : Path := place.foldl Path.joinName path

/-- A directory under a path that the system takes can be opened. -/
def opens (path : Path) : Bool := path.bytes.length < pathLimit

end Path

namespace Tree

def walkFrom (tree : Tree) (top : Path) : List (Except WalkError Found) :=
  tree.walk.flatMap fun (place, entry) =>
    let path := top.descend place
    if entry = .directory ∧ path.opens = false then
      [.ok ⟨path, place, entry⟩, .error (.refused path .nameTooLong)]
    else [.ok ⟨path, place, entry⟩]

end Tree

namespace FileSystem

def walk (files : FileSystem) (top : Path) : List (Except WalkError Found) :=
  match files.lstat top with
  | .error cause => [.error (.refused top cause)]
  | .ok (_, .branch inner) => .ok ⟨top, [], .directory⟩ :: inner.walkFrom top
  | .ok (_, .leaf (.link target)) =>
    match files.stat top with
    | .error cause => [.error (.refused top cause)]
    | .ok (_, .branch inner) => .ok ⟨top, [], .leaf (.link target)⟩ :: inner.walkFrom top
    | .ok (_, .leaf _) => [.ok ⟨top, [], .leaf (.link target)⟩]
  | .ok (_, .leaf content) => [.ok ⟨top, [], .leaf content⟩]

end FileSystem
end Retarget
