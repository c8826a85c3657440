import Retarget.FileSystem.Resolve

/-!
Where a path will lead once the directories missing from it are made: the nearest ancestor that is there
gives the place, and the names below it follow as they are written.
-/
namespace Retarget.FileSystem

/-- Climbs from a path, at most `count` times, to what is there, and gathers the names left behind. -/
def climb (files : FileSystem) : (count : Nat) → Path → List Bytes → Path × List Bytes
  | 0, path, names => (path, names)
  | count + 1, path, names =>
    if files.isPresent path then (path, names)
    else match path.parent?, path.fileName? with
      | some parent, some name => files.climb count parent (name :: names)
      | _, _ => (path, names)

def absolute (files : FileSystem) (path : Path) : Path := (Path.ofPlace files.cwd).join path

/-- The place a path leads to or will lead to; else the ancestor that cannot be found, and why. -/
def forecast (files : FileSystem) (path : Path) : Except (Path × OsError) Path :=
  let start := files.absolute path
  let (present, names) := files.climb (start.bytes.length + 1) start []
  match files.canonical present with
  | .error cause => .error (present, cause)
  | .ok top => .ok (names.foldl Path.joinName top).normalized

/-- Whether one of two paths contains the other. -/
def overlapping (first second : Path) : Bool := first.startsWith second || second.startsWith first

end Retarget.FileSystem
