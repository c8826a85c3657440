import Retarget.Failure
import Retarget.FileSystem.Change
import Retarget.Fingerprint

/-!
The regular files below a directory, in walk order, and the fingerprint they have together.
-/
namespace Retarget.FileSystem

/-- A walk without failures. -/
def unbroken : List (Except WalkError Found) → Except Failure (List Found)
  | [] => .ok []
  | .error error :: _ => .error (.walk error)
  | .ok found :: rest => (unbroken rest).map (found :: ·)

/-- The regular files of a derived tree, which has to be a directory. -/
def filesBelow (files : FileSystem) (directory : Path) : Except Failure (List Found) :=
  if files.isDirectory directory then (unbroken (files.walk directory)).map fun found => found.filter Found.isFile
  else .error (.targetMissing directory)

def contents (files : FileSystem) (path : Path) : Except Failure Bytes := (files.read path).mapError (.refused path)

def mark (files : FileSystem) (top path : Path) : Except Failure Mark := do
  pure ⟨(path.relativeTo top).key, Blake3.hash (← files.contents path)⟩

/-- The marks of the regular files on a walk, each file being read when it is met. -/
def marksOn (files : FileSystem) (top : Path) : List (Except WalkError Found) → Except Failure (List Mark)
  | [] => .ok []
  | .error error :: _ => .error (.walk error)
  | .ok found :: rest =>
    if found.isFile then do
      let first ← files.mark top found.path
      pure (first :: (← files.marksOn top rest))
    else files.marksOn top rest

def marks (files : FileSystem) (top : Path) : Except Failure (List Mark) := files.marksOn top (files.walk top)

def fingerprint (files : FileSystem) (top : Path) : Except Failure Fingerprint :=
  (files.marks top).map Fingerprint.ofMarks

end Retarget.FileSystem
