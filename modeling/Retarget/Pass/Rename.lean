import Retarget.Pass.Files
import Retarget.Report
import Retarget.Session

/-!
The renaming pass: every regular file below a directory whose name carries the source mark gets the target
mark in its place. The files are settled before the first is renamed. Directories keep their names.
-/
namespace Retarget.Pass

open Act

/-- A file that is to be renamed. -/
structure Candidate where
  source : Path
  target : Path
deriving DecidableEq

def candidate? (naming : Naming) (file : Found) : Option Candidate :=
  (naming.rename? file.name).map fun name => ⟨file.path, file.path.withFileName name⟩

def renameFile (directory : Path) (candidate : Candidate) : Act Failure RenamedFile := do
  let overwrote ← look (·.isPresent candidate.target)
  if overwrote then note (.overwriting candidate.target)
  note (.writing candidate.target)
  change candidate.source (·.rename candidate.source candidate.target)
  pure ⟨candidate.source.relativeTo directory, candidate.target.relativeTo directory, overwrote⟩

def renameFiles (directory : Path) (naming : Naming) : Act Failure (List RenamedFile) := do
  note (.renamingFiles directory)
  let files ← examine (·.filesBelow directory)
  (files.filterMap (candidate? naming)).mapM (renameFile directory)

end Retarget.Pass
