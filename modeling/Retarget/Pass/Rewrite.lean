import Retarget.Pass.Files
import Retarget.Report
import Retarget.Session

/-!
The rewriting pass: the substitutions are applied to every regular file below a directory whose name
carries the target mark. Contents that are no text are left alone, and so are those that do not change.
-/
namespace Retarget.Pass

open Act

/-- What came of one file. -/
inductive Finding where
  | kept
  | skipped (file : SkippedFile)
  | rewritten (file : RewrittenFile)
deriving DecidableEq

namespace Finding

def skipped? : Finding → Option SkippedFile
  | skipped file => some file
  | _ => none

def rewritten? : Finding → Option RewrittenFile
  | rewritten file => some file
  | _ => none

def outcome (findings : List Finding) : SubstitutionOutcome :=
  ⟨findings.length, findings.filterMap rewritten?, findings.filterMap skipped?⟩

end Finding

def notTextReason : String := "not valid UTF-8"

def rewriteFile (directory : Path) (table : Table) (file : Found) : Act Failure Finding := do
  let contents ← examine (·.contents file.path)
  match text? contents with
  | none =>
    note (.skipping file.path)
    pure (.skipped ⟨file.path.relativeTo directory, notTextReason⟩)
  | some text =>
    let (result, substitutions) := table.apply text
    if substitutions = 0 ∨ result = text then pure .kept
    else
      note (.rewriting file.path substitutions)
      change file.path (·.write file.path (utf8 result))
      pure (.rewritten ⟨file.path.relativeTo directory, substitutions⟩)

def rewriteFiles (directory : Path) (naming : Naming) (table : Table) : Act Failure SubstitutionOutcome := do
  note (.scanning directory)
  let files ← examine (·.filesBelow directory)
  let findings ← (files.filter fun file => naming.isTarget file.name).mapM (rewriteFile directory table)
  pure (Finding.outcome findings)

end Retarget.Pass
