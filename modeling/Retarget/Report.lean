import Retarget.Fingerprint
import Retarget.Json.Value

/-!
What a run or a check did, as text for people and as JSON. Paths are relative to the derived tree.
Counts are added as words of 64 bits. JSON is refused where a path is no text.
-/
namespace Retarget

structure RenamedFile where
  source : Path
  target : Path
  overwrote : Bool
deriving DecidableEq

structure RewrittenFile where
  path : Path
  substitutions : Nat
deriving DecidableEq

structure SkippedFile where
  path : Path
  reason : String
deriving DecidableEq

structure SubstitutionOutcome where
  scanned : Nat
  rewritten : List RewrittenFile
  skipped : List SkippedFile
deriving DecidableEq

namespace SubstitutionOutcome

def wordSize : Nat := Nat.pow 2 64

def total (outcome : SubstitutionOutcome) : Nat :=
  outcome.rewritten.foldl (fun sum file => sum + file.substitutions) 0 % wordSize

end SubstitutionOutcome

structure GenerationReport where
  job : String
  targetDirectory : Path
  copied : Option Nat
  renamed : List RenamedFile
  substitution : Option SubstitutionOutcome
  fingerprint : Fingerprint
deriving DecidableEq

/-- A pattern still found in a derived file, and how often. -/
structure Residual where
  path : Path
  pattern : String
  count : Nat
deriving DecidableEq

structure VerifyReport where
  job : String
  unrenamed : List Path
  residuals : List Residual
deriving DecidableEq

/-! ## Text -/

def joinLines (lines : List String) : String := String.intercalate "\n" lines

namespace SubstitutionOutcome

def lines (outcome : SubstitutionOutcome) : List String :=
  ("  Rewritten: " ++ toString outcome.rewritten.length ++ " of " ++ toString outcome.scanned ++ " files (" ++
    toString outcome.total ++ " substitutions)") ::
  outcome.skipped.map fun file => "  Skipped: " ++ file.path.display ++ " (" ++ file.reason ++ ")"

end SubstitutionOutcome

namespace GenerationReport

def lines (report : GenerationReport) : List String :=
  ["Job: " ++ report.job, "Target: " ++ report.targetDirectory.display] ++
  (report.copied.map fun count => "  Copied: " ++ toString count ++ " files").toList ++
  ["  Renamed: " ++ toString report.renamed.length ++ " files"] ++
  ((report.substitution.map SubstitutionOutcome.lines).getD []) ++
  ["  Fingerprint: " ++ report.fingerprint.text]

def text (report : GenerationReport) : String := joinLines report.lines

end GenerationReport

namespace VerifyReport

/-- Nothing is left to rename and no pattern is left to replace. -/
def passed (report : VerifyReport) : Bool := report.unrenamed.isEmpty && report.residuals.isEmpty

def lines (report : VerifyReport) : List String :=
  ["Job: " ++ report.job] ++
  (report.unrenamed.map fun path => "  Not renamed: " ++ path.display) ++
  (report.residuals.map fun residual =>
    "  Residual: " ++ residual.path.display ++ " contains '" ++ residual.pattern ++ "' x" ++ toString residual.count) ++
  ["  Status: " ++ if report.passed then "PASSED" else "FAILED"]

def text (report : VerifyReport) : String := joinLines report.lines

end VerifyReport

/-! ## JSON -/

/-- The reason for which a report is no JSON. -/
def pathNotText : String := "path contains invalid UTF-8 characters"

def Path.json? (path : Path) : Option Json := path.text?.map .string

/-- Applies a partial function to every item; one failure fails all. -/
def each? {α β : Type} (function : α → Option β) : List α → Option (List β)
  | [] => some []
  | item :: rest =>
    match function item, each? function rest with
    | some first, some others => some (first :: others)
    | _, _ => none

def Fingerprint.json (fingerprint : Fingerprint) : Json :=
  .object [("hash", .string fingerprint.hash.text), ("files", .number fingerprint.files)]

namespace RenamedFile

def json? (file : RenamedFile) : Option Json := do
  pure (.object [("from", ← file.source.json?), ("to", ← file.target.json?), ("overwrote", .boolean file.overwrote)])

end RenamedFile

namespace RewrittenFile

def json? (file : RewrittenFile) : Option Json := do
  pure (.object [("path", ← file.path.json?), ("substitutions", .number file.substitutions)])

end RewrittenFile

namespace SkippedFile

def json? (file : SkippedFile) : Option Json := do
  pure (.object [("path", ← file.path.json?), ("reason", .string file.reason)])

end SkippedFile

namespace SubstitutionOutcome

def json? (outcome : SubstitutionOutcome) : Option Json := do
  let rewritten ← each? RewrittenFile.json? outcome.rewritten
  let skipped ← each? SkippedFile.json? outcome.skipped
  pure (.object [("scanned", .number outcome.scanned), ("rewritten", .array rewritten), ("skipped", .array skipped)])

end SubstitutionOutcome

namespace GenerationReport

def substitutionJson? (report : GenerationReport) : Option Json :=
  match report.substitution with
  | none => some .null
  | some outcome => outcome.json?

def json? (report : GenerationReport) : Option Json := do
  let target ← report.targetDirectory.json?
  let renamed ← each? RenamedFile.json? report.renamed
  let substitution ← report.substitutionJson?
  pure (.object [
    ("job", .string report.job), ("target_dir", target), ("copied", (report.copied.map .number).getD .null),
    ("renamed", .array renamed), ("substitution", substitution), ("fingerprint", report.fingerprint.json)])

end GenerationReport

namespace Residual

def json? (residual : Residual) : Option Json := do
  pure (.object [
    ("path", ← residual.path.json?), ("pattern", .string residual.pattern), ("count", .number residual.count)])

end Residual

namespace VerifyReport

def json? (report : VerifyReport) : Option Json := do
  let unrenamed ← each? Path.json? report.unrenamed
  let residuals ← each? Residual.json? report.residuals
  pure (.object [("job", .string report.job), ("unrenamed", .array unrenamed), ("residuals", .array residuals)])

end VerifyReport
end Retarget
