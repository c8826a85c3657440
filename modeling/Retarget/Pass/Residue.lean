import Retarget.Pass.Files
import Retarget.Report

/-!
What the passes have left to do in a derived tree: files that still carry the source mark, and patterns
that still stand in files with the target mark. A pattern that its own replacement contains always stays
behind, so it is not looked for.
-/
namespace Retarget.Pass

structure Residue where
  unrenamed : List Path
  residuals : List Residual
deriving DecidableEq

def Residue.append (first second : Residue) : Residue :=
  ⟨first.unrenamed ++ second.unrenamed, first.residuals ++ second.residuals⟩

/-- An entry that leaves no pattern behind where it was applied. -/
def isChecked (entry : Substitution) : Bool :=
  entry.pattern ≠ "" && !occursIn entry.pattern.toList entry.replacement.toList

def residual? (path : Path) (text : List Char) (entry : Substitution) : Option Residual :=
  let count := occurrences entry.pattern.toList text
  if isChecked entry && count ≠ 0 then some ⟨path, entry.pattern, count⟩ else none

def residueOfFile (files : FileSystem) (directory : Path) (naming : Naming) (table : Table) (file : Found) :
    Except Failure Residue :=
  let relative := file.path.relativeTo directory
  if naming.isSource file.name then .ok ⟨[relative], []⟩
  else if naming.isTarget file.name then do
    match text? (← files.contents file.path) with
    | none => pure ⟨[], []⟩
    | some text => pure ⟨[], table.entries.filterMap (residual? relative text.toList)⟩
  else .ok ⟨[], []⟩

def residueOfFiles (files : FileSystem) (directory : Path) (naming : Naming) (table : Table) :
    List Found → Except Failure Residue
  | [] => .ok ⟨[], []⟩
  | file :: rest => do
    let first ← residueOfFile files directory naming table file
    pure (first.append (← residueOfFiles files directory naming table rest))

def residue (files : FileSystem) (directory : Path) (naming : Naming) (table : Table) : Except Failure Residue := do
  residueOfFiles files directory naming table (← files.filesBelow directory)

end Retarget.Pass
