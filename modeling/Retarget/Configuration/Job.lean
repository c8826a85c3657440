import Retarget.FileSystem.Path
import Retarget.Naming
import Retarget.Substitution.Table

/-!
A job derives one variant: it names the two sibling directories below a base, the marks on file names
and the substitutions in contents.
-/
namespace Retarget

structure Job where
  name : String
  base : Path
  source : String
  target : String
  naming : Naming
  table : Table
deriving DecidableEq

/-- What a configuration may not be. Violations of one job carry its name. -/
inductive Violation where
  | noJob
  | repeatedJob (name : String)
  | namelessJob
  | emptyDirectory (job : String)
  | sameDirectories (job : String)
  | emptyMark (job : String)
  | sameMarks (job : String)
  | emptyPattern (job : String)
deriving DecidableEq

def Violation.message : Violation → String
  | noJob => "at least one job is required"
  | repeatedJob name => "duplicate job name '" ++ name ++ "'"
  | namelessJob => "job name must not be empty"
  | emptyDirectory job => "job '" ++ job ++ "': subpackage names must not be empty"
  | sameDirectories job => "job '" ++ job ++ "': source and target subpackages are the same"
  | emptyMark job => "job '" ++ job ++ "': file prefixes must not be empty"
  | sameMarks job => "job '" ++ job ++ "': source and target prefixes are the same"
  | emptyPattern job => "job '" ++ job ++ "': replacement patterns must not be empty"

namespace Job

def standardSource : String := "tdouble"

def standardTarget : String := "tfloat"

/-- A job with the usual directories and marks and nothing to substitute. -/
def named (name : String) (base : Path) : Job :=
  ⟨name, base, standardSource, standardTarget, Naming.standard, Table.empty⟩

def builtInName : String := "jpower"

def builtInTable : Table :=
  (Table.ofList [
    ⟨"tdouble", "tfloat"⟩, ⟨"Djp", "Sjp"⟩, ⟨"DoubleMatrix1D", "FloatMatrix1D"⟩,
    ⟨"DoubleMatrix2D", "FloatMatrix2D"⟩, ⟨"DoubleFunctions", "FloatFunctions"⟩, ⟨"dfunc", "sfunc"⟩,
    ⟨"SparseDoubleAlgebra", "SparseFloatAlgebra"⟩]).1

/-- The job that runs when no configuration is given. -/
def builtIn : Job := { named builtInName (Path.ofText "edu/cornell/pserc/jpower") with table := builtInTable }

def sourceDirectory (job : Job) (root : Path) : Path := (root.join job.base).join (Path.ofText job.source)

def targetDirectory (job : Job) (root : Path) : Path := (root.join job.base).join (Path.ofText job.target)

/-- The first constraint that a job breaks. -/
def violation? (job : Job) : Option Violation :=
  if job.name = "" then some .namelessJob
  else if job.source = "" ∨ job.target = "" then some (.emptyDirectory job.name)
  else if job.source = job.target then some (.sameDirectories job.name)
  else if job.naming.source = "" ∨ job.naming.target = "" then some (.emptyMark job.name)
  else if job.naming.source = job.naming.target then some (.sameMarks job.name)
  else if "" ∈ job.table.patterns then some (.emptyPattern job.name)
  else none

end Job
end Retarget
