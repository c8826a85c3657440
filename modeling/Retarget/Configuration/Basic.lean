import Retarget.Configuration.Job

/-!
A configuration: the directory that job paths start from, and the jobs in order. Job names tell jobs
apart, so in a valid configuration they differ.
-/
namespace Retarget

structure Configuration where
  root : Path
  jobs : List Job
deriving DecidableEq

namespace Configuration

def standardRoot : Path := Path.ofText "src"

/-- The configuration without a file: the built-in job alone. -/
def builtIn : Configuration := ⟨standardRoot, [Job.builtIn]⟩

def job? (configuration : Configuration) (name : String) : Option Job :=
  configuration.jobs.find? fun job => job.name = name

/-- The first violation among jobs, names that were `seen` before counting as taken. -/
def firstViolation : (seen : List String) → List Job → Option Violation
  | _, [] => none
  | seen, job :: rest =>
    if job.name ∈ seen then some (.repeatedJob job.name)
    else job.violation?.or (firstViolation (job.name :: seen) rest)

def violation? (configuration : Configuration) : Option Violation :=
  if configuration.jobs = [] then some .noJob else firstViolation [] configuration.jobs

/-- Whether two jobs agree, paths compared by their components and tables in whatever order. -/
def sameJob (first second : Job) : Bool :=
  first.name = second.name && first.base.same second.base && first.source = second.source &&
    first.target = second.target && first.naming = second.naming && first.table.sameEntries second.table

def sameJobs : List Job → List Job → Bool
  | [], [] => true
  | first :: firsts, second :: seconds => sameJob first second && sameJobs firsts seconds
  | _, _ => false

def same (first second : Configuration) : Bool := first.root.same second.root && sameJobs first.jobs second.jobs

end Configuration
end Retarget
