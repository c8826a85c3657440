import Retarget.Pass.Copy
import Retarget.Pass.Rename
import Retarget.Pass.Residue
import Retarget.Pass.Rewrite
import Retarget.Stage

/-!
Running jobs and checking what they left. A run goes through its stages in their fixed order; the first
failure ends it. All paths of a job start from the root of the configuration.
-/
namespace Retarget

open Act

namespace Job

/-- Refuses a job that breaks a constraint. -/
def check (job : Job) : Act Failure Unit :=
  match job.violation? with
  | some violation => throw (.invalid violation)
  | none => pure ()

def run (root : Path) (stages : StageSet) (job : Job) : Act Failure GenerationReport := do
  job.check
  let target := job.targetDirectory root
  note (.running job.name target)
  noteAll (job.table.hazards.map (.hazard job.name))
  let copied ← if stages.copy then some <$> Pass.copyTree (job.sourceDirectory root) target else pure none
  let renamed ← if stages.rename then Pass.renameFiles target job.naming else pure []
  let substitution ←
    if stages.substitute then some <$> Pass.rewriteFiles target job.naming job.table else pure none
  let fingerprint ← examine (·.fingerprint target)
  note (.done job.name fingerprint)
  pure ⟨job.name, target, copied, renamed, substitution, fingerprint⟩

def verify (root : Path) (job : Job) : Act Failure VerifyReport := do
  let target := job.targetDirectory root
  note (.verifying target)
  let residue ← examine fun files => Pass.residue files target job.naming job.table
  pure ⟨job.name, residue.unrenamed, residue.residuals⟩

end Job

namespace Configuration

def findJob (configuration : Configuration) (name : String) : Except Failure Job :=
  match configuration.job? name with
  | some job => .ok job
  | none => .error (.unknownJob name)

def runAll (configuration : Configuration) (stages : StageSet) : Act Failure (List GenerationReport) :=
  configuration.jobs.mapM (Job.run configuration.root stages)

def runNamed (configuration : Configuration) (stages : StageSet) (name : String) : Act Failure GenerationReport := do
  let job ← ofExcept (configuration.findJob name)
  job.run configuration.root stages

/-- Reads a configuration from text. -/
def read (text : String) : Act DocumentError Configuration := do
  let (result, repeats) := ofDocument text
  noteAll (repeats.map .patternRepeated)
  ofExcept result

/-- Reads a configuration from a file. -/
def load (path : Path) : Act ConfigurationError Configuration := do
  let contents ← examine fun files => (files.read path).mapError (.unreadable path)
  match text? contents with
  | none => throw (.unreadable path .contentsNotText)
  | some text =>
    note (.configurationLoaded path)
    (read text).adapt .document

end Configuration
end Retarget
