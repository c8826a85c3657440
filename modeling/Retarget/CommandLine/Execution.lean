import Retarget.CommandLine.Outcome
import Retarget.CommandLine.Request
import Retarget.Run
import Retarget.Substitution.Listing

/-!
Carrying out a request. Generation writes each report as soon as its job is done, so reports of finished
jobs stand before a complaint; with JSON there is one list at the end or none.
-/
namespace Retarget

open Act

def version : String := "0.1.0"

namespace Execution

def eachLine (lines : List String) : String := String.join (lines.map (· ++ "\n"))

/-- A list of reports as JSON over several lines. -/
def jsonOutput (items : Option (List Json)) (status : Nat) : Outcome :=
  match items with
  | some items => ⟨(Json.array items).prettyText ++ "\n", none, status⟩
  | none => Outcome.failure "" .notJson

def configuration (options : Options) : Act Complaint Configuration := do
  let loaded ← match options.configuration with
    | some path => (Configuration.load path).adapt (.loading path)
    | none => pure Configuration.builtIn
  match options.root with
  | some root => pure { loaded with root := root }
  | none => pure loaded

def selected (options : Options) (configuration : Configuration) : Except Complaint (List Job) :=
  match options.job with
  | some name => ((configuration.findJob name).mapError .failed).map fun job => [job]
  | none => .ok configuration.jobs

/-- The root and the jobs that a command works on. -/
def selection (options : Options) : Act Complaint (Path × List Job) := do
  let configuration ← configuration options
  pure (configuration.root, ← ofExcept (selected options configuration))

/-- Runs jobs up to the first that fails, and gives the reports of those before it. -/
def runEach (root : Path) (stages : StageSet) : List Job → StateM Session (List GenerationReport × Option Complaint)
  | [] => pure ([], none)
  | job :: rest => do
    match ← (job.run root stages).run with
    | .error failure => pure ([], some (.jobFailed job.name failure))
    | .ok report =>
      let (reports, complaint) ← runEach root stages rest
      pure (report :: reports, complaint)

def generated (json : Bool) (reports : List GenerationReport) (complaint : Option Complaint) : Outcome :=
  match json, complaint with
  | true, some complaint => Outcome.failure "" complaint
  | true, none => jsonOutput (each? GenerationReport.json? reports) 0
  | false, some complaint => Outcome.failure (eachLine (reports.map GenerationReport.text)) complaint
  | false, none => Outcome.success (eachLine (reports.map GenerationReport.text))

def generate (options : Options) : StateM Session Outcome := do
  match ← (selection options).run with
  | .error complaint => pure (Outcome.failure "" complaint)
  | .ok (root, jobs) =>
    let (reports, complaint) ← runEach root options.stageSet jobs
    pure (generated options.json reports complaint)

def verified (json : Bool) (reports : List VerifyReport) : Outcome :=
  let status := if reports.all VerifyReport.passed then 0 else 1
  if json then jsonOutput (each? VerifyReport.json? reports) status
  else ⟨eachLine (reports.map VerifyReport.text), none, status⟩

def verify (options : Options) : Act Complaint Outcome := do
  let (root, jobs) ← selection options
  let reports ← jobs.mapM fun job => (job.verify root).adapt .failed
  pure (verified options.json reports)

def tableJson (job : Job) : Json :=
  .object [
    ("job", .string job.name), ("table", job.table.json), ("hazards", .array (job.table.hazards.map Hazard.json))]

def entryLine (entry : Substitution) (number : Nat) : String :=
  "  #" ++ toString number ++ " " ++ entry.pattern ++ " -> " ++ entry.replacement

def hazardLines (hazards : List Hazard) : List String :=
  if hazards = [] then ["  Ordering hazards: none"] else hazards.map fun hazard => "  Hazard: " ++ hazard.text

def tableLines (job : Job) : List String :=
  ["Job: " ++ job.name ++ " (" ++ job.source ++ " -> " ++ job.target ++ ")",
    "  Files: " ++ job.naming.source ++ "* -> " ++ job.naming.target ++ "*"] ++
  (job.table.entries.zipIdx.map fun (entry, number) => entryLine entry number) ++
  hazardLines job.table.hazards

def table (options : Options) : Act Complaint Outcome := do
  let (_, jobs) ← selection options
  if options.json then pure (jsonOutput (some (jobs.map tableJson)) 0)
  else pure (Outcome.success (eachLine (jobs.flatMap tableLines)))

/-- What a command that writes only at its end leaves behind. -/
def concluded (act : Act Complaint Outcome) : StateM Session Outcome := do
  match ← act.run with
  | .ok outcome => pure outcome
  | .error complaint => pure (Outcome.failure "" complaint)

def command (options : Options) : Command → StateM Session Outcome
  | .generate => generate options
  | .verify => concluded (verify options)
  | .table => concluded (table options)

end Execution

/-- Carries out what arguments ask for. -/
def execute (arguments : List Bytes) : StateM Session Outcome :=
  match Request.ofArguments arguments with
  | none => pure Outcome.refusal
  | some .version => pure (Outcome.success ("singlegen " ++ version ++ "\n"))
  | some (.command command options) => Execution.command options command

end Retarget
