import Retarget.CommandLine.Argument
import Retarget.Configuration.Basic
import Retarget.Stage

/-!
The options of a command, which may stand before or behind its name. At one of the two places an option
stands once, except stages and verbosity, which add up.
-/
namespace Retarget

structure Options where
  root : Option Path
  configuration : Option Path
  job : Option String
  stages : List Stage
  json : Bool
  verbosity : Nat
deriving DecidableEq

/-- An option that takes a value. -/
inductive Setting where
  | root
  | configuration
  | job
  | stage
deriving DecidableEq

/-- An option that takes none. -/
inductive Switch where
  | json
  | verbose
  | version
deriving DecidableEq

namespace Setting

def named? (name : Bytes) : Option Setting :=
  if name = utf8 "root" then some root
  else if name = utf8 "config" then some configuration
  else if name = utf8 "job" then some job
  else if name = utf8 "stage" then some stage
  else none

end Setting

namespace Switch

def named? (name : Bytes) : Option Switch :=
  if name = utf8 "json" then some json
  else if name = utf8 "verbose" then some verbose
  else if name = utf8 "version" then some version
  else none

def lettered? (letter : UInt8) : Option Switch :=
  if letter = 0x76 then some verbose else if letter = 0x56 then some version else none

end Switch

/-- How the options of one place end. -/
inductive Ending where
  | finished
  | version
  | word (bytes : Bytes) (rest : List Bytes)
deriving DecidableEq

namespace Options

def none : Options := ⟨.none, .none, .none, [], false, 0⟩

/-- A value for a place that is still free. -/
def once {α : Type} (place : Option α) (value : α) : Option (Option α) :=
  match place with
  | .none => some (some value)
  | some _ => .none

def path? (bytes : Bytes) : Option Path := if bytes = [] then .none else some ⟨bytes⟩

def set (options : Options) (setting : Setting) (value : Bytes) : Option Options := do
  match setting with
  | .root => pure { options with root := ← once options.root (← path? value) }
  | .configuration => pure { options with configuration := ← once options.configuration (← path? value) }
  | .job => pure { options with job := ← once options.job (← text? value) }
  | .stage => pure { options with stages := options.stages ++ [← Stage.named? (← text? value)] }

/-- Turns on what a switch stands for. The version is asked for elsewhere. -/
def turnOn (options : Options) : Switch → Option Options
  | .json => if options.json then .none else some { options with json := true }
  | .verbose => some { options with verbosity := options.verbosity + 1 }
  | .version => .none

/-- Reads a cluster of letters; the request for the version cuts it short. -/
def readCluster (options : Options) : Bytes → Option (Options × Bool)
  | [] => some (options, false)
  | letter :: rest => do
    match ← Switch.lettered? letter with
    | .version => pure (options, true)
    | switch => readCluster (← options.turnOn switch) rest

/-- Reads options up to the end, the first word, or a request for the version. -/
def read (options : Options) : List Bytes → Option (Options × Ending)
  | [] => some (options, .finished)
  | argument :: rest =>
    match Argument.ofBytes argument with
    | .word word => some (options, .word word rest)
    | .stop => if rest = [] then some (options, .finished) else .none
    | .cluster letters =>
      match options.readCluster letters with
      | .none => .none
      | some (options, true) => some (options, .version)
      | some (options, false) => options.read rest
    | .long name (some value) =>
      match (Setting.named? name).bind (options.set · value) with
      | .none => .none
      | some options => options.read rest
    | .long name .none =>
      match Setting.named? name, Switch.named? name, rest with
      | some setting, _, value :: rest =>
        if Argument.isWord value then
          match options.set setting value with
          | .none => .none
          | some options => options.read rest
        else .none
      | .none, some .version, _ => some (options, .version)
      | .none, some switch, rest =>
        match options.turnOn switch with
        | .none => .none
        | some options => options.read rest
      | _, _, _ => .none

/-- Options from behind a command's name, completed by those in front of it. -/
def completedBy (behind front : Options) : Options where
  root := behind.root.or front.root
  configuration := behind.configuration.or front.configuration
  job := behind.job.or front.job
  stages := if behind.stages = [] then front.stages else behind.stages
  json := behind.json || front.json
  verbosity := if behind.verbosity = 0 then front.verbosity else behind.verbosity

/-- The stages to go through: all of them unless some are named. -/
def stageSet (options : Options) : StageSet :=
  if options.stages = [] then StageSet.all else StageSet.ofList options.stages

end Options
end Retarget
