import Retarget.FileSystem.Change
import Retarget.Failure
import Retarget.Fingerprint
import Retarget.Substitution.Hazard

/-!
The state that a run works on, the file system and the events noted so far, and steps on it. A step that
fails keeps what it changed and noted before.
-/
namespace Retarget

inductive Event where
  | patternRepeated (repeated : Repeat)
  | configurationLoaded (path : Path)
  | running (job : String) (target : Path)
  | hazard (job : String) (hazard : Hazard)
  | removing (target : Path)
  | copying (source target : Path)
  | copied (path : Path)
  | renamingFiles (directory : Path)
  | overwriting (path : Path)
  | writing (path : Path)
  | scanning (directory : Path)
  | skipping (path : Path)
  | rewriting (path : Path) (substitutions : Nat)
  | done (job : String) (fingerprint : Fingerprint)
  | verifying (directory : Path)
deriving DecidableEq

inductive Level where
  | info
  | debug
  | warning
deriving DecidableEq

def Level.name : Level → String
  | info => "INFO"
  | debug => "DEBUG"
  | warning => "WARN"

namespace Event

def level : Event → Level
  | patternRepeated _ | hazard .. | overwriting _ | skipping _ => .warning
  | configurationLoaded _ | copied _ | writing _ | rewriting .. => .debug
  | running .. | removing _ | copying .. | renamingFiles _ | scanning _ | done .. | verifying _ => .info

def message : Event → String
  | patternRepeated repeated =>
    "Pattern '" ++ repeated.pattern ++ "' listed twice, '" ++ repeated.previous ++ "' replaced"
  | configurationLoaded path => "Loaded config from " ++ path.display
  | running job target => "Running job '" ++ job ++ "' (" ++ target.display ++ ")"
  | hazard job found => "Job '" ++ job ++ "': table " ++ found.text
  | removing target => "Removing previous output: " ++ target.display
  | copying source target => "Copying: " ++ source.display ++ " -> " ++ target.display
  | copied path => "Copied: " ++ path.display
  | renamingFiles directory => "Renaming: " ++ directory.display
  | overwriting path => "Overwriting existing file: " ++ path.display
  | writing path => "Writing: " ++ path.display
  | scanning directory => "Scanning: " ++ directory.display
  | skipping path => "Skipping non UTF-8 file: " ++ path.display
  | rewriting path substitutions => "Rewriting: " ++ path.display ++ " (" ++ toString substitutions ++ " substitutions)"
  | done job fingerprint => "Job '" ++ job ++ "' done, output " ++ fingerprint.text
  | verifying directory => "Verifying: " ++ directory.display

def line (event : Event) : String := event.level.name ++ " " ++ event.message

end Event

structure Session where
  files : FileSystem
  log : List Event
deriving DecidableEq

/-- A step that may fail for a reason of type `ε`. -/
abbrev Act (ε α : Type) := ExceptT ε (StateM Session) α

namespace Act

variable {ε α : Type}

/-- What a step gives, and the state it leaves. -/
def runOn (act : Act ε α) (session : Session) : Except ε α × Session := act.run.run session

def note (event : Event) : Act ε Unit := modify fun session => { session with log := session.log ++ [event] }

def noteAll (events : List Event) : Act ε Unit :=
  modify fun session => { session with log := session.log ++ events }

/-- Looks at the file system. -/
def look (view : FileSystem → α) : Act ε α := do pure (view (← get).files)

/-- Looks at the file system for what may not be there. -/
def examine (view : FileSystem → Except ε α) : Act ε α := do ofExcept (view (← get).files)

/-- An operation that happens whole or not at all; its failure is reported for a path. -/
def change (path : Path) (operation : FileSystem → Except OsError FileSystem) : Act Failure Unit := do
  match operation (← get).files with
  | .ok files => modify fun session => { session with files := files }
  | .error cause => throw (.refused path cause)

/-- An operation that may come halfway. -/
def changePartly (path : Path) (operation : FileSystem → Except OsError Unit × FileSystem) : Act Failure Unit := do
  let (result, files) := operation (← get).files
  modify fun session => { session with files := files }
  match result with
  | .ok () => pure ()
  | .error cause => throw (.refused path cause)

end Act
end Retarget
