import Retarget.Configuration.Document
import Retarget.FileSystem.Walk

/-!
Why a run, or reading its configuration, comes to nothing. A failure has a message and may have a chain
of causes, each with a message of its own.
-/
namespace Retarget

inductive ConfigurationError where
  | unreadable (path : Path) (cause : OsError)
  | document (error : DocumentError)

namespace ConfigurationError

def syntaxMessage (detail : String) : List String := ["invalid config syntax: " ++ detail, detail]

/-- The message, and behind it those of the causes. -/
def chain : ConfigurationError → List String
  | unreadable path cause => ["io error reading config " ++ path.display ++ ": " ++ cause.message, cause.message]
  | document .syntaxError => syntaxMessage "not a TOML document"
  | document (.shape error) => syntaxMessage error.message
  | document (.invalid violation) => ["invalid config: " ++ violation.message]

def message (error : ConfigurationError) : String := error.chain.headD ""

end ConfigurationError

inductive Failure where
  | sourceMissing (path : Path)
  | targetMissing (path : Path)
  | overlap (source target : Path)
  | refused (path : Path) (cause : OsError)
  | walk (error : WalkError)
  | unknownJob (name : String)
  | invalid (violation : Violation)
deriving DecidableEq

namespace Failure

def message : Failure → String
  | sourceMissing path => "source tree not found: " ++ path.display
  | targetMissing path => "generated tree not found: " ++ path.display
  | overlap source target => "source " ++ source.display ++ " and destination " ++ target.display ++ " overlap"
  | refused path cause => "io error at " ++ path.display ++ ": " ++ cause.message
  | walk error => "failed to walk directory: " ++ error.message
  | unknownJob name => "unknown job: '" ++ name ++ "'"
  | invalid violation => "configuration error: invalid config: " ++ violation.message

def causes : Failure → List String
  | refused _ cause => [cause.message]
  | walk (.refused path cause) => [(WalkError.refused path cause).message, cause.message]
  | walk error => [error.message]
  | invalid violation => ["invalid config: " ++ violation.message]
  | _ => []

def chain (failure : Failure) : List String := failure.message :: failure.causes

end Failure
end Retarget
