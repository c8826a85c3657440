import Retarget.CommandLine.Options

/-!
What a command line asks for. Without a command it asks to generate; the version can be asked for only in
front of a command.
-/
namespace Retarget

inductive Command where
  | generate
  | verify
  | table
deriving DecidableEq

def Command.named? (name : Bytes) : Option Command :=
  if name = utf8 "generate" then some .generate
  else if name = utf8 "verify" then some .verify
  else if name = utf8 "table" then some .table
  else none

inductive Request where
  | version
  | command (command : Command) (options : Options)
deriving DecidableEq

/-- The request that arguments make, if they make one. -/
def Request.ofArguments (arguments : List Bytes) : Option Request := do
  match ← Options.none.read arguments with
  | (_, .version) => pure .version
  | (options, .finished) => pure (.command .generate options)
  | (front, .word name rest) =>
    let command ← Command.named? name
    match ← Options.none.read rest with
    | (behind, .finished) => pure (.command command (behind.completedBy front))
    | _ => none

end Retarget
