import Retarget.Configuration.Shape
import Retarget.Toml.Document

/-!
A configuration read from a TOML document. It is valid, or the reading fails with a reason.
-/
namespace Retarget

/-- Why text gives no configuration. -/
inductive DocumentError where
  | syntaxError
  | shape (error : ShapeError)
  | invalid (violation : Violation)

namespace Configuration

/-- Reads a document and gives also the patterns that its tables repeat. -/
def ofDocument (text : String) : Except DocumentError Configuration × List Repeat :=
  match Toml.read text with
  | none => (.error .syntaxError, [])
  | some fields =>
    match (Shape.configuration fields).run.run [] with
    | (.error error, repeats) => (.error (.shape error), repeats)
    | (.ok configuration, repeats) =>
      match configuration.violation? with
      | some violation => (.error (.invalid violation), repeats)
      | none => (.ok configuration, repeats)

end Configuration
end Retarget
