import Retarget.Configuration.Basic
import Retarget.Text.Quoted
import Retarget.Toml.Value

/-!
From the fields of a document to a configuration. Fields are taken in the order of the document, and
missing ones are looked for afterwards. A job or a replacement may also be the array of its fields; fields
left out at the end of a job have their defaults, and what stands behind the last field is passed over.
-/
namespace Retarget

open Toml (Value)

/-- What a value was expected to be. -/
inductive Expected where
  | text
  | path
  | sequence
  | job
  | replacement
deriving DecidableEq

def Expected.description : Expected → String
  | text => "a string"
  | path => "path string"
  | sequence => "a sequence"
  | job => "struct RawJob"
  | replacement => "struct Replacement"

inductive ShapeError where
  | wrongKind (found : Value) (expected : Expected)
  | missingField (name : String)
  | unknownField (name : String) (known : List String)
  | tooShort (length : Nat) (expected : Expected) (fields : Nat)

namespace Toml.Value

/-- A value as messages speak of it. -/
def description : Value → String
  | string value => "string " ++ Quoted.write value
  | integer value => "integer `" ++ toString value ++ "`"
  | float value => "floating point `" ++ value.text ++ "`"
  | boolean value => "boolean `" ++ toString value ++ "`"
  | datetime => "map"
  | array _ => "sequence"
  | table _ => "map"

/-- The fields of a table. A date is seen as a table with one field. -/
def fields? : Value → Option (List (String × Value))
  | datetime => some [("$__toml_private_datetime", .string "")]
  | table fields => some fields
  | _ => none

end Toml.Value

namespace ShapeError

def inTicks (name : String) : String := "`" ++ name ++ "`"

def oneOf (names : List String) : String :=
  match names with
  | [first, second] => inTicks first ++ " or " ++ inTicks second
  | names => "one of " ++ String.intercalate ", " (names.map inTicks)

def message : ShapeError → String
  | wrongKind found expected => "invalid type: " ++ found.description ++ ", expected " ++ expected.description
  | missingField name => "missing field " ++ inTicks name
  | unknownField name known => "unknown field " ++ inTicks name ++ ", expected " ++ oneOf known
  | tooShort length expected fields =>
    "invalid length " ++ toString length ++ ", expected " ++ expected.description ++ " with " ++
      toString fields ++ " elements"

end ShapeError

/-- Reading a shape may fail, and it notes the patterns that tables repeat, also before it fails. -/
abbrev Shaped (α : Type) := ExceptT ShapeError (StateM (List Repeat)) α

namespace Shape

def text (value : Value) : Shaped String :=
  match value with
  | .string value => pure value
  | value => throw (.wrongKind value .text)

def path (value : Value) : Shaped Path :=
  match value with
  | .string value => pure (Path.ofText value)
  | value => throw (.wrongKind value .path)

def sequence (value : Value) : Shaped (List Value) :=
  match value with
  | .array items => pure items
  | value => throw (.wrongKind value .sequence)

def required {α : Type} (name : String) (value : Option α) : Shaped α :=
  match value with
  | some value => pure value
  | none => throw (.missingField name)

/-- Applies a reader to every item, in order. -/
def each {α : Type} (read : Value → Shaped α) : List Value → Shaped (List α)
  | [] => pure []
  | item :: rest => do
    let first ← read item
    let others ← each read rest
    pure (first :: others)

/-- Takes fields by name into a draft. -/
def byName {δ : Type} (set : String → Value → δ → Shaped δ) : List (String × Value) → δ → Shaped δ
  | [], draft => pure draft
  | (name, value) :: rest, draft => do byName set rest (← set name value draft)

/-- Takes fields by position into a draft; `short` is the error where a required one is left out. -/
def byPosition {δ : Type} (set : String → Value → δ → Shaped δ) (needed : String → Bool)
    (short : Nat → ShapeError) : (position : Nat) → List String → List Value → δ → Shaped δ
  | _, [], _, draft => pure draft
  | position, name :: names, [], draft =>
    if needed name then throw (short position) else byPosition set needed short (position + 1) names [] draft
  | position, name :: names, value :: values, draft => do
    byPosition set needed short (position + 1) names values (← set name value draft)

structure ReplacementDraft where
  pattern : Option String
  replacement : Option String

def ReplacementDraft.set (name : String) (value : Value) (draft : ReplacementDraft) : Shaped ReplacementDraft :=
  if name = "from" then do pure { draft with pattern := some (← text value) }
  else if name = "to" then do pure { draft with replacement := some (← text value) }
  else pure draft

def ReplacementDraft.finish (draft : ReplacementDraft) : Shaped Substitution := do
  let pattern ← required "from" draft.pattern
  let replacement ← required "to" draft.replacement
  pure ⟨pattern, replacement⟩

def replacement (value : Value) : Shaped Substitution := do
  let empty : ReplacementDraft := ⟨none, none⟩
  match value, value.fields? with
  | _, some fields => (← byName ReplacementDraft.set fields empty).finish
  | .array items, none =>
    let short := (ShapeError.tooShort · .replacement 2)
    (← byPosition ReplacementDraft.set (fun _ => true) short 0 ["from", "to"] items empty).finish
  | value, none => throw (.wrongKind value .replacement)

def table (value : Value) : Shaped Table := do
  let entries ← each replacement (← sequence value)
  let (table, repeats) := Table.ofList entries
  modify (· ++ repeats)
  pure table

structure JobDraft where
  name : Option String
  base : Option Path
  source : Option String
  target : Option String
  sourceMark : Option String
  targetMark : Option String
  table : Option Table

def JobDraft.empty : JobDraft := ⟨none, none, none, none, none, none, none⟩

def jobFields : List String := ["name", "base", "source", "target", "source_prefix", "target_prefix", "replace"]

def JobDraft.set (name : String) (value : Value) (draft : JobDraft) : Shaped JobDraft :=
  if name = "name" then do pure { draft with name := some (← text value) }
  else if name = "base" then do pure { draft with base := some (← path value) }
  else if name = "source" then do pure { draft with source := some (← text value) }
  else if name = "target" then do pure { draft with target := some (← text value) }
  else if name = "source_prefix" then do pure { draft with sourceMark := some (← text value) }
  else if name = "target_prefix" then do pure { draft with targetMark := some (← text value) }
  else if name = "replace" then do pure { draft with table := some (← Shape.table value) }
  else throw (.unknownField name jobFields)

def JobDraft.finish (draft : JobDraft) : Shaped Job := do
  let name ← required "name" draft.name
  let base ← required "base" draft.base
  let naming : Naming :=
    ⟨draft.sourceMark.getD Naming.standard.source, draft.targetMark.getD Naming.standard.target⟩
  pure ⟨name, base, draft.source.getD Job.standardSource, draft.target.getD Job.standardTarget, naming,
    draft.table.getD Table.empty⟩

def isRequired (name : String) : Bool := name = "name" || name = "base"

def job (value : Value) : Shaped Job := do
  match value, value.fields? with
  | _, some fields => (← byName JobDraft.set fields JobDraft.empty).finish
  | .array items, none =>
    let short := (ShapeError.tooShort · .job 7)
    (← byPosition JobDraft.set isRequired short 0 jobFields items JobDraft.empty).finish
  | value, none => throw (.wrongKind value .job)

structure ConfigurationDraft where
  root : Option Path
  jobs : Option (List Job)

def ConfigurationDraft.set (name : String) (value : Value) (draft : ConfigurationDraft) :
    Shaped ConfigurationDraft :=
  if name = "root" then do pure { draft with root := some (← path value) }
  else if name = "job" then do
    let items ← sequence value
    pure { draft with jobs := some (← each job items) }
  else throw (.unknownField name ["root", "job"])

def configuration (fields : List (String × Value)) : Shaped Configuration := do
  let draft ← byName ConfigurationDraft.set fields ⟨none, none⟩
  pure ⟨draft.root.getD Configuration.standardRoot, draft.jobs.getD []⟩

end Shape
end Retarget
