import Retarget.Toml.Scalar

/-!
A document as the statements it makes, line by line: a key is given a value, a table is opened, an
element of an array of tables is opened. What the statements add up to is not decided here.
-/
namespace Retarget.Toml

/-- A key, all but its last part apart, and the value it is given. -/
structure Assignment where
  path : List String
  key : String
  value : Value

inductive Statement where
  | assign (assignment : Assignment)
  | openTable (path : List String) (key : String)
  | openElement (path : List String) (key : String)

/-- Parts a dotted key into its last part and those before. -/
def unsnoc? (keys : List String) : Option (List String × String) := keys.getLast?.map (keys.dropLast, ·)

/-- The items of an array up to its closing bracket. A comma may follow the last one. -/
def arrayTail (readValue : List Char → Option (Value × List Char)) :
    (fuel : Nat) → List Char → Option (List Value × List Char)
  | 0, _ => none
  | fuel + 1, text =>
    match filler text with
    | ']' :: rest => some ([], rest)
    | rest => do
      let (value, rest) ← readValue rest
      match filler rest with
      | ',' :: rest => do
        let (values, rest) ← arrayTail readValue fuel rest
        pure (value :: values, rest)
      | ']' :: rest => pure ([value], rest)
      | _ => none

/-- A key, an equals sign and a value. -/
def assignment? (readValue : List Char → Option (Value × List Char)) (text : List Char) :
    Option (Assignment × List Char) := do
  let (keys, rest) ← key? text
  let (path, key) ← unsnoc? keys
  let (value, rest) ← readValue (skipBlank (← after? '=' rest))
  pure (⟨path, key, value⟩, rest)

/-- The assignments of an inline table from the first on, up to its closing brace. -/
def inlineTail (readValue : List Char → Option (Value × List Char)) :
    (fuel : Nat) → List Char → Option (List Assignment × List Char)
  | 0, _ => none
  | fuel + 1, text => do
    let (assignment, rest) ← assignment? readValue text
    match skipBlank rest with
    | ',' :: rest => do
      let (assignments, rest) ← inlineTail readValue fuel rest
      pure (assignment :: assignments, rest)
    | '\x7d' :: rest => pure ([assignment], rest)
    | _ => none

def inlineTable? (readValue : List Char → Option (Value × List Char)) (text : List Char) :
    Option (List Assignment × List Char) :=
  match skipBlank text with
  | '\x7d' :: rest => some ([], rest)
  | rest => inlineTail readValue (rest.length + 1) rest

/-- A value in which arrays and inline tables stand at most `depth` deep. `build` makes the fields of an
inline table from its assignments. -/
def value? (build : List Assignment → Option (List (String × Value))) :
    (depth : Nat) → List Char → Option (Value × List Char)
  | depth, '[' :: rest =>
    match depth with
    | 0 => none
    | depth + 1 => (arrayTail (value? build depth) (rest.length + 1) rest).map fun (items, rest) => (.array items, rest)
  | depth, '\x7b' :: rest =>
    match depth with
    | 0 => none
    | depth + 1 => do
      let (assignments, rest) ← inlineTable? (value? build depth) rest
      pure (.table (← build assignments), rest)
  | _, text => scalar? text

/-- The head of a table or of an element, behind its opening brackets. -/
def header? (closing : List Char) (text : List Char) : Option ((List String × String) × List Char) := do
  let (keys, rest) ← key? text
  if closing.isPrefixOf rest then pure (← unsnoc? keys, ← lineEnd (rest.drop closing.length)) else none

/-- One line that makes a statement. -/
def statement? (build : List Assignment → Option (List (String × Value))) (text : List Char) :
    Option (Statement × List Char) :=
  match text with
  | '[' :: '[' :: rest => (header? [']', ']'] rest).map fun ((path, key), rest) => (.openElement path key, rest)
  | '[' :: rest => (header? [']'] rest).map fun ((path, key), rest) => (.openTable path key, rest)
  | text => do
    let (assignment, rest) ← assignment? (value? build (depthLimit - 1)) text
    pure (.assign assignment, ← lineEnd rest)

/-- The statements of all lines. -/
def statements (build : List Assignment → Option (List (String × Value))) :
    (fuel : Nat) → List Char → Option (List Statement)
  | 0, _ => none
  | fuel + 1, text =>
    match skipBlank text with
    | [] => some []
    | '#' :: rest => do statements build fuel (← lineEnd ('#' :: rest))
    | '\n' :: rest => statements build fuel rest
    | '\r' :: rest => do statements build fuel (← after? '\n' rest)
    | text => do
      let (statement, rest) ← statement? build text
      let more ← statements build fuel rest
      pure (statement :: more)

end Retarget.Toml
