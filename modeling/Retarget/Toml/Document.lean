import Retarget.Toml.Grammar

/-!
What the statements of a document add up to. A table may be opened once; tables that were only passed
through on the way to others may still be opened, tables made by dotted keys only be extended by dotted
keys; a key is given a value once. A table that is opened late stands behind those opened before.
-/
namespace Retarget.Toml

/-- What stands under a key while a document is put together. -/
inductive Item where
  | value (value : Value)
  /-- `passed` when nothing but deeper keys has mentioned it, `dotted` when that was in a dotted key. -/
  | table (passed dotted : Bool) (fields : List (String × Item))
  | elements (tables : List Item)

abbrev Fields := List (String × Item)

namespace Fields

def get? (key : String) (fields : Fields) : Option Item := (fields.find? fun field => field.1 = key).map (·.2)

def replace (key : String) (item : Item) (fields : Fields) : Fields :=
  fields.map fun field => if field.1 = key then (key, item) else field

def erase (key : String) (fields : Fields) : Fields := fields.filter fun field => field.1 ≠ key

end Fields

/-- Changes the table that a path leads to, and gives what the change gives besides. `isDotted` tells
of the table the path starts from whether a dotted key made it. -/
def alter {α : Type} (dotted : Bool) (change : Bool → Fields → Option (α × Fields)) (isDotted : Bool) :
    (path : List String) → Fields → Option (α × Fields)
  | [], fields => change isDotted fields
  | key :: path, fields =>
    match fields.get? key with
    | none => do
      let (result, inner) ← alter dotted change dotted path []
      pure (result, fields ++ [(key, .table true dotted inner)])
    | some (.value _) => none
    | some (.elements tables) =>
      match tables.getLast? with
      | some (.table passed isDotted inner) => do
        let (result, inner) ← alter dotted change isDotted path inner
        pure (result, fields.replace key (.elements (tables.dropLast ++ [.table passed isDotted inner])))
      | _ => none
    | some (.table passed isDotted inner) =>
      if dotted ∧ passed = false then none
      else do
        let (result, inner) ← alter dotted change isDotted path inner
        pure (result, fields.replace key (.table passed isDotted inner))

/-- Gives a key its value in the table that the rest of the key leads to. -/
def assign (assignment : Assignment) (fields : Fields) : Option Fields := do
  let change := fun (isDotted : Bool) (fields : Fields) =>
    if isDotted = assignment.path.isEmpty then none
    else match fields.get? assignment.key with
      | some _ => none
      | none => some ((), fields ++ [(assignment.key, Item.value assignment.value)])
  let (_, fields) ← alter true change false assignment.path fields
  pure fields

def assignAll : List Assignment → Fields → Option Fields
  | [], fields => some fields
  | assignment :: rest, fields => do assignAll rest (← assign assignment fields)

mutual

def Item.close : Item → Value
  | .value value => value
  | .table _ _ fields => .table (closeFields fields)
  | .elements tables => .array (closeItems tables)

def closeFields : List (String × Item) → List (String × Value)
  | [] => []
  | (key, item) :: rest => (key, item.close) :: closeFields rest

def closeItems : List Item → List Value
  | [] => []
  | item :: rest => item.close :: closeItems rest

end

/-- The fields of an inline table. -/
def inlineFields (assignments : List Assignment) : Option (List (String × Value)) :=
  (assignAll assignments []).map closeFields

/-- The table that is open, apart from the others until the next one is opened. -/
inductive Opened where
  | top
  | table (path : List String) (key : String)
  | element (path : List String) (key : String)

structure Draft where
  root : Fields
  opened : Opened
  current : Fields

namespace Draft

def empty : Draft := ⟨[], .top, []⟩

/-- The root with the open table put into its place. -/
def settle (draft : Draft) : Option Fields :=
  match draft.opened with
  | .top => some draft.current
  | .table path key => do
    let change := fun (_ : Bool) (fields : Fields) =>
      match fields.get? key with
      | some _ => none
      | none => some ((), fields ++ [(key, Item.table false false draft.current)])
    let (_, root) ← alter false change false path draft.root
    pure root
  | .element path key => do
    let table := Item.table false false draft.current
    let change := fun (_ : Bool) (fields : Fields) =>
      match fields.get? key with
      | none => some ((), fields ++ [(key, Item.elements [table])])
      | some (.elements tables) => some ((), Fields.replace key (.elements (tables ++ [table])) fields)
      | some _ => none
    let (_, root) ← alter false change false path draft.root
    pure root

/-- Opens a table: one that was passed through is taken out with what it holds. -/
def openTable (draft : Draft) (path : List String) (key : String) : Option Draft := do
  let root ← draft.settle
  let change := fun (_ : Bool) (fields : Fields) =>
    match fields.get? key with
    | none => some ([], fields)
    | some (.table true false inner) => some (inner, Fields.erase key fields)
    | some _ => none
  let (current, root) ← alter false change false path root
  pure ⟨root, .table path key, current⟩

/-- Opens a new element; the array keeps the position of its first mention. -/
def openElement (draft : Draft) (path : List String) (key : String) : Option Draft := do
  let root ← draft.settle
  let change := fun (_ : Bool) (fields : Fields) =>
    match fields.get? key with
    | none => some ((), fields ++ [(key, Item.elements [])])
    | some (.elements _) => some ((), fields)
    | some _ => none
  let (_, root) ← alter false change false path root
  pure ⟨root, .element path key, []⟩

def run (draft : Draft) : Statement → Option Draft
  | .assign assignment => do pure { draft with current := ← assign assignment draft.current }
  | .openTable path key => draft.openTable path key
  | .openElement path key => draft.openElement path key

def runAll (draft : Draft) : List Statement → Option Draft
  | [] => some draft
  | statement :: rest => do (← draft.run statement).runAll rest

end Draft

/-- The fields of a document; none if the text is no document. -/
def read (text : String) : Option (List (String × Value)) := do
  let chars := match text.toList with
    | '\uFEFF' :: rest => rest
    | chars => chars
  let statements ← statements inlineFields (chars.length + 1) chars
  let draft ← Draft.empty.runAll statements
  pure (closeFields (← draft.settle))

end Retarget.Toml
