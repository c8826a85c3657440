import Retarget.Json.Reader
import Retarget.Json.Value
import Retarget.Substitution.Hazard

/-!
A table as a JSON list of its entries. In reading, an entry may be an object, whose other fields are
passed over, or the array of its two fields.
-/
namespace Retarget

def Substitution.json (entry : Substitution) : Json :=
  .object [("from", .string entry.pattern), ("to", .string entry.replacement)]

def Table.json (table : Table) : Json := .array (table.entries.map Substitution.json)

def Hazard.json (hazard : Hazard) : Json :=
  .object [("earlier", .number hazard.earlier), ("later", .number hazard.later), ("kind", .string hazard.kind.name)]

namespace Listing

open Json

/-- What the fields read so far have given. -/
structure Draft where
  pattern : Option String
  replacement : Option String

/-- The rest of an entry written as an object, from a field on. Each of the two fields stands once. -/
def readFields : (fuel : Nat) → Draft → List Char → Option (Substitution × List Char)
  | 0, _, _ => none
  | fuel + 1, draft, text => do
    let (name, rest) ← readString text
    let rest ← expect ':' rest
    let (draft, rest) ←
      if name = "from" then
        match draft.pattern with
        | some _ => none
        | none => (readString rest).map fun (value, rest) => (⟨some value, draft.replacement⟩, rest)
      else if name = "to" then
        match draft.replacement with
        | some _ => none
        | none => (readString rest).map fun (value, rest) => (⟨draft.pattern, some value⟩, rest)
      else (skipValue (fuelFor rest) rest).map (draft, ·)
    match expect ',' rest with
    | some rest => readFields fuel draft rest
    | none => do
      let rest ← expect '\x7d' rest
      pure (⟨← draft.pattern, ← draft.replacement⟩, rest)

def readEntry (text : List Char) : Option (Substitution × List Char) :=
  match skipBlank text with
  | '\x7b' :: rest => readFields (rest.length + 1) ⟨none, none⟩ rest
  | '[' :: rest => do
    let (pattern, rest) ← readString rest
    let (replacement, rest) ← readString (← expect ',' rest)
    pure (⟨pattern, replacement⟩, ← expect ']' rest)
  | _ => none

/-- The entries from the first on, up to the closing bracket. -/
def readEntries : (fuel : Nat) → List Char → Option (List Substitution × List Char)
  | 0, _ => none
  | fuel + 1, text => do
    let (entry, rest) ← readEntry text
    match expect ',' rest with
    | some rest => do
      let (entries, rest) ← readEntries fuel rest
      pure (entry :: entries, rest)
    | none => pure ([entry], ← expect ']' rest)

/-- The entries of a whole text. -/
def read (text : String) : Option (List Substitution) := do
  let rest ← expect '[' text.toList
  let (entries, rest) ←
    match expect ']' rest with
    | some rest => some ([], rest)
    | none => readEntries (rest.length + 1) rest
  if skipBlank rest = [] then pure entries else none

end Listing
end Retarget
