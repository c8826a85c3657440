import Retarget.Number.Binary64

/-!
The values of a TOML document. A table keeps its keys in the order in which they were given. Values
are told apart part by part, since lists of them stand inside them.
-/
namespace Retarget.Toml

inductive Value where
  | string (value : String)
  | integer (value : Int)
  | float (value : Binary64)
  | boolean (value : Bool)
  /-- A date, a time or both. Only that it is one is kept. -/
  | datetime
  | array (items : List Value)
  | table (fields : List (String × Value))

mutual

def Value.same : Value → Value → Bool
  | .string value, .string other => value == other
  | .integer value, .integer other => value == other
  | .float value, .float other => value == other
  | .boolean value, .boolean other => value == other
  | .datetime, .datetime => true
  | .array items, .array others => sameItems items others
  | .table fields, .table others => sameFields fields others
  | _, _ => false

def sameItems : List Value → List Value → Bool
  | [], [] => true
  | item :: rest, other :: others => item.same other && sameItems rest others
  | _, _ => false

def sameFields : List (String × Value) → List (String × Value) → Bool
  | [], [] => true
  | (key, value) :: rest, (name, other) :: others =>
    key == name && value.same other && sameFields rest others
  | _, _ => false

end

mutual

theorem Value.same_iff : ∀ value other : Value, value.same other = true ↔ value = other
  | .string _, other => by cases other <;> simp [Value.same]
  | .integer _, other => by cases other <;> simp [Value.same]
  | .float _, other => by cases other <;> simp [Value.same]
  | .boolean _, other => by cases other <;> simp [Value.same]
  | .datetime, other => by cases other <;> simp [Value.same]
  | .array items, other => by cases other <;> simp [Value.same, sameItems_iff items]
  | .table fields, other => by cases other <;> simp [Value.same, sameFields_iff fields]

theorem sameItems_iff : ∀ items others : List Value, sameItems items others = true ↔ items = others
  | [], others => by cases others <;> simp [sameItems]
  | item :: rest, others => by
    cases others <;> simp [sameItems, Value.same_iff item, sameItems_iff rest]

theorem sameFields_iff : ∀ fields others : List (String × Value),
    sameFields fields others = true ↔ fields = others
  | [], others => by cases others <;> simp [sameFields]
  | (key, value) :: rest, others => by
    cases others <;> simp [sameFields, Value.same_iff value, sameFields_iff rest, Prod.ext_iff]

end

instance : DecidableEq Value := fun value other => decidable_of_iff _ (Value.same_iff value other)

end Retarget.Toml
