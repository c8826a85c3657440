/-!
JSON values as they are written: compactly, or over several lines with two blanks for each level.
Numbers are natural numbers; the fields of an object keep their order.
-/
namespace Retarget

inductive Json where
  | null
  | boolean (value : Bool)
  | number (value : Nat)
  | string (value : String)
  | array (items : List Json)
  | object (fields : List (String × Json))

namespace Json

def hexDigits : List Char := "0123456789abcdef".toList

/-- A character inside a written string. Quotes, backslashes and control characters are escaped. -/
def escaped (char : Char) : List Char :=
  if char = '"' then ['\\', '"']
  else if char = '\\' then ['\\', '\\']
  else if char = '\x08' then ['\\', 'b']
  else if char = '\t' then ['\\', 't']
  else if char = '\n' then ['\\', 'n']
  else if char = '\x0c' then ['\\', 'f']
  else if char = '\r' then ['\\', 'r']
  else if char.toNat < 0x20 then
    ['\\', 'u', '0', '0', hexDigits.getD (char.toNat / 16) '0', hexDigits.getD (char.toNat % 16) '0']
  else [char]

def quoted (text : String) : List Char := '"' :: text.toList.flatMap escaped ++ ['"']

mutual

def compact : Json → List Char
  | null => "null".toList
  | boolean true => "true".toList
  | boolean false => "false".toList
  | number value => (toString value).toList
  | string value => quoted value
  | array [] => ['[', ']']
  | array (item :: rest) => '[' :: compact item ++ compactItems rest ++ [']']
  | object [] => ['\x7b', '\x7d']
  | object ((name, value) :: rest) =>
    '\x7b' :: quoted name ++ ':' :: compact value ++ compactFields rest ++ ['\x7d']

def compactItems : List Json → List Char
  | [] => []
  | item :: rest => ',' :: compact item ++ compactItems rest

def compactFields : List (String × Json) → List Char
  | [] => []
  | (name, value) :: rest => ',' :: quoted name ++ ':' :: compact value ++ compactFields rest

end

/-- A new line at a level. -/
def indent (level : Nat) : List Char := '\n' :: List.replicate (2 * level) ' '

mutual

def pretty (level : Nat) : Json → List Char
  | null => "null".toList
  | boolean true => "true".toList
  | boolean false => "false".toList
  | number value => (toString value).toList
  | string value => quoted value
  | array [] => ['[', ']']
  | array (item :: rest) =>
    '[' :: indent (level + 1) ++ pretty (level + 1) item ++ prettyItems (level + 1) rest ++ indent level ++ [']']
  | object [] => ['\x7b', '\x7d']
  | object ((name, value) :: rest) =>
    '\x7b' :: indent (level + 1) ++ quoted name ++ ':' :: ' ' :: pretty (level + 1) value ++
      prettyFields (level + 1) rest ++ indent level ++ ['\x7d']

def prettyItems (level : Nat) : List Json → List Char
  | [] => []
  | item :: rest => ',' :: indent level ++ pretty level item ++ prettyItems level rest

def prettyFields (level : Nat) : List (String × Json) → List Char
  | [] => []
  | (name, value) :: rest =>
    ',' :: indent level ++ quoted name ++ ':' :: ' ' :: pretty level value ++ prettyFields level rest

end

def compactText (json : Json) : String := String.ofList json.compact

def prettyText (json : Json) : String := String.ofList (json.pretty 0)

end Json
end Retarget
