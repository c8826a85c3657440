/-!
Reading JSON text. A reader takes what it reads off the front of a text. Strings that are kept must name
whole characters; in values that are passed over an escaped half of a surrogate pair is let through.
-/
namespace Retarget.Json

def isBlank (char : Char) : Bool := char = ' ' || char = '\t' || char = '\n' || char = '\r'

def skipBlank (text : List Char) : List Char := text.dropWhile isBlank

/-- Passes over blanks and then a given character. -/
def expect (char : Char) (text : List Char) : Option (List Char) :=
  match skipBlank text with
  | [] => none
  | first :: rest => if first = char then some rest else none

def hexValue? (char : Char) : Option Nat :=
  if '0' ≤ char ∧ char ≤ '9' then some (char.toNat - '0'.toNat)
  else if 'a' ≤ char ∧ char ≤ 'f' then some (char.toNat - 'a'.toNat + 10)
  else if 'A' ≤ char ∧ char ≤ 'F' then some (char.toNat - 'A'.toNat + 10)
  else none

/-- The number that four hexadecimal digits write. -/
def unit? (a b c d : Char) : Option Nat := do
  pure ((((← hexValue? a) * 16 + (← hexValue? b)) * 16 + (← hexValue? c)) * 16 + (← hexValue? d))

def isHigh (unit : Nat) : Bool := 0xD800 ≤ unit && unit < 0xDC00

def isLow (unit : Nat) : Bool := 0xDC00 ≤ unit && unit < 0xE000

/-- The character behind a backslash and one letter. -/
def shortEscape? (char : Char) : Option Char :=
  if char = '"' ∨ char = '\\' ∨ char = '/' then some char
  else if char = 'b' then some '\x08'
  else if char = 'f' then some '\x0c'
  else if char = 'n' then some '\n'
  else if char = 'r' then some '\r'
  else if char = 't' then some '\t'
  else none

def consTo (char : Char) (read : Option (List Char × List Char)) : Option (List Char × List Char) :=
  read.map fun (chars, rest) => (char :: chars, rest)

/-- The characters of a string up to its closing quote, and the text behind it. -/
def stringTail : List Char → Option (List Char × List Char)
  | [] => none
  | '"' :: rest => some ([], rest)
  | '\\' :: 'u' :: a :: b :: c :: d :: rest =>
    match unit? a b c d with
    | none => none
    | some high =>
      if isHigh high then
        match rest with
        | '\\' :: 'u' :: e :: f :: g :: h :: rest =>
          match unit? e f g h with
          | none => none
          | some low =>
            if isLow low then
              consTo (Char.ofNat (0x10000 + (high - 0xD800) * 0x400 + (low - 0xDC00))) (stringTail rest)
            else none
        | _ => none
      else if isLow high then none
      else consTo (Char.ofNat high) (stringTail rest)
  | '\\' :: escape :: rest =>
    match shortEscape? escape with
    | none => none
    | some char => consTo char (stringTail rest)
  | char :: rest => if char.toNat < 0x20 then none else consTo char (stringTail rest)

/-- A string, blanks in front of it allowed. -/
def readString (text : List Char) : Option (String × List Char) :=
  match expect '"' text with
  | none => none
  | some rest => (stringTail rest).map fun (chars, rest) => (String.ofList chars, rest)

/-- The text behind a string's closing quote. -/
def skipStringTail : List Char → Option (List Char)
  | [] => none
  | '"' :: rest => some rest
  | '\\' :: 'u' :: a :: b :: c :: d :: rest =>
    match unit? a b c d with
    | none => none
    | some _ => skipStringTail rest
  | '\\' :: escape :: rest =>
    match shortEscape? escape with
    | none => none
    | some _ => skipStringTail rest
  | char :: rest => if char.toNat < 0x20 then none else skipStringTail rest

/-- Passes over one digit or more. -/
def skipDigits : List Char → Option (List Char)
  | [] => none
  | first :: rest => if first.isDigit then some (rest.dropWhile Char.isDigit) else none

def skipExponent : List Char → Option (List Char)
  | 'e' :: '+' :: rest | 'e' :: '-' :: rest | 'E' :: '+' :: rest | 'E' :: '-' :: rest => skipDigits rest
  | 'e' :: rest | 'E' :: rest => skipDigits rest
  | rest => some rest

def skipFraction : List Char → Option (List Char)
  | '.' :: rest => do skipExponent (← skipDigits rest)
  | rest => skipExponent rest

/-- Passes over a number without its sign. A leading zero stands alone. -/
def skipNumber : List Char → Option (List Char)
  | '0' :: next :: rest => if next.isDigit then none else skipFraction (next :: rest)
  | text => do skipFraction (← skipDigits text)

mutual

/-- Passes over any value. `fuel` bounds how many values and items are begun. -/
def skipValue : (fuel : Nat) → List Char → Option (List Char)
  | 0, _ => none
  | fuel + 1, text =>
    match skipBlank text with
    | 'n' :: 'u' :: 'l' :: 'l' :: rest => some rest
    | 't' :: 'r' :: 'u' :: 'e' :: rest => some rest
    | 'f' :: 'a' :: 'l' :: 's' :: 'e' :: rest => some rest
    | '"' :: rest => skipStringTail rest
    | '-' :: rest => skipNumber rest
    | '[' :: rest =>
      match expect ']' rest with
      | some rest => some rest
      | none => skipItems fuel rest
    | '\x7b' :: rest =>
      match expect '\x7d' rest with
      | some rest => some rest
      | none => skipFields fuel rest
    | rest => skipNumber rest

def skipItems : (fuel : Nat) → List Char → Option (List Char)
  | 0, _ => none
  | fuel + 1, text => do
    let rest ← skipValue fuel text
    match expect ',' rest with
    | some rest => skipItems fuel rest
    | none => expect ']' rest

def skipFields : (fuel : Nat) → List Char → Option (List Char)
  | 0, _ => none
  | fuel + 1, text => do
    let rest ← skipValue fuel (← expect ':' (← skipStringTail (← expect '"' text)))
    match expect ',' rest with
    | some rest => skipFields fuel rest
    | none => expect '\x7d' rest

end

/-- Enough for any text, since every second value or item takes a character. -/
def fuelFor (text : List Char) : Nat := 2 * text.length + 2

end Retarget.Json
