import Retarget.Toml.Text
import Retarget.Toml.Value

/-!
Numbers, booleans and dates. Digits may be parted by single underscores between two of them; integers
fit in 64 bits with sign; a float that overflows upwards is refused.
-/
namespace Retarget.Toml

def isBetween (low high char : Char) : Bool := low ≤ char && char ≤ high

def isDigit (char : Char) : Bool := isBetween '0' '9' char

/-- Digits from the front of a text, underscores between them left out. -/
def digitsFrom (isDigit : Char → Bool) : List Char → List Char × List Char
  | [] => ([], [])
  | char :: rest =>
    if isDigit char then
      let (digits, rest) := digitsFrom isDigit rest
      (char :: digits, rest)
    else if char = '_' then
      match rest with
      | digit :: rest =>
        if isDigit digit then
          let (digits, rest) := digitsFrom isDigit rest
          (digit :: digits, rest)
        else ([], char :: digit :: rest)
      | [] => ([], [char])
    else ([], char :: rest)

/-- At least one digit, the first of them no underscore. -/
def digits? (isDigit : Char → Bool) (text : List Char) : Option (List Char × List Char) :=
  match text with
  | [] => none
  | char :: _ => if isDigit char then some (digitsFrom isDigit text) else none

/-- A sign, if there is one: whether it is a minus, and the text behind it. -/
def sign : List Char → Bool × List Char
  | '-' :: rest => (true, rest)
  | '+' :: rest => (false, rest)
  | text => (false, text)

/-- Decimal digits without a leading zero, or a zero alone. -/
def wholeDigits? : List Char → Option (List Char × List Char)
  | '0' :: rest => some (['0'], rest)
  | text => digits? isDigit text

/-- The value of digits in a base up to sixteen. -/
def numberOf (base : Nat) (digits : List Char) : Nat :=
  digits.foldl (fun number digit => number * base + (hexValue? digit).getD 0) 0

def greatestInteger : Int := Int.pow 2 63 - 1

def leastInteger : Int := -Int.pow 2 63

def integerValue? (value : Int) : Option Value :=
  if leastInteger ≤ value ∧ value ≤ greatestInteger then some (.integer value) else none

def inBase? (base : Nat) (isDigit : Char → Bool) (text : List Char) : Option (Value × List Char) := do
  let (digits, rest) ← digits? isDigit text
  pure (← integerValue? (numberOf base digits), rest)

def integer? : List Char → Option (Value × List Char)
  | '0' :: 'x' :: rest => inBase? 16 (fun char => (hexValue? char).isSome) rest
  | '0' :: 'o' :: rest => inBase? 8 (isBetween '0' '7') rest
  | '0' :: 'b' :: rest => inBase? 2 (isBetween '0' '1') rest
  | text => do
    let (negative, rest) := sign text
    let (digits, rest) ← wholeDigits? rest
    let value : Int := numberOf 10 digits
    pure (← integerValue? (if negative then -value else value), rest)

/-- An exponent behind its letter. -/
def exponentTail (text : List Char) : Option (Int × List Char) := do
  let (negative, rest) := sign text
  let (digits, rest) ← digits? isDigit rest
  let value : Int := numberOf 10 digits
  pure (if negative then -value else value, rest)

/-- An exponent, when its letter is there. -/
def exponent? : List Char → Option (Int × List Char)
  | 'e' :: rest | 'E' :: rest => exponentTail rest
  | _ => none

def floatValue? (value : Binary64) : Option Value :=
  if value = .infinite false then none else some (.float value)

/-- A float with a fraction, an exponent or both. -/
def decimal? (text : List Char) : Option (Value × List Char) := do
  let (negative, rest) := sign text
  let (whole, rest) ← wholeDigits? rest
  let (fraction, exponent, rest) ←
    match rest with
    | '.' :: rest => do
      let (fraction, rest) ← digits? isDigit rest
      match rest with
      | 'e' :: rest | 'E' :: rest => do
        let (exponent, rest) ← exponentTail rest
        pure (fraction, exponent, rest)
      | rest => pure (fraction, 0, rest)
    | rest => do
      let (exponent, rest) ← exponent? rest
      pure ([], exponent, rest)
  let digits := whole ++ fraction
  let value := Binary64.ofDecimal negative (numberOf 10 digits) digits.length (exponent - fraction.length)
  pure (← floatValue? value, rest)

/-- The floats that are written as words. -/
def floatWord? (text : List Char) : Option (Value × List Char) :=
  let (negative, rest) := sign text
  match rest with
  | 'i' :: 'n' :: 'f' :: rest => some (.float (.infinite negative), rest)
  | 'n' :: 'a' :: 'n' :: rest => some (.float .nan, rest)
  | _ => none

/-- Two digits within bounds. -/
def twoDigits? (low high : Nat) : List Char → Option (Nat × List Char)
  | a :: b :: rest =>
    let value := numberOf 10 [a, b]
    if isDigit a ∧ isDigit b ∧ low ≤ value ∧ value ≤ high then some (value, rest) else none
  | _ => none

def after? (char : Char) : List Char → Option (List Char)
  | first :: rest => if first = char then some rest else none
  | [] => none

def daysIn (year month : Nat) : Nat :=
  if month = 2 then (if year % 4 = 0 ∧ (year % 100 ≠ 0 ∨ year % 400 = 0) then 29 else 28)
  else if month = 4 ∨ month = 6 ∨ month = 9 ∨ month = 11 then 30
  else 31

def date? : List Char → Option (List Char)
  | a :: b :: c :: d :: '-' :: rest =>
    if [a, b, c, d].all isDigit then do
      let (month, rest) ← twoDigits? 1 12 rest
      let (_, rest) ← twoDigits? 1 (daysIn (numberOf 10 [a, b, c, d]) month) (← after? '-' rest)
      pure rest
    else none
  | _ => none

/-- The fraction of a second, when there is one. -/
def skipFraction : List Char → List Char
  | '.' :: digit :: rest => if isDigit digit then rest.dropWhile isDigit else '.' :: digit :: rest
  | text => text

def time? (text : List Char) : Option (List Char) := do
  let (_, rest) ← twoDigits? 0 23 text
  let (_, rest) ← twoDigits? 0 59 (← after? ':' rest)
  let (_, rest) ← twoDigits? 0 60 (← after? ':' rest)
  pure (skipFraction rest)

/-- The distance from universal time, when it is given. -/
def skipOffset : List Char → Option (List Char)
  | 'Z' :: rest | 'z' :: rest => some rest
  | '+' :: rest | '-' :: rest => do
    let (_, rest) ← twoDigits? 0 23 rest
    let (_, rest) ← twoDigits? 0 59 (← after? ':' rest)
    pure rest
  | text => some text

def isTimeMark (char : Char) : Bool := char = 'T' || char = 't' || char = ' '

/-- A date, a time, or a date and a time. A date that nothing like a time follows stands alone. -/
def datetime? (text : List Char) : Option (Value × List Char) :=
  match date? text with
  | none => (time? text).map (.datetime, ·)
  | some rest =>
    match rest with
    | mark :: behind =>
      if isTimeMark mark then
        match time? behind with
        | none => some (.datetime, rest)
        | some behind => (skipOffset behind).map (.datetime, ·)
      else some (.datetime, rest)
    | [] => some (.datetime, [])

def number? (text : List Char) : Option (Value × List Char) :=
  datetime? text <|> decimal? text <|> floatWord? text <|> integer? text

/-- Any value that is neither an array nor a table. -/
def scalar? (text : List Char) : Option (Value × List Char) :=
  match text with
  | [] => none
  | 't' :: 'r' :: 'u' :: 'e' :: rest => some (.boolean true, rest)
  | 'f' :: 'a' :: 'l' :: 's' :: 'e' :: rest => some (.boolean false, rest)
  | 'i' :: _ | 'n' :: _ => floatWord? text
  | char :: _ =>
    if char = '"' ∨ char = '\'' then (string? text).map fun (value, rest) => (.string value, rest)
    else if isDigit char ∨ char = '+' ∨ char = '-' then number? text
    else none

end Retarget.Toml
