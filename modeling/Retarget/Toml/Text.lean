/-!
The parts of TOML that are read character by character: blanks, comments, line ends, strings and keys.
A reader takes what it reads off the front of a text and gives the rest.
-/
namespace Retarget.Toml

def isBlank (char : Char) : Bool := char = ' ' || char = '\t'

def skipBlank (text : List Char) : List Char := text.dropWhile isBlank

/-- Characters that stand for themselves in comments: all but controls, of which the tab is allowed. -/
def isPlain (char : Char) : Bool := char = '\t' || (0x20 ≤ char.toNat && char.toNat ≠ 0x7F)

def newline? : List Char → Option (List Char)
  | '\n' :: rest => some rest
  | '\r' :: '\n' :: rest => some rest
  | _ => none

def skipComment : List Char → List Char
  | '#' :: rest => rest.dropWhile isPlain
  | text => text

/-- The end of a line behind blanks and a comment; the end of the text will do. -/
def lineEnd (text : List Char) : Option (List Char) :=
  match skipComment (skipBlank text) with
  | [] => some []
  | rest => newline? rest

/-- Passes over blanks, line ends and comments. -/
def skipFiller (inComment : Bool) : List Char → List Char
  | [] => []
  | char :: rest =>
    if inComment && isPlain char then skipFiller true rest
    else if isBlank char || char = '\n' then skipFiller false rest
    else if char = '#' then skipFiller true rest
    else if char = '\r' then
      match rest with
      | '\n' :: rest => skipFiller false rest
      | _ => char :: rest
    else char :: rest

def filler (text : List Char) : List Char := skipFiller false text

def hexValue? (char : Char) : Option Nat :=
  if '0' ≤ char ∧ char ≤ '9' then some (char.toNat - '0'.toNat)
  else if 'a' ≤ char ∧ char ≤ 'f' then some (char.toNat - 'a'.toNat + 10)
  else if 'A' ≤ char ∧ char ≤ 'F' then some (char.toNat - 'A'.toNat + 10)
  else none

def hexNumber? (digits : List Char) : Option Nat :=
  digits.foldl (fun number digit => do pure ((← number) * 16 + (← hexValue? digit))) (some 0)

/-- The character with a number, if there is one. -/
def charNumbered? (number : Nat) : Option Char :=
  if number.isValidChar then some (Char.ofNat number) else none

def shortEscape? (char : Char) : Option Char :=
  if char = '"' ∨ char = '\\' then some char
  else if char = 'b' then some '\x08'
  else if char = 'f' then some '\x0c'
  else if char = 'n' then some '\n'
  else if char = 'r' then some '\r'
  else if char = 't' then some '\t'
  else none

def consTo (char : Option Char) (read : Option (List Char × List Char)) : Option (List Char × List Char) := do
  let (chars, rest) ← read
  pure ((← char) :: chars, rest)

/-- A string on one line, up to the closing quote. -/
def basicTail : List Char → Option (List Char × List Char)
  | [] => none
  | '"' :: rest => some ([], rest)
  | '\\' :: 'u' :: a :: b :: c :: d :: rest =>
    consTo (do charNumbered? (← hexNumber? [a, b, c, d])) (basicTail rest)
  | '\\' :: 'U' :: a :: b :: c :: d :: e :: f :: g :: h :: rest =>
    consTo (do charNumbered? (← hexNumber? [a, b, c, d, e, f, g, h])) (basicTail rest)
  | '\\' :: escape :: rest => consTo (shortEscape? escape) (basicTail rest)
  | char :: rest => if isPlain char then consTo (some char) (basicTail rest) else none

def literalTail : List Char → Option (List Char × List Char)
  | [] => none
  | char :: rest =>
    if char = '\'' then some ([], rest)
    else if isPlain char then consTo (some char) (literalTail rest)
    else none

/-- Inside a string of several lines: at its text, behind a backslash that must be followed by a line
end, or behind that line end, where further blanks and line ends are dropped. -/
inductive Inside where
  | text
  | broken
  | dropped
deriving DecidableEq

/-- Whether a backslash in front of this text stands for a line end that is to be dropped. -/
def breaksLine : List Char → Bool
  | [] => false
  | char :: _ => isBlank char || char = '\n' || char = '\r'

/-- A string of several lines, up to three closing quotes. One or two quotes more belong to the text. -/
def linesTail (mode : Inside) : List Char → Option (List Char × List Char)
  | [] => none
  | char :: rest =>
    if mode ≠ .text ∧ isBlank char then linesTail mode rest
    else if mode ≠ .text ∧ char = '\n' then linesTail .dropped rest
    else if mode ≠ .text ∧ char = '\r' then
      match rest with
      | '\n' :: rest => linesTail .dropped rest
      | _ => none
    else if mode = .broken then none
    else if char = '"' then
      match rest with
      | '"' :: '"' :: '"' :: '"' :: rest => some (['"', '"'], rest)
      | '"' :: '"' :: '"' :: rest => some (['"'], rest)
      | '"' :: '"' :: rest => some ([], rest)
      | _ => consTo (some '"') (linesTail .text rest)
    else if char = '\\' ∧ breaksLine rest then linesTail .broken rest
    else if char = '\\' then
      match rest with
      | 'u' :: a :: b :: c :: d :: rest =>
        consTo (do charNumbered? (← hexNumber? [a, b, c, d])) (linesTail .text rest)
      | 'U' :: a :: b :: c :: d :: e :: f :: g :: h :: rest =>
        consTo (do charNumbered? (← hexNumber? [a, b, c, d, e, f, g, h])) (linesTail .text rest)
      | escape :: rest => consTo (shortEscape? escape) (linesTail .text rest)
      | [] => none
    else if char = '\n' then consTo (some '\n') (linesTail .text rest)
    else if char = '\r' then
      match rest with
      | '\n' :: rest => consTo (some '\n') (linesTail .text rest)
      | _ => none
    else if isPlain char then consTo (some char) (linesTail .text rest)
    else none

def literalLinesTail : List Char → Option (List Char × List Char)
  | [] => none
  | char :: rest =>
    if char = '\'' then
      match rest with
      | '\'' :: '\'' :: '\'' :: '\'' :: rest => some (['\'', '\''], rest)
      | '\'' :: '\'' :: '\'' :: rest => some (['\''], rest)
      | '\'' :: '\'' :: rest => some ([], rest)
      | _ => consTo (some '\'') (literalLinesTail rest)
    else if char = '\n' then consTo (some '\n') (literalLinesTail rest)
    else if char = '\r' then
      match rest with
      | '\n' :: rest => consTo (some '\n') (literalLinesTail rest)
      | _ => none
    else if isPlain char then consTo (some char) (literalLinesTail rest)
    else none

/-- A line end right behind the opening quotes is dropped. -/
def dropNewline (text : List Char) : List Char := (newline? text).getD text

def asText (read : Option (List Char × List Char)) : Option (String × List Char) := read.map fun (chars, rest) => (String.ofList chars, rest)

/-- A string of any of the four kinds, from its opening quote on. -/
def string? : List Char → Option (String × List Char)
  | '"' :: '"' :: '"' :: rest => asText (linesTail .text (dropNewline rest))
  | '"' :: rest => asText (basicTail rest)
  | '\'' :: '\'' :: '\'' :: rest => asText (literalLinesTail (dropNewline rest))
  | '\'' :: rest => asText (literalTail rest)
  | _ => none

def isBareKey (char : Char) : Bool := char.isAlphanum || char = '-' || char = '_'

def simpleKey : List Char → Option (String × List Char)
  | '"' :: rest => asText (basicTail rest)
  | '\'' :: rest => asText (literalTail rest)
  | text =>
    let key := text.takeWhile isBareKey
    if key = [] then none else some (String.ofList key, text.dropWhile isBareKey)

/-- The keys of a dotted key, blanks around each. -/
def dottedKey : (fuel : Nat) → List Char → Option (List String × List Char)
  | 0, _ => none
  | fuel + 1, text => do
    let (key, rest) ← simpleKey (skipBlank text)
    match skipBlank rest with
    | '.' :: rest => do
      let (keys, rest) ← dottedKey fuel rest
      pure (key :: keys, rest)
    | rest => pure ([key], rest)

/-- From this depth on, arrays, inline tables and dotted keys are refused. -/
def depthLimit : Nat := 80

def key? (text : List Char) : Option (List String × List Char) := do
  let (keys, rest) ← dottedKey (text.length + 1) text
  if depthLimit ≤ keys.length then none else pure (keys, rest)

end Retarget.Toml
