import Retarget.Text.Unseen

/-!
Text in double quotes as it stands in messages. Quotes, backslashes and the common controls are escaped
by a letter, other unseen characters by their number in braces.
-/
namespace Retarget

def hexDigitsOf (value : Nat) : List Char := Nat.toDigits 16 value

namespace Quoted

def escaped (char : Char) : List Char :=
  if char = '\x00' then ['\\', '0']
  else if char = '\t' then ['\\', 't']
  else if char = '\r' then ['\\', 'r']
  else if char = '\n' then ['\\', 'n']
  else if char = '\\' ∨ char = '"' then ['\\', char]
  else if Unseen.holds char then '\\' :: 'u' :: '\x7b' :: hexDigitsOf char.toNat ++ ['\x7d']
  else [char]

def write (text : String) : String := String.ofList ('"' :: text.toList.flatMap escaped ++ ['"'])

end Quoted
end Retarget
