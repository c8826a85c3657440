import Retarget.Text.Utf8

/-!
One argument of a command line. Two dashes open a long name, one dash a cluster of letters; anything else
is a word, and so is a dash alone. Two dashes alone end the options.
-/
namespace Retarget

inductive Argument where
  | word (bytes : Bytes)
  | long (name : Bytes) (value : Option Bytes)
  | cluster (letters : Bytes)
  | stop
deriving DecidableEq

namespace Argument

def dash : UInt8 := 0x2D

def equals : UInt8 := 0x3D

/-- A long name and the value behind the first equals sign, if there is one. -/
def ofLong (bytes : Bytes) : Argument :=
  match bytes.dropWhile (· ≠ equals) with
  | [] => .long bytes none
  | _ :: value => .long (bytes.takeWhile (· ≠ equals)) (some value)

def ofBytes (bytes : Bytes) : Argument :=
  match bytes with
  | [] => .word []
  | first :: rest =>
    if first ≠ dash ∨ rest = [] then .word bytes
    else if rest.head? = some dash then (if rest = [dash] then .stop else ofLong rest.tail)
    else .cluster rest

/-- Whether an argument can be the value of the option before it. -/
def isWord (bytes : Bytes) : Bool :=
  match ofBytes bytes with
  | .word _ => true
  | _ => false

end Argument
end Retarget
