import Retarget.Text.Utf8

/-!
The rule that tells files of the two variants apart: names that begin with the source mark belong to the
source, names that begin with the target mark to the target. Renaming swaps the mark and keeps the rest.
The rule is given for names as text and for names as bytes; an empty mark marks nothing.
-/
namespace Retarget

structure Naming where
  source : String
  target : String
deriving DecidableEq

namespace Naming

def standard : Naming := ⟨"D", "S"⟩

/-- What stands behind a mark at the front of a list. -/
def behind? {α : Type} [DecidableEq α] : (mark list : List α) → Option (List α)
  | [], list => some list
  | _ :: _, [] => none
  | first :: mark, item :: list => if first = item then behind? mark list else none

def isSourceText (naming : Naming) (name : String) : Bool :=
  naming.source ≠ "" && naming.source.toList.isPrefixOf name.toList

def isTargetText (naming : Naming) (name : String) : Bool :=
  naming.target ≠ "" && naming.target.toList.isPrefixOf name.toList

def renameText? (naming : Naming) (name : String) : Option String :=
  if naming.isSourceText name then
    some (naming.target ++ String.ofList (name.toList.drop naming.source.toList.length))
  else none

/-- What stands behind a mark at the front of a name. -/
def rest? (mark : String) (name : Bytes) : Option Bytes :=
  if mark = "" then none else behind? (utf8 mark) name

def isSource (naming : Naming) (name : Bytes) : Bool := (rest? naming.source name).isSome

def isTarget (naming : Naming) (name : Bytes) : Bool := (rest? naming.target name).isSome

def rename? (naming : Naming) (name : Bytes) : Option Bytes :=
  (rest? naming.source name).map (utf8 naming.target ++ ·)

end Naming
end Retarget
