/-!
The three stages of a run, and which of them a run goes through. Their order is fixed.
-/
namespace Retarget

inductive Stage where
  | copy
  | rename
  | substitute
deriving DecidableEq

namespace Stage

def all : List Stage := [copy, rename, substitute]

def name : Stage → String
  | copy => "copy"
  | rename => "rename"
  | substitute => "substitute"

def named? (name : String) : Option Stage := all.find? fun stage => stage.name = name

def unknownMessage (name : String) : String := "unknown stage '" ++ name ++ "' (expected copy, rename or substitute)"

def position : Stage → Nat
  | copy => 0
  | rename => 1
  | substitute => 2

/-- Stages in their order, repeated ones kept. -/
def sorted (stages : List Stage) : List Stage := stages.mergeSort fun first second => first.position ≤ second.position

end Stage

structure StageSet where
  copy : Bool
  rename : Bool
  substitute : Bool
deriving DecidableEq

namespace StageSet

def all : StageSet := ⟨true, true, true⟩

def none : StageSet := ⟨false, false, false⟩

def insert (stages : StageSet) : Stage → StageSet
  | .copy => { stages with copy := true }
  | .rename => { stages with rename := true }
  | .substitute => { stages with substitute := true }

def contains (stages : StageSet) : Stage → Bool
  | .copy => stages.copy
  | .rename => stages.rename
  | .substitute => stages.substitute

def isEmpty (stages : StageSet) : Bool := !(stages.copy || stages.rename || stages.substitute)

def ofList (stages : List Stage) : StageSet := stages.foldl insert none

end StageSet
end Retarget
