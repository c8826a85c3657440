import Retarget.Failure
import Retarget.Report

/-!
What a command leaves behind: what it wrote, its complaint if it failed, and the status it ends with. A
complaint is written with the causes behind it, numbered when there are several.
-/
namespace Retarget

inductive Complaint where
  | loading (path : Path) (error : ConfigurationError)
  | jobFailed (job : String) (failure : Failure)
  | failed (failure : Failure)
  | notJson

namespace Complaint

/-- The messages of a complaint, each caused by the next. -/
def chain : Complaint → List String
  | loading path error => ("loading config " ++ path.display) :: error.chain
  | jobFailed job failure => ("job '" ++ job ++ "' failed") :: failure.chain
  | failed failure => failure.chain
  | notJson => [pathNotText]

/-- A message with its further lines set in by a margin. -/
def setIn (margin message : String) : String := String.intercalate ("\n" ++ margin) (message.splitOn "\n")

/-- A number at the end of five columns. -/
def rightAligned (number : Nat) : String :=
  let digits := toString number
  String.ofList (List.replicate (5 - digits.length) ' ') ++ digits

def numbered : (first : Nat) → List String → String
  | _, [] => ""
  | number, message :: rest =>
    rightAligned number ++ ": " ++ setIn "       " message ++ "\n" ++ numbered (number + 1) rest

def causesText : List String → String
  | [] => ""
  | [cause] => "\nCaused by:\n    " ++ setIn "    " cause ++ "\n"
  | causes => "\nCaused by:\n" ++ numbered 0 causes

def text (complaint : Complaint) : String :=
  "Error: " ++ complaint.chain.headD "" ++ "\n" ++ causesText complaint.chain.tail

end Complaint

structure Outcome where
  output : String
  complaint : Option Complaint
  status : Nat

namespace Outcome

def success (output : String) : Outcome := ⟨output, none, 0⟩

def failure (output : String) (complaint : Complaint) : Outcome := ⟨output, some complaint, 1⟩

/-- The arguments made no request. -/
def refusal : Outcome := ⟨"", none, 2⟩

/-- What is written about the complaint. -/
def errors (outcome : Outcome) : String := (outcome.complaint.map Complaint.text).getD ""

end Outcome
end Retarget
