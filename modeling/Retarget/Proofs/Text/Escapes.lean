import Mathlib.Tactic.Common
import Mathlib.Tactic.FinCases
import Retarget.Json.Value

/-!
How a character stands inside a written string: behind a backslash as a letter of its own, by its
number, or as it is.
-/
namespace Retarget.Json

/-- Characters with the letters they are written as. -/
def letters : List (Char × Char) :=
  [('"', '"'), ('\\', '\\'), ('\x08', 'b'), ('\t', 't'), ('\n', 'n'), ('\x0c', 'f'), ('\r', 'r')]

/-- What a control character is written as where it has no letter. -/
def numbered (number : Nat) : List Char :=
  ['\\', 'u', '0', '0', hexDigits.getD (number / 16) '0', hexDigits.getD (number % 16) '0']

inductive Escaped : Char → List Char → Prop where
  | letter {pair : Char × Char} (member : pair ∈ letters) : Escaped pair.1 ['\\', pair.2]
  | number {char : Char} (control : char.toNat < 0x20) : Escaped char (numbered char.toNat)
  | plain {char : Char} (quote : char ≠ '"') (backslash : char ≠ '\\')
    (shown : ¬char.toNat < 0x20) : Escaped char [char]

theorem escaped_escaped (char : Char) : Escaped char (escaped char) := by
  by_cases member : char ∈ letters.map Prod.fst
  · obtain ⟨pair, inside, rfl⟩ := List.mem_map.1 member
    have written : ∀ pair ∈ letters, escaped pair.1 = ['\\', pair.2] := by decide
    exact written pair inside ▸ .letter inside
  · simp only [letters, List.map_cons, List.map_nil, List.mem_cons, List.not_mem_nil, or_false,
      not_or] at member
    obtain ⟨quote, backslash, back, tab, line, form, carriage⟩ := member
    simp only [escaped, quote, backslash, back, tab, line, form, carriage, if_false]
    split
    · exact .number ‹_›
    · exact .plain quote backslash ‹_›

end Retarget.Json
