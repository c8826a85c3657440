import Retarget.Proofs.Substitution.Insertion
import Retarget.Proofs.Text.Escapes
import Retarget.Substitution.Listing

/-!
A table written as JSON and read back. Each escape of a written string is undone by the reader, so a
string is read up to its closing quote whatever text it holds; entries and the whole list are read up
to their closing brackets. The entries come back as they were, and so does the table made of them.
-/
namespace Retarget

namespace Json

/-! ## Strings -/

theorem unit?_numbered : ∀ number < 0x20,
    unit? '0' '0' (hexDigits.getD (number / 16) '0') (hexDigits.getD (number % 16) '0') =
      some number := by decide

theorem stringTail_letter {pair : Char × Char} (member : pair ∈ letters) (rest : List Char) :
    stringTail ('\\' :: pair.2 :: rest) = consTo pair.1 (stringTail rest) := by
  fin_cases member <;> rfl

theorem stringTail_escaped (char : Char) (rest : List Char) :
    stringTail (escaped char ++ rest) = consTo char (stringTail rest) := by
  have written := escaped_escaped char
  generalize escaped char = spelled at written
  cases written with
  | letter member => exact stringTail_letter member rest
  | number control =>
    -- The number of a control character is no half of a surrogate pair.
    have high : isHigh char.toNat = false := by
      simp [isHigh]
      omega
    have low : isLow char.toNat = false := by
      simp [isLow]
      omega
    simp only [numbered, List.cons_append, List.nil_append, stringTail,
      unit?_numbered char.toNat control, high, low, Bool.false_eq_true, if_false,
      Char.ofNat_toNat]
  | plain quote backslash shown =>
    rw [List.singleton_append, stringTail]
    · rw [if_neg shown]
    all_goals simp_all

/-- A written string is read up to its closing quote. -/
theorem stringTail_written (chars rest : List Char) :
    stringTail (chars.flatMap escaped ++ '"' :: rest) = some (chars, rest) := by
  induction chars with
  | nil => rfl
  | cons char more ih =>
    rw [List.flatMap_cons, List.append_assoc, stringTail_escaped, ih]
    rfl

theorem expect_here {char : Char} (seen : isBlank char = false) (rest : List Char) :
    expect char (char :: rest) = some rest := by
  simp [expect, skipBlank, seen]

theorem expect_other {char first : Char} (seen : isBlank first = false) (other : first ≠ char)
    (rest : List Char) : expect char (first :: rest) = none := by
  simp [expect, skipBlank, seen, other]

theorem quoted_append (text : String) (rest : List Char) :
    quoted text ++ rest = '"' :: (text.toList.flatMap escaped ++ '"' :: rest) := by
  simp [quoted]

theorem readString_quoted (text : String) (rest : List Char) :
    readString (quoted text ++ rest) = some (text, rest) := by
  rw [quoted_append, readString, expect_here (by decide)]
  simp only [stringTail_written, Option.map_some, String.ofList_toList]

end Json

namespace Listing

open Json

/-! ## Entries -/

theorem compact_json (entry : Substitution) : entry.json.compact =
    '\x7b' :: (quoted "from" ++ ':' :: (quoted entry.pattern ++
      ',' :: (quoted "to" ++ ':' :: (quoted entry.replacement ++ ['\x7d'])))) := by
  simp [Substitution.json, compact, compactFields]

theorem readFields_first (fuel : Nat) (pattern : String) (rest : List Char) :
    readFields (fuel + 1) ⟨none, none⟩ (quoted "from" ++ ':' :: (quoted pattern ++ ',' :: rest)) =
      readFields fuel ⟨some pattern, none⟩ rest := by
  have colon : expect ':' (':' :: (quoted pattern ++ ',' :: rest)) = some _ :=
    expect_here (by decide) _
  have comma : expect ',' (',' :: rest) = some rest := expect_here (by decide) rest
  simp only [readFields, readString_quoted, colon, comma, Option.bind_eq_bind, Option.bind_some,
    if_true, Option.map_some]

theorem readFields_last (fuel : Nat) (pattern replacement : String) (rest : List Char) :
    readFields (fuel + 1) ⟨some pattern, none⟩
      (quoted "to" ++ ':' :: (quoted replacement ++ '\x7d' :: rest)) =
        some (⟨pattern, replacement⟩, rest) := by
  have other : ("to" : String) ≠ "from" := by decide
  have colon : expect ':' (':' :: (quoted replacement ++ '\x7d' :: rest)) = some _ :=
    expect_here (by decide) _
  have comma : expect ',' ('\x7d' :: rest) = none := expect_other (by decide) (by decide) rest
  have closed : expect '\x7d' ('\x7d' :: rest) = some rest := expect_here (by decide) rest
  simp only [readFields, readString_quoted, colon, comma, closed, other, Option.bind_eq_bind,
    Option.bind_some, if_false, if_true, Option.map_some, Option.pure_def]

theorem readEntry_compact (entry : Substitution) (rest : List Char) :
    readEntry (entry.json.compact ++ rest) = some (entry, rest) := by
  have fields : ∀ fuel, readFields (fuel + 2) ⟨none, none⟩
      (quoted "from" ++ ':' :: (quoted entry.pattern ++
        ',' :: (quoted "to" ++ ':' :: (quoted entry.replacement ++ '\x7d' :: rest)))) =
      some (entry, rest) := fun fuel => by rw [readFields_first, readFields_last]
  have opened : ∀ text, skipBlank ('\x7b' :: text) = '\x7b' :: text := fun text => rfl
  rw [compact_json]
  simp only [List.cons_append, List.append_assoc, List.nil_append]
  rw [readEntry, opened]
  show readFields (_ + 1) ⟨none, none⟩ _ = _
  -- The reader is given one step for each character, and two are enough.
  rw [quoted_append "from", List.length_cons, ← quoted_append]
  exact fields _

/-- Written entries are read up to the closing bracket. -/
theorem readEntries_compact (first : Substitution) (others : List Substitution)
    (rest : List Char) {fuel : Nat} (enough : others.length < fuel) :
    readEntries fuel (first.json.compact ++
      (compactItems (others.map Substitution.json) ++ ']' :: rest)) =
        some (first :: others, rest) := by
  obtain ⟨fuel, rfl⟩ := Nat.exists_eq_succ_of_ne_zero (by omega : fuel ≠ 0)
  rw [readEntries, readEntry_compact]
  induction others generalizing first fuel with
  | nil =>
    have comma : expect ',' (']' :: rest) = none := expect_other (by decide) (by decide) rest
    have closed : expect ']' (']' :: rest) = some rest := expect_here (by decide) rest
    simp only [List.map_nil, compactItems, List.nil_append, comma, closed, Option.bind_eq_bind,
      Option.bind_some, Option.pure_def]
  | cons second others ih =>
    rw [List.length_cons] at enough
    obtain ⟨fuel, rfl⟩ := Nat.exists_eq_succ_of_ne_zero (by omega : fuel ≠ 0)
    have comma : expect ',' (',' :: (second.json.compact ++
        (compactItems (others.map Substitution.json) ++ ']' :: rest))) = some _ :=
      expect_here (by decide) _
    have onward := ih second fuel (by omega)
    simp only [List.map_cons, compactItems, List.cons_append, List.append_assoc, comma,
      Option.bind_eq_bind, Option.bind_some]
    rw [readEntries, readEntry_compact, onward]
    rfl

/-! ## Tables -/

theorem length_le_compactItems (entries : List Substitution) :
    entries.length ≤ (compactItems (entries.map Substitution.json)).length := by
  induction entries with
  | nil => exact Nat.zero_le _
  | cons entry rest ih =>
    simp only [List.map_cons, compactItems, List.cons_append, List.length_cons, List.length_append]
    omega

theorem read_compactText (table : Table) : read table.json.compactText = some table.entries := by
  rw [read, compactText, String.toList_ofList, Table.json]
  cases table.entries with
  | nil => rfl
  | cons first others =>
    let written := first.json.compact ++ (compactItems (others.map Substitution.json) ++ [']'])
    have opened : expect '[' (array ((first :: others).map Substitution.json)).compact =
        some written := by
      rw [List.map_cons, compact, List.cons_append, List.cons_append, List.append_assoc]
      exact expect_here (by decide) written
    have goesOn : expect ']' written = none := by
      show expect ']' (first.json.compact ++ _) = none
      rw [compact_json]
      exact expect_other (by decide) (by decide) _
    have enough : others.length < written.length + 1 := by
      have items := length_le_compactItems others
      simp only [written, List.length_append]
      omega
    have entries : readEntries (written.length + 1) written = some (first :: others, []) :=
      readEntries_compact first others [] enough
    simp only [opened, goesOn, entries, Option.bind_eq_bind, Option.bind_some]
    rfl

end Listing

/-- Reading what a table is written as gives the table again, entries in their order, and reports no
pattern as repeated. -/
theorem Table.rebuilt_from_json (table : Table) :
    (Listing.read table.json.compactText).map Table.ofList = some (table, []) := by
  rw [Listing.read_compactText, Option.map_some, Table.ofList_entries]

end Retarget
