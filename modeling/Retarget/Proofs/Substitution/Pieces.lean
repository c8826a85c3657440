import Mathlib.Algebra.Ring.Nat
import Retarget.Proofs.Substitution.Replacement

/-!
A text rewritten in pieces. A character that stands in no pattern belongs to no occurrence, whatever
the entries before have put around it. So each entry works on either side of it as if the other were
not there, and so does the table. Replacements may hold the character.
-/
namespace Retarget

variable {pattern replacement front back : List Char} {separator : Char}

/-- What begins in front of a character it does not hold ends in front of that character. -/
theorem prefix_append_cons_iff (neutral : separator ∉ pattern) :
    pattern <+: front ++ separator :: back ↔ pattern <+: front := by
  refine ⟨fun begins => ?_, fun begins => begins.trans (List.prefix_append _ _)⟩
  rcases List.prefix_or_prefix_of_prefix begins (List.prefix_append front (separator :: back)) with
    within | ⟨more, rfl⟩
  · exact within
  · cases more with
    | nil => simp
    | cons char more =>
      rw [List.prefix_append_right_inj, List.cons_prefix_cons] at begins
      exact absurd (by simp [begins.1]) neutral

theorem searches_around (some : pattern ≠ []) (neutral : separator ∉ pattern)
    (replacement front back : List Char) :
    replaceAll pattern replacement (front ++ separator :: back) =
        replaceAll pattern replacement front ++ separator :: replaceAll pattern replacement back ∧
      occurrences pattern (front ++ separator :: back) =
        occurrences pattern front + occurrences pattern back := by
  -- By induction on replacing in front of the separator. How it goes through the text does not
  -- depend on what is put in.
  obtain ⟨result, replaced⟩ : ∃ result, Replaced pattern [] front result :=
    ⟨_, replaced_replaceAll some front⟩
  induction replaced with
  | done =>
    have free : ¬pattern <+: [] ++ separator :: back := by
      rw [prefix_append_cons_iff neutral, List.prefix_nil]
      exact some
    rw [List.nil_append] at free ⊢
    rw [replaceAll_keep free, occurrences_keep free]
    exact ⟨rfl, (Nat.zero_add _).symm⟩
  | @hit text _ _ ih =>
    rw [List.append_assoc, replaceAll_prefix some, replaceAll_prefix some, occurrences_prefix some,
      occurrences_prefix some, ih.1, ih.2, List.append_assoc]
    exact ⟨rfl, Nat.add_right_comm _ _ _⟩
  | @keep char text _ free _ ih =>
    have still : ¬pattern <+: char :: (text ++ separator :: back) := by
      rw [← List.cons_append, prefix_append_cons_iff neutral]
      exact free
    rw [List.cons_append, replaceAll_keep still, replaceAll_keep free, occurrences_keep still,
      occurrences_keep free, ih.1, ih.2]
    exact ⟨rfl, rfl⟩

namespace Substitution

variable {entry : Substitution} {entries : List Substitution}

theorem apply_around (neutral : separator ∉ entry.pattern.toList) (front back : List Char) :
    entry.apply (front ++ separator :: back) =
      ((entry.apply front).1 ++ separator :: (entry.apply back).1,
        (entry.apply front).2 + (entry.apply back).2) := by
  by_cases none : entry.pattern = ""
  · simp only [apply_of_eq none]
  · obtain ⟨replaced, counted⟩ :=
      searches_around (toList_pattern none) neutral entry.replacement.toList front back
    simp only [apply_of_ne none, replaced, counted]

/-- The separator is still there after each entry, so the next one finds its two sides again. -/
theorem applyAll_around (neutral : ∀ pattern ∈ patterns entries, separator ∉ pattern.toList)
    (front back : List Char) :
    applyAll entries (front ++ separator :: back) =
      ((applyAll entries front).1 ++ separator :: (applyAll entries back).1,
        (applyAll entries front).2 + (applyAll entries back).2) := by
  induction entries generalizing front back with
  | nil => rfl
  | cons entry rest ih =>
    rw [patterns, List.map_cons, List.forall_mem_cons] at neutral
    have onward := ih neutral.2 (entry.apply front).1 (entry.apply back).1
    simp only [applyAll, apply_around neutral.1, onward, Nat.add_add_add_comm]

theorem applyAll_nil (entries : List Substitution) : applyAll entries [] = ([], 0) := by
  induction entries with
  | nil => rfl
  | cons entry rest ih =>
    have idle : entry.apply [] = ([], 0) := ite_self _
    simp only [applyAll, idle, ih]

theorem applyAll_intercalate (neutral : ∀ pattern ∈ patterns entries, separator ∉ pattern.toList)
    (pieces : List (List Char)) :
    applyAll entries ([separator].intercalate pieces) =
      ([separator].intercalate (pieces.map fun piece => (applyAll entries piece).1),
        (pieces.map fun piece => (applyAll entries piece).2).sum) := by
  induction pieces with
  | nil => exact applyAll_nil entries
  | cons piece pieces ih =>
    cases pieces with
    | nil => simp
    | cons next pieces =>
      simp only [List.intercalate_cons_cons, List.append_assoc, List.singleton_append,
        applyAll_around neutral, ih, List.map_cons, List.sum_cons]

end Substitution

namespace Table

/-- The pieces of a text between separators, each rewritten on its own and put together again. -/
def applyBetween (table : Table) (separator : Char) (text : String) : String × Nat :=
  let pieces := (text.split separator).toList.map String.Slice.copy
  let results := pieces.map table.apply
  ((String.singleton separator).intercalate (results.map Prod.fst), (results.map Prod.snd).sum)

/-- A character in no pattern parts the work of a table: it stays, and the text and the count are
put together from those of the two sides. So a table whose patterns hold no line break does the same
to a text line by line as at once. -/
theorem apply_in_pieces (table : Table) (separator : Char)
    (neutral : ∀ pattern ∈ table.patterns, separator ∉ pattern.toList) :
    (∀ front back : String, table.apply (front ++ String.singleton separator ++ back) =
        ((table.apply front).1 ++ String.singleton separator ++ (table.apply back).1,
          (table.apply front).2 + (table.apply back).2)) ∧
      ∀ text, table.apply text = table.applyBetween separator text := by
  constructor
  · intro front back
    have sides := Substitution.applyAll_around neutral front.toList back.toList
    refine Prod.ext (String.toList_inj.1 ?_) ?_
    · simp [apply, sides]
    · simp [apply, sides]
  · intro text
    have pieces := Substitution.applyAll_intercalate neutral (text.toList.splitOn separator)
    rw [List.intercalate_splitOn] at pieces
    rw [applyBetween, String.toList_split_char]
    refine Prod.ext (String.toList_inj.1 ?_) ?_
    · simp [apply, pieces, Function.comp_def]
    · simp [apply, pieces, Function.comp_def]

/-- A replacement that breaks the line, and an entry that finds what stands behind the break. -/
def breaking : Table := ⟨[⟨"; ", ";\n"⟩, ⟨"Double", "Float"⟩, ⟨"", "Double"⟩], by decide⟩

/-- What would be found across the break is found on neither side of it. -/
theorem apply_in_pieces_breaking :
    (∀ pattern ∈ breaking.patterns, '\n' ∉ pattern.toList) ∧
      breaking.apply "i; Dou" = ("i;\nDou", 1) ∧ breaking.apply "ble; Double" = ("ble;\nFloat", 2) ∧
      breaking.apply "i; Dou\nble; Double" = ("i;\nDou\nble;\nFloat", 3) ∧
      breaking.applyBetween '\n' "i; Dou\nble; Double" = ("i;\nDou\nble;\nFloat", 3) := by
  have neutral : ∀ pattern ∈ breaking.patterns, '\n' ∉ pattern.toList := by decide
  have front : breaking.apply "i; Dou" = ("i;\nDou", 1) := by decide +kernel
  have back : breaking.apply "ble; Double" = ("ble;\nFloat", 2) := by decide +kernel
  obtain ⟨sides, pieces⟩ := apply_in_pieces breaking '\n' neutral
  have whole : breaking.apply "i; Dou\nble; Double" = ("i;\nDou\nble;\nFloat", 3) := by
    have parted := sides "i; Dou" "ble; Double"
    rw [front, back] at parted
    exact parted
  exact ⟨neutral, front, back, whole, pieces _ ▸ whole⟩

end Table
end Retarget
