import Mathlib.Data.List.Infix
import Mathlib.Tactic.Common
import Retarget.Substitution.Table

/-!
Replacing as a relation between a text and what comes of it: from left to right, an occurrence of
the pattern gives way to the replacement, and a character at which none begins stays. What is said
of replacing is shown by induction on it.
-/
namespace Retarget

variable {pattern replacement text result : List Char}

inductive Replaced (pattern replacement : List Char) : List Char → List Char → Prop where
  | done : Replaced pattern replacement [] []
  | hit {text result : List Char} (onward : Replaced pattern replacement text result) :
      Replaced pattern replacement (pattern ++ text) (replacement ++ result)
  | keep {char : Char} {text result : List Char} (free : ¬pattern <+: char :: text)
      (onward : Replaced pattern replacement text result) :
      Replaced pattern replacement (char :: text) (char :: result)

theorem replaceAll_prefix (some : pattern ≠ []) (text : List Char) :
    replaceAll pattern replacement (pattern ++ text) = replacement ++ replaceAll pattern
    replacement text := by
  obtain ⟨first, rest, rfl⟩ := List.exists_cons_of_ne_nil some
  have begins : (first :: rest).isPrefixOf (first :: (rest ++ text)) = true := by simp
  rw [replaceAll, List.cons_append, replaceFrom, if_pos begins, replaceFrom_drop]
  simp

theorem replaceAll_keep {char : Char} (free : ¬pattern <+: char :: text) :
    replaceAll pattern replacement (char :: text) = char ::
    replaceAll pattern replacement text := by
  rw [replaceAll, replaceFrom, if_neg (by simpa using free)]
  rfl

theorem occurrences_prefix (some : pattern ≠ []) (text : List Char) :
    occurrences pattern (pattern ++ text) = occurrences pattern text + 1 := by
  obtain ⟨first, rest, rfl⟩ := List.exists_cons_of_ne_nil some
  have begins : (first :: rest).isPrefixOf (first :: (rest ++ text)) = true := by simp
  rw [occurrences, List.cons_append, countFrom, if_pos begins, countFrom_drop, Nat.add_comm]
  simp

theorem occurrences_keep {char : Char} (free : ¬pattern <+: char :: text) :
    occurrences pattern (char :: text) = occurrences pattern text := by
  rw [occurrences, countFrom, if_neg (by simpa using free)]
  rfl

theorem replaced_replaceAll (some : pattern ≠ []) (text : List Char) :
    Replaced pattern replacement text (replaceAll pattern replacement text) := by
  induction size : text.length using Nat.strong_induction_on generalizing text with
  | _ bound ih =>
    cases text with
    | nil => exact .done
    | cons char rest =>
      by_cases begins : pattern <+: char :: rest
      · obtain ⟨more, whole⟩ := begins
        rw [← whole, replaceAll_prefix some]
        have shorter : more.length < bound := by
          have positive := List.length_pos_iff.2 some
          rw [← size, ← whole, List.length_append]
          omega
        exact .hit (ih more.length shorter more rfl)
      · rw [replaceAll_keep begins]
        exact .keep begins (ih rest.length (by simp [← size]) rest rfl)

/-- Without an occurrence nothing changes. -/
theorem replaceAll_eq_self (absent : ¬pattern <:+: text) :
    replaceAll pattern replacement text = text := by
  induction text with
  | nil => rfl
  | cons char rest ih =>
    rw [List.infix_cons_iff, not_or] at absent
    rw [replaceAll_keep absent.1, ih absent.2]

theorem occurrences_eq_zero (some : pattern ≠ []) :
    occurrences pattern text = 0 ↔ ¬pattern <:+: text := by
  induction text with
  | nil => simp [occurrences, countFrom, some]
  | cons char rest ih =>
    rw [occurrences, countFrom, List.infix_cons_iff]
    by_cases begins : pattern <+: char :: rest
    · rw [if_pos (by simpa using begins)]
      simp [begins]
    · rw [if_neg (by simpa using begins)]
      simpa [begins, occurrences] using ih

/-! ## What replacing can bring about -/

/-- One of two texts holds the other, or an end of one is a beginning of the other. The empty text
touches every text. -/
def Touch (first second : List Char) : Prop :=
  first <:+: second ∨ second <:+:
  first ∨ (∃ shared ∈ first.tails, shared ≠ [] ∧ shared <+: second) ∨
    ∃ shared ∈ second.tails, shared ≠ [] ∧ shared <+: first

instance (first second : List Char) : Decidable (Touch first second) :=
    inferInstanceAs (Decidable (_ ∨ _ ∨ _ ∨ _))

theorem touch_of_first {first second shared : List Char} (some : shared ≠ [])
    (ends : shared <:+ first) (begins : shared <+: second) :
    Touch first second := .inr (.inr (.inl ⟨shared, (List.mem_tails _ _).2 ends, some, begins⟩))

theorem touch_of_second {first second shared : List Char} (some : shared ≠ [])
    (ends : shared <:+ second)
    (begins : shared <+: first) : Touch first second :=
    .inr (.inr (.inr ⟨shared, (List.mem_tails _ _).2 ends, some, begins⟩))

/-- A text that begins where a character stayed began there before, if no part of it can lie in a
replacement. -/
theorem Replaced.prefix_of_prefix (replaced : Replaced pattern replacement text result)
    {found : List Char}
    (apart : ∀ rest, rest ≠ [] → rest <:+ found → ¬rest <+: replacement ∧ ¬replacement <+: rest)
    (begins : found <+: result) :
    found <+: text := by
  induction replaced generalizing found with
  | done => exact begins
  | @hit text result _ _ =>
    by_cases none : found = []
    · simp [none]
    · obtain ⟨first, second⟩ := apart found none (List.suffix_refl _)
      rcases List.prefix_or_prefix_of_prefix begins
        (List.prefix_append replacement result) with inside | around
      · exact absurd inside first
      · exact absurd around second
  | keep _ _ ih =>
    cases found with
    | nil => exact List.nil_prefix
    | cons first rest =>
      rw [List.cons_prefix_cons] at begins ⊢
      exact ⟨begins.1, ih (fun more some ends =>
        apart more some (ends.trans (List.suffix_cons _ _))) begins.2⟩

/-- A text found behind a beginning of a list either begins inside that beginning or lies behind it.
-/
theorem infix_append {found front back : List Char} (inside : found <:+: front ++ back) :
    (∃ start, start ≠ [] ∧ start <:+ front ∧ found <+: start ++ back) ∨ found <:+: back := by
  induction front with
  | nil => exact .inr inside
  | cons first rest ih =>
    rw [List.cons_append, List.infix_cons_iff] at inside
    rcases inside with begins | later
    · exact .inl ⟨first :: rest, List.cons_ne_nil _ _, List.suffix_refl _, begins⟩
    · rcases ih later with ⟨start, some, ends, begins⟩ | behind
      · exact .inl ⟨start, some, ends.trans (List.suffix_cons _ _), begins⟩
      · exact .inr behind

/-- What does not touch the replacement does not begin inside one. -/
theorem not_prefix_inside {found start back : List Char} (apart : ¬Touch replacement found)
    (some : start ≠ [])
    (ends : start <:+ replacement) : ¬found <+: start ++ back := by
  intro begins
  rcases List.prefix_or_prefix_of_prefix begins (List.prefix_append start back) with inside | around
  · exact apart (.inr (.inl (inside.isInfix.trans ends.isInfix)))
  · exact apart (touch_of_first some ends around)

theorem Replaced.apart_of_touch {found : List Char} (apart : ¬Touch replacement found) :
    ∀ rest, rest ≠ [] → rest <:+ found → ¬rest <+: replacement ∧ ¬replacement <+: rest := by
  intro rest some ends
  exact ⟨fun begins => apart (touch_of_second some ends begins),
    fun begins => apart (.inl (begins.isInfix.trans ends.isInfix))⟩

/-- Replacing brings about no text that does not touch the replacement. -/
theorem Replaced.infix_of_infix (replaced : Replaced pattern replacement text result)
    {found : List Char}
    (apart : ¬Touch replacement found) (inside : found <:+: result) : found <:+: text := by
  induction replaced with
  | done => exact inside
  | hit _ ih =>
    rcases infix_append inside with ⟨start, some, ends, begins⟩ | behind
    · exact absurd begins (not_prefix_inside apart some ends)
    · exact (ih behind).trans (List.suffix_append _ _).isInfix
  | @keep char text result free onward ih =>
    rw [List.infix_cons_iff] at inside ⊢
    rcases inside with begins | later
    · exact .inl (Replaced.prefix_of_prefix (.keep free onward) (apart_of_touch apart) begins)
    · exact .inr (ih later)

/-- No occurrence of a pattern is left that does not touch its replacement. -/
theorem Replaced.not_infix (replaced : Replaced pattern replacement text result)
    (some : pattern ≠ [])
    (apart : ¬Touch replacement pattern) : ¬pattern <:+: result := by
  induction replaced with
  | done => simpa using some
  | hit _ ih =>
    intro inside
    rcases infix_append inside with ⟨start, rest, ends, begins⟩ | behind
    · exact not_prefix_inside apart rest ends begins
    · exact ih behind
  | @keep char text result free onward ih =>
    rw [List.infix_cons_iff, not_or]
    exact ⟨fun begins => free
      (Replaced.prefix_of_prefix (.keep free onward) (apart_of_touch apart) begins), ih⟩

/-! ## Whole tables -/

namespace Substitution

theorem apply_of_ne {entry : Substitution} (some : entry.pattern ≠ "") (text : List Char) :
    entry.apply text =
    (replaceAll entry.pattern.toList entry.replacement.toList text,
      occurrences entry.pattern.toList text) := if_neg some

theorem apply_of_eq {entry : Substitution} (none : entry.pattern = "") (text : List Char) :
    entry.apply text = (text, 0) :=
  if_pos none

theorem toList_pattern {entry : Substitution} (some : entry.pattern ≠ "") :
    entry.pattern.toList ≠ [] := by simpa using some

theorem apply_of_zero {entry : Substitution} {text : List Char} (zero : (entry.apply text).2 = 0) :
    (entry.apply text).1 = text := by
  by_cases none : entry.pattern = ""
  · rw [apply_of_eq none]
  · rw [apply_of_ne none] at zero ⊢
    exact replaceAll_eq_self ((occurrences_eq_zero (toList_pattern none)).1 zero)

theorem applyAll_cons (entry : Substitution) (rest : List Substitution) (text : List Char) :
    (applyAll (entry :: rest) text).1 = (applyAll rest (entry.apply text).1).1 := rfl

theorem applyAll_of_zero {entries : List Substitution} {text : List Char}
    (none : (applyAll entries text).2 = 0) :
    (applyAll entries text).1 = text := by
  induction entries generalizing text with
  | nil => rfl
  | cons entry rest ih =>
    simp only [applyAll, Nat.add_eq_zero_iff] at none ⊢
    rw [apply_of_zero none.1] at none ⊢
    exact ih none.2

/-- Entries whose replacements do not touch a text do not bring it about. -/
theorem not_infix_applyAll {entries : List Substitution} {text found : List Char}
    (apart : ∀ entry ∈ entries, ¬Touch entry.replacement.toList found) (absent : ¬found <:+: text) :
    ¬found <:+: (applyAll entries text).1 := by
  induction entries generalizing text with
  | nil => exact absent
  | cons entry rest ih =>
    rw [applyAll_cons]
    refine ih (fun other member => apart other (List.mem_cons_of_mem _ member)) fun inside =>
      absent ?_
    by_cases none : entry.pattern = ""
    · rwa [apply_of_eq none] at inside
    · rw [apply_of_ne none] at inside
      exact Replaced.infix_of_infix (replaced_replaceAll (toList_pattern none) text)
        (apart entry (by simp)) inside

/-- After all entries no pattern is left, each being gone after its own entry and brought about by
none later. -/
theorem not_infix_pattern_applyAll {entries : List Substitution}
    (apart : ∀ entry ∈ entries, ∀ other ∈ entries,
      ¬Touch entry.replacement.toList other.pattern.toList)
    {entry : Substitution} (member : entry ∈ entries) (some : entry.pattern ≠ "")
    (text : List Char) :
    ¬entry.pattern.toList <:+: (applyAll entries text).1 := by
  induction entries generalizing text with
  | nil => cases member
  | cons first rest ih =>
    rw [applyAll_cons]
    rcases List.mem_cons.1 member with rfl | later
    · refine not_infix_applyAll
        (fun other inside => apart other (List.mem_cons_of_mem _ inside) entry (by simp)) ?_
      rw [apply_of_ne some]
      have pattern := toList_pattern some
      exact Replaced.not_infix (replaced_replaceAll pattern text) pattern
        (apart entry (by simp) entry (by simp))
    · exact ih (fun entry inside other also =>
        apart entry (List.mem_cons_of_mem _ inside) other (List.mem_cons_of_mem _ also)) later _

end Substitution

namespace Table

theorem apply_of_zero {table : Table} {text : String} (none : (table.apply text).2 = 0) :
    (table.apply text).1 = text := by
  show String.ofList (Substitution.applyAll table.entries text.toList).1 = text
  rw [Substitution.applyAll_of_zero none, String.ofList_toList]

end Table
end Retarget
