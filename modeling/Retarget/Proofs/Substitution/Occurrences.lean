import Mathlib.Algebra.Ring.Nat
import Retarget.Proofs.Substitution.Replacement
import Retarget.Text.Utf8

/-!
Where a pattern occurs in a text. Taken from the left, its occurrences cut the text into stretches in
exactly one way. Replacing and counting are two searches, and both go by this cut: one puts the
replacement at each place, the other gives the number of places. A table goes through such cuts entry by
entry.
-/
namespace Retarget

variable {pattern replacement text result : List Char}

/-- A text in pieces: the stretches before the places at which it is cut, and the rest behind the
last. -/
structure Cut where
  stretches : List (List Char)
  rest : List Char

namespace Cut

/-- The pieces in their order, with one text put in at each place. -/
def join (cut : Cut) (between : List Char) : List Char :=
  cut.stretches.flatMap (· ++ between) ++ cut.rest

/-- The places are where a pattern occurs first: put behind a stretch it occurs at the very end only, and
in the rest it does not occur. -/
structure Leftmost (pattern : List Char) (cut : Cut) : Prop where
  ends : ∀ stretch ∈ cut.stretches, ∀ front back, stretch ++ pattern = front ++ pattern ++ back → back = []
  absent : ¬pattern <:+: cut.rest

theorem join_cons (stretch : List Char) (stretches : List (List Char)) (rest between : List Char) :
    join ⟨stretch :: stretches, rest⟩ between = stretch ++ (between ++ join ⟨stretches, rest⟩ between) := by
  simp [join]

/-! ## The one cut of a text -/

/-- A stretch that is longer by a character at which the pattern does not begin. -/
theorem ends_cons {char : Char} {stretch more : List Char}
    (free : ¬pattern <+: char :: (stretch ++ (pattern ++ more)))
    (ends : ∀ front back, stretch ++ pattern = front ++ pattern ++ back → back = []) :
    ∀ front back, char :: stretch ++ pattern = front ++ pattern ++ back → back = [] := by
  intro front back whole
  cases front with
  | nil =>
    refine absurd ⟨back ++ more, ?_⟩ free
    rw [← List.append_assoc stretch, ← List.cons_append, ← List.cons_append, whole]
    simp
  | cons first front =>
    rw [List.cons_append, List.cons_append, List.cons_append] at whole
    exact ends front back (List.cons.inj whole).2

theorem exists_leftmost (some : pattern ≠ []) (text : List Char) :
    ∃ cut : Cut, cut.Leftmost pattern ∧ cut.join pattern = text := by
  -- By induction on replacing, of which only the way it goes through the text is used.
  obtain ⟨result, replaced⟩ : ∃ result, Replaced pattern [] text result :=
    ⟨_, replaced_replaceAll some text⟩
  induction replaced with
  | done => exact ⟨⟨[], []⟩, ⟨by simp, by simpa using some⟩, rfl⟩
  | @hit text _ _ ih =>
    obtain ⟨⟨stretches, rest⟩, ⟨ends, absent⟩, rfl⟩ := ih
    refine ⟨⟨[] :: stretches, rest⟩, ⟨?_, absent⟩, by rw [join_cons]; rfl⟩
    refine List.forall_mem_cons.2 ⟨fun front back whole => ?_, ends⟩
    have sizes := congrArg List.length whole
    simp only [List.nil_append, List.length_append] at sizes
    exact List.length_eq_zero_iff.1 (by omega)
  | @keep char text _ free _ ih =>
    obtain ⟨⟨stretches, rest⟩, ⟨ends, absent⟩, rfl⟩ := ih
    cases stretches with
    | nil =>
      refine ⟨⟨[], char :: rest⟩, ⟨by simp, ?_⟩, rfl⟩
      rw [List.infix_cons_iff, not_or]
      exact ⟨free, absent⟩
    | cons stretch stretches =>
      rw [join_cons] at free
      obtain ⟨here, later⟩ := List.forall_mem_cons.1 ends
      exact ⟨⟨(char :: stretch) :: stretches, rest⟩,
        ⟨List.forall_mem_cons.2 ⟨ends_cons free here, later⟩, absent⟩, by rw [join_cons, join_cons]; rfl⟩

/-- Of two stretches up to the first occurrence in one text, the first is not shorter. -/
theorem length_le_of_ends {stretch other more others : List Char}
    (ends : ∀ front back, other ++ pattern = front ++ pattern ++ back → back = [])
    (same : stretch ++ (pattern ++ more) = other ++ (pattern ++ others)) :
    other.length ≤ stretch.length := by
  rw [← List.append_assoc, ← List.append_assoc] at same
  rcases List.append_eq_append_iff.1 same with ⟨back, whole, _⟩ | ⟨back, whole, _⟩
  · have sizes := congrArg List.length whole
    rw [ends stretch back whole] at sizes
    simp only [List.length_append, List.length_nil] at sizes
    omega
  · have sizes := congrArg List.length whole
    simp only [List.length_append] at sizes
    omega

/-- A text has one leftmost cut, so what is said of one such cut is said of the text. -/
theorem Leftmost.unique {first second : Cut} (leftmost : first.Leftmost pattern)
    (also : second.Leftmost pattern) (same : first.join pattern = second.join pattern) : first = second := by
  obtain ⟨stretches, rest⟩ := first
  obtain ⟨others, last⟩ := second
  have never : ∀ {stretch : List Char} {stretches : List (List Char)} {rest last : List Char},
      ¬pattern <:+: last → last ≠ join ⟨stretch :: stretches, rest⟩ pattern := by
    rintro stretch stretches rest last absent rfl
    exact absent ⟨stretch, join ⟨stretches, rest⟩ pattern, by rw [join_cons, List.append_assoc]⟩
  induction stretches generalizing others with
  | nil =>
    cases others with
    | nil => exact congrArg _ same
    | cons other others => exact absurd same (never leftmost.absent)
  | cons stretch stretches ih =>
    cases others with
    | nil => exact absurd same.symm (never also.absent)
    | cons other others =>
      rw [join_cons, join_cons] at same
      obtain ⟨here, later⟩ := List.forall_mem_cons.1 leftmost.ends
      obtain ⟨there, further⟩ := List.forall_mem_cons.1 also.ends
      have sizes : stretch.length = other.length :=
        Nat.le_antisymm (length_le_of_ends here same.symm) (length_le_of_ends there same)
      obtain ⟨rfl, onward⟩ := List.append_inj same sizes
      have rests := ih ⟨later, leftmost.absent⟩ others ⟨further, also.absent⟩ (List.append_cancel_left onward)
      simp only [Cut.mk.injEq] at rests
      rw [rests.1, rests.2]

/-! ## Two searches -/

/-- A stretch up to the first occurrence: before its end the pattern begins nowhere. -/
theorem not_prefix_of_ends {char : Char} {stretch : List Char}
    (ends : ∀ front back, char :: stretch ++ pattern = front ++ pattern ++ back → back = [])
    (more : List Char) : ¬pattern <+: char :: (stretch ++ (pattern ++ more)) := by
  intro begins
  rw [← List.append_assoc, ← List.cons_append] at begins
  have shorter : pattern.length ≤ (char :: (stretch ++ pattern)).length := by
    rw [List.length_cons, List.length_append]
    omega
  obtain ⟨back, whole⟩ := List.prefix_of_prefix_length_le begins (List.prefix_append _ more) shorter
  have none := ends [] back (by simpa using whole.symm)
  have sizes := congrArg List.length whole
  simp only [none, List.length_append, List.length_cons, List.length_nil] at sizes
  omega

theorem searches_stretch (some : pattern ≠ []) {stretch : List Char}
    (ends : ∀ front back, stretch ++ pattern = front ++ pattern ++ back → back = [])
    (replacement more : List Char) :
    replaceAll pattern replacement (stretch ++ (pattern ++ more)) =
        stretch ++ (replacement ++ replaceAll pattern replacement more) ∧
      occurrences pattern (stretch ++ (pattern ++ more)) = occurrences pattern more + 1 := by
  induction stretch with
  | nil =>
    constructor
    · exact replaceAll_prefix some more
    · exact occurrences_prefix some more
  | cons char stretch ih =>
    have free := not_prefix_of_ends ends more
    obtain ⟨replaced, counted⟩ := ih fun front back whole =>
      ends (char :: front) back (by simpa using whole)
    rw [List.cons_append, replaceAll_keep free, occurrences_keep free, replaced, counted]
    exact ⟨rfl, rfl⟩

/-- Replacing puts the replacement at each place of the leftmost cut, and counting gives the number of
its places. -/
theorem Leftmost.searches (some : pattern ≠ []) {cut : Cut} (leftmost : cut.Leftmost pattern)
    (replacement : List Char) :
    replaceAll pattern replacement (cut.join pattern) = cut.join replacement ∧
      occurrences pattern (cut.join pattern) = cut.stretches.length := by
  obtain ⟨stretches, rest⟩ := cut
  induction stretches with
  | nil =>
    exact ⟨replaceAll_eq_self leftmost.absent, (occurrences_eq_zero some).2 leftmost.absent⟩
  | cons stretch stretches ih =>
    obtain ⟨here, later⟩ := List.forall_mem_cons.1 leftmost.ends
    obtain ⟨replaced, counted⟩ := ih ⟨later, leftmost.absent⟩
    obtain ⟨before, once⟩ := searches_stretch some here replacement (join ⟨stretches, rest⟩ pattern)
    rw [join_cons, join_cons, before, once, replaced, counted]
    exact ⟨rfl, rfl⟩

/-- What the pieces and the texts put in have in size, for any way of measuring texts by their parts. -/
theorem measure_join (measure : List Char → Nat)
    (additive : ∀ front back, measure (front ++ back) = measure front + measure back)
    (cut : Cut) (between other : List Char) :
    measure (cut.join between) + cut.stretches.length * measure other =
      measure (cut.join other) + cut.stretches.length * measure between := by
  obtain ⟨stretches, rest⟩ := cut
  induction stretches with
  | nil => simp [join]
  | cons stretch stretches ih =>
    simp only [join_cons, additive, List.length_cons, Nat.add_mul, Nat.one_mul] at ih ⊢
    omega

end Cut

/-! ## Entry by entry -/

namespace Substitution

/-- What an entry makes of a text and how often it is met there: nothing where its pattern is empty, else
its replacement stands at each place of the leftmost cut. -/
inductive Makes (entry : Substitution) : List Char → List Char → Nat → Prop where
  | idle (none : entry.pattern = "") (text : List Char) : Makes entry text text 0
  | cut (some : entry.pattern ≠ "") (cut : Cut) (leftmost : cut.Leftmost entry.pattern.toList) :
      Makes entry (cut.join entry.pattern.toList) (cut.join entry.replacement.toList) cut.stretches.length

/-- The texts that entries make one of another, from the first to the last, and how often each entry is
met. -/
inductive Course : List Substitution → List Char → List Nat → List Char → Prop where
  | done (text : List Char) : Course [] text [] text
  | step {entry : Substitution} {rest : List Substitution} {text next last : List Char} {count : Nat}
      {counts : List Nat} (makes : entry.Makes text next count) (onward : Course rest next counts last) :
      Course (entry :: rest) text (count :: counts) last

variable {entry : Substitution} {entries rest : List Substitution} {count : Nat} {counts : List Nat}

theorem makes_iff : entry.Makes text result count ↔ (result, count) = entry.apply text := by
  constructor
  · intro makes
    cases makes with
    | idle none => rw [apply_of_eq none]
    | cut some cut leftmost =>
      obtain ⟨replaced, counted⟩ := leftmost.searches (toList_pattern some) entry.replacement.toList
      rw [apply_of_ne some, replaced, counted]
  · intro applied
    by_cases none : entry.pattern = ""
    · rw [apply_of_eq none] at applied
      cases applied
      exact .idle none _
    · obtain ⟨cut, leftmost, rfl⟩ := Cut.exists_leftmost (toList_pattern none) text
      obtain ⟨replaced, counted⟩ := leftmost.searches (toList_pattern none) entry.replacement.toList
      rw [apply_of_ne none, replaced, counted] at applied
      cases applied
      exact .cut none cut leftmost

/-- There is one course, and it leads where the entries do. -/
theorem exists_course (entries : List Substitution) (text : List Char) :
    ∃ counts, (applyAll entries text).2 = counts.sum ∧ ∀ others last,
      Course entries text others last ↔ others = counts ∧ last = (applyAll entries text).1 := by
  induction entries generalizing text with
  | nil =>
    refine ⟨[], rfl, fun others last => ⟨fun course => ?_, ?_⟩⟩
    · cases course
      exact ⟨rfl, rfl⟩
    · rintro ⟨rfl, rfl⟩
      exact .done _
  | cons entry rest ih =>
    obtain ⟨counts, summed, course⟩ := ih (entry.apply text).1
    refine ⟨(entry.apply text).2 :: counts, ?_, fun others last => ⟨fun whole => ?_, ?_⟩⟩
    · rw [List.sum_cons, ← summed]
      rfl
    · cases whole with
      | step makes onward =>
        have made := makes_iff.1 makes
        simp only [Prod.ext_iff] at made
        obtain ⟨rfl, rfl⟩ := made
        obtain ⟨rfl, rfl⟩ := (course _ _).1 onward
        exact ⟨rfl, rfl⟩
    · rintro ⟨rfl, rfl⟩
      exact .step (makes_iff.2 rfl) ((course _ _).2 ⟨rfl, rfl⟩)

/-- How much entries put in or take out, each as often as it is met. -/
def gathered (measure : Substitution → Nat) (entries : List Substitution) (counts : List Nat) : Nat :=
  (List.zipWith (fun entry count => count * measure entry) entries counts).sum

/-- What the patterns take out and the replacements put in is the difference in size. -/
theorem Course.measure (measure : List Char → Nat)
    (additive : ∀ front back, measure (front ++ back) = measure front + measure back)
    (course : Course entries text counts result) :
    measure result + gathered (fun entry => measure entry.pattern.toList) entries counts =
      measure text + gathered (fun entry => measure entry.replacement.toList) entries counts := by
  induction course with
  | done text => rfl
  | @step entry _ _ _ _ _ _ makes onward ih =>
    simp only [gathered, List.zipWith_cons_cons, List.sum_cons] at ih ⊢
    cases makes with
    | idle none => omega
    | cut some cut leftmost =>
      have here := cut.measure_join measure additive entry.pattern.toList entry.replacement.toList
      omega

theorem apply_eq_zero_iff :
    (entry.apply text).2 = 0 ↔ (entry.pattern ≠ "" → ¬entry.pattern.toList <:+: text) := by
  by_cases none : entry.pattern = ""
  · simp [apply_of_eq none, none]
  · rw [apply_of_ne none, occurrences_eq_zero (toList_pattern none)]
    simp [none]

/-- Entries count nothing exactly if no pattern occurs: an entry that counts nothing leaves the text to
the next. -/
theorem applyAll_eq_zero_iff : (applyAll entries text).2 = 0 ↔
    ∀ entry ∈ entries, entry.pattern ≠ "" → ¬entry.pattern.toList <:+: text := by
  induction entries with
  | nil => simp [applyAll]
  | cons entry rest ih =>
    have whole : (applyAll (entry :: rest) text).2 =
        (entry.apply text).2 + (applyAll rest (entry.apply text).1).2 := rfl
    rw [whole, Nat.add_eq_zero_iff, List.forall_mem_cons, ← apply_eq_zero_iff, ← ih]
    exact and_congr_right fun zero => by rw [apply_of_zero zero]

end Substitution

/-- A table goes through its entries in their order, each cutting what the one before it made. That
settles the text it gives and how often it is met, and from this the length in characters and in bytes;
nothing is met exactly if no pattern occurs. -/
theorem Table.apply_by_leftmost_cuts (table : Table) (text : String) :
    ∃ counts,
      (∀ others last, Substitution.Course table.entries text.toList others last ↔
        others = counts ∧ last = (table.apply text).1.toList) ∧
      (table.apply text).2 = counts.sum ∧
      (table.apply text).1.length +
          Substitution.gathered (fun entry => entry.pattern.length) table.entries counts =
        text.length +
          Substitution.gathered (fun entry => entry.replacement.length) table.entries counts ∧
      (utf8 (table.apply text).1).length +
          Substitution.gathered (fun entry => (utf8 entry.pattern).length) table.entries counts =
        (utf8 text).length +
          Substitution.gathered (fun entry => (utf8 entry.replacement).length) table.entries counts ∧
      ((table.apply text).2 = 0 ↔
        ∀ entry ∈ table.entries, entry.pattern ≠ "" → ¬entry.pattern.toList <:+: text.toList) := by
  obtain ⟨counts, summed, course⟩ := Substitution.exists_course table.entries text.toList
  have applied : (table.apply text).1.toList = (Substitution.applyAll table.entries text.toList).1 :=
    String.toList_ofList
  have whole := (course counts _).2 ⟨rfl, rfl⟩
  refine ⟨counts, ?_, summed, ?_, ?_, Substitution.applyAll_eq_zero_iff⟩
  · rw [applied]
    exact course
  · have sizes := whole.measure List.length fun _ _ => List.length_append
    rw [← applied] at sizes
    exact sizes
  · have sizes := whole.measure (fun chars => (utf8 (String.ofList chars)).length)
      fun front back => by rw [String.ofList_append, utf8_append, List.length_append]
    rw [← applied] at sizes
    simpa using sizes

end Retarget
