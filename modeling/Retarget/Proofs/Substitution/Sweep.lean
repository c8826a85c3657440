import Mathlib.Data.List.Nodup
import Mathlib.Data.List.Pairwise
import Retarget.Proofs.Distinct
import Retarget.Proofs.Substitution.Replacement

/-!
A table as one walk over the text. Entries are applied one after another, each to what the one
before it left. Where patterns stay clear of each other and of what is written for them, the outcome
is that of a single scan of the first text, which meets every pattern where it stood from the start.
-/
namespace Retarget

/-- A non-empty end of the first text is a beginning of the second. -/
def RunsInto (first second : List Char) : Prop :=
  ∃ shared ∈ first.tails, shared ≠ [] ∧ shared <+: second

/-- One text lies within another, with something on either side. -/
def Enclosed (inner outer : List Char) : Prop :=
  ∃ front ∈ outer.inits, ∃ back ∈ outer.tails,
    front ≠ [] ∧ back ≠ [] ∧ front ++ inner ++ back = outer

/-- A text put between others can bring about the second one: it holds it, meets it at either end or
lies within it. For an empty text only the last can be. -/
def BringsAbout (written found : List Char) : Prop :=
  found <:+: written ∨ RunsInto written found ∨ RunsInto found written ∨ Enclosed written found

instance (first second : List Char) : Decidable (RunsInto first second) :=
  inferInstanceAs (Decidable (∃ shared ∈ first.tails, _))

instance (inner outer : List Char) : Decidable (Enclosed inner outer) :=
  inferInstanceAs (Decidable (∃ front ∈ outer.inits, ∃ back ∈ outer.tails, _))

theorem RunsInto.of_suffix {first second shared : List Char} (some : shared ≠ [])
    (ends : shared <:+ first) (begins : shared <+: second) : RunsInto first second :=
  ⟨shared, (List.mem_tails _ _).2 ends, some, begins⟩

theorem Touch.symm {first second : List Char} (touch : Touch first second) :
    Touch second first := by
  rcases touch with inside | inside | runs | runs
  · exact .inr (.inl inside)
  · exact .inl inside
  · exact .inr (.inr (.inr runs))
  · exact .inr (.inr (.inl runs))

/-- What stands within a text or meets it also touches it. -/
theorem BringsAbout.touch {written found : List Char} (brings : BringsAbout written found) :
    Touch written found := by
  rcases brings with inside | runs | runs | ⟨front, _, back, _, _, _, whole⟩
  · exact .inr (.inl inside)
  · exact .inr (.inr (.inl runs))
  · exact .inr (.inr (.inr runs))
  · exact .inl ⟨front, back, whole⟩

/-- Behind its first character, a text that a replacement cannot bring about meets none. -/
theorem apart_of_not_bringsAbout {written rest : List Char} {first : Char}
    (never : ¬BringsAbout written (first :: rest)) :
    ∀ more, more ≠ [] → more <:+ rest → ¬more <+: written ∧ ¬written <+: more := by
  intro more some ends
  have ends := ends.trans (List.suffix_cons first rest)
  have met : ¬more <+: written := fun begins =>
    never (.inr (.inr (.inl (.of_suffix some ends begins))))
  refine ⟨met, ?_⟩
  rintro ⟨back, whole⟩
  have behind : back ≠ [] := by
    rintro rfl
    exact met (by simp [← whole])
  obtain ⟨front, split⟩ := ends
  have ahead : front ≠ [] := by
    rintro rfl
    have longer := congrArg List.length split
    have short := List.IsSuffix.length_le ‹more <:+ rest›
    simp only [List.nil_append, List.length_cons] at longer
    omega
  refine never (.inr (.inr (.inr ⟨front, ?_, back, ?_, ahead, behind, ?_⟩)))
  · exact (List.mem_inits _ _).2 ⟨more, split⟩
  · exact (List.mem_tails _ _).2 ⟨front ++ written, by rw [List.append_assoc, whole, split]⟩
  · rw [List.append_assoc, whole, split]

/-- A text that a replacement cannot bring about begins nowhere inside it. -/
theorem not_prefix_of_not_bringsAbout {written found start back : List Char}
    (never : ¬BringsAbout written found) (some : start ≠ []) (ends : start <:+ written) :
    ¬found <+: start ++ back := by
  intro begins
  rcases List.prefix_or_prefix_of_prefix begins (List.prefix_append start back) with
    inside | around
  · exact never (.inl (inside.isInfix.trans ends.isInfix))
  · exact never (.inr (.inl (.of_suffix some ends around)))

namespace Substitution

def begins (text : List Char) (entry : Substitution) : Bool :=
  entry.pattern.toList.isPrefixOf text

/-- One walk with all entries. Where a pattern begins, its replacement is written and the pattern
passed over, of which `skip` characters are still to come; elsewhere one character is copied. -/
def sweepFrom (entries : List Substitution) : (skip : Nat) → List Char → List Char × Nat
  | _, [] => ([], 0)
  | skip + 1, _ :: rest => sweepFrom entries skip rest
  | 0, char :: rest =>
    match entries.find? (begins (char :: rest)) with
    | some entry =>
      let (result, count) := sweepFrom entries (entry.pattern.toList.length - 1) rest
      (entry.replacement.toList ++ result, count + 1)
    | none =>
      let (result, count) := sweepFrom entries 0 rest
      (char :: result, count)

def sweep (entries : List Substitution) (text : List Char) : List Char × Nat :=
  sweepFrom entries 0 text

/-- No two entries begin at one place. -/
def Lone (entries : List Substitution) : Prop :=
  ∀ first ∈ entries, ∀ second ∈ entries, ∀ text,
    first.begins text = true → second.begins text = true → first = second

variable {entries rest : List Substitution} {entry : Substitution} {text : List Char}

@[simp] theorem begins_iff : entry.begins text = true ↔ entry.pattern.toList <+: text :=
  List.isPrefixOf_iff_prefix

/-! ## One step of the walk -/

theorem sweepFrom_drop (entries : List Substitution) (skip : Nat) (text : List Char) :
    sweepFrom entries skip text = sweep entries (text.drop skip) := by
  induction text generalizing skip with
  | nil => cases skip <;> rfl
  | cons char rest ih =>
    cases skip with
    | zero => rfl
    | succ skip => simpa [sweepFrom] using ih skip

theorem sweep_nil (entries : List Substitution) : sweep entries [] = ([], 0) := rfl

theorem sweep_keep {char : Char}
    (free : ∀ entry ∈ entries, ¬entry.pattern.toList <+: char :: text) :
    sweep entries (char :: text) =
      (char :: (sweep entries text).1, (sweep entries text).2) := by
  have nobody : entries.find? (begins (char :: text)) = none :=
    List.find?_eq_none.2 fun entry member => by simpa using free entry member
  rw [sweep, sweepFrom, nobody]
  rfl

theorem find?_of_lone (lone : Lone entries) (member : entry ∈ entries)
    (begun : entry.begins text = true) : entries.find? (begins text) = some entry :=
  find?_of_only member begun fun other inside begins =>
    lone other inside entry member text begins begun

theorem sweep_hit (lone : Lone entries) (member : entry ∈ entries) (some : entry.pattern ≠ "")
    (text : List Char) :
    sweep entries (entry.pattern.toList ++ text) =
      (entry.replacement.toList ++ (sweep entries text).1, (sweep entries text).2 + 1) := by
  have found := find?_of_lone lone member
    (begins_iff.2 (List.prefix_append entry.pattern.toList text))
  obtain ⟨first, more, whole⟩ := List.exists_cons_of_ne_nil (toList_pattern some)
  rw [whole] at found ⊢
  rw [sweep, List.cons_append, sweepFrom, ← List.cons_append, found]
  simp [whole, sweepFrom_drop]

/-- A stretch in which no pattern begins is copied. -/
theorem sweep_pass {front back : List Char}
    (free : ∀ start, start ≠ [] → start <:+ front →
      ∀ entry ∈ entries, ¬entry.pattern.toList <+: start ++ back) :
    sweep entries (front ++ back) = (front ++ (sweep entries back).1, (sweep entries back).2) := by
  induction front with
  | nil => rfl
  | cons char front ih =>
    have free_here := free (char :: front) (List.cons_ne_nil _ _) (List.suffix_refl _)
    rw [List.cons_append] at free_here ⊢
    rw [sweep_keep free_here,
      ih fun start some ends => free start some (ends.trans (List.suffix_cons _ _))]
    rfl

/-! ## Walks one after another -/

theorem lone_singleton (entry : Substitution) : Lone [entry] := by
  intro first member second also text _ _
  rw [List.mem_singleton.1 member, List.mem_singleton.1 also]

theorem lone_of_pairwise
    (apart : entries.Pairwise fun first second =>
      ¬Touch first.pattern.toList second.pattern.toList) : Lone entries := by
  have symmetric : Std.Symm fun first second : Substitution =>
      ¬Touch first.pattern.toList second.pattern.toList :=
    ⟨fun _ _ apart touch => apart touch.symm⟩
  intro first member second also text here there
  by_contra different
  have separate := apart.forall member also different
  rcases List.prefix_or_prefix_of_prefix (begins_iff.1 here) (begins_iff.1 there) with
    inside | inside
  · exact separate (.inl inside.isInfix)
  · exact separate (.inr (.inl inside.isInfix))

/-- Applying one entry is a walk with it alone. -/
theorem apply_eq_sweep (some : entry.pattern ≠ "") (text : List Char) :
    entry.apply text = sweep [entry] text := by
  rw [apply_of_ne some]
  induction size : text.length using Nat.strong_induction_on generalizing text with
  | _ bound ih =>
    cases text with
    | nil => rfl
    | cons char rest =>
      by_cases begun : entry.pattern.toList <+: char :: rest
      · obtain ⟨more, whole⟩ := begun
        have positive := List.length_pos_iff.2 (toList_pattern some)
        have shorter : more.length < bound := by
          rw [← size, ← whole, List.length_append]
          omega
        rw [← whole, replaceAll_prefix (toList_pattern some),
          occurrences_prefix (toList_pattern some),
          sweep_hit (lone_singleton entry) (List.mem_singleton_self entry) some,
          ← ih more.length shorter more rfl]
      · have free : ∀ other ∈ [entry], ¬other.pattern.toList <+: char :: rest := by
          simpa using begun
        rw [replaceAll_keep begun, occurrences_keep begun, sweep_keep free,
          ← ih rest.length (by simp [← size]) rest rfl]

/-- An earlier and a later entry that have nothing to do with each other: their patterns do not
touch, and what is written for the earlier one brings about no pattern of the later one. -/
def Separate (earlier later : Substitution) : Prop :=
  ¬Touch earlier.pattern.toList later.pattern.toList ∧
    ¬BringsAbout earlier.replacement.toList later.pattern.toList

/-- A later pattern is copied by the walk of the earlier entry. -/
theorem sweep_over {later : Substitution} (separate : Separate entry later) (more : List Char) :
    sweep [entry] (later.pattern.toList ++ more) =
      (later.pattern.toList ++ (sweep [entry] more).1, (sweep [entry] more).2) := by
  refine sweep_pass fun start some ends first inside begins => ?_
  rw [List.mem_singleton.1 inside] at begins
  rcases List.prefix_or_prefix_of_prefix begins (List.prefix_append start more) with held | around
  · exact separate.1 (.inl (held.isInfix.trans ends.isInfix))
  · exact separate.1 (touch_of_second some ends around)

/-- The walk of the earlier entry makes no later pattern begin before the text it changes. -/
theorem not_prefix_of_swept {later : Substitution} {char : Char} {tail : List Char}
    (separate : Separate entry later) (entry_some : entry.pattern ≠ "")
    (later_some : later.pattern ≠ "") (free : ¬later.pattern.toList <+: char :: tail) :
    ¬later.pattern.toList <+: char :: (sweep [entry] tail).1 := by
  intro begins
  refine free ?_
  have never := separate.2
  obtain ⟨first, more, whole⟩ := List.exists_cons_of_ne_nil (toList_pattern later_some)
  rw [whole] at begins never ⊢
  rw [List.cons_prefix_cons] at begins ⊢
  rw [← apply_eq_sweep entry_some, apply_of_ne entry_some] at begins
  exact ⟨begins.1, Replaced.prefix_of_prefix (replaced_replaceAll (toList_pattern entry_some) tail)
    (apart_of_not_bringsAbout never) begins.2⟩

/-- A walk with one entry and then with the others is a walk with all of them. By induction along
the text, at which either the one begins, or one of the others, or none. -/
theorem sweep_cons (some : ∀ other ∈ entry :: rest, other.pattern ≠ "")
    (lone : Lone (entry :: rest)) (separate : ∀ later ∈ rest, Separate entry later)
    (text : List Char) :
    sweep (entry :: rest) text =
      ((sweep rest (sweep [entry] text).1).1,
        (sweep [entry] text).2 + (sweep rest (sweep [entry] text).1).2) := by
  have alone := lone_singleton entry
  have here : entry ∈ [entry] := List.mem_singleton_self entry
  have lone_rest : Lone rest := fun first member second also =>
    lone first (List.mem_cons_of_mem _ member) second (List.mem_cons_of_mem _ also)
  induction size : text.length using Nat.strong_induction_on generalizing text with
  | _ bound ih =>
    cases text with
    | nil => rfl
    | cons char tail =>
      by_cases begun : ∃ other ∈ entry :: rest, other.pattern.toList <+: char :: tail
      · obtain ⟨other, member, more, whole⟩ := begun
        have positive := List.length_pos_iff.2 (toList_pattern (some other member))
        have shorter : more.length < bound := by
          rw [← size, ← whole, List.length_append]
          omega
        have onward := ih more.length shorter more rfl
        rw [← whole, sweep_hit lone member (some other member), onward]
        rcases List.mem_cons.1 member with rfl | later
        · -- what the entry writes is copied by the later walk
          rw [sweep_hit alone here (some other member),
            sweep_pass fun start some ends later inside =>
              not_prefix_of_not_bringsAbout (separate later inside).2 some ends]
          simp only [Prod.mk.injEq, true_and]
          omega
        · -- the pattern of a later entry is copied by the first walk
          rw [sweep_over (separate other later), sweep_hit lone_rest later (some other member)]
          simp only [Prod.mk.injEq, true_and]
          omega
      · have free : ∀ other ∈ entry :: rest, ¬other.pattern.toList <+: char :: tail :=
          fun other member begins => begun ⟨other, member, begins⟩
        have free_entry := free entry (List.mem_cons_self)
        have onward := ih tail.length (by simp [← size]) tail rfl
        have free_rest : ∀ later ∈ rest,
            ¬later.pattern.toList <+: char :: (sweep [entry] tail).1 := fun later member =>
          not_prefix_of_swept (separate later member) (some entry List.mem_cons_self)
            (some later (List.mem_cons_of_mem _ member)) (free later (List.mem_cons_of_mem _ member))
        have kept : sweep [entry] (char :: tail) =
            (char :: (sweep [entry] tail).1, (sweep [entry] tail).2) :=
          sweep_keep (by simpa using free_entry)
        rw [sweep_keep free, onward, kept, sweep_keep free_rest]

/-- Entries that are separate in their order work on a text as one walk. -/
theorem applyAll_eq_sweep (some : ∀ entry ∈ entries, entry.pattern ≠ "")
    (separate : entries.Pairwise Separate) (text : List Char) :
    applyAll entries text = sweep entries text := by
  induction entries generalizing text with
  | nil =>
    have copied : sweep [] (text ++ []) = (text ++ (sweep [] []).1, (sweep [] []).2) :=
      sweep_pass (by simp)
    simpa [applyAll, sweep_nil] using copied.symm
  | cons entry rest ih =>
    have lone := lone_of_pairwise (separate.imp And.left)
    rw [List.pairwise_cons] at separate
    have onward := ih (fun other member => some other (List.mem_cons_of_mem _ member)) separate.2
    rw [sweep_cons some lone separate.1, ← apply_eq_sweep (some entry List.mem_cons_self), ← onward]
    rfl

end Substitution

namespace Table

/-- Where no entry's pattern or replacement touches the pattern of another, at most one entry begins
at a place, and the table rewrites and counts as one walk over the text. -/
theorem apply_in_one_sweep (table : Table) (some : ∀ entry ∈ table.entries, entry.pattern ≠ "")
    (apart : ∀ first ∈ table.entries, ∀ second ∈ table.entries, first ≠ second →
      ¬Touch first.pattern.toList second.pattern.toList ∧
        ¬Touch first.replacement.toList second.pattern.toList) :
    Substitution.Lone table.entries ∧ ∀ text : String,
      table.apply text =
        (String.ofList (Substitution.sweep table.entries text.toList).1,
          (Substitution.sweep table.entries text.toList).2) := by
  have different : table.entries.Nodup := List.Nodup.of_map _ table.distinct
  have separate : table.entries.Pairwise Substitution.Separate :=
    different.imp_of_mem fun first second unequal =>
      (apart _ first _ second unequal).imp_right fun untouched brings => untouched brings.touch
  refine ⟨Substitution.lone_of_pairwise (separate.imp And.left), fun text => ?_⟩
  rw [← Substitution.applyAll_eq_sweep some separate]
  rfl

/-- Two entries whose patterns and replacements have no part in common. -/
def precision : Table := ⟨[⟨"double", "float"⟩, ⟨"Matrix1D", "Vector"⟩], by decide⟩

theorem precision_in_one_sweep :
    (∀ entry ∈ precision.entries, entry.pattern ≠ "") ∧
    (∀ first ∈ precision.entries, ∀ second ∈ precision.entries, first ≠ second →
      ¬Touch first.pattern.toList second.pattern.toList ∧
        ¬Touch first.replacement.toList second.pattern.toList) ∧
    precision.apply "double Matrix1D doubled" = ("float Vector floatd", 3) := by
  have some : ∀ entry ∈ precision.entries, entry.pattern ≠ "" := by decide
  have apart : ∀ first ∈ precision.entries, ∀ second ∈ precision.entries, first ≠ second →
      ¬Touch first.pattern.toList second.pattern.toList ∧
        ¬Touch first.replacement.toList second.pattern.toList := by decide +kernel
  refine ⟨some, apart, ?_⟩
  rw [(apply_in_one_sweep precision some apart).2]
  decide +kernel

end Table
end Retarget
