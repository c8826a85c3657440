import Mathlib.Data.List.Perm.Subperm
import Retarget.Proofs.Substitution.Sweep
import Retarget.Substitution.Hazard

/-!
When the order of the entries is without effect. Hazards look at containment alone. That two orders
are both free of hazards settles containment for every two entries that change places; what is left
open is that they meet at an end, or that a replacement fills a gap in the other pattern.
-/
namespace Retarget

namespace Substitution

/-- None of the interactions that count as hazards. -/
def Harmless (earlier later : Substitution) : Prop :=
  earlier.pattern = "" ∨ later.pattern = "" ∨ ∀ kind, HazardKind.holds earlier later kind = false

/-- An interaction of the first entry with the pattern of the second that no hazard is about: an end
of its pattern begins the other, or its replacement meets the other at either end or lies within
it. -/
def Meets (first second : Substitution) : Prop :=
  RunsInto first.pattern.toList second.pattern.toList ∨
    RunsInto first.replacement.toList second.pattern.toList ∨
    RunsInto second.pattern.toList first.replacement.toList ∨
    Enclosed first.replacement.toList second.pattern.toList

instance (first second : Substitution) : Decidable (Meets first second) :=
  inferInstanceAs (Decidable (_ ∨ _ ∨ _ ∨ _))

/-- Either order of two entries has one effect on every text. -/
def Commutes (first second : Substitution) : Prop :=
  ∀ text, applyAll [first, second] text = applyAll [second, first] text

variable {first second entry : Substitution} {entries others ahead behind : List Substitution}

theorem separate_of_harmless (first_some : first.pattern ≠ "") (second_some : second.pattern ≠ "")
    (there : Harmless first second) (back : Harmless second first)
    (apart : ¬Meets first second) (apart_back : ¬Meets second first) : Separate first second := by
  have there := (there.resolve_left first_some).resolve_left second_some
  have back := (back.resolve_left second_some).resolve_left first_some
  have feeds := there .feeds
  have shadowed := there .shadowed
  have shadowed_back := back .shadowed
  simp only [HazardKind.holds, Bool.eq_false_iff, ne_eq, occursIn_iff]
    at feeds shadowed shadowed_back
  simp only [Meets, not_or] at apart apart_back
  refine ⟨?_, ?_⟩
  · rintro (inside | inside | runs | runs)
    · exact shadowed inside
    · exact shadowed_back inside
    · exact apart.1 runs
    · exact apart_back.1 runs
  · rintro (inside | runs | runs | within)
    · exact feeds inside
    · exact apart.2.1 runs
    · exact apart.2.2.1 runs
    · exact apart.2.2.2 within

theorem applyAll_append (entries others : List Substitution) (text : List Char) :
    applyAll (entries ++ others) text =
      ((applyAll others (applyAll entries text).1).1,
        (applyAll entries text).2 + (applyAll others (applyAll entries text).1).2) := by
  induction entries generalizing text with
  | nil => simp [applyAll]
  | cons entry rest ih => simp [applyAll, ih, Nat.add_assoc]

theorem sweep_perm (lone : Lone entries) (same : entries.Perm others) (text : List Char) :
    sweep entries text = sweep others text := by
  have lone_others : Lone others := fun first member second also =>
    lone first (same.mem_iff.2 member) second (same.mem_iff.2 also)
  induction size : text.length using Nat.strong_induction_on generalizing text with
  | _ bound ih =>
    cases text with
    | nil => rfl
    | cons char tail =>
      by_cases begun : ∃ entry ∈ entries, entry.begins (char :: tail) = true
      · obtain ⟨entry, member, begins⟩ := begun
        have found := find?_of_lone lone member begins
        have found_others := find?_of_lone lone_others (same.mem_iff.1 member) begins
        have shorter : (tail.drop (entry.pattern.toList.length - 1)).length < bound := by
          rw [← size, List.length_drop, List.length_cons]
          omega
        have onward := ih _ shorter _ rfl
        simp only [sweep, sweepFrom, found, found_others]
        rw [sweepFrom_drop, sweepFrom_drop, onward]
      · have free : ∀ entry ∈ entries, ¬entry.pattern.toList <+: char :: tail :=
          fun entry member begins => begun ⟨entry, member, begins_iff.2 begins⟩
        rw [sweep_keep free, sweep_keep fun entry member => free entry (same.mem_iff.2 member),
          ih tail.length (by simp [← size]) tail rfl]

theorem commutes_of_harmless (there : Harmless first second) (back : Harmless second first)
    (apart : ¬Meets first second) (apart_back : ¬Meets second first) : Commutes first second := by
  intro text
  by_cases first_none : first.pattern = ""
  · simp [applyAll, apply_of_eq first_none]
  by_cases second_none : second.pattern = ""
  · simp [applyAll, apply_of_eq second_none]
  have separate := separate_of_harmless first_none second_none there back apart apart_back
  have separate_back := separate_of_harmless second_none first_none back there apart_back apart
  rw [applyAll_eq_sweep (by simp [first_none, second_none]) (by simpa using separate),
    applyAll_eq_sweep (by simp [first_none, second_none]) (by simpa using separate_back)]
  exact sweep_perm (lone_of_pairwise (by simpa using separate.1)) (.swap _ _ _) text

/-- An entry that commutes with all those ahead of it may come first. -/
theorem applyAll_front (commutes : ∀ other ∈ ahead, Commutes other entry) (text : List Char) :
    applyAll (ahead ++ entry :: behind) text = applyAll (entry :: (ahead ++ behind)) text := by
  induction ahead generalizing text with
  | nil => rfl
  | cons other ahead ih =>
    have onward := ih fun later member => commutes later (List.mem_cons_of_mem _ member)
    have swapped := commutes other List.mem_cons_self text
    calc applyAll (other :: (ahead ++ entry :: behind)) text
      _ = applyAll ([other, entry] ++ (ahead ++ behind)) text := by
        simp only [List.cons_append, List.nil_append, applyAll, onward]
      _ = applyAll ([entry, other] ++ (ahead ++ behind)) text := by
        rw [applyAll_append [other, entry], applyAll_append [entry, other], swapped]

/-- Two orders of the same entries have one effect if entries that change places commute. -/
theorem applyAll_perm (same : entries.Perm others)
    (commutes : ∀ first second, [first, second].Sublist entries → [second, first].Sublist others →
      Commutes first second) (text : List Char) :
    applyAll entries text = applyAll others text := by
  induction entries generalizing others text with
  | nil => rw [same.nil_eq]
  | cons entry rest ih =>
    obtain ⟨ahead, behind, rfl⟩ := List.append_of_mem (same.subset List.mem_cons_self)
    have fewer : rest.Perm (ahead ++ behind) :=
      (same.trans List.perm_middle).cons_inv
    have front : ∀ other ∈ ahead, Commutes other entry := by
      intro other member text
      have first : [entry, other].Sublist (entry :: rest) :=
        (List.singleton_sublist.2 (fewer.mem_iff.2 (List.mem_append_left _ member))).cons_cons _
      have second : [other, entry].Sublist (ahead ++ entry :: behind) :=
        (List.singleton_sublist.2 member).append
          (List.singleton_sublist.2 List.mem_cons_self)
      exact (commutes entry other first second text).symm
    have onward := ih fewer fun first second here there =>
      commutes first second (here.cons _)
        (there.trans ((List.Sublist.refl _).append (List.sublist_cons_self _ _)))
    rw [applyAll_front front]
    simp only [applyAll, onward]

end Substitution

/-! ## What a list of hazards tells -/

namespace Hazard

open Substitution

theorem between_eq_nil {i j : Nat} {earlier later : Substitution} :
    between i earlier j later = [] ↔ Harmless earlier later := by
  rw [between, Harmless]
  split
  · next none => exact ⟨fun _ => or_assoc.1 (.inl none), fun _ => rfl⟩
  · next some =>
    rw [← or_assoc, or_iff_right some, List.map_eq_nil_iff, List.filter_eq_nil_iff]
    constructor
    · intro unseen kind
      simpa using unseen kind (by cases kind <;> simp [HazardKind.all])
    · intro unseen kind _
      simp [unseen kind]

theorem withLater_eq_nil {i j : Nat} {earlier : Substitution} {rest : List Substitution} :
    withLater i earlier j rest = [] ↔ ∀ later ∈ rest, Harmless earlier later := by
  induction rest generalizing j with
  | nil => simp [withLater]
  | cons later rest ih =>
    rw [withLater, List.append_eq_nil_iff, between_eq_nil, ih, List.forall_mem_cons]

theorem among_eq_nil {i : Nat} {entries : List Substitution} :
    among i entries = [] ↔ entries.Pairwise Harmless := by
  induction entries generalizing i with
  | nil => simp [among]
  | cons entry rest ih =>
    rw [among, List.append_eq_nil_iff, withLater_eq_nil, ih, List.pairwise_cons]

end Hazard

namespace Table

variable {table other : Table}

theorem hazards_eq_nil : table.hazards = [] ↔ table.entries.Pairwise Substitution.Harmless :=
  Hazard.among_eq_nil

theorem perm_of_sameEntries (same : table.sameEntries other = true) :
    table.entries.Perm other.entries := by
  rw [sameEntries, Bool.and_eq_true, List.all_eq_true, decide_eq_true_eq] at same
  have nodup : table.entries.Nodup := List.Nodup.of_map _ table.distinct
  refine (List.subperm_of_subset nodup fun entry member => ?_).perm_of_length_le same.1.ge
  have held := of_decide_eq_true (same.2 entry member)
  obtain ⟨found, first, replacement⟩ := Option.map_eq_some_iff.1 held
  have pattern : found.pattern = entry.pattern := by simpa using List.find?_some first
  have equal : found = entry := by
    cases found; cases entry
    simp_all
  exact equal ▸ List.mem_of_find?_eq_some first

/-- Two orders of the same entries without hazards have one effect, in text and in count, if entries
that change places do not meet. -/
theorem apply_eq_of_sameEntries (same : table.sameEntries other = true)
    (harmless : table.hazards = []) (harmless_other : other.hazards = [])
    (apart : ∀ first second, [first, second].Sublist table.entries →
      [second, first].Sublist other.entries →
      ¬Substitution.Meets first second ∧ ¬Substitution.Meets second first) (text : String) :
    table.apply text = other.apply text := by
  rw [hazards_eq_nil] at harmless harmless_other
  have commutes : ∀ first second, [first, second].Sublist table.entries →
      [second, first].Sublist other.entries → Substitution.Commutes first second := by
    intro first second here there
    have apart := apart first second here there
    exact Substitution.commutes_of_harmless (List.pairwise_pair.1 (harmless.sublist here))
      (List.pairwise_pair.1 (harmless_other.sublist there)) apart.1 apart.2
  have equal := Substitution.applyAll_perm (perm_of_sameEntries same) commutes text.toList
  rw [apply, apply, equal]

/-- The entries of `precision` the other way round. -/
def precisionReversed : Table := ⟨[⟨"Matrix1D", "Vector"⟩, ⟨"double", "float"⟩], by decide⟩

theorem precision_in_either_order :
    precision.sameEntries precisionReversed = true ∧ precision.hazards = [] ∧
      precisionReversed.hazards = [] ∧
      (∀ first second, [first, second].Sublist precision.entries →
        [second, first].Sublist precisionReversed.entries →
        ¬Substitution.Meets first second ∧ ¬Substitution.Meets second first) ∧
      ∀ text, precision.apply text = precisionReversed.apply text := by
  have same : precision.sameEntries precisionReversed = true := by decide
  have harmless : precision.hazards = [] := by decide +kernel
  have harmless_reversed : precisionReversed.hazards = [] := by decide +kernel
  have apart : ∀ first ∈ precision.entries, ∀ second ∈ precision.entries, first ≠ second →
      ¬Substitution.Meets first second ∧ ¬Substitution.Meets second first := by decide +kernel
  have distinct : precision.entries.Nodup := by decide
  have swapped : ∀ first second, [first, second].Sublist precision.entries →
      [second, first].Sublist precisionReversed.entries →
      ¬Substitution.Meets first second ∧ ¬Substitution.Meets second first :=
    fun first second here _ => apart first (here.subset (by simp)) second (here.subset (by simp))
      (List.pairwise_pair.1 (distinct.sublist here))
  exact ⟨same, harmless, harmless_reversed, swapped,
    apply_eq_of_sameEntries same harmless harmless_reversed swapped⟩

/-- Two patterns that share a character at their ends. -/
def meeting : Table := ⟨[⟨"ab", "x"⟩, ⟨"bc", "y"⟩], by decide⟩

def meetingReversed : Table := ⟨[⟨"bc", "y"⟩, ⟨"ab", "x"⟩], by decide⟩

/-- Neither order has a hazard, yet the first entry takes what the second would have found. -/
theorem order_matters_without_hazards :
    "" ∉ meeting.patterns ∧ meeting.sameEntries meetingReversed = true ∧ meeting.hazards = [] ∧
      meetingReversed.hazards = [] ∧ meeting.apply "abc" = ("xc", 1) ∧
      meetingReversed.apply "abc" = ("ay", 1) := by
  decide +kernel

end Table
end Retarget
