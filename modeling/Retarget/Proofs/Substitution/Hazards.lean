import Mathlib.Data.List.Basic
import Mathlib.Tactic.Common
import Retarget.Substitution.Hazard

/-!
What the list of hazards holds. Two loops go over the entries, the inner one over those behind the
entry of the outer, and both count positions from the first entry of the table. So an interaction of
two entries is listed exactly if it is there, and the list is in strict order of positions and
kinds.
-/
namespace Retarget

namespace HazardKind

/-- What a kind of hazard is about: a text of one entry holds the pattern of the other. -/
def Interacts (earlier later : Substitution) : HazardKind → Prop
  | feeds => later.pattern.toList <:+: earlier.replacement.toList
  | shadowed => earlier.pattern.toList <:+: later.pattern.toList
  | reintroduces => earlier.pattern.toList <:+: later.replacement.toList

theorem holds_iff {earlier later : Substitution} {kind : HazardKind} :
    holds earlier later kind = true ↔ kind.Interacts earlier later := by
  cases kind with
  | feeds => exact occursIn_iff
  | shadowed => exact occursIn_iff
  | reintroduces => exact occursIn_iff

theorem mem_all (kind : HazardKind) : kind ∈ all := by cases kind <;> decide

/-- The place of a kind among those of the same two entries. -/
def rank : HazardKind → Nat
  | feeds => 0
  | shadowed => 1
  | reintroduces => 2

theorem all_in_order : all.Pairwise (·.rank < ·.rank) := by decide

end HazardKind

namespace Hazard

/-- The order of hazards: by the earlier entry, then by the later, then by kind. -/
inductive Before (first second : Hazard) : Prop where
  | earlier (less : first.earlier < second.earlier)
  | later (same : first.earlier = second.earlier) (less : first.later < second.later)
  | kind (same : first.earlier = second.earlier) (also : first.later = second.later)
      (less : first.kind.rank < second.kind.rank)

theorem Before.ne {first second : Hazard} (before : first.Before second) : first ≠ second := by
  rintro rfl
  cases before with
  | earlier less => exact Nat.lt_irrefl _ less
  | later _ less => exact Nat.lt_irrefl _ less
  | kind _ _ less => exact Nat.lt_irrefl _ less

variable {i j start : Nat} {earlier later : Substitution} {entries rest : List Substitution}
  {hazard : Hazard}

/-! ## What is listed -/

theorem mem_between : hazard ∈ between i earlier j later ↔
    hazard.earlier = i ∧ hazard.later = j ∧ earlier.pattern ≠ "" ∧ later.pattern ≠ "" ∧
      hazard.kind.Interacts earlier later := by
  obtain ⟨first, second, kind⟩ := hazard
  rw [between]
  split
  · next none =>
    constructor
    · intro listed
      cases listed
    · rintro ⟨-, -, first, second, -⟩
      exact (none.elim first second).elim
  · next some =>
    rw [not_or] at some
    simp only [List.mem_map, List.mem_filter, HazardKind.mem_all, HazardKind.holds_iff, true_and,
      Hazard.mk.injEq]
    constructor
    · rintro ⟨kind, interacting, rfl, rfl, rfl⟩
      exact ⟨rfl, rfl, some.1, some.2, interacting⟩
    · rintro ⟨rfl, rfl, -, -, interacting⟩
      exact ⟨kind, interacting, rfl, rfl, rfl⟩

theorem mem_withLater : hazard ∈ withLater i earlier j rest ↔
    ∃ n later, rest[n]? = some later ∧ hazard ∈ between i earlier (j + n) later := by
  induction rest generalizing j with
  | nil => simp [withLater]
  | cons first rest ih =>
    rw [withLater, List.mem_append, ih]
    constructor
    · rintro (here | ⟨n, later, found, listed⟩)
      · exact ⟨0, first, rfl, here⟩
      · exact ⟨n + 1, later, found, by rwa [Nat.add_comm n, ← Nat.add_assoc]⟩
    · rintro ⟨_ | n, later, found, listed⟩
      · cases found
        exact .inl listed
      · exact .inr ⟨n, later, found, by rwa [Nat.add_comm n, ← Nat.add_assoc] at listed⟩

theorem mem_among : hazard ∈ among start entries ↔
    ∃ m n earlier later, m < n ∧ entries[m]? = some earlier ∧ entries[n]? = some later ∧
      hazard ∈ between (start + m) earlier (start + n) later := by
  induction entries generalizing start with
  | nil => simp [among]
  | cons entry rest ih =>
    have shift (n : Nat) : start + 1 + n = start + (n + 1) := by omega
    rw [among, List.mem_append, mem_withLater, ih]
    simp only [shift]
    constructor
    · rintro (⟨n, later, found, listed⟩ | ⟨m, n, earlier, later, less, first, second, listed⟩)
      · exact ⟨0, n + 1, entry, later, Nat.succ_pos n, rfl, found, listed⟩
      · exact ⟨m + 1, n + 1, earlier, later, Nat.succ_lt_succ less, first, second, listed⟩
    · rintro ⟨_ | m, _ | n, earlier, later, less, first, second, listed⟩
      · exact absurd less (Nat.lt_irrefl 0)
      · cases first
        exact .inl ⟨n, later, second, listed⟩
      · exact absurd less (Nat.not_lt_zero _)
      · exact .inr ⟨m, n, earlier, later, Nat.lt_of_succ_lt_succ less, first, second, listed⟩

/-! ## In which order -/

theorem pairwise_between : (between i earlier j later).Pairwise Before := by
  rw [between]
  split
  · exact .nil
  · rw [List.pairwise_map]
    exact (HazardKind.all_in_order.filter _).imp fun less => .kind rfl rfl less

theorem pairwise_withLater : (withLater i earlier j rest).Pairwise Before := by
  induction rest generalizing j with
  | nil => exact .nil
  | cons first rest ih =>
    rw [withLater, List.pairwise_append]
    refine ⟨pairwise_between, ih, fun hazard here other behind => ?_⟩
    obtain ⟨n, later, -, listed⟩ := mem_withLater.1 behind
    obtain ⟨same, position, -⟩ := mem_between.1 here
    obtain ⟨also, further, -⟩ := mem_between.1 listed
    exact .later (same.trans also.symm) (by omega)

theorem pairwise_among : (among start entries).Pairwise Before := by
  induction entries generalizing start with
  | nil => exact .nil
  | cons entry rest ih =>
    rw [among, List.pairwise_append]
    refine ⟨pairwise_withLater, ih, fun hazard here other behind => ?_⟩
    obtain ⟨n, later, -, listed⟩ := mem_withLater.1 here
    obtain ⟨m, n, earlier, later, -, -, -, further⟩ := mem_among.1 behind
    have first := (mem_between.1 listed).1
    have second := (mem_between.1 further).1
    exact .earlier (by omega)

end Hazard

/-- The hazards of a table are the interactions of each entry with those behind it, both with a
pattern, told by their positions in the whole table. Each is listed once and all are in order. -/
theorem Table.hazards_exact (table : Table) :
    (∀ i j kind, ⟨i, j, kind⟩ ∈ table.hazards ↔ i < j ∧ ∃ earlier later,
      table.entries[i]? = some earlier ∧ table.entries[j]? = some later ∧
        earlier.pattern ≠ "" ∧ later.pattern ≠ "" ∧ kind.Interacts earlier later) ∧
      table.hazards.Pairwise Hazard.Before ∧ table.hazards.Nodup := by
  refine ⟨fun i j kind => ?_, Hazard.pairwise_among, Hazard.pairwise_among.imp Hazard.Before.ne⟩
  rw [hazards, Hazard.mem_among]
  simp only [Nat.zero_add, Hazard.mem_between]
  constructor
  · rintro ⟨_, _, earlier, later, less, first, second, rfl, rfl, interacting⟩
    exact ⟨less, earlier, later, first, second, interacting⟩
  · rintro ⟨less, earlier, later, first, second, interacting⟩
    exact ⟨i, j, earlier, later, less, first, second, rfl, rfl, interacting⟩

/-- An entry without a pattern has no hazard, and it counts as a position. -/
example : (⟨[⟨"a", "b"⟩, ⟨"", "a"⟩, ⟨"ba", "aba"⟩], by decide⟩ : Table).hazards =
    [⟨0, 2, .shadowed⟩, ⟨0, 2, .reintroduces⟩] := by
  decide +kernel

end Retarget
