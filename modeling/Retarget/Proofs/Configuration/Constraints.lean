import Mathlib.Data.List.Basic
import Mathlib.Tactic.Common
import Retarget.Configuration.Job

/-!
What a job has to be. Its constraints stand in a list, each with what is reported where it is
broken, and of several that are broken the first is reported.
-/
namespace Retarget

structure Constraint where
  holds : Prop
  violation : Violation

/-- What is reported of constraints: the violation of the first that does not hold. -/
inductive FirstBroken : List Constraint → Violation → Prop where
  | here {constraint : Constraint} {rest : List Constraint} (broken : ¬constraint.holds) :
      FirstBroken (constraint :: rest) constraint.violation
  | later {constraint : Constraint} {rest : List Constraint} {violation : Violation}
      (holds : constraint.holds) (onward : FirstBroken rest violation) :
      FirstBroken (constraint :: rest) violation

section FirstBroken

variable {constraint : Constraint} {rest : List Constraint} {violation : Violation}

theorem firstBroken_cons_iff : FirstBroken (constraint :: rest) violation ↔
    (¬constraint.holds ∧ constraint.violation = violation) ∨
      (constraint.holds ∧ FirstBroken rest violation) := by
  constructor
  · rintro (broken | ⟨holds, onward⟩)
    · exact .inl ⟨broken, rfl⟩
    · exact .inr ⟨holds, onward⟩
  · rintro (⟨broken, rfl⟩ | ⟨holds, onward⟩)
    · exact .here broken
    · exact .later holds onward

/-- Something is reported unless all constraints hold. -/
theorem exists_firstBroken_iff {constraints : List Constraint} :
    (∃ violation, FirstBroken constraints violation) ↔
      ¬∀ constraint ∈ constraints, constraint.holds := by
  induction constraints with
  | nil =>
    constructor
    · rintro ⟨_, broken⟩
      cases broken
    · intro some
      exact absurd (by simp) some
  | cons constraint rest ih =>
    simp only [firstBroken_cons_iff, exists_or, exists_and_left, exists_eq', and_true, ih,
      List.forall_mem_cons]
    tauto

/-- A check in front of others tests a constraint in front of theirs. -/
theorem check_eq_some_iff {broken holds : Prop} [Decidable broken] (same : broken ↔ ¬holds)
    {reported : Violation} {checks : Option Violation}
    (onward : checks = some violation ↔ FirstBroken rest violation) :
    (if broken then some reported else checks) = some violation ↔
      FirstBroken (⟨holds, reported⟩ :: rest) violation := by
  rw [firstBroken_cons_iff, ← onward, ← same, ← not_iff_comm.1 same.symm]
  by_cases failed : broken <;> simp [failed]

end FirstBroken

namespace Job

variable {job : Job}

structure Valid (job : Job) : Prop where
  name : job.name ≠ ""
  directories : job.source ≠ "" ∧ job.target ≠ ""
  directories_differ : job.source ≠ job.target
  marks : job.naming.source ≠ "" ∧ job.naming.target ≠ ""
  marks_differ : job.naming.source ≠ job.naming.target
  patterns : ∀ pattern ∈ job.table.patterns, pattern ≠ ""

/-- The constraints on a job; of several that are broken the one further up is reported. -/
def constraints (job : Job) : List Constraint := [
  ⟨job.name ≠ "", .namelessJob⟩,
  ⟨job.source ≠ "" ∧ job.target ≠ "", .emptyDirectory job.name⟩,
  ⟨job.source ≠ job.target, .sameDirectories job.name⟩,
  ⟨job.naming.source ≠ "" ∧ job.naming.target ≠ "", .emptyMark job.name⟩,
  ⟨job.naming.source ≠ job.naming.target, .sameMarks job.name⟩,
  ⟨∀ pattern ∈ job.table.patterns, pattern ≠ "", .emptyPattern job.name⟩]

theorem valid_iff : job.Valid ↔ ∀ constraint ∈ job.constraints, constraint.holds := by
  simp only [constraints, List.forall_mem_cons, List.not_mem_nil, false_imp_iff, implies_true,
    and_true]
  exact ⟨fun ⟨name, directories, differ, marks, apart, patterns⟩ =>
      ⟨name, directories, differ, marks, apart, patterns⟩,
    fun ⟨name, directories, differ, marks, apart, patterns⟩ =>
      ⟨name, directories, differ, marks, apart, patterns⟩⟩

theorem violation?_eq_some_iff {violation : Violation} :
    job.violation? = some violation ↔ FirstBroken job.constraints violation := by
  rw [violation?, constraints]
  refine check_eq_some_iff (by simp) ?_
  refine check_eq_some_iff (by tauto) ?_
  refine check_eq_some_iff (by simp) ?_
  refine check_eq_some_iff (by tauto) ?_
  refine check_eq_some_iff (by simp) ?_
  refine check_eq_some_iff (by simp) ?_
  exact ⟨fun found => (nomatch found), fun broken => (nomatch broken)⟩

theorem violation?_eq_none_iff : job.violation? = none ↔ job.Valid := by
  rw [valid_iff, ← not_iff_not, ← exists_firstBroken_iff, ← ne_eq, Option.ne_none_iff_exists']
  simp only [violation?_eq_some_iff]

end Job
end Retarget
