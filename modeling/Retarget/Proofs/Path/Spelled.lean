import Retarget.Proofs.Path.Parts

/-!
Steps that spell names: they take the names one by one and only stay where they are in between, as
the steps do that are left of a path when its parents are taken one after another.
-/
namespace Retarget.Path

/-- Steps that take names one by one and only stay where they are in between. -/
def Spelled (steps : List Step) (names : Place) : Prop := steps.filter (· ≠ .stay) = names.map .into

theorem spelled_nil : Spelled [] [] := rfl

theorem Spelled.stay {steps : List Step} {names : Place} (spelled : Spelled steps names) :
    Spelled (.stay :: steps) names := by
  simpa [Spelled] using spelled

theorem Spelled.into {steps : List Step} {names : Place} (name : Bytes)
    (spelled : Spelled steps names) : Spelled (.into name :: steps) (name :: names) := by
  simpa [Spelled] using spelled

/-- Induction over the steps that spell names: a first step stays or takes the first name. -/
@[elab_as_elim]
theorem Spelled.induction
    {motive : (steps : List Step) → (names : Place) → Spelled steps names → Prop}
    (nil : motive [] [] spelled_nil)
    (stay : ∀ {steps : List Step} {names : Place} (spelled : Spelled steps names),
      motive steps names spelled → motive (.stay :: steps) names spelled.stay)
    (into : ∀ {steps : List Step} {names : Place} (name : Bytes) (spelled : Spelled steps names),
      motive steps names spelled → motive (.into name :: steps) (name :: names) (spelled.into name))
    {steps : List Step} {names : Place} (spelled : Spelled steps names) :
    motive steps names spelled := by
  induction steps generalizing names with
  | nil =>
    obtain rfl : names = [] := List.map_eq_nil_iff.1 spelled.symm
    exact nil
  | cons step rest ih =>
    cases step with
    | stay =>
      have onward : Spelled rest names := by simpa [Spelled] using spelled
      exact stay onward (ih onward)
    | up =>
      have front := congrArg List.head? spelled
      cases names <;> simp at front
    | into name =>
      cases names with
      | nil => simp [Spelled] at spelled
      | cons first others =>
        obtain ⟨rfl, onward⟩ : name = first ∧ Spelled rest others := by
          simpa [Spelled] using spelled
        exact into name onward (ih onward)

theorem Idle.filter {steps : List Step} (idle : Idle steps) : steps.filter (· ≠ .stay) = [] := by
  simpa [List.filter_eq_nil_iff] using fun step member => idle step member

theorem Spelled.mem {steps : List Step} {names : Place} (spelled : Spelled steps names)
    {name : Bytes} (member : name ∈ names) : .into name ∈ steps := by
  have inside : Step.into name ∈ steps.filter (· ≠ .stay) := by
    rw [spelled]
    exact List.mem_map_of_mem member
  exact (List.mem_filter.1 inside).1

theorem Spelled.concat {steps before after : List Step} {names : Place}
    (spelled : Spelled steps names) (idle : Idle before)
    (more : Idle after) (name : Bytes) :
    Spelled (steps ++ (before ++ .into name :: after)) (names ++ [name]) := by
  unfold Spelled at spelled ⊢
  rw [List.filter_append, List.filter_append, spelled, idle.filter,
    List.filter_cons_of_pos (by simp), more.filter]
  simp

theorem Spelled.idle {steps : List Step} (spelled : Spelled steps []) : Idle steps := by
  intro step member
  by_contra moves
  have inside : step ∈ steps.filter (· ≠ .stay) := List.mem_filter.2 ⟨member, by simpa using moves⟩
  rw [spelled] at inside
  cases inside

/-- What takes no step that leads on consists of slashes and dots. -/
theorem Idle.zero_not_mem {path : Path} (idle : Idle path.openSteps) : 0 ∉ path.bytes := by
  rw [← (List.intercalate_splitOn slash : _ = path.bytes)]
  refine not_mem_intercalate (by decide) fun piece inside zero => ?_
  have some : piece ≠ [] := List.ne_nil_of_mem zero
  obtain ⟨step, given, _⟩ := step?_of_ne_nil some
  obtain rfl := idle step (List.mem_filterMap.2 ⟨piece, inside, given⟩)
  unfold step? at given
  rw [if_neg some] at given
  split at given
  · rename_i here
    subst here
    simp [dot] at zero
  · split at given <;> cases given

/-- A name that is stepped into is spelled, with the names before and after it. -/
theorem Spelled.split {before after : List Step} {name : Bytes} {names : Place}
    (spelled : Spelled (before ++ .into name :: after) names) :
    ∃ front rest, names = front ++ name :: rest ∧ Spelled before front ∧ Spelled after rest := by
  unfold Spelled at spelled
  rw [List.filter_append, List.filter_cons_of_pos (by simp)] at spelled
  obtain ⟨front, others, rfl, first, second⟩ := List.map_eq_append_iff.1 spelled.symm
  obtain ⟨same, rest, rfl, given, third⟩ := List.map_eq_cons_iff.1 second
  obtain rfl : same = name := Step.into.inj given
  exact ⟨front, rest, rfl, first.symm, third.symm⟩

/-- Steps cut in two spell names cut in two. -/
theorem Spelled.cut {first second : List Step} {names : Place}
    (spelled : Spelled (first ++ second) names) :
    ∃ front back, names = front ++ back ∧ Spelled first front ∧ Spelled second back := by
  unfold Spelled at spelled
  rw [List.filter_append] at spelled
  obtain ⟨front, back, rfl, one, other⟩ := List.map_eq_append_iff.1 spelled.symm
  exact ⟨front, back, rfl, one.symm, other.symm⟩

theorem spelled_names (names : Place) : Spelled (names.map .into) names :=
  List.filter_eq_self.2 (by simp)

theorem Spelled.append {first second : List Step} {front back : Place}
    (spelled : Spelled first front) (onward : Spelled second back) :
    Spelled (first ++ second) (front ++ back) := by
  unfold Spelled at spelled onward ⊢
  rw [List.filter_append, spelled, onward, List.map_append]

/-- Where a spelled name begins is known from the steps that stay before it. -/
theorem Idle.cancel {first second rest others : List Step} {name other : Bytes} (idle : Idle first)
    (also : Idle second)
    (same : first ++ .into name :: rest = second ++ .into other :: others) :
    first = second ∧ name = other ∧ rest = others := by
  induction first generalizing second with
  | nil =>
    cases second with
    | nil => simpa using same
    | cons step more =>
      have stays := also step (by simp)
      simp [stays] at same
  | cons step more ih =>
    have stays := idle step (by simp)
    cases second with
    | nil => simp [stays] at same
    | cons next further =>
      obtain ⟨rfl, onward⟩ := List.cons.inj same
      obtain ⟨rfl, rest⟩ :=
        ih (fun held member => idle held (by simp [member]))
        (fun held member => also held (by simp [member])) onward
      exact ⟨rfl, rest⟩

/-- The first name that is spelled comes after steps that stay. -/
theorem Spelled.uncons {steps : List Step} {first : Bytes} {names : Place}
    (spelled : Spelled steps (first :: names)) :
    ∃ before after, steps = before ++ .into first :: after ∧ Idle before ∧ Spelled after names := by
  obtain ⟨before, after, whole, idle, _, rest⟩ := List.filter_eq_cons_iff.1 spelled
  exact ⟨before, after, whole, fun step member => by simpa using idle step member, rest⟩

/-- Where steps are cut in two, a step is in the first part or in the second. -/
theorem step_of_append {front tail before after : List Step} {step : Step}
    (same : front ++ tail = before ++ step :: after) :
    (∃ more, front = before ++ step :: more) ∨ ∃ steps, before = front ++ steps ∧
    tail = steps ++ step :: after := by
  rcases List.append_eq_append_iff.1 same with ⟨steps, first, second⟩ | ⟨more, first, second⟩
  · exact .inr ⟨steps, first, second⟩
  · cases more with
    | nil => exact .inr ⟨[], by simpa using first.symm, by simpa using second.symm⟩
    | cons other rest =>
      obtain ⟨rfl, _⟩ := List.cons.inj second
      exact .inl ⟨rest, first⟩

end Retarget.Path
