/-!
Results taken apart: a sequence of steps succeeds when every step does. And results side by side: two
sequences whose steps belong together, each to each, come to results that belong together.
-/
namespace Retarget

theorem bind_eq_ok {ε α β : Type} {first : Except ε α} {next : α → Except ε β} {result : β} :
    (first >>= next) = .ok result ↔ ∃ value, first = .ok value ∧ next value = .ok result := by
  cases first <;> simp [bind, Except.bind]

theorem mapError_eq_ok {ε δ α : Type} {result : Except ε α} {translate : ε → δ} {value : α} :
    result.mapError translate = .ok value ↔ result = .ok value := by
  cases result with
  | error error => exact ⟨(nomatch ·), (nomatch ·)⟩
  | ok given =>
    exact ⟨fun same => congrArg _ (Except.ok.inj same), fun same => congrArg _ (Except.ok.inj same)⟩

theorem mapError_eq_error {ε δ α : Type} {result : Except ε α} {translate : ε → δ} {error : δ} :
    result.mapError translate = .error error ↔ ∃ cause, result = .error cause ∧
      translate cause = error := by
  constructor
  · intro failed
    cases result with
    | error cause => exact ⟨cause, rfl, Except.error.inj failed⟩
    | ok value => cases failed
  · rintro ⟨cause, rfl, rfl⟩
    rfl

/-! ## Two results -/

section Together

variable {ε α β γ δ : Type}

/-- Results that belong together: one failure, or two values that do. -/
inductive Matches (together : α → β → Prop) : Except ε α → Except ε β → Prop where
  | ok {value : α} {other : β} (both : together value other) :
      Matches together (.ok value) (.ok other)
  | error (cause : ε) : Matches together (.error cause) (.error cause)

section Results

variable {together : α → β → Prop} {onward : γ → δ → Prop} {first : Except ε α}
  {second : Except ε β}

theorem Matches.of_eq {together : α → α → Prop} (result : Except ε α)
    (both : ∀ value, result = .ok value → together value value) : Matches together result result := by
  cases result with
  | ok value => exact .ok (both value rfl)
  | error cause => exact .error cause

theorem matches_eq_iff {first second : Except ε α} : Matches Eq first second ↔ first = second := by
  constructor
  · rintro (⟨rfl⟩ | _) <;> rfl
  · rintro rfl
    exact .of_eq first fun _ _ => rfl

theorem Matches.imp {better : α → β → Prop} (matched : Matches together first second)
    (improve : ∀ value other, together value other → better value other) :
    Matches better first second := by
  cases matched with
  | ok both => exact .ok (improve _ _ both)
  | error cause => exact .error cause

theorem Matches.mapError {κ : Type} (matched : Matches together first second) (wrap : ε → κ) :
    Matches together (first.mapError wrap) (second.mapError wrap) := by
  cases matched with
  | ok both => exact .ok both
  | error cause => exact .error (wrap cause)

theorem Matches.bind (matched : Matches together first second) {next : α → Except ε γ}
    {another : β → Except ε δ}
    (goesOn : ∀ value other, together value other →
      Matches onward (next value) (another other)) :
    Matches onward (first >>= next) (second >>= another) := by
  cases matched with
  | ok both => exact goesOn _ _ both
  | error cause => exact .error cause

/-- Where one result is a value, so is the other. -/
theorem Matches.other_ok {value : α} (matched : Matches together (.ok value) second) :
    ∃ other, second = .ok other ∧ together value other := by
  cases matched with
  | ok both => exact ⟨_, rfl, both⟩

end Results

end Together

end Retarget
