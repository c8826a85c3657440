import Retarget.Proofs.Session.Outcome

/-!
Steps that only look. Such a step leaves the files and adds at most to the log, so all it comes to
is what there is to see from the files, and what steps put together see is put together from that.
-/
namespace Retarget.Act

variable {ε δ α β : Type} {files : FileSystem}

/-- A step whose outcome is told by the files, which it leaves as they are. -/
structure Looks (act : Act ε α) : Prop where
  blind : act.Blind
  idle : ∀ files, (act.outcome files).2 = files

/-- What a step gives from some files. -/
def sees (act : Act ε α) (files : FileSystem) : Except ε α := (act.outcome files).1

section Results

variable {act : Act ε α}

theorem Looks.outcome_eq (looks : act.Looks) (files : FileSystem) :
    act.outcome files = (act.sees files, files) :=
  Prod.ext rfl (looks.idle files)

/-- Whatever was noted before, a run gives what there is to see. -/
theorem Looks.runs (looks : act.Looks) (session : Session) :
    (act.runOn session).1 = act.sees session.files ∧
      (act.runOn session).2.files = session.files := by
  have same := (looks.blind.same session.files session.log).trans (looks.outcome_eq session.files)
  exact Prod.mk.inj same

end Results

/-! ## One step -/

theorem looks_pure (value : α) : (pure value : Act ε α).Looks := ⟨blind_pure value, fun _ => rfl⟩

theorem looks_throw (error : ε) : (throw error : Act ε α).Looks :=
  ⟨blind_throw error, fun _ => rfl⟩

theorem looks_note (event : Event) : (note event : Act ε Unit).Looks :=
  ⟨blind_note event, fun _ => rfl⟩

theorem looks_noteAll (events : List Event) : (noteAll events : Act ε Unit).Looks :=
  ⟨blind_noteAll events, fun _ => rfl⟩

theorem looks_ofExcept (result : Except ε α) : (ofExcept result : Act ε α).Looks := by
  refine ⟨blind_ofExcept result, fun files => ?_⟩
  cases result <;> rfl

theorem looks_examine (view : FileSystem → Except ε α) : (examine view : Act ε α).Looks :=
  ⟨blind_examine view, fun files => (looks_ofExcept (view files)).idle files⟩

theorem sees_pure_iff {value result : α} :
    (pure value : Act ε α).sees files = .ok result ↔ result = value :=
  ⟨fun same => (Except.ok.inj same).symm, fun same => congrArg Except.ok same.symm⟩

theorem sees_throw (error : ε) : (throw error : Act ε α).sees files = .error error := rfl

theorem sees_ofExcept (result : Except ε α) :
    (ofExcept result : Act ε α).sees files = result := by
  cases result <;> rfl

theorem sees_examine (view : FileSystem → Except ε α) :
    (examine view : Act ε α).sees files = view files :=
  sees_ofExcept (view files)

/-! ## Steps put together -/

theorem sees_bind {act : Act ε β} {next : β → Act ε α} (first : act.Looks)
    (onward : ∀ value, (next value).Looks) (files : FileSystem) :
    (act >>= next).sees files = act.sees files >>= fun value => (next value).sees files := by
  rw [sees, outcome_bind fun value => (onward value).blind, first.outcome_eq]
  cases act.sees files <;> rfl

theorem Looks.bind {act : Act ε β} {next : β → Act ε α} (first : act.Looks)
    (onward : ∀ value, (next value).Looks) : (act >>= next).Looks := by
  refine ⟨first.blind.bind fun value => (onward value).blind, fun files => ?_⟩
  rw [outcome_bind fun value => (onward value).blind, first.outcome_eq]
  cases act.sees files with
  | error error => rfl
  | ok value => exact (onward value).idle files

theorem sees_adapt (act : Act ε α) (translate : ε → δ) (files : FileSystem) :
    sees (act.adapt translate : Act δ α) files = (act.sees files).mapError translate := rfl

theorem Looks.adapt {act : Act ε α} (looks : act.Looks) (translate : ε → δ) :
    Looks (act.adapt translate : Act δ α) := by
  refine ⟨⟨fun files log => ?_⟩, looks.idle⟩
  obtain ⟨gives, leaves⟩ := Prod.mk.inj (looks.blind.same files log)
  exact Prod.ext (congrArg (Except.mapError translate) gives) leaves

theorem Looks.mapM {step : β → Act ε α} (looks : ∀ item, (step item).Looks) (items : List β) :
    (items.mapM step).Looks := by
  induction items with
  | nil => exact looks_pure _
  | cons item rest ih =>
    rw [List.mapM_cons]
    exact (looks item).bind fun _ => ih.bind fun _ => looks_pure _

theorem sees_mapM {step : β → Act ε α} (looks : ∀ item, (step item).Looks) (items : List β)
    (files : FileSystem) :
    (items.mapM step).sees files = items.mapM fun item => (step item).sees files := by
  induction items with
  | nil => rfl
  | cons item rest ih =>
    have more : ∀ value, (do
        let others ← rest.mapM step
        pure (value :: others) : Act ε (List α)).Looks := fun value =>
      (Looks.mapM looks rest).bind fun _ => looks_pure _
    rw [List.mapM_cons, List.mapM_cons, sees_bind (looks item) more, ← ih]
    congr 1
    funext value
    exact sees_bind (Looks.mapM looks rest) (fun _ => looks_pure _) files

end Retarget.Act
