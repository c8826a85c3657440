import Retarget.Proofs.Session.Ensures

/-!
What a step gives and leaves with the log left out of account. A step that only ever adds to the log
gives the same from the same files whatever was noted before, so its outcome is a function of the
files, and the outcome of steps put together is put together from theirs.
-/
namespace Retarget.Act

variable {ε α β : Type} {files : FileSystem}

/-- What a step gives from some files, and the files it leaves. -/
def outcome (act : Act ε α) (files : FileSystem) : Except ε α × FileSystem :=
  ((act.runOn ⟨files, []⟩).1, (act.runOn ⟨files, []⟩).2.files)

/-- A step whose outcome does not depend on what was noted before. -/
structure Blind (act : Act ε α) : Prop where
  same : ∀ files log,
    ((act.runOn ⟨files, log⟩).1, (act.runOn ⟨files, log⟩).2.files) = act.outcome files

/-- What is known of the outcome is ensured. -/
theorem Blind.ensures {act : Act ε α} (blind : act.Blind) :
    act.Ensures files (fun value after => act.outcome files = (.ok value, after))
      (fun after => ∃ error, act.outcome files = (.error error, after)) := by
  refine ⟨fun log => ?_⟩
  have same := blind.same files log
  split <;> rename_i ran <;> rw [ran] at same
  · exact same.symm
  · exact ⟨_, same.symm⟩

/-- What is ensured holds of the outcome of a step that succeeds. -/
theorem Ensures.of_outcome {act : Act ε α} {good : α → FileSystem → Prop}
    {bad : FileSystem → Prop} (ensured : act.Ensures files good bad) {value : α}
    {after : FileSystem} (gives : act.outcome files = (.ok value, after)) : good value after := by
  obtain ⟨given, left⟩ := Prod.mk.inj gives
  exact left ▸ ensured.ok (Prod.ext given rfl)

/-- A run that succeeded tells the outcome. -/
theorem Blind.outcome_eq {act : Act ε α} (blind : act.Blind) {log : List Event} {value : α}
    {after : Session} (ran : act.runOn ⟨files, log⟩ = (.ok value, after)) :
    act.outcome files = (.ok value, after.files) := by
  rw [← blind.same files log, ran]

/-- An outcome that is a success is that of a run, whatever was noted before. -/
theorem Blind.runs {act : Act ε α} (blind : act.Blind) {value : α} {after : FileSystem}
    (gives : act.outcome files = (.ok value, after)) (log : List Event) :
    ∃ session, act.runOn ⟨files, log⟩ = (.ok value, session) ∧ session.files = after := by
  obtain ⟨given, left⟩ := Prod.mk.inj ((blind.same files log).trans gives)
  exact ⟨_, Prod.ext given rfl, left⟩

/-- A step that succeeded gives the same again from the same files. -/
theorem Blind.again {act : Act ε α} (blind : act.Blind) {log : List Event} {value : α}
    {after : Session} (ran : act.runOn ⟨files, log⟩ = (.ok value, after)) {other : FileSystem}
    (same : act.outcome other = act.outcome files) (later : List Event) :
    ∃ again, act.runOn ⟨other, later⟩ = (.ok value, again) ∧ again.files = after.files :=
  blind.runs (same.trans (blind.outcome_eq ran)) later

/-! ## One step -/

theorem blind_pure (value : α) : (pure value : Act ε α).Blind := ⟨fun _ _ => rfl⟩

theorem blind_throw (error : ε) : (throw error : Act ε α).Blind := ⟨fun _ _ => rfl⟩

theorem blind_note (event : Event) : (note event : Act ε Unit).Blind := ⟨fun _ _ => rfl⟩

theorem blind_noteAll (events : List Event) : (noteAll events : Act ε Unit).Blind :=
  ⟨fun _ _ => rfl⟩

theorem blind_look (view : FileSystem → α) : (look view : Act ε α).Blind := ⟨fun _ _ => rfl⟩

theorem blind_ofExcept (result : Except ε α) : (ofExcept result : Act ε α).Blind := by
  cases result with
  | ok value => exact ⟨fun _ _ => rfl⟩
  | error error => exact ⟨fun _ _ => rfl⟩

/-! ## Steps put together -/

theorem outcome_bind {act : Act ε β} {next : β → Act ε α} (blind : ∀ value, (next value).Blind)
    (files : FileSystem) :
    (act >>= next).outcome files = match act.outcome files with
      | (.ok value, after) => (next value).outcome after
      | (.error error, after) => (.error error, after) := by
  unfold outcome
  rw [runOn_bind]
  rcases act.runOn ⟨files, []⟩ with ⟨error | value, after⟩
  · rfl
  · exact (blind value).same after.files after.log

/-- A step that leaves the files alone may be left out of account. -/
theorem outcome_bind_idle {act : Act ε β} {next : β → Act ε α} {value : β}
    (idle : act.outcome files = (.ok value, files)) (blind : ∀ value, (next value).Blind) :
    (act >>= next).outcome files = (next value).outcome files := by
  rw [outcome_bind blind, idle]

theorem Blind.bind {act : Act ε β} {next : β → Act ε α} (first : act.Blind)
    (onward : ∀ value, (next value).Blind) : (act >>= next).Blind := by
  refine ⟨fun files log => ?_⟩
  rw [outcome_bind onward, ← first.same files log, runOn_bind]
  rcases act.runOn ⟨files, log⟩ with ⟨error | value, after⟩
  · rfl
  · exact (onward value).same after.files after.log

theorem Blind.map {act : Act ε β} (blind : act.Blind) (function : β → α) :
    (function <$> act).Blind := by
  rw [map_eq_pure_bind]
  exact blind.bind fun _ => blind_pure _

theorem Blind.mapM {step : β → Act ε α} (blind : ∀ item, (step item).Blind) (items : List β) :
    (items.mapM step).Blind := by
  induction items with
  | nil => exact blind_pure _
  | cons item rest ih =>
    rw [List.mapM_cons]
    exact (blind item).bind fun _ => ih.bind fun _ => blind_pure _

theorem Blind.foldlM {step : α → β → Act ε α} (blind : ∀ value item, (step value item).Blind)
    (items : List β) (value : α) : (items.foldlM step value).Blind := by
  induction items generalizing value with
  | nil => exact blind_pure _
  | cons item rest ih =>
    rw [List.foldlM_cons]
    exact (blind value item).bind ih

theorem Blind.unless {test : Prop} [Decidable test] {error : ε} {rest : Act ε α}
    (blind : rest.Blind) :
    (if test then throw error >>= fun _ : PUnit => rest else rest).Blind := by
  split
  · exact (blind_throw error).bind fun _ => blind
  · exact blind

theorem runOn_bind_ok {act : Act ε β} {next : β → Act ε α} {session after : Session} {value : β}
    (ran : act.runOn session = (.ok value, after)) :
    (act >>= next).runOn session = (next value).runOn after := by
  rw [runOn_bind, ran]

/-! ## Looking and changing -/

theorem blind_examine (view : FileSystem → Except ε α) : (examine view : Act ε α).Blind :=
  ⟨fun files log => (blind_ofExcept (view files)).same files log⟩

theorem blind_change (path : Path) (operation : FileSystem → Except OsError FileSystem) :
    (change path operation).Blind := by
  refine ⟨fun files log => ?_⟩
  unfold outcome
  rw [runOn_change, runOn_change]
  cases operation files <;> rfl

theorem blind_changePartly (path : Path)
    (operation : FileSystem → Except OsError Unit × FileSystem) :
    (changePartly path operation).Blind := by
  refine ⟨fun files log => ?_⟩
  unfold outcome
  rw [runOn_changePartly, runOn_changePartly]
  rcases (operation files).1 with cause | ⟨⟩ <;> rfl

theorem runOn_look {view : FileSystem → α} {value : α} (seen : view files = value)
    (log : List Event) :
    (look view : Act ε α).runOn ⟨files, log⟩ = (.ok value, ⟨files, log⟩) := by
  rw [← seen]
  rfl

theorem runOn_examine {view : FileSystem → Except ε α} {result : Except ε α}
    (seen : view files = result) (log : List Event) :
    (examine view : Act ε α).runOn ⟨files, log⟩ = (result, ⟨files, log⟩) := by
  show (ofExcept (view files) : Act ε α).runOn ⟨files, log⟩ = _
  rw [seen]
  cases result <;> rfl

end Retarget.Act
