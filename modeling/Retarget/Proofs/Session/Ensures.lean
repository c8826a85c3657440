import Mathlib.Tactic.Common
import Retarget.Session

/-!
What a step on a session ensures of the file system it leaves, told apart by success and failure.
The log plays no part. Each way to put steps together has one rule, so a pass is gone through step
by step.
-/
namespace Retarget.Act

variable {ε α β : Type}

/-- From these files, whatever was noted before, a step that succeeds ends in `good` and one that
fails in `bad`. -/
structure Ensures (act : Act ε α) (files : FileSystem) (good : α → FileSystem → Prop)
    (bad : FileSystem → Prop) : Prop where
  outcome : ∀ log, match act.runOn ⟨files, log⟩ with
    | (.ok value, after) => good value after.files
    | (.error _, after) => bad after.files

section Results

variable {act : Act ε α} {files : FileSystem} {good : α → FileSystem → Prop}
  {bad : FileSystem → Prop}
  {log : List Event} {after : Session}

theorem Ensures.ok (ensured : act.Ensures files good bad) {value : α}
    (ran : act.runOn ⟨files, log⟩ = (.ok value, after)) :
    good value after.files := by
  have outcome := ensured.outcome log
  rwa [ran] at outcome

theorem Ensures.failed (ensured : act.Ensures files good bad) {error : ε}
    (ran : act.runOn ⟨files, log⟩ = (.error error, after)) : bad after.files := by
  have outcome := ensured.outcome log
  rwa [ran] at outcome

/-- A step that cannot fail succeeds. -/
theorem Ensures.succeeds (ensured : act.Ensures files good fun _ => False) (log : List Event) :
    ∃ value after, act.runOn ⟨files, log⟩ = (.ok value, after) ∧ good value after.files := by
  have outcome := ensured.outcome log
  rcases ran : act.runOn ⟨files, log⟩ with ⟨error | value, after⟩ <;> rw [ran] at outcome
  · exact outcome.elim
  · exact ⟨value, after, rfl, outcome⟩

/-- What holds after success and after failure alike. -/
theorem Ensures.always {holds : FileSystem → Prop}
    (ensured : act.Ensures files (fun _ => holds) holds) (log : List Event) :
    holds (act.runOn ⟨files, log⟩).2.files := by
  have outcome := ensured.outcome log
  split at outcome <;> rename_i ran <;> rwa [ran]

theorem Ensures.imp {better : α → FileSystem → Prop} {worse : FileSystem → Prop}
    (ensured : act.Ensures files good bad)
    (onOk : ∀ value after, good value after → better value after)
    (onError : ∀ after, bad after → worse after) :
    act.Ensures files better worse := by
  refine ⟨fun log => ?_⟩
  have outcome := ensured.outcome log
  split <;> rename_i ran <;> rw [ran] at outcome
  · exact onOk _ _ outcome
  · exact onError _ outcome

theorem Ensures.and {also : α → FileSystem → Prop} {besides : FileSystem → Prop}
    (first : act.Ensures files good bad)
    (second : act.Ensures files also besides) :
    act.Ensures files (fun value after => good value after ∧ also value after) fun after =>
    bad after ∧ besides after := by
  refine ⟨fun log => ?_⟩
  have left := first.outcome log
  have right := second.outcome log
  split <;> rename_i ran <;> rw [ran] at left right <;> exact ⟨left, right⟩

/-- What always holds is ensured after success. -/
theorem ensures_of_forall (holds : ∀ value after, good value after) :
    act.Ensures files good fun _ => True := by
  refine ⟨fun log => ?_⟩
  split
  · exact holds _ _
  · trivial

end Results

/-- Whether a step succeeds with an outcome that passes a test. -/
def yields (act : Act ε α) (session : Session) (test : α → Session → Bool) : Bool :=
  match act.runOn session with
  | (.ok value, after) => test value after
  | (.error _, _) => false

theorem yields_iff {act : Act ε α} {session : Session} {test : α → Session → Bool} :
    act.yields session test = true ↔
    ∃ value after, act.runOn session = (.ok value, after) ∧ test value after = true := by
  unfold yields
  rcases act.runOn session with ⟨error | value, after⟩
  · simp
  · simp

/-! ## One step -/

variable {files : FileSystem} {good : α → FileSystem → Prop} {bad : FileSystem → Prop}

theorem ensures_pure (value : α) : (pure value : Act ε α).Ensures files good bad ↔
    good value files :=
  ⟨fun ensured => ensured.outcome [], fun holds => ⟨fun _ => holds⟩⟩

theorem ensures_throw (error : ε) : (throw error : Act ε α).Ensures files good bad ↔ bad files :=
  ⟨fun ensured => ensured.outcome [], fun holds => ⟨fun _ => holds⟩⟩

theorem ensures_note (event : Event) {done : Unit → FileSystem → Prop} :
    (note event : Act ε Unit).Ensures files done bad ↔ done () files :=
  ⟨fun ensured => ensured.outcome [], fun holds => ⟨fun _ => holds⟩⟩

theorem ensures_noteAll (events : List Event) {done : Unit → FileSystem → Prop} :
    (noteAll events : Act ε Unit).Ensures files done bad ↔ done () files :=
  ⟨fun ensured => ensured.outcome [], fun holds => ⟨fun _ => holds⟩⟩

theorem ensures_look (view : FileSystem → α) : (look view : Act ε α).Ensures files good bad ↔
    good (view files) files :=
  ⟨fun ensured => ensured.outcome [], fun holds => ⟨fun _ => holds⟩⟩

theorem ensures_ofExcept (result : Except ε α) :
    (ofExcept result : Act ε α).Ensures files good bad ↔
    (∀ value, result = .ok value → good value files) ∧ ∀ error,
    result = .error error → bad files := by
  cases result with
  | ok value =>
    constructor
    · exact fun ensured => ⟨fun _ same => Except.ok.inj same ▸ ensured.outcome [], fun _ same =>
        nomatch same⟩
    · exact fun holds => ⟨fun _ => holds.1 value rfl⟩
  | error error =>
    constructor
    · exact fun ensured => ⟨fun _ same => (nomatch same), fun _ _ => ensured.outcome []⟩
    · exact fun holds => ⟨fun _ => holds.2 error rfl⟩

/-! ## Steps put together -/

theorem runOn_bind (act : Act ε β) (next : β → Act ε α) (session : Session) :
    (act >>= next).runOn session =
    match act.runOn session with
    | (.ok value, after) => (next value).runOn after
    | (.error error, after) => (.error error, after) := by
  show (match act session with
    | (result, after) => (ExceptT.bindCont next result) after) = _
  unfold runOn
  show _ = match act session with
    | (.ok value, after) => next value after
    | (.error error, after) => (.error error, after)
  rcases act session with ⟨_ | _, after⟩ <;> rfl

theorem Ensures.bind {act : Act ε β} {next : β → Act ε α}
    (ensured : act.Ensures files (fun value after => (next value).Ensures after good bad) bad) :
    (act >>= next).Ensures files good bad := by
  refine ⟨fun log => ?_⟩
  have outcome := ensured.outcome log
  rw [runOn_bind]
  rcases ran : act.runOn ⟨files, log⟩ with ⟨error | value, after⟩ <;> rw [ran] at outcome
  · exact outcome
  · exact outcome.outcome after.log

theorem Ensures.map {act : Act ε β} {function : β → α}
    (ensured : act.Ensures files (fun value after => good (function value) after) bad) :
    (function <$> act).Ensures files good bad := by
  rw [map_eq_pure_bind]
  exact Ensures.bind (ensured.imp (fun value after holds => (ensures_pure _).2 holds) fun _ holds =>
    holds)

theorem ensures_examine (view : FileSystem → Except ε α) :
    (examine view : Act ε α).Ensures files good bad ↔
    (∀ value, view files = .ok value → good value files) ∧ ∀ error,
    view files = .error error → bad files :=
  ⟨fun ensured => (ensures_ofExcept (view files)).1 ⟨ensured.outcome⟩,
    fun holds => ⟨((ensures_ofExcept (view files)).2 holds).outcome⟩⟩

theorem runOn_change (path : Path) (operation : FileSystem → Except OsError FileSystem)
    (log : List Event) : (change path operation).runOn ⟨files, log⟩ = match operation files with
      | .ok after => (.ok (), ⟨after, log⟩)
      | .error cause => (.error (.refused path cause), ⟨files, log⟩) := by
  unfold change
  rw [runOn_bind]
  show (match operation files with
    | .ok after =>
      (modify fun session : Session => { session with files := after } : Act Failure Unit)
    | .error cause => throw (Failure.refused path cause)).runOn ⟨files, log⟩ = _
  cases operation files <;> rfl

/-- An operation that fails leaves the files as they were. -/
theorem ensures_change {path : Path} {operation : FileSystem → Except OsError FileSystem}
    {done : Unit → FileSystem → Prop} :
    (change path operation).Ensures files done bad ↔
      (∀ after, operation files = .ok after → done () after) ∧ ∀ cause,
      operation files = .error cause → bad files := by
  have whole : (change path operation).Ensures files done bad ↔ ∀ log : List Event,
      match operation files with
        | .ok after => done () after
        | .error _ => bad files := by
    constructor
    · intro ensured log
      have outcome := ensured.outcome log
      rw [runOn_change] at outcome
      cases result : operation files <;> simpa [result] using outcome
    · intro holds
      refine ⟨fun log => ?_⟩
      rw [runOn_change]
      cases result : operation files <;> simpa [result] using holds log
  rw [whole]
  cases operation files <;> simp

theorem runOn_changePartly (path : Path)
    (operation : FileSystem → Except OsError Unit × FileSystem) (log : List Event) :
    (changePartly path operation).runOn ⟨files, log⟩ = match (operation files).1 with
      | .ok () => (.ok (), ⟨(operation files).2, log⟩)
      | .error cause => (.error (.refused path cause), ⟨(operation files).2, log⟩) := by
  unfold changePartly
  rw [runOn_bind]
  cases given : operation files with
  | mk result after =>
    have looked : (get : Act Failure Session).runOn ⟨files, log⟩ =
        (.ok ⟨files, log⟩, ⟨files, log⟩) := rfl
    rw [looked]
    dsimp only
    rw [given]
    cases result <;> rfl

theorem ensures_changePartly {path : Path}
    {operation : FileSystem → Except OsError Unit × FileSystem}
    {done : Unit → FileSystem → Prop} :
    (changePartly path operation).Ensures files done bad ↔
      ((operation files).1 = .ok () → done () (operation files).2) ∧
        ∀ cause, (operation files).1 = .error cause → bad (operation files).2 := by
  have whole : (changePartly path operation).Ensures files done bad ↔ ∀ log : List Event,
      match (operation files).1 with
        | .ok () => done () (operation files).2
        | .error _ => bad (operation files).2 := by
    constructor
    · intro ensured log
      have outcome := ensured.outcome log
      rw [runOn_changePartly] at outcome
      cases result : (operation files).1 <;> simpa [result] using outcome
    · intro holds
      refine ⟨fun log => ?_⟩
      rw [runOn_changePartly]
      cases result : (operation files).1 <;> simpa [result] using holds log
  rw [whole]
  rcases (operation files).1 with cause | ⟨⟩ <;> simp

/-! ## One step for each item of a list -/

/-- An invariant on the results so far and the items still to come carries a whole list. -/
theorem ensures_mapM {step : β → Act ε α} (invariant : List α → List β → FileSystem → Prop)
    (kept : ∀ results item rest now, invariant results (item :: rest) now →
      (step item).Ensures now (fun result after => invariant (results ++ [result]) rest after) bad)
    (items : List β) {files : FileSystem} (start : invariant [] items files) :
    (items.mapM step).Ensures files (fun results after => invariant results [] after) bad := by
  suffices general : ∀ results now, invariant results items now →
      (items.mapM step).Ensures now
      (fun more after => invariant (results ++ more) [] after) bad from
    general [] files start
  clear start
  induction items with
  | nil =>
    intro results now holds
    rw [List.mapM_nil, ensures_pure, List.append_nil]
    exact holds
  | cons item rest ih =>
    intro results now holds
    rw [List.mapM_cons]
    refine Ensures.bind ((kept results item rest now holds).imp (fun result after held => ?_)
      fun _ failed => failed)
    refine Ensures.bind ((ih _ after held).imp (fun more last done => ?_) fun _ failed => failed)
    rw [ensures_pure]
    simpa using done

theorem ensures_foldlM {step : α → β → Act ε α} (invariant : α → List β → FileSystem → Prop)
    (kept : ∀ value item rest now, invariant value (item :: rest) now →
      (step value item).Ensures now (fun result after => invariant result rest after) bad)
    (items : List β) {value : α} {files : FileSystem} (start : invariant value items files) :
    (items.foldlM step value).Ensures files
    (fun result after => invariant result [] after) bad := by
  induction items generalizing value files with
  | nil =>
    rw [List.foldlM_nil, ensures_pure]
    exact start
  | cons item rest ih =>
    rw [List.foldlM_cons]
    exact Ensures.bind ((kept value item rest files start).imp (fun result after held => ih held)
      fun _ failed => failed)

end Retarget.Act
