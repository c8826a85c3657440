import Mathlib.Data.List.Forall2
import Retarget.Proofs.Session.Outcome

/-!
What a step that succeeds notes. A step only ever adds to the log, so what it adds can be told
beside what it gives and the files it leaves. Each way to put steps together has one rule, in which
the events of the later step come after those of the earlier one.
-/
namespace Retarget.Act

variable {ε α β : Type}

/-- From these files a step that succeeds adds events to the log, and they fit what it gives and the
files it leaves. -/
structure Logs (act : Act ε α) (files : FileSystem)
    (fits : α → FileSystem → List Event → Prop) : Prop where
  told : ∀ {log value after}, act.runOn ⟨files, log⟩ = (.ok value, after) →
    ∃ events, after.log = log ++ events ∧ fits value after.files events

variable {files : FileSystem} {fits : α → FileSystem → List Event → Prop}

theorem Logs.imp {act : Act ε α} {better : α → FileSystem → List Event → Prop}
    (logs : act.Logs files fits)
    (onward : ∀ value after events, fits value after events → better value after events) :
    act.Logs files better := by
  constructor
  intro log value after ran
  obtain ⟨events, added, fit⟩ := logs.told ran
  exact ⟨events, added, onward value after.files events fit⟩

/-- Beside the events there is what is known of the outcome. -/
theorem Logs.outcome {act : Act ε α} (logs : act.Logs files fits) (blind : act.Blind) :
    act.Logs files fun value after events =>
      act.outcome files = (.ok value, after) ∧ fits value after events := by
  constructor
  intro log value after ran
  obtain ⟨events, added, fit⟩ := logs.told ran
  exact ⟨events, added, blind.outcome_eq ran, fit⟩

/-! ## One step -/

theorem logs_pure {value : α} (fit : fits value files []) :
    (pure value : Act ε α).Logs files fits := by
  constructor
  intro log result after ran
  cases ran
  exact ⟨[], (List.append_nil _).symm, fit⟩

theorem logs_throw (error : ε) : (throw error : Act ε α).Logs files fits := by
  constructor
  intro log value after ran
  cases ran

theorem logs_noteAll {events : List Event} {fits : Unit → FileSystem → List Event → Prop}
    (fit : fits () files events) : (noteAll events : Act ε Unit).Logs files fits := by
  constructor
  intro log value after ran
  cases ran
  exact ⟨events, rfl, fit⟩

theorem logs_note {event : Event} {fits : Unit → FileSystem → List Event → Prop}
    (fit : fits () files [event]) : (note event : Act ε Unit).Logs files fits :=
  logs_noteAll fit

theorem logs_ofExcept {result : Except ε α}
    (fit : ∀ value, result = .ok value → fits value files []) :
    (ofExcept result : Act ε α).Logs files fits := by
  cases result with
  | ok value => exact logs_pure (fit value rfl)
  | error error => exact logs_throw error

theorem logs_examine {view : FileSystem → Except ε α}
    (fit : ∀ value, view files = .ok value → fits value files []) :
    (examine view : Act ε α).Logs files fits := by
  constructor
  intro log value after ran
  exact (logs_ofExcept fit).told ran

theorem logs_look {view : FileSystem → α} (fit : fits (view files) files []) :
    (look view : Act ε α).Logs files fits := by
  constructor
  intro log value after ran
  cases ran
  exact ⟨[], (List.append_nil _).symm, fit⟩

theorem logs_change {path : Path} {operation : FileSystem → Except OsError FileSystem}
    {fits : Unit → FileSystem → List Event → Prop} (fit : ∀ after, fits () after []) :
    (change path operation).Logs files fits := by
  constructor
  intro log value after ran
  rw [runOn_change] at ran
  cases changed : operation files with
  | error cause =>
    rw [changed] at ran
    cases ran
  | ok now =>
    rw [changed] at ran
    cases ran
    exact ⟨[], (List.append_nil _).symm, fit now⟩

theorem logs_changePartly {path : Path}
    {operation : FileSystem → Except OsError Unit × FileSystem}
    {fits : Unit → FileSystem → List Event → Prop} (fit : ∀ after, fits () after []) :
    (changePartly path operation).Logs files fits := by
  constructor
  intro log value after ran
  rw [runOn_changePartly] at ran
  cases changed : (operation files).1 with
  | error cause =>
    rw [changed] at ran
    cases ran
  | ok =>
    rw [changed] at ran
    cases ran
    exact ⟨[], (List.append_nil _).symm, fit _⟩

/-! ## Steps put together -/

theorem Logs.bind {act : Act ε β} {next : β → Act ε α}
    (logs : act.Logs files fun value middle events =>
      (next value).Logs middle fun result after more => fits result after (events ++ more)) :
    (act >>= next).Logs files fits := by
  constructor
  intro log result after ran
  rw [runOn_bind] at ran
  split at ran
  next value middle first =>
    obtain ⟨events, added, onward⟩ := logs.told first
    obtain ⟨more, later, fit⟩ := onward.told ran
    exact ⟨events ++ more, by rw [later, added, List.append_assoc], fit⟩
  next error middle first => cases ran

theorem Logs.map {act : Act ε β} {function : β → α}
    (logs : act.Logs files fun value after events => fits (function value) after events) :
    (function <$> act).Logs files fits := by
  rw [map_eq_pure_bind]
  apply Logs.bind
  apply logs.imp
  intro value after events fit
  apply logs_pure
  rwa [List.append_nil]

theorem Logs.unless {test : Prop} [Decidable test] {error : ε} {rest : Act ε α}
    (logs : rest.Logs files fits) :
    (if test then throw error >>= fun _ : PUnit => rest else rest).Logs files fits := by
  split
  · apply Logs.bind
    exact logs_throw error
  · exact logs

/-- A step for each item of a list: the results fit the items one by one, and the events are those
of the first item, then those of the second, and so on. -/
theorem logs_mapM {step : β → Act ε α} {agree : β → α → Prop} {noted : β → α → List Event}
    (each : ∀ item files, (step item).Logs files fun value _ events =>
      agree item value ∧ events = noted item value)
    (items : List β) (files : FileSystem) :
    (items.mapM step).Logs files fun values _ events =>
      List.Forall₂ agree items values ∧ events = (List.zipWith noted items values).flatten := by
  induction items generalizing files with
  | nil =>
    rw [List.mapM_nil]
    exact logs_pure ⟨.nil, rfl⟩
  | cons item rest ih =>
    rw [List.mapM_cons]
    apply Logs.bind
    apply (each item files).imp
    intro value middle events fit
    apply Logs.bind
    apply (ih middle).imp
    intro values after more fits
    apply logs_pure
    rw [List.zipWith_cons_cons, List.flatten_cons, List.append_nil, fit.2, fits.2]
    exact ⟨.cons fit.1 fits.1, rfl⟩

/-- A step for each item, each with the result of the one before: an invariant on the result and the
events so far. -/
theorem logs_foldlM {step : α → β → Act ε α} {invariant : α → List Event → Prop}
    (kept : ∀ value item files events, invariant value events →
      (step value item).Logs files fun result _ more => invariant result (events ++ more))
    (items : List β) {value : α} (files : FileSystem) {events : List Event}
    (start : invariant value events) :
    (items.foldlM step value).Logs files fun result _ more =>
      invariant result (events ++ more) := by
  induction items generalizing value files events with
  | nil =>
    rw [List.foldlM_nil]
    apply logs_pure
    rwa [List.append_nil]
  | cons item rest ih =>
    rw [List.foldlM_cons]
    apply Logs.bind
    apply (kept value item files events start).imp
    intro result middle first held
    apply (ih middle held).imp
    intro last after more done
    rwa [← List.append_assoc]

end Retarget.Act
