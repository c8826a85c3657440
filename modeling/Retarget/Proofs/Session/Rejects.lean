import Retarget.Proofs.Session.Outcome

/-!
What is known of a step that fails: the error it gives together with the files it leaves. Steps put
together fail where one of them does, so there is one rule for each way to put them together. Where
the error alone matters, whatever the files, a step throws only errors of some kind.
-/
namespace Retarget.Act

variable {ε α β : Type} {files : FileSystem} {bad : ε → FileSystem → Prop}

/-- From these files, whatever was noted before, a step that fails gives an error and leaves files
that are `bad` together. -/
structure Rejects (act : Act ε α) (files : FileSystem) (bad : ε → FileSystem → Prop) : Prop where
  outcome : ∀ log error after, act.runOn ⟨files, log⟩ = (.error error, after) →
    bad error after.files

/-- From whatever files, a step that fails gives an error of a kind. -/
def Throws (act : Act ε α) (kind : ε → Prop) : Prop :=
  ∀ files, act.Rejects files fun error _ => kind error

theorem Rejects.imp {act : Act ε α} {worse : ε → FileSystem → Prop}
    (rejects : act.Rejects files bad) (weaker : ∀ error after, bad error after →
      worse error after) : act.Rejects files worse :=
  ⟨fun log error after ran => weaker _ _ (rejects.outcome log error after ran)⟩

/-! ## One step -/

theorem rejects_pure (value : α) : (pure value : Act ε α).Rejects files bad :=
  ⟨by rintro _ _ _ ⟨⟩⟩

theorem rejects_note (event : Event) : (note event : Act ε Unit).Rejects files bad :=
  ⟨by rintro _ _ _ ⟨⟩⟩

theorem rejects_noteAll (events : List Event) : (noteAll events : Act ε Unit).Rejects files bad :=
  ⟨by rintro _ _ _ ⟨⟩⟩

theorem rejects_look (view : FileSystem → α) : (look view : Act ε α).Rejects files bad :=
  ⟨by rintro _ _ _ ⟨⟩⟩

theorem rejects_throw (error : ε) : (throw error : Act ε α).Rejects files bad ↔ bad error files :=
  ⟨fun rejects => rejects.outcome [] _ _ rfl, fun holds => ⟨by rintro _ _ _ ⟨⟩; exact holds⟩⟩

theorem rejects_ofExcept (result : Except ε α) : (ofExcept result : Act ε α).Rejects files bad ↔
    ∀ error, result = .error error → bad error files := by
  constructor
  · rintro rejects error rfl
    exact rejects.outcome [] _ _ rfl
  · refine fun holds => ⟨fun log error after ran => ?_⟩
    cases result with
    | ok value => cases ran
    | error error =>
      cases ran
      exact holds _ rfl

theorem rejects_examine (view : FileSystem → Except ε α) :
    (examine view : Act ε α).Rejects files bad ↔ ∀ error, view files = .error error →
      bad error files :=
  ⟨fun rejects => (rejects_ofExcept (view files)).1 ⟨rejects.outcome⟩,
    fun holds => ⟨((rejects_ofExcept (view files)).2 holds).outcome⟩⟩

theorem rejects_change {bad : Failure → FileSystem → Prop} {path : Path}
    {operation : FileSystem → Except OsError FileSystem} :
    (change path operation).Rejects files bad ↔
      ∀ cause, operation files = .error cause → bad (.refused path cause) files := by
  constructor
  · intro rejects cause refused
    refine rejects.outcome [] _ ⟨files, []⟩ ?_
    rw [runOn_change, refused]
  · refine fun holds => ⟨fun log error after ran => ?_⟩
    rw [runOn_change] at ran
    split at ran <;> rename_i given <;> cases ran
    exact holds _ given

theorem throws_change {kind : Failure → Prop} (path : Path)
    (operation : FileSystem → Except OsError FileSystem)
    (refused : ∀ cause, kind (.refused path cause)) : (change path operation).Throws kind :=
  fun _ => rejects_change.2 fun cause _ => refused cause

theorem throws_changePartly {kind : Failure → Prop} (path : Path)
    (operation : FileSystem → Except OsError Unit × FileSystem)
    (refused : ∀ cause, kind (.refused path cause)) :
    (changePartly path operation).Throws kind := by
  refine fun files => ⟨fun log error after ran => ?_⟩
  rw [runOn_changePartly] at ran
  split at ran <;> cases ran
  exact refused _

/-! ## Steps put together -/

theorem Rejects.bind {act : Act ε β} {next : β → Act ε α} (first : act.Rejects files bad)
    (onward : act.Ensures files (fun value after => (next value).Rejects after bad)
      fun _ => True) : (act >>= next).Rejects files bad := by
  refine ⟨fun log error after ran => ?_⟩
  rw [runOn_bind] at ran
  split at ran
  · rename_i reached
    exact (onward.ok reached).outcome _ _ _ ran
  · rename_i failed
    cases ran
    exact first.outcome _ _ _ failed

theorem Rejects.map {act : Act ε β} (rejects : act.Rejects files bad) (function : β → α) :
    (function <$> act).Rejects files bad := by
  rw [map_eq_pure_bind]
  exact rejects.bind (ensures_of_forall fun _ _ => rejects_pure _)

/-- What is invariant on the results so far and the items still to come holds when a step of a list
fails. -/
theorem rejects_mapM {step : β → Act ε α} (invariant : List α → List β → FileSystem → Prop)
    (kept : ∀ results item rest now, invariant results (item :: rest) now →
      (step item).Ensures now (fun result after => invariant (results ++ [result]) rest after)
        fun _ => True)
    (refused : ∀ results item rest now, invariant results (item :: rest) now →
      (step item).Rejects now bad)
    (items : List β) {files : FileSystem} (start : invariant [] items files) :
    (items.mapM step).Rejects files bad := by
  suffices general : ∀ results now, invariant results items now →
      (items.mapM step).Rejects now bad from general [] files start
  clear start
  induction items with
  | nil =>
    intro results now holds
    rw [List.mapM_nil]
    exact rejects_pure _
  | cons item rest ih =>
    intro results now holds
    rw [List.mapM_cons]
    refine (refused results item rest now holds).bind
      ((kept results item rest now holds).imp (fun result after held => ?_) fun _ _ => trivial)
    exact (ih _ after held).bind (ensures_of_forall fun _ _ => rejects_pure _)

variable {kind : ε → Prop}

theorem Throws.bind {act : Act ε β} {next : β → Act ε α} (first : act.Throws kind)
    (onward : ∀ value, (next value).Throws kind) : (act >>= next).Throws kind :=
  fun files => (first files).bind (ensures_of_forall onward)

theorem Throws.mapM {step : β → Act ε α} (throws : ∀ item, (step item).Throws kind)
    (items : List β) : (items.mapM step).Throws kind := by
  induction items with
  | nil =>
    rw [List.mapM_nil]
    exact fun _ => rejects_pure _
  | cons item rest ih =>
    rw [List.mapM_cons]
    exact (throws item).bind fun _ => ih.bind fun _ _ => rejects_pure _

theorem Throws.foldlM {step : α → β → Act ε α}
    (throws : ∀ value item, (step value item).Throws kind) (items : List β) (value : α) :
    (items.foldlM step value).Throws kind := by
  induction items generalizing value with
  | nil =>
    rw [List.foldlM_nil]
    exact fun _ => rejects_pure _
  | cons item rest ih =>
    rw [List.foldlM_cons]
    exact (throws value item).bind fun next => ih next

end Retarget.Act
