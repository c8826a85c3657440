import Retarget.Proofs.Session.Except
import Retarget.Proofs.Session.Outcome

/-!
Two runs side by side. From two states that have something in common the same steps come to results
that belong together, and to states that have it in common still. What is common, and which results
belong together, is a parameter; each way to put steps together has one rule.
-/
namespace Retarget

variable {ε α β γ δ : Type}

namespace Act

/-- From any two files that have something in common, two steps come to results that belong
together and leave files that have it in common still, whatever was noted before. -/
structure Parallel (common : FileSystem → FileSystem → Prop) (together : α → β → Prop)
    (act : Act ε α) (other : Act ε β) : Prop where
  ends : ∀ {files others : FileSystem}, common files others → ∀ log later : List Event,
    Matches together (act.runOn ⟨files, log⟩).1 (other.runOn ⟨others, later⟩).1 ∧
      common (act.runOn ⟨files, log⟩).2.files (other.runOn ⟨others, later⟩).2.files

variable {common : FileSystem → FileSystem → Prop} {together : α → β → Prop}
  {onward : γ → δ → Prop} {act : Act ε α} {other : Act ε β}

/-- Where one of two steps succeeds, so does the other. -/
theorem Parallel.ok (parallel : Parallel common together act other) {files others : FileSystem}
    (same : common files others) {log : List Event} {value : α} {after : Session}
    (ran : act.runOn ⟨files, log⟩ = (.ok value, after)) (later : List Event) :
    ∃ found again, other.runOn ⟨others, later⟩ = (.ok found, again) ∧ together value found ∧
      common after.files again.files := by
  obtain ⟨matched, still⟩ := parallel.ends same log later
  rw [ran] at matched still
  obtain ⟨found, given, both⟩ := matched.other_ok
  exact ⟨found, _, Prod.ext given rfl, both, still⟩

/-- What is true of the runs is true of the outcomes. -/
theorem Parallel.outcome {other : Act ε α} (parallel : Parallel common Eq act other)
    {files others after : FileSystem} (same : common files others) {value : α}
    (gave : act.outcome files = (.ok value, after)) :
    ∃ again, other.outcome others = (.ok value, again) ∧ common after again := by
  obtain ⟨result, left⟩ := Prod.mk.inj gave
  obtain ⟨value, reached, ran, rfl, still⟩ := parallel.ok same (Prod.ext result rfl) []
  refine ⟨reached.files, ?_, left ▸ still⟩
  rw [Act.outcome, ran]

/-! ## One step -/

theorem parallel_pure {value : α} {another : β} (both : together value another) :
    Parallel common together (pure value : Act ε α) (pure another : Act ε β) :=
  ⟨fun same _ _ => ⟨.ok both, same⟩⟩

theorem parallel_throw (error : ε) :
    Parallel common together (throw error : Act ε α) (throw error : Act ε β) :=
  ⟨fun same _ _ => ⟨.error error, same⟩⟩

theorem parallel_note (event : Event) :
    Parallel common Eq (note event : Act ε Unit) (note event) :=
  ⟨fun same _ _ => ⟨.ok rfl, same⟩⟩

theorem parallel_look {view : FileSystem → α} {glance : FileSystem → β}
    (both : ∀ files others, common files others → together (view files) (glance others)) :
    Parallel common together (look view : Act ε α) (look glance) :=
  ⟨fun same _ _ => ⟨.ok (both _ _ same), same⟩⟩

theorem parallel_examine {view : FileSystem → Except ε α} {glance : FileSystem → Except ε β}
    (both : ∀ files others, common files others → Matches together (view files) (glance others)) :
    Parallel common together (examine view) (examine glance) := by
  refine ⟨fun {files others} same log later => ?_⟩
  rw [runOn_examine rfl, runOn_examine rfl]
  exact ⟨both files others same, same⟩

/-- What looks the same is the same. -/
theorem parallel_view {view : FileSystem → Except ε α}
    (same : ∀ files others, common files others → view others = view files) :
    Parallel common Eq (examine view) (examine view) :=
  parallel_examine fun files others both => matches_eq_iff.2 (same files others both).symm

theorem parallel_ofExcept {result : Except ε α} {another : Except ε β}
    (both : Matches together result another) :
    Parallel common together (ofExcept result : Act ε α) (ofExcept another) :=
  parallel_examine fun _ _ _ => both

theorem parallel_change (path : Path) {operation : FileSystem → Except OsError FileSystem}
    (both : ∀ files others, common files others →
      Matches common (operation files) (operation others)) :
    Parallel common Eq (change path operation) (change path operation) := by
  refine ⟨fun {files others} same log later => ?_⟩
  have matched := both files others same
  rw [runOn_change, runOn_change]
  generalize operation files = result at matched
  generalize operation others = another at matched
  cases matched with
  | ok still => exact ⟨.ok rfl, still⟩
  | error cause => exact ⟨.error _, same⟩

theorem parallel_changePartly (path : Path)
    {operation : FileSystem → Except OsError Unit × FileSystem}
    (both : ∀ files others, common files others → (operation files).1 = (operation others).1 ∧
      common (operation files).2 (operation others).2) :
    Parallel common Eq (changePartly path operation) (changePartly path operation) := by
  refine ⟨fun {files others} same log later => ?_⟩
  obtain ⟨result, still⟩ := both files others same
  rw [runOn_changePartly, runOn_changePartly, result]
  rcases (operation others).1 with cause | ⟨⟩
  · exact ⟨.error _, still⟩
  · exact ⟨.ok rfl, still⟩

/-! ## Steps put together -/

theorem Parallel.bind (parallel : Parallel common together act other) {next : α → Act ε γ}
    {another : β → Act ε δ}
    (goesOn : ∀ value found, together value found →
      Parallel common onward (next value) (another found)) :
    Parallel common onward (act >>= next) (other >>= another) := by
  refine ⟨fun {files others} same log later => ?_⟩
  obtain ⟨matched, still⟩ := parallel.ends same log later
  rw [runOn_bind, runOn_bind]
  generalize act.runOn ⟨files, log⟩ = reached at matched still
  generalize other.runOn ⟨others, later⟩ = arrived at matched still
  obtain ⟨result, after⟩ := reached
  obtain ⟨found, again⟩ := arrived
  cases matched with
  | ok both => exact (goesOn _ _ both).ends still after.log again.log
  | error cause => exact ⟨.error cause, still⟩

/-- Steps that come to equal values go on with them alike. -/
theorem Parallel.follow {other : Act ε α} (parallel : Parallel common Eq act other)
    {next : α → Act ε γ} {another : α → Act ε δ}
    (goesOn : ∀ value, Parallel common onward (next value) (another value)) :
    Parallel common onward (act >>= next) (other >>= another) :=
  parallel.bind fun value _ same => same ▸ goesOn value

theorem Parallel.map {other : Act ε α} (parallel : Parallel common Eq act other)
    (function : α → β) : Parallel common Eq (function <$> act) (function <$> other) := by
  rw [map_eq_pure_bind, map_eq_pure_bind]
  exact parallel.follow fun value => parallel_pure rfl

theorem Parallel.unless {test : Prop} [Decidable test] {error : ε}
    (parallel : Parallel common together act other) :
    Parallel common together (if test then throw error >>= fun _ : PUnit => act else act)
      (if test then throw error >>= fun _ : PUnit => other else other) := by
  split
  · exact (parallel_throw error : Parallel common (fun _ _ : PUnit => True) _ _).bind
      fun _ _ _ => parallel
  · exact parallel

theorem parallel_mapM {step : β → Act ε α} (items : List β)
    (each : ∀ item ∈ items, Parallel common Eq (step item) (step item)) :
    Parallel common Eq (items.mapM step) (items.mapM step) := by
  induction items with
  | nil => exact parallel_pure rfl
  | cons item rest ih =>
    rw [List.mapM_cons]
    refine (each item (by simp)).follow fun first => ?_
    exact (ih fun other member => each other (by simp [member])).follow fun _ => parallel_pure rfl

theorem parallel_foldlM {step : α → β → Act ε α} (items : List β)
    (each : ∀ value, ∀ item ∈ items, Parallel common Eq (step value item) (step value item))
    (value : α) : Parallel common Eq (items.foldlM step value) (items.foldlM step value) := by
  induction items generalizing value with
  | nil => exact parallel_pure rfl
  | cons item rest ih =>
    rw [List.foldlM_cons]
    exact (each value item (by simp)).follow fun further =>
      ih (fun value other member => each value other (by simp [member])) further

end Act
end Retarget
