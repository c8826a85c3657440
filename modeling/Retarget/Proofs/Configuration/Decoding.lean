import Retarget.Proofs.Configuration.Layout
import Retarget.Proofs.Toml.Keys

/-!
What reading a shape gives, told by what values mean. Fields are read one by one in the order of the
document, or by their position; since each key is there once, what has been read so far is told by
the keys alone. A reading succeeds exactly if the value means something, and gives that.
-/
namespace Retarget

open Toml (Value)

namespace Shape

/-! ## Readings that succeed -/

/-- From some repeats a reading succeeds with a value and leaves others. -/
def Ends {α : Type} (act : Shaped α) (before : List Repeat) (value : α) (after : List Repeat) :
    Prop :=
  act.run.run before = (.ok value, after)

section Rules

variable {α β : Type} {before after : List Repeat} {value : α}

theorem ends_pure {given : α} :
    Ends (pure given) before value after ↔ value = given ∧ after = before := by
  constructor
  · intro ended
    cases ended
    exact ⟨rfl, rfl⟩
  · intro ⟨same, still⟩
    rw [same, still]
    rfl

theorem not_ends_throw {error : ShapeError} : ¬Ends (throw error) before value after := by
  intro ended
  cases ended

theorem run_bind (act : Shaped β) (next : β → Shaped α) (before : List Repeat) :
    (act >>= next).run.run before =
      match act.run.run before with
      | (.ok value, middle) => (next value).run.run middle
      | (.error error, middle) => (.error error, middle) := by
  show (match act before with
    | (result, middle) => (ExceptT.bindCont next result) middle) = _
  show _ = match act before with
    | (.ok value, middle) => next value middle
    | (.error error, middle) => (.error error, middle)
  rcases act before with ⟨_ | _, middle⟩ <;> rfl

theorem ends_bind {act : Shaped β} {next : β → Shaped α} :
    Ends (act >>= next) before value after ↔
      ∃ result middle, Ends act before result middle ∧ Ends (next result) middle value after := by
  unfold Ends
  rw [run_bind]
  constructor
  · intro ended
    split at ended
    · rename_i result middle first
      exact ⟨result, middle, first, ended⟩
    · cases ended
  · intro ⟨result, middle, first, ended⟩
    rw [first]
    exact ended

theorem ends_text {value : Value} {text : String} :
    Ends (Shape.text value) before text after ↔ value = .string text ∧ after = before := by
  cases value with
  | string given => rw [Shape.text, ends_pure, Value.string.injEq, eq_comm]
  | _ => simpa [Shape.text] using not_ends_throw

theorem ends_path {value : Value} {path : Path} :
    Ends (Shape.path value) before path after ↔
      ∃ text, value = .string text ∧ path = Path.ofText text ∧ after = before := by
  cases value with
  | string given =>
    rw [Shape.path, ends_pure]
    simp
  | _ => simpa [Shape.path] using not_ends_throw

theorem ends_sequence {value : Value} {items : List Value} :
    Ends (Shape.sequence value) before items after ↔ value = .array items ∧ after = before := by
  cases value with
  | array given => rw [Shape.sequence, ends_pure, Value.array.injEq, eq_comm]
  | _ => simpa [Shape.sequence] using not_ends_throw

theorem ends_required {name : String} {given : Option α} :
    Ends (required name given) before value after ↔ given = some value ∧ after = before := by
  cases given with
  | none => simpa [required] using not_ends_throw
  | some result => rw [required, ends_pure, Option.some.injEq, eq_comm]

end Rules

/-! ## Fields one by one -/

section Fields

variable {δ : Type} {set : String → Value → δ → Shaped δ}
  {drawn : δ → (String → Option Value) → List Repeat → Prop} {known : String → Prop}

/-- What taking in one more field does. A draft is drawn from the values under some keys and has
noted some repeats; a field under a new key, which has to be known, adds to both. -/
def Draws (set : String → Value → δ → Shaped δ)
    (drawn : δ → (String → Option Value) → List Repeat → Prop) (known : String → Prop) : Prop :=
  ∀ {name : String} {value : Value} {draft result : δ} {view : String → Option Value}
    {noted before after : List Repeat}, value.Keyed → view name = none → drawn draft view noted →
    Ends (set name value draft) before result after →
    known name ∧ ∃ more, after = before ++ more ∧
      drawn result (fun key => if key = name then some value else view key) (noted ++ more)

/-- Fields under different keys that are taken in add their values to what was drawn from. -/
theorem byName_draws (draws : Draws set drawn known) {fields : List (String × Value)}
    (distinct : (fields.map Prod.fst).Nodup) (keyed : ∀ field ∈ fields, field.2.Keyed)
    {draft result : δ} {view : String → Option Value} {noted before after : List Repeat}
    (fresh : ∀ key ∈ fields.map Prod.fst, view key = none) (start : drawn draft view noted)
    (ended : Ends (byName set fields draft) before result after) :
    (∀ key ∈ fields.map Prod.fst, known key) ∧ ∃ more, after = before ++ more ∧
      drawn result (fun key => (view key).or (fields.lookup key)) (noted ++ more) := by
  induction fields generalizing draft view noted before with
  | nil =>
    obtain ⟨rfl, rfl⟩ := ends_pure.1 ended
    exact ⟨by simp, [], by simp, by simpa using start⟩
  | cons field rest ih =>
    obtain ⟨name, value⟩ := field
    rw [List.map_cons, List.nodup_cons] at distinct
    rw [List.forall_mem_cons] at keyed
    rw [List.map_cons, List.forall_mem_cons] at fresh
    obtain ⟨one, middle, first, onward⟩ := ends_bind.1 ended
    obtain ⟨isKnown, more, rfl, next⟩ := draws keyed.1 fresh.1 start first
    have stillFresh : ∀ key ∈ rest.map Prod.fst,
        (if key = name then some value else view key) = none := by
      intro key inside
      have apart : key ≠ name := fun same => distinct.1 (same ▸ inside)
      rw [if_neg apart]
      exact fresh.2 key inside
    obtain ⟨others, further, rfl, whole⟩ := ih distinct.2 keyed.2 stillFresh next onward
    refine ⟨List.forall_mem_cons.2 ⟨isKnown, others⟩, more ++ further, by simp, ?_⟩
    rw [← List.append_assoc]
    have same : (fun key => (if key = name then some value else view key).or (rest.lookup key)) =
        fun key => (view key).or (((name, value) :: rest).lookup key) := by
      funext key
      rw [List.lookup_cons]
      by_cases here : key = name
      · simp [here, fresh.1]
      · rw [if_neg here, beq_eq_false_iff_ne.2 here]
    rwa [← same]

theorem byName_append (set : String → Value → δ → Shaped δ) (front back : List (String × Value))
    (draft : δ) :
    byName set (front ++ back) draft = byName set front draft >>= byName set back := by
  induction front generalizing draft with
  | nil => rfl
  | cons field rest ih =>
    rw [List.cons_append, byName, byName, bind_assoc]
    exact bind_congr fun one => ih one

/-- Fields that can each be taken in can all be taken in. -/
theorem byName_ends {fields : List (String × Value)}
    (each : ∀ field ∈ fields, ∀ draft before, ∃ result after,
      Ends (set field.1 field.2 draft) before result after) (draft : δ) (before : List Repeat) :
    ∃ result after, Ends (byName set fields draft) before result after := by
  induction fields generalizing draft before with
  | nil => exact ⟨draft, before, rfl⟩
  | cons field rest ih =>
    rw [List.forall_mem_cons] at each
    obtain ⟨one, middle, first⟩ := each.1 draft before
    obtain ⟨result, after, ended⟩ := ih each.2 one middle
    exact ⟨result, after, ends_bind.2 ⟨one, middle, first, ended⟩⟩

/-- By position fields are taken in as by their names, and those that are needed may not be left
out. -/
theorem byPosition_ends {needed : String → Bool} {short : Nat → ShapeError} {position : Nat}
    {names : List String} {values : List Value} {draft result : δ} {before after : List Repeat} :
    Ends (byPosition set needed short position names values draft) before result after ↔
      (∀ name ∈ names.drop values.length, needed name = false) ∧
        Ends (byName set (names.zip values) draft) before result after := by
  induction names generalizing position values draft before with
  | nil => simp [byPosition, byName]
  | cons name names ih =>
    cases values with
    | nil =>
      rw [byPosition]
      cases need : needed name with
      | true => simpa [need] using not_ends_throw
      | false =>
        have onward := @ih (position + 1) [] draft before
        simpa [need, byName] using onward
    | cons value values =>
      rw [byPosition, List.zip_cons_cons, byName, ends_bind, ends_bind]
      simp only [ih, List.length_cons, List.drop_succ_cons]
      constructor
      · intro ⟨one, middle, first, enough, ended⟩
        exact ⟨enough, one, middle, first, ended⟩
      · intro ⟨enough, one, middle, first, ended⟩
        exact ⟨one, middle, first, enough, ended⟩

end Fields

end Shape

/-! ## Keyed values -/

section Keyed

variable {kind : Kind} {value : Value} {items : List Value} {fields : List (String × Value)}

theorem map_fst_zip_eq_take (names : List String) (items : List Value) :
    (names.zip items).map Prod.fst = names.take items.length := by
  induction names generalizing items with
  | nil => rw [List.zip_nil_left, List.take_nil, List.map_nil]
  | cons name names ih =>
    cases items with
    | nil => rfl
    | cons item items =>
      rw [List.zip_cons_cons, List.map_cons, ih, List.length_cons, List.take_succ_cons]

/-- Seen as its fields, a keyed value is keyed. -/
theorem Kind.keyed_of_keyed? (keyed : value.Keyed) (form : kind.keyed? value = some fields) :
    (Value.table fields).Keyed := by
  cases value with
  | table given =>
    cases form
    exact keyed
  | array items =>
    simp only [Kind.keyed?] at form
    split at form
    · cases form
      constructor
      · rw [map_fst_zip_eq_take]
        exact kind.nodup_names.sublist (List.take_sublist _ _)
      · intro field member
        exact keyed.item _ (List.of_mem_zip member).2
    · cases form
  | _ => cases form

/-- In an array, the fields that are left out at the end may be. -/
def Kind.Enough (kind : Kind) (value : Value) : Prop :=
  ∀ items, value = .array items → ∀ field ∈ kind.fields.drop items.length, field.standard ≠ none

theorem Kind.enough_iff (needed : String → Bool)
    (agree : ∀ field ∈ kind.fields, needed field.name = false ↔ field.standard ≠ none) :
    kind.Enough (.array items) ↔
      ∀ name ∈ kind.names.drop items.length, needed name = false := by
  rw [Kind.names, ← List.map_drop, List.forall_mem_map]
  constructor
  · intro enough field member
    exact (agree field (List.mem_of_mem_drop member)).2 (enough items rfl field member)
  · intro all others same field member
    cases same
    exact (agree field (List.mem_of_mem_drop member)).1 (all field member)

/-- What spells a value for each field leaves out none that has to be there. -/
theorem Spells.enough {given : List Value} (spells : Spells kind value fields given) :
    kind.Enough value := by
  intro items same field member left
  subst same
  have form := spells.form
  simp only [Kind.keyed?] at form
  split at form
  · cases form
    have inside : field.name ∈ kind.names.drop items.length := by
      rw [Kind.names, ← List.map_drop]
      exact List.mem_map_of_mem member
    have apart : field.name ∉ kind.names.take items.length := fun early =>
      List.disjoint_take_drop kind.nodup_names (Nat.le_refl _) early inside
    rw [← map_fst_zip_eq_take, ← lookup_eq_none_iff_not_mem] at apart
    have none : field.given (kind.names.zip items) = none := by
      rw [Field.given, apart, left, Option.none_or]
    have listed := List.mem_map_of_mem (f := fun field => field.given (kind.names.zip items))
      (List.mem_of_mem_drop member)
    rw [spells.given, none] at listed
    obtain ⟨value, _, some⟩ := List.mem_map.1 listed
    cases some
  · cases form

end Keyed

namespace Shape

/-- Fields in an array are read as those of a table, if those that are needed are there. -/
theorem ends_listed {α δ : Type} (kind : Kind) (set : String → Value → δ → Shaped δ)
    (needed : String → Bool) (short : Nat → ShapeError) (finish : δ → Shaped α)
    (items : List Value) (draft : δ) {value : α} {before after : List Repeat}
    (agree : ∀ field ∈ kind.fields, needed field.name = false ↔ field.standard ≠ none) :
    Ends (byPosition set needed short 0 kind.names items draft >>= finish) before value after ↔
      kind.Enough (.array items) ∧
        Ends (byName set (kind.names.zip items) draft >>= finish) before value after := by
  rw [Kind.enough_iff needed agree, ends_bind, ends_bind]
  constructor
  · intro ⟨result, middle, read, finished⟩
    obtain ⟨enough, named⟩ := byPosition_ends.1 read
    exact ⟨enough, result, middle, named, finished⟩
  · intro ⟨enough, result, middle, named, finished⟩
    exact ⟨result, middle, byPosition_ends.2 ⟨enough, named⟩, finished⟩

/-! ## Replacements -/

/-- A draft of a replacement that is drawn from the values under its keys. -/
structure ReplacementDraft.Drawn (draft : ReplacementDraft) (view : String → Option Value)
    (noted : List Repeat) : Prop where
  pattern : view "from" = draft.pattern.map .string
  replacement : view "to" = draft.replacement.map .string
  noted : noted = []

theorem ReplacementDraft.draws :
    Draws ReplacementDraft.set ReplacementDraft.Drawn fun _ => True := by
  intro name value draft result view noted before after _ fresh drawn ended
  unfold ReplacementDraft.set at ended
  refine ⟨trivial, [], ?_⟩
  split at ended
  · rename_i here
    obtain ⟨text, middle, read, made⟩ := ends_bind.1 ended
    obtain ⟨rfl, rfl⟩ := ends_text.1 read
    obtain ⟨rfl, rfl⟩ := ends_pure.1 made
    exact ⟨by simp, ⟨by simp [here], by simpa [here] using drawn.replacement,
      by simpa using drawn.noted⟩⟩
  · split at ended
    · rename_i here
      obtain ⟨text, middle, read, made⟩ := ends_bind.1 ended
      obtain ⟨rfl, rfl⟩ := ends_text.1 read
      obtain ⟨rfl, rfl⟩ := ends_pure.1 made
      exact ⟨by simp, ⟨by simpa [here] using drawn.pattern, by simp [here],
        by simpa using drawn.noted⟩⟩
    · rename_i notFrom notTo
      obtain ⟨rfl, rfl⟩ := ends_pure.1 ended
      refine ⟨by simp, ⟨?_, ?_, by simpa using drawn.noted⟩⟩
      · rw [if_neg (Ne.symm notFrom)]
        exact drawn.pattern
      · rw [if_neg (Ne.symm notTo)]
        exact drawn.replacement

/-- Reading the fields of a replacement. -/
def replacementOf (fields : List (String × Value)) : Shaped Substitution := do
  (← byName ReplacementDraft.set fields ⟨none, none⟩).finish

theorem ends_replacement {value : Value} {entry : Substitution} {before after : List Repeat} :
    Ends (replacement value) before entry after ↔ Kind.replacement.Enough value ∧
      ∃ fields, Kind.replacement.keyed? value = some fields ∧
        Ends (replacementOf fields) before entry after := by
  cases value with
  | table fields => simp [replacement, replacementOf, Toml.Value.fields?, Kind.keyed?, Kind.Enough]
  | datetime =>
    simpa [replacement, Toml.Value.fields?, Kind.keyed?, byName, ReplacementDraft.set,
      ReplacementDraft.finish, required] using not_ends_throw
  | array items =>
    have needed : ∀ field ∈ Kind.replacement.fields, true = false ↔ field.standard ≠ none := by
      simp [Kind.fields]
    have form : Kind.replacement.keyed? (.array items) =
        some (Kind.replacement.names.zip items) := rfl
    rw [form]
    simp only [Option.some.injEq, exists_eq_left']
    exact ends_listed .replacement ReplacementDraft.set (fun _ => true) _ ReplacementDraft.finish
      items ⟨none, none⟩ needed
  | _ => simpa [replacement, Toml.Value.fields?, Kind.keyed?] using not_ends_throw

/-- A draft that is drawn from all fields is finished exactly as what the fields give. -/
theorem ReplacementDraft.Drawn.ends_finish {draft : ReplacementDraft}
    {fields : List (String × Value)} {noted : List Repeat}
    (drawn : draft.Drawn (fun key => fields.lookup key) noted) {entry : Substitution}
    {before after : List Repeat} :
    Ends draft.finish before entry after ↔
      Kind.replacement.fields.map (fun field => field.given fields) =
        [some (.string entry.pattern), some (.string entry.replacement)] ∧ after = before := by
  obtain ⟨pattern, replacement⟩ := entry
  have fromDraft := drawn.pattern
  have toDraft := drawn.replacement
  simp only [finish, ends_bind, ends_required, ends_pure, Kind.fields, Field.given, List.map_cons,
    List.map_nil, fromDraft, toDraft, Option.or_none, List.cons.injEq, and_true,
    Option.map_eq_some_iff, Value.string.injEq, exists_eq_right, Substitution.mk.injEq]
  constructor
  · intro ⟨_, _, ⟨first, rfl⟩, _, _, ⟨second, rfl⟩, ⟨rfl, rfl⟩, still⟩
    exact ⟨⟨first, second⟩, still⟩
  · intro ⟨⟨first, second⟩, still⟩
    exact ⟨_, _, ⟨first, rfl⟩, _, _, ⟨second, rfl⟩, ⟨rfl, rfl⟩, still⟩

/-- A field of a replacement can be taken in if it is a text, or if its key is not known. -/
theorem ReplacementDraft.ends_set {name : String} {value : Value}
    (text : name ∈ Kind.replacement.names → ∃ text, value = .string text)
    (draft : ReplacementDraft) (before : List Repeat) :
    ∃ result after, Ends (ReplacementDraft.set name value draft) before result after := by
  unfold ReplacementDraft.set
  split
  · rename_i here
    obtain ⟨given, rfl⟩ := text (here ▸ by decide)
    exact ⟨_, _, rfl⟩
  · split
    · rename_i here
      obtain ⟨given, rfl⟩ := text (here ▸ by decide)
      exact ⟨_, _, rfl⟩
    · exact ⟨_, _, rfl⟩

/-- A replacement is read exactly from what means it. -/
theorem ends_replacement_iff {value : Value} (keyed : value.Keyed) {entry : Substitution}
    {before after : List Repeat} :
    Ends (replacement value) before entry after ↔ MeansEntry value entry ∧ after = before := by
  have start : ReplacementDraft.Drawn ⟨none, none⟩ (fun _ => none) [] := ⟨rfl, rfl, rfl⟩
  rw [ends_replacement]
  constructor
  · intro ⟨_, fields, form, ended⟩
    have fieldsKeyed := Kind.keyed_of_keyed? keyed form
    obtain ⟨draft, middle, read, finished⟩ := ends_bind.1 ended
    obtain ⟨_, more, rfl, drawn⟩ := byName_draws ReplacementDraft.draws fieldsKeyed.distinct
      fieldsKeyed.each (fun _ _ => rfl) start read
    obtain ⟨given, rfl⟩ := drawn.ends_finish.1 finished
    obtain rfl : more = [] := drawn.noted
    exact ⟨⟨fields, form, fieldsKeyed.distinct, fun strict => (nomatch strict), given⟩,
      List.append_nil before⟩
  · intro ⟨⟨fields, spells⟩, still⟩
    have fieldsKeyed := Kind.keyed_of_keyed? keyed spells.form
    have given := spells.given
    simp only [Kind.fields, Field.given, List.map_cons, List.map_nil, Option.or_none,
      List.cons.injEq, and_true] at given
    have each : ∀ field ∈ fields, ∀ draft before, ∃ result after,
        Ends (ReplacementDraft.set field.1 field.2 draft) before result after := by
      intro field member
      apply ReplacementDraft.ends_set
      intro known
      have found := (lookup_eq_some_iff_mem spells.distinct).2 member
      simp only [Kind.names, Kind.fields, List.map_cons, List.map_nil, List.mem_cons,
        List.not_mem_nil, or_false] at known
      rcases known with here | here
      · rw [here, given.1, Option.some.injEq] at found
        exact ⟨_, found.symm⟩
      · rw [here, given.2, Option.some.injEq] at found
        exact ⟨_, found.symm⟩
    obtain ⟨draft, middle, read⟩ := byName_ends each ⟨none, none⟩ before
    obtain ⟨_, more, rfl, drawn⟩ := byName_draws ReplacementDraft.draws fieldsKeyed.distinct
      fieldsKeyed.each (fun _ _ => rfl) start read
    obtain rfl : more = [] := drawn.noted
    rw [List.append_nil] at read
    exact ⟨spells.enough, fields, spells.form, ends_bind.2 ⟨draft, before, read,
      drawn.ends_finish.2 ⟨spells.given, still⟩⟩⟩

/-! ## Tables -/

theorem ends_each_replacement {items : List Value} (keyed : ∀ item ∈ items, item.Keyed)
    {entries : List Substitution} {before after : List Repeat} :
    Ends (each replacement items) before entries after ↔
      List.Forall₂ MeansEntry items entries ∧ after = before := by
  induction items generalizing entries before after with
  | nil =>
    rw [each, ends_pure, List.forall₂_nil_left_iff]
  | cons item rest ih =>
    rw [List.forall_mem_cons] at keyed
    simp only [each, ends_bind, ends_replacement_iff keyed.1, ih keyed.2, ends_pure]
    constructor
    · intro ⟨first, _, ⟨one, rfl⟩, others, _, ⟨more, rfl⟩, whole, still⟩
      exact ⟨whole ▸ .cons one more, still⟩
    · intro ⟨all, still⟩
      cases all with
      | cons one more => exact ⟨_, _, ⟨one, rfl⟩, _, _, ⟨more, rfl⟩, rfl, still⟩

/-- A table is read exactly from what means it, and what it repeats is noted. -/
theorem ends_table_iff {value : Value} (keyed : value.Keyed) {table : Table}
    {before after : List Repeat} :
    Ends (Shape.table value) before table after ↔
      ∃ repeats, MeansTable value table repeats ∧ after = before ++ repeats := by
  have noted (repeats before : List Repeat) (result : PUnit) (after : List Repeat) :
      Ends (modify (· ++ repeats) : Shaped PUnit) before result after ↔
        after = before ++ repeats := by
    constructor
    · intro ended
      cases ended
      rfl
    · intro same
      rw [same]
      rfl
  simp only [Shape.table, ends_bind, ends_sequence, noted, ends_pure]
  constructor
  · intro ⟨items, middle, ⟨listed, still⟩, entries, last, read, _, _, added, first, same⟩
    subst listed still
    obtain ⟨each, same⟩ := (ends_each_replacement keyed.item).1 read
    subst same
    exact ⟨_, ⟨items, entries, rfl, each, Prod.ext first.symm rfl⟩, same.trans added⟩
  · intro ⟨repeats, ⟨items, entries, listed, each, made⟩, added⟩
    subst listed
    refine ⟨items, before, ⟨rfl, rfl⟩, entries, before,
      (ends_each_replacement keyed.item).2 ⟨each, rfl⟩, ⟨⟩, after, ?_, ?_, rfl⟩
    · rw [made, added]
    · rw [made]

/-! ## Jobs -/

/-- A draft of a job that is drawn from the values under its keys. -/
structure JobDraft.Drawn (draft : JobDraft) (view : String → Option Value)
    (noted : List Repeat) : Prop where
  name : view "name" = draft.name.map .string
  base : ∃ text : Option String, view "base" = text.map .string ∧
    draft.base = text.map Path.ofText
  source : view "source" = draft.source.map .string
  target : view "target" = draft.target.map .string
  sourceMark : view "source_prefix" = draft.sourceMark.map .string
  targetMark : view "target_prefix" = draft.targetMark.map .string
  table : (view "replace" = none ∧ draft.table = none ∧ noted = []) ∨
    ∃ value table, view "replace" = some value ∧ draft.table = some table ∧
      MeansTable value table noted

theorem JobDraft.draws : Draws JobDraft.set JobDraft.Drawn (· ∈ jobFields) := by
  intro name value draft result view noted before after keyed fresh drawn ended
  obtain ⟨hasName, hasBase, hasSource, hasTarget, hasSourceMark, hasTargetMark, hasTable⟩ := drawn
  have text {change : String → JobDraft}
      (ended : Ends (do pure (change (← Shape.text value))) before result after)
      (known : name ∈ jobFields)
      (next : ∀ text, value = .string text →
        (change text).Drawn (fun key => if key = name then some value else view key) noted) :
      name ∈ jobFields ∧ ∃ more, after = before ++ more ∧
        result.Drawn (fun key => if key = name then some value else view key) (noted ++ more) := by
    obtain ⟨text, middle, read, made⟩ := ends_bind.1 ended
    obtain ⟨isText, rfl⟩ := ends_text.1 read
    obtain ⟨rfl, rfl⟩ := ends_pure.1 made
    exact ⟨known, [], by simp, by simpa using next text isText⟩
  -- Under each key a text is taken in alike, but for the path of the base and for the table.
  unfold JobDraft.set at ended
  split at ended
  next here => exact text ended (here ▸ by decide) fun _ _ => by constructor <;> simp_all
  split at ended
  next here =>
    obtain ⟨path, middle, read, made⟩ := ends_bind.1 ended
    obtain ⟨given, rfl, rfl, rfl⟩ := ends_path.1 read
    obtain ⟨rfl, rfl⟩ := ends_pure.1 made
    refine ⟨here ▸ by decide, [], by simp, ?_⟩
    constructor
    case base => exact ⟨some given, by simp [here], rfl⟩
    all_goals simp_all
  split at ended
  next here => exact text ended (here ▸ by decide) fun _ _ => by constructor <;> simp_all
  split at ended
  next here => exact text ended (here ▸ by decide) fun _ _ => by constructor <;> simp_all
  split at ended
  next here => exact text ended (here ▸ by decide) fun _ _ => by constructor <;> simp_all
  split at ended
  next here => exact text ended (here ▸ by decide) fun _ _ => by constructor <;> simp_all
  split at ended
  next here =>
    obtain ⟨table, middle, read, made⟩ := ends_bind.1 ended
    obtain ⟨repeats, means, rfl⟩ := (ends_table_iff keyed).1 read
    obtain ⟨rfl, rfl⟩ := ends_pure.1 made
    refine ⟨here ▸ by decide, repeats, rfl, ?_⟩
    constructor <;> simp_all
  exact absurd ended not_ends_throw

/-- Reading the fields of a job. -/
def jobOf (fields : List (String × Value)) : Shaped Job := do
  (← byName JobDraft.set fields JobDraft.empty).finish

theorem ends_job {value : Value} {job : Job} {before after : List Repeat} :
    Ends (Shape.job value) before job after ↔ Kind.job.Enough value ∧
      ∃ fields, Kind.job.keyed? value = some fields ∧ Ends (jobOf fields) before job after := by
  cases value with
  | table fields => simp [Shape.job, jobOf, Toml.Value.fields?, Kind.keyed?, Kind.Enough]
  | datetime =>
    simpa [Shape.job, Toml.Value.fields?, Kind.keyed?, byName, JobDraft.set,
      JobDraft.finish, required] using not_ends_throw
  | array items =>
    have needed : ∀ field ∈ Kind.job.fields,
        isRequired field.name = false ↔ field.standard ≠ none := by
      simp [Kind.fields, isRequired]
    have form : Kind.job.keyed? (.array items) = some (Kind.job.names.zip items) := rfl
    rw [form]
    simp only [Option.some.injEq, exists_eq_left']
    exact ends_listed .job JobDraft.set isRequired _ JobDraft.finish items .empty needed
  | _ => simpa [Shape.job, Toml.Value.fields?, Kind.keyed?] using not_ends_throw

/-- The fields of a job give its texts and a value that means its table. -/
def GiveJob (fields : List (String × Value)) (job : Job) (repeats : List Repeat) : Prop :=
  ∃ base replace, Kind.job.fields.map (fun field => field.given fields) =
      [Value.string job.name, .string base, .string job.source, .string job.target,
        .string job.naming.source, .string job.naming.target, replace].map some ∧
    job.base = Path.ofText base ∧ MeansTable replace job.table repeats

theorem meansTable_empty : MeansTable (.array []) Table.empty [] := ⟨[], [], rfl, .nil, rfl⟩

/-- The table that a draft is finished with is the one that its fields mean. -/
theorem JobDraft.Drawn.means_table {draft : JobDraft} {view : String → Option Value}
    {noted : List Repeat} (drawn : draft.Drawn view noted) :
    ∃ value, (view "replace").or (some (.array [])) = some value ∧
      MeansTable value (draft.table.getD Table.empty) noted := by
  rcases drawn.table with ⟨missing, left, rfl⟩ | ⟨value, table, found, kept, means⟩
  · rw [missing, left]
    exact ⟨_, rfl, meansTable_empty⟩
  · rw [found, kept]
    exact ⟨value, rfl, means⟩

theorem or_map_string (given : Option String) (standard : String) :
    (given.map Value.string).or (some (.string standard)) =
      some (.string (given.getD standard)) := by
  cases given <;> rfl

/-- A draft that is drawn from all fields is finished as the job that they give. -/
theorem JobDraft.Drawn.gives {draft : JobDraft} {fields : List (String × Value)}
    {noted : List Repeat} (drawn : draft.Drawn (fun key => fields.lookup key) noted) {job : Job}
    {before after : List Repeat} (ended : Ends draft.finish before job after) :
    GiveJob fields job noted ∧ after = before := by
  obtain ⟨replace, found, table⟩ := drawn.means_table
  obtain ⟨base, hasBase, isBase⟩ := drawn.base
  obtain ⟨name, _, first, onward⟩ := ends_bind.1 ended
  obtain ⟨path, _, second, made⟩ := ends_bind.1 onward
  obtain ⟨named, rfl⟩ := ends_required.1 first
  obtain ⟨based, rfl⟩ := ends_required.1 second
  obtain ⟨rfl, rfl⟩ := ends_pure.1 made
  rw [isBase, Option.map_eq_some_iff] at based
  obtain ⟨text, rfl, isPath⟩ := based
  refine ⟨⟨text, replace, ?_, isPath.symm, table⟩, rfl⟩
  simp only [Kind.fields, Field.given, List.map_cons, List.map_nil, drawn.name, named, hasBase,
    drawn.source, drawn.target, drawn.sourceMark, drawn.targetMark, found, or_map_string,
    Option.or_none, Option.map_some]

/-- A draft that is drawn from fields that give a job can be finished, as that job. -/
theorem JobDraft.Drawn.ends_finish {draft : JobDraft} {fields : List (String × Value)}
    {noted : List Repeat} (drawn : draft.Drawn (fun key => fields.lookup key) noted) {job : Job}
    {repeats : List Repeat} (give : GiveJob fields job repeats) (before : List Repeat) :
    noted = repeats ∧ Ends draft.finish before job before := by
  obtain ⟨replace, found, table⟩ := drawn.means_table
  obtain ⟨base, hasBase, isBase⟩ := drawn.base
  obtain ⟨text, value, given, isPath, means⟩ := give
  simp only [Kind.fields, Field.given, List.map_cons, List.map_nil, drawn.name, hasBase,
    drawn.source, drawn.target, drawn.sourceMark, drawn.targetMark, found, or_map_string,
    Option.or_none, List.cons.injEq, Option.some.injEq, Value.string.injEq, and_true,
    Option.map_eq_some_iff, exists_eq_right] at given
  obtain ⟨named, based, source, target, sourceMark, targetMark, same⟩ := given
  subst same
  obtain ⟨sameTable, rfl⟩ := table.unique means
  refine ⟨rfl, ?_⟩
  have ends : Ends draft.finish before _ before := ends_bind.2 ⟨_, _, ends_required.2 ⟨named, rfl⟩,
    ends_bind.2 ⟨_, _, ends_required.2 ⟨by rw [isBase, based]; rfl, rfl⟩, rfl⟩⟩
  obtain ⟨_, _, _, _, ⟨_, _⟩, _⟩ := job
  simp_all

/-- A field of a job can be taken in if it is a text, or means a table if it is the last. -/
theorem JobDraft.ends_set {name : String} {value : Value} (keyed : value.Keyed)
    (known : name ∈ jobFields) (text : name ≠ "replace" → ∃ text, value = .string text)
    (table : name = "replace" → ∃ table repeats, MeansTable value table repeats)
    (draft : JobDraft) (before : List Repeat) :
    ∃ result after, Ends (JobDraft.set name value draft) before result after := by
  by_cases last : name = "replace"
  · obtain ⟨made, repeats, means⟩ := table last
    subst last
    exact ⟨_, _, ends_bind.2 ⟨made, _, (ends_table_iff keyed).2 ⟨repeats, means, rfl⟩, rfl⟩⟩
  · obtain ⟨given, rfl⟩ := text last
    simp only [jobFields, List.mem_cons, List.not_mem_nil, or_false] at known
    rcases known with rfl | rfl | rfl | rfl | rfl | rfl | same
    · exact ⟨_, _, rfl⟩
    · exact ⟨_, _, rfl⟩
    · exact ⟨_, _, rfl⟩
    · exact ⟨_, _, rfl⟩
    · exact ⟨_, _, rfl⟩
    · exact ⟨_, _, rfl⟩
    · exact absurd same last

/-- Fields that give a job can be taken in, one by one. -/
theorem JobDraft.ends_fields {fields : List (String × Value)} (keyed : (Value.table fields).Keyed)
    (known : ∀ key ∈ fields.map Prod.fst, key ∈ jobFields) {job : Job} {repeats : List Repeat}
    (give : GiveJob fields job repeats) :
    ∀ field ∈ fields, ∀ draft before, ∃ result after,
      Ends (JobDraft.set field.1 field.2 draft) before result after := by
  obtain ⟨base, replace, given, _, means⟩ := give
  simp only [Kind.fields, Field.given, List.map_cons, List.map_nil, List.cons.injEq,
    and_true] at given
  obtain ⟨name, based, source, target, sourceMark, targetMark, last⟩ := given
  intro field member
  have found := (lookup_eq_some_iff_mem keyed.distinct).2 member
  have inside := known field.1 (List.mem_map_of_mem member)
  apply JobDraft.ends_set (keyed.each field member) inside
  · intro notLast
    simp only [jobFields, List.mem_cons, List.not_mem_nil, or_false] at inside
    have isText {key text : String} {standard : Option Value} (here : field.1 = key)
        (held : (fields.lookup key).or standard = some (.string text)) :
        ∃ text, field.2 = .string text := by
      rw [← here, found, Option.some_or, Option.some.injEq] at held
      exact ⟨text, held⟩
    rcases inside with here | here | here | here | here | here | here
    · exact isText here name
    · exact isText here based
    · exact isText here source
    · exact isText here target
    · exact isText here sourceMark
    · exact isText here targetMark
    · exact absurd here notLast
  · intro here
    rw [here] at found
    rw [found, Option.some_or, Option.some.injEq] at last
    exact ⟨job.table, repeats, last ▸ means⟩

/-- A job is read exactly from what means it, and what its table repeats is noted. -/
theorem ends_job_iff {value : Value} (keyed : value.Keyed) {job : Job}
    {before after : List Repeat} :
    Ends (Shape.job value) before job after ↔
      ∃ repeats, MeansJob value job repeats ∧ after = before ++ repeats := by
  have start : JobDraft.Drawn .empty (fun _ => none) [] :=
    ⟨rfl, ⟨none, rfl, rfl⟩, rfl, rfl, rfl, rfl, .inl ⟨rfl, rfl, rfl⟩⟩
  rw [ends_job]
  constructor
  · intro ⟨_, fields, form, ended⟩
    have fieldsKeyed := Kind.keyed_of_keyed? keyed form
    obtain ⟨draft, middle, read, finished⟩ := ends_bind.1 ended
    obtain ⟨known, more, rfl, drawn⟩ := byName_draws JobDraft.draws fieldsKeyed.distinct
      fieldsKeyed.each (fun _ _ => rfl) start read
    obtain ⟨⟨base, replace, given, isBase, means⟩, rfl⟩ := drawn.gives finished
    exact ⟨more, ⟨fields, base, replace, ⟨form, fieldsKeyed.distinct, fun _ => known, given⟩,
      isBase, means⟩, rfl⟩
  · intro ⟨repeats, ⟨fields, base, replace, spells, isBase, means⟩, added⟩
    have fieldsKeyed := Kind.keyed_of_keyed? keyed spells.form
    have give : GiveJob fields job repeats := ⟨base, replace, spells.given, isBase, means⟩
    obtain ⟨draft, middle, read⟩ := byName_ends
      (JobDraft.ends_fields fieldsKeyed (spells.known rfl) give) .empty before
    obtain ⟨_, more, rfl, drawn⟩ := byName_draws JobDraft.draws fieldsKeyed.distinct
      fieldsKeyed.each (fun _ _ => rfl) start read
    obtain ⟨rfl, finished⟩ := drawn.ends_finish give (before ++ more)
    subst added
    exact ⟨spells.enough, fields, spells.form, ends_bind.2 ⟨draft, _, read, finished⟩⟩

/-! ## Configurations -/

theorem ends_each_job {items : List Value} (keyed : ∀ item ∈ items, item.Keyed)
    {jobs : List Job} {before after : List Repeat} :
    Ends (each Shape.job items) before jobs after ↔
      ∃ repeats, MeanJobs items jobs repeats ∧ after = before ++ repeats := by
  induction items generalizing jobs before after with
  | nil =>
    rw [each, ends_pure]
    constructor
    · intro ⟨empty, still⟩
      exact ⟨[], empty ▸ .nil, by simpa using still⟩
    · intro ⟨repeats, mean, added⟩
      cases mean
      exact ⟨rfl, by simpa using added⟩
  | cons item rest ih =>
    rw [List.forall_mem_cons] at keyed
    simp only [each, ends_bind, ends_job_iff keyed.1, ih keyed.2, ends_pure]
    constructor
    · intro ⟨first, _, ⟨repeats, one, rfl⟩, others, _, ⟨more, mean, rfl⟩, whole, still⟩
      exact ⟨repeats ++ more, whole ▸ .cons one mean, by rw [still, List.append_assoc]⟩
    · intro ⟨repeats, mean, added⟩
      cases mean with
      | cons one others =>
        exact ⟨_, _, ⟨_, one, rfl⟩, _, _, ⟨_, others, rfl⟩, rfl,
          by rw [added, List.append_assoc]⟩

/-- A draft of a configuration that is drawn from the values under its keys. -/
structure ConfigurationDraft.Drawn (draft : ConfigurationDraft) (view : String → Option Value)
    (noted : List Repeat) : Prop where
  root : ∃ text : Option String, view "root" = text.map .string ∧
    draft.root = text.map Path.ofText
  jobs : (view "job" = none ∧ draft.jobs = none ∧ noted = []) ∨
    ∃ items jobs, view "job" = some (.array items) ∧ draft.jobs = some jobs ∧
      MeanJobs items jobs noted

theorem ConfigurationDraft.draws :
    Draws ConfigurationDraft.set ConfigurationDraft.Drawn (· ∈ Kind.configuration.names) := by
  intro name value draft result view noted before after keyed fresh drawn ended
  obtain ⟨hasRoot, hasJobs⟩ := drawn
  unfold ConfigurationDraft.set at ended
  split at ended
  next here =>
    obtain ⟨path, middle, read, made⟩ := ends_bind.1 ended
    obtain ⟨given, rfl, rfl, rfl⟩ := ends_path.1 read
    obtain ⟨rfl, rfl⟩ := ends_pure.1 made
    refine ⟨here ▸ by decide, [], by simp, ?_⟩
    constructor
    case root => exact ⟨some given, by simp [here], rfl⟩
    all_goals simp_all
  split at ended
  next here =>
    obtain ⟨items, middle, listed, onward⟩ := ends_bind.1 ended
    obtain ⟨rfl, rfl⟩ := ends_sequence.1 listed
    obtain ⟨jobs, middle, read, made⟩ := ends_bind.1 onward
    obtain ⟨repeats, mean, rfl⟩ := (ends_each_job keyed.item).1 read
    obtain ⟨rfl, rfl⟩ := ends_pure.1 made
    refine ⟨here ▸ by decide, repeats, rfl, ?_⟩
    constructor <;> simp_all
  exact absurd ended not_ends_throw

/-- A draft that is drawn from all fields has what they give, or what stands for it. -/
theorem ConfigurationDraft.Drawn.gives {draft : ConfigurationDraft}
    {fields : List (String × Value)} {noted : List Repeat}
    (drawn : draft.Drawn (fun key => fields.lookup key) noted) :
    ∃ root items, Kind.configuration.fields.map (fun field => field.given fields) =
        [Value.string root, .array items].map some ∧
      draft.root.getD Configuration.standardRoot = Path.ofText root ∧
      MeanJobs items (draft.jobs.getD []) noted := by
  obtain ⟨root, hasRoot, isRoot⟩ := drawn.root
  have rooted : draft.root.getD Configuration.standardRoot = Path.ofText (root.getD "src") := by
    rw [isRoot]
    cases root <;> rfl
  rcases drawn.jobs with ⟨missing, left, rfl⟩ | ⟨items, jobs, found, kept, mean⟩
  · refine ⟨_, [], ?_, rooted, left ▸ .nil⟩
    simp only [Kind.fields, Field.given, List.map_cons, List.map_nil, hasRoot, or_map_string,
      missing, Option.none_or]
  · refine ⟨_, items, ?_, rooted, kept ▸ mean⟩
    simp only [Kind.fields, Field.given, List.map_cons, List.map_nil, hasRoot, or_map_string,
      found, Option.some_or]

/-- Fields that give a configuration can be taken in, one by one. -/
theorem ConfigurationDraft.ends_fields {fields : List (String × Value)}
    (keyed : (Value.table fields).Keyed)
    (known : ∀ key ∈ fields.map Prod.fst, key ∈ Kind.configuration.names) {root : String}
    {items : List Value}
    (given : Kind.configuration.fields.map (fun field => field.given fields) =
      [Value.string root, .array items].map some)
    {jobs : List Job} {repeats : List Repeat} (mean : MeanJobs items jobs repeats) :
    ∀ field ∈ fields, ∀ draft before, ∃ result after,
      Ends (ConfigurationDraft.set field.1 field.2 draft) before result after := by
  simp only [Kind.fields, Field.given, List.map_cons, List.map_nil, List.cons.injEq,
    and_true] at given
  obtain ⟨isRoot, isJobs⟩ := given
  intro ⟨name, value⟩ member draft before
  have found := (lookup_eq_some_iff_mem keyed.distinct).2 member
  have held := keyed.each _ member
  have inside := known name (List.mem_map_of_mem member)
  simp only [Kind.names, Kind.fields, List.map_cons, List.map_nil, List.mem_cons,
    List.not_mem_nil, or_false] at inside
  rcases inside with rfl | rfl
  · rw [found, Option.some_or, Option.some.injEq] at isRoot
    subst isRoot
    exact ⟨_, _, rfl⟩
  · rw [found, Option.some_or, Option.some.injEq] at isJobs
    subst isJobs
    exact ⟨_, _, ends_bind.2 ⟨items, before, rfl, ends_bind.2 ⟨jobs, _,
      (ends_each_job held.item).2 ⟨repeats, mean, rfl⟩, rfl⟩⟩⟩

/-- A configuration is read exactly from what means it, and what its tables repeat is noted. -/
theorem ends_configuration_iff {fields : List (String × Value)}
    (keyed : (Value.table fields).Keyed) {given : Configuration} {before after : List Repeat} :
    Ends (configuration fields) before given after ↔
      ∃ repeats, MeansConfiguration (.table fields) given repeats ∧
        after = before ++ repeats := by
  have start : ConfigurationDraft.Drawn ⟨none, none⟩ (fun _ => none) [] :=
    ⟨⟨none, rfl, rfl⟩, .inl ⟨rfl, rfl, rfl⟩⟩
  rw [Shape.configuration, ends_bind]
  constructor
  · intro ⟨draft, middle, read, made⟩
    obtain ⟨known, more, rfl, drawn⟩ := byName_draws ConfigurationDraft.draws keyed.distinct
      keyed.each (fun _ _ => rfl) start read
    obtain ⟨rfl, rfl⟩ := ends_pure.1 made
    obtain ⟨root, items, fill, isRoot, mean⟩ := drawn.gives
    exact ⟨more, ⟨fields, root, items, ⟨rfl, keyed.distinct, fun _ => known, fill⟩, isRoot, mean⟩,
      rfl⟩
  · intro ⟨repeats, ⟨_, root, items, spells, isRoot, mean⟩, added⟩
    cases spells.form
    obtain ⟨draft, middle, read⟩ := byName_ends
      (ConfigurationDraft.ends_fields keyed (spells.known rfl) spells.given mean) ⟨none, none⟩
      before
    obtain ⟨_, more, rfl, drawn⟩ := byName_draws ConfigurationDraft.draws keyed.distinct
      keyed.each (fun _ _ => rfl) start read
    obtain ⟨text, others, fill, isText, means⟩ := drawn.gives
    rw [spells.given] at fill
    simp only [List.map_cons, List.map_nil, List.cons.injEq, Option.some.injEq,
      Value.string.injEq, Value.array.injEq, and_true] at fill
    obtain ⟨rfl, rfl⟩ := fill
    obtain ⟨sameJobs, rfl⟩ := means.unique mean
    subst added
    obtain ⟨base, jobs⟩ := given
    refine ⟨draft, _, read, ends_pure.2 ⟨?_, rfl⟩⟩
    rw [isText, sameJobs, ← isRoot]

end Shape
end Retarget
