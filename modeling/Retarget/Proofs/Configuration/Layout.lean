import Mathlib.Data.List.Forall2
import Mathlib.Data.List.Nodup
import Retarget.Configuration.Document

/-!
What the structures of a configuration are written as. A structure has its fields in an order and,
for those that may be left out, the values they then have. It is a table by its keys, in any order,
or the array of its fields. Either way it spells a value for each field, and these values alone say
what is meant.
-/
namespace Retarget

open Toml (Value)

/-! ## Keys -/

section Lookup

variable {β : Type} {fields others : List (String × β)} {name : String} {value : β}

theorem lookup_eq_none_iff_not_mem : fields.lookup name = none ↔ name ∉ fields.map Prod.fst := by
  rw [List.lookup_eq_none_iff, List.mem_map]
  constructor
  · intro apart ⟨field, member, same⟩
    exact bne_iff_ne.1 (apart field member) same.symm
  · intro missing field member
    exact bne_iff_ne.2 fun same => missing ⟨field, member, same.symm⟩

theorem lookup_eq_some_iff_mem (distinct : (fields.map Prod.fst).Nodup) :
    fields.lookup name = some value ↔ (name, value) ∈ fields := by
  induction fields with
  | nil => simp
  | cons field rest ih =>
    obtain ⟨key, held⟩ := field
    rw [List.map_cons, List.nodup_cons] at distinct
    rw [List.lookup_cons, List.mem_cons, ← ih distinct.2]
    cases same : name == key with
    | true =>
      have here : name = key := eq_of_beq same
      have missing : rest.lookup key = none := lookup_eq_none_iff_not_mem.2 distinct.1
      simp [here, eq_comm, missing]
    | false =>
      have apart : name ≠ key := ne_of_beq_false same
      simp [apart]

/-- With each key once, the order of the fields makes no difference to what is found. -/
theorem lookup_perm (distinct : (fields.map Prod.fst).Nodup) (same : fields.Perm others)
    (name : String) : fields.lookup name = others.lookup name := by
  have otherDistinct : (others.map Prod.fst).Nodup := (same.map Prod.fst).nodup_iff.1 distinct
  apply Option.ext
  intro value
  rw [lookup_eq_some_iff_mem distinct, lookup_eq_some_iff_mem otherDistinct, same.mem_iff]

end Lookup

/-! ## Structures -/

/-- A field of a structure, with its value where it is left out. -/
structure Field where
  name : String
  standard : Option Value

/-- The structures of a configuration. -/
inductive Kind where
  | replacement
  | job
  | configuration
deriving DecidableEq

namespace Kind

/-- The fields in the order in which they are declared. -/
def fields : Kind → List Field
  | replacement => [⟨"from", none⟩, ⟨"to", none⟩]
  | job => [⟨"name", none⟩, ⟨"base", none⟩, ⟨"source", some (.string Job.standardSource)⟩,
      ⟨"target", some (.string Job.standardTarget)⟩,
      ⟨"source_prefix", some (.string Naming.standard.source)⟩,
      ⟨"target_prefix", some (.string Naming.standard.target)⟩, ⟨"replace", some (.array [])⟩]
  | configuration => [⟨"root", some (.string "src")⟩, ⟨"job", some (.array [])⟩]

def names (kind : Kind) : List String := kind.fields.map Field.name

/-- Whether keys that are not known are passed over. -/
def lenient (kind : Kind) : Bool := kind = replacement

/-- Whether the array of the fields stands for the structure. -/
def listable (kind : Kind) : Bool := kind ≠ configuration

/-- The field that holds other structures, and which. -/
def inner? : Kind → Option (String × Kind)
  | replacement => none
  | job => some ("replace", replacement)
  | configuration => some ("job", job)

theorem nodup_names (kind : Kind) : kind.names.Nodup := by
  cases kind <;> decide

/-- The fields of a structure by their keys. -/
def keyed? (kind : Kind) : Value → Option (List (String × Value))
  | .table fields => some fields
  | .array items => if kind.listable then some (kind.names.zip items) else none
  | _ => none

end Kind

/-- The value of a field, given or standing for one that is left out. -/
def Field.given (field : Field) (fields : List (String × Value)) : Option Value :=
  (fields.lookup field.name).or field.standard

/-- A value as the fields of a structure, each key once, with a value for each field in the order
of declaration. -/
structure Spells (kind : Kind) (value : Value) (fields : List (String × Value))
    (given : List Value) : Prop where
  form : kind.keyed? value = some fields
  distinct : (fields.map Prod.fst).Nodup
  known : kind.lenient = false → ∀ key ∈ fields.map Prod.fst, key ∈ kind.names
  given : kind.fields.map (fun field => field.given fields) = given.map some

theorem Spells.unique {kind : Kind} {value : Value} {fields others : List (String × Value)}
    {given also : List Value} (spells : Spells kind value fields given)
    (again : Spells kind value others also) : fields = others ∧ given = also := by
  have same : fields = others := Option.some.inj (spells.form.symm.trans again.form)
  refine ⟨same, List.map_injective_iff.2 (fun _ _ => Option.some.inj) ?_⟩
  rw [← spells.given, ← again.given, same]

/-! ## What is meant -/

/-- A value that means a replacement. -/
def MeansEntry (value : Value) (entry : Substitution) : Prop :=
  ∃ fields, Spells .replacement value fields [.string entry.pattern, .string entry.replacement]

/-- A value that means a table, with the patterns it repeats. -/
def MeansTable (value : Value) (table : Table) (repeats : List Repeat) : Prop :=
  ∃ items entries, value = .array items ∧ List.Forall₂ MeansEntry items entries ∧
    Table.ofList entries = (table, repeats)

/-- A value that means a job, with the patterns that its table repeats. -/
def MeansJob (value : Value) (job : Job) (repeats : List Repeat) : Prop :=
  ∃ fields base replace, Spells .job value fields [.string job.name, .string base,
      .string job.source, .string job.target, .string job.naming.source,
      .string job.naming.target, replace] ∧
    job.base = Path.ofText base ∧ MeansTable replace job.table repeats

/-- Values that mean jobs, one after another. -/
inductive MeanJobs : List Value → List Job → List Repeat → Prop where
  | nil : MeanJobs [] [] []
  | cons {item : Value} {job : Job} {repeats more : List Repeat} {items : List Value}
      {jobs : List Job} (first : MeansJob item job repeats) (others : MeanJobs items jobs more) :
      MeanJobs (item :: items) (job :: jobs) (repeats ++ more)

/-- A value that means a configuration, with the patterns that its tables repeat. -/
def MeansConfiguration (value : Value) (configuration : Configuration) (repeats : List Repeat) :
    Prop :=
  ∃ fields root items, Spells .configuration value fields [.string root, .array items] ∧
    configuration.root = Path.ofText root ∧ MeanJobs items configuration.jobs repeats

theorem MeansEntry.unique {value : Value} {entry other : Substitution}
    (means : MeansEntry value entry) (also : MeansEntry value other) : entry = other := by
  obtain ⟨fields, spells⟩ := means
  obtain ⟨others, again⟩ := also
  have given := (spells.unique again).2
  simp only [List.cons.injEq, Value.string.injEq] at given
  obtain ⟨pattern, replacement⟩ := entry
  simp_all

theorem MeansTable.unique {value : Value} {table other : Table} {repeats more : List Repeat}
    (means : MeansTable value table repeats) (also : MeansTable value other more) :
    table = other ∧ repeats = more := by
  obtain ⟨items, entries, rfl, each, made⟩ := means
  obtain ⟨others, further, same, eachToo, madeToo⟩ := also
  cases same
  have single : Relator.RightUnique MeansEntry := fun _ _ _ => MeansEntry.unique
  have alike : entries = further := List.right_unique_forall₂' single each eachToo
  rw [alike, madeToo] at made
  exact Prod.mk.inj made.symm

theorem MeansJob.unique {value : Value} {job other : Job} {repeats more : List Repeat}
    (means : MeansJob value job repeats) (also : MeansJob value other more) :
    job = other ∧ repeats = more := by
  obtain ⟨fields, base, replace, spells, based, table⟩ := means
  obtain ⟨others, root, further, again, rooted, same⟩ := also
  have given := (spells.unique again).2
  simp only [List.cons.injEq, Value.string.injEq, and_true] at given
  obtain ⟨name, rfl, source, target, sourceMark, targetMark, rfl⟩ := given
  obtain ⟨sameTable, rfl⟩ := table.unique same
  obtain ⟨_, _, _, _, ⟨_, _⟩, _⟩ := job
  obtain ⟨_, _, _, _, ⟨_, _⟩, _⟩ := other
  simp_all

theorem MeanJobs.unique {items : List Value} {jobs others : List Job} {repeats more : List Repeat}
    (mean : MeanJobs items jobs repeats) (also : MeanJobs items others more) :
    jobs = others ∧ repeats = more := by
  induction mean generalizing others more with
  | nil =>
    cases also
    exact ⟨rfl, rfl⟩
  | cons first _ ih =>
    cases also with
    | cons firstToo othersToo =>
      obtain ⟨rfl, rfl⟩ := first.unique firstToo
      obtain ⟨rfl, rfl⟩ := ih othersToo
      exact ⟨rfl, rfl⟩

end Retarget
