import Mathlib.Logic.Relation
import Retarget.Proofs.Configuration.Decoding

/-!
The forms in which one configuration is written. The fields of a structure stand in any order, are
given with their standard values or left out, in a table or in an array: what is read is the same.
A key that is not known is refused, but for a replacement, which passes it over.
-/
namespace Retarget

open Toml (Value)

/-! ## Changes of form -/

/-- One change to how a structure is written. New fields are put in front, from where they can be
moved. An array of fields is changed by way of the table that it stands for. -/
inductive Restates : Kind → Value → Value → Prop where
  | permuted {kind : Kind} {fields others : List (String × Value)} (same : fields.Perm others) :
      Restates kind (.table fields) (.table others)
  | supplied {kind : Kind} {fields : List (String × Value)} {field : Field} {standard : Value}
      (known : field ∈ kind.fields) (optional : field.standard = some standard)
      (absent : field.name ∉ fields.map Prod.fst) :
      Restates kind (.table fields) (.table ((field.name, standard) :: fields))
  | omitted {kind : Kind} {fields : List (String × Value)} {field : Field} {standard : Value}
      (known : field ∈ kind.fields) (optional : field.standard = some standard) :
      Restates kind (.table ((field.name, standard) :: fields)) (.table fields)
  | extended {kind : Kind} {fields : List (String × Value)} {key : String} {value : Value}
      (lenient : kind.lenient = true) (unknown : key ∉ kind.names)
      (absent : key ∉ fields.map Prod.fst) (keyed : value.Keyed) :
      Restates kind (.table fields) (.table ((key, value) :: fields))
  /-- The array has the values of the first fields, and those of the others are standard. -/
  | listed {kind : Kind} {fields : List (String × Value)} {items : List Value}
      (listable : kind.listable = true)
      (given : (kind.fields.take items.length).map (fun field => field.given fields) =
        items.map some)
      (standard : ∀ field ∈ kind.fields.drop items.length, field.given fields = field.standard) :
      Restates kind (.table fields) (.array items)
  | unlisted {kind : Kind} {items : List Value} (listable : kind.listable = true) :
      Restates kind (.array items) (.table (kind.names.zip items))
  /-- One of the structures that a structure holds is changed. -/
  | within {kind inner : Kind} {name : String} {front back : List (String × Value)}
      {before after : List Value} {item other : Value} (holds : kind.inner? = some (name, inner))
      (change : Restates inner item other) :
      Restates kind (.table (front ++ (name, .array (before ++ item :: after)) :: back))
        (.table (front ++ (name, .array (before ++ other :: after)) :: back))

/-- Adds to a structure, or to one inside, a key that is not known and is not passed over. -/
inductive Spoils : Kind → Value → Value → ShapeError → Prop where
  | unknown {kind : Kind} {front back : List (String × Value)} {key : String} {value : Value}
      (strict : kind.lenient = false) (unknown : key ∉ kind.names) :
      Spoils kind (.table (front ++ back)) (.table (front ++ (key, value) :: back))
        (.unknownField key kind.names)
  | within {kind inner : Kind} {name : String} {front back : List (String × Value)}
      {before after : List Value} {item other : Value} {error : ShapeError}
      (holds : kind.inner? = some (name, inner)) (change : Spoils inner item other error) :
      Spoils kind (.table (front ++ (name, .array (before ++ item :: after)) :: back))
        (.table (front ++ (name, .array (before ++ other :: after)) :: back)) error

section Forms

variable {kind inner : Kind} {value other : Value} {fields others : List (String × Value)}
  {given items : List Value} {name key : String}

/-! ## Keys -/

theorem Kind.keyed_standard {field : Field} (known : field ∈ kind.fields)
    (optional : field.standard = some value) : value.Keyed := by
  have empty : (Value.array []).Keyed := .array (List.forall_mem_nil _)
  have all : ∀ field ∈ kind.fields, ∀ value, field.standard = some value → value.Keyed := by
    cases kind <;> simp [Kind.fields, Value.Keyed.string, empty]
  exact all field known value optional

/-- A field that is given has a keyed value, and so has one that is left out. -/
theorem Field.keyed_given {field : Field} (keyed : (Value.table fields).Keyed)
    (known : field ∈ kind.fields) (given : field.given fields = some value) : value.Keyed := by
  rcases Option.or_eq_some_iff.1 given with found | ⟨_, optional⟩
  · exact keyed.each _ ((lookup_eq_some_iff_mem keyed.distinct).1 found)
  · exact Kind.keyed_standard known optional

theorem Restates.keyed (restates : Restates kind value other) (keyed : value.Keyed) :
    other.Keyed := by
  induction restates with
  | permuted same =>
    exact .table ((same.map Prod.fst).nodup_iff.1 keyed.distinct) fun field member =>
      keyed.each field (same.mem_iff.2 member)
  | supplied known optional absent =>
    exact keyed.cons absent (Kind.keyed_standard known optional)
  | omitted =>
    exact .table (List.nodup_cons.1 keyed.distinct).2 (List.forall_mem_cons.1 keyed.each).2
  | extended _ _ absent held => exact keyed.cons absent held
  | @listed kind fields items listable given standard =>
    constructor
    intro item member
    have shown : some item ∈ (kind.fields.take items.length).map fun field =>
        field.given fields := given ▸ List.mem_map_of_mem member
    obtain ⟨field, known, same⟩ := List.mem_map.1 shown
    exact Field.keyed_given keyed (List.mem_of_mem_take known) same
  | unlisted listable => exact Kind.keyed_of_keyed? keyed (if_pos listable)
  | @within kind inner name front back before after item other holds change ih =>
    have distinct := keyed.distinct
    have each := keyed.each
    rw [List.map_append, List.map_cons] at distinct
    rw [List.forall_mem_append, List.forall_mem_cons] at each
    have items := each.2.1.item
    rw [List.forall_mem_append, List.forall_mem_cons] at items
    constructor
    · rwa [List.map_append, List.map_cons]
    · rw [List.forall_mem_append, List.forall_mem_cons]
      refine ⟨each.1, .array ?_, each.2.2⟩
      rw [List.forall_mem_append, List.forall_mem_cons]
      exact ⟨items.1, ih items.2.1, items.2.2⟩

/-! ## Values of fields -/

theorem Spells.permuted (spells : Spells kind (.table fields) fields given)
    (same : fields.Perm others) : Spells kind (.table others) others given where
  form := rfl
  distinct := (same.map Prod.fst).nodup_iff.1 spells.distinct
  known strict key member := spells.known strict key ((same.map Prod.fst).mem_iff.2 member)
  given := by
    rw [← spells.given]
    apply List.map_congr_left
    intro field _
    rw [Field.given, Field.given, lookup_perm spells.distinct same]

theorem Field.given_cons_of_ne {field : Field} (apart : field.name ≠ key) :
    field.given ((key, value) :: fields) = field.given fields := by
  rw [Field.given, Field.given, List.lookup_cons, beq_eq_false_iff_ne.2 apart]

/-- Where a field is left out, it makes no difference to give it with its standard value. -/
theorem Kind.given_cons_standard {field : Field} {standard : Value} (known : field ∈ kind.fields)
    (optional : field.standard = some standard) (absent : field.name ∉ fields.map Prod.fst) :
    kind.fields.map (fun asked => asked.given ((field.name, standard) :: fields)) =
      kind.fields.map fun asked => asked.given fields := by
  apply List.map_congr_left
  intro asked member
  by_cases same : asked.name = field.name
  · have here : asked = field := List.inj_on_of_nodup_map kind.nodup_names member known same
    have missing : fields.lookup field.name = none := lookup_eq_none_iff_not_mem.2 absent
    rw [here, Field.given, Field.given, List.lookup_cons_self, missing, optional, Option.some_or,
      Option.none_or]
  · exact Field.given_cons_of_ne same

theorem Spells.supplied {field : Field} {standard : Value}
    (spells : Spells kind (.table fields) fields given) (known : field ∈ kind.fields)
    (optional : field.standard = some standard) (absent : field.name ∉ fields.map Prod.fst) :
    Spells kind (.table ((field.name, standard) :: fields)) ((field.name, standard) :: fields)
      given where
  form := rfl
  distinct := List.nodup_cons.2 ⟨absent, spells.distinct⟩
  known strict := List.forall_mem_cons.2 ⟨List.mem_map_of_mem known, spells.known strict⟩
  given := (Kind.given_cons_standard known optional absent).trans spells.given

theorem Spells.omitted {field : Field} {standard : Value}
    (spells : Spells kind (.table ((field.name, standard) :: fields))
      ((field.name, standard) :: fields) given) (known : field ∈ kind.fields)
    (optional : field.standard = some standard) : Spells kind (.table fields) fields given where
  form := rfl
  distinct := (List.nodup_cons.1 spells.distinct).2
  known strict := (List.forall_mem_cons.1 (spells.known strict)).2
  given :=
    (Kind.given_cons_standard known optional (List.nodup_cons.1 spells.distinct).1).symm.trans
      spells.given

theorem Spells.extended (spells : Spells kind (.table fields) fields given)
    (lenient : kind.lenient = true) (unknown : key ∉ kind.names)
    (absent : key ∉ fields.map Prod.fst) :
    Spells kind (.table ((key, value) :: fields)) ((key, value) :: fields) given where
  form := rfl
  distinct := List.nodup_cons.2 ⟨absent, spells.distinct⟩
  known strict := by
    rw [lenient] at strict
    cases strict
  given := by
    rw [← spells.given]
    apply List.map_congr_left
    intro field member
    apply Field.given_cons_of_ne
    intro same
    exact unknown (same ▸ List.mem_map_of_mem member)

/-- An array gives the first fields their values, and leaves the others standard. -/
theorem given_zip {declared : List Field} (distinct : (declared.map Field.name).Nodup)
    (fits : items.length ≤ declared.length) :
    declared.map (fun field => field.given ((declared.map Field.name).zip items)) =
      items.map some ++ (declared.drop items.length).map Field.standard := by
  induction declared generalizing items with
  | nil =>
    have empty : items = [] := List.length_eq_zero_iff.1 (Nat.le_zero.1 fits)
    rw [empty]
    rfl
  | cons first rest ih =>
    cases items with
    | nil => rfl
    | cons item items =>
      rw [List.map_cons, List.nodup_cons] at distinct
      have others : rest.map (fun field =>
          field.given ((first.name, item) :: (rest.map Field.name).zip items)) =
          rest.map fun field => field.given ((rest.map Field.name).zip items) := by
        apply List.map_congr_left
        intro field member
        apply Field.given_cons_of_ne
        intro same
        exact distinct.1 (same ▸ List.mem_map_of_mem member)
      rw [List.map_cons, List.map_cons, List.zip_cons_cons, others,
        ih distinct.2 (Nat.le_of_succ_le_succ fits), Field.given, List.lookup_cons_self]
      rfl

theorem Spells.listed (spells : Spells kind (.table fields) fields given)
    (listable : kind.listable = true)
    (first : (kind.fields.take items.length).map (fun field => field.given fields) =
      items.map some)
    (standard : ∀ field ∈ kind.fields.drop items.length, field.given fields = field.standard) :
    Spells kind (.array items) (kind.names.zip items) given where
  form := if_pos listable
  distinct := by
    rw [map_fst_zip_eq_take]
    exact kind.nodup_names.sublist (List.take_sublist _ _)
  known strict key member := by
    rw [map_fst_zip_eq_take] at member
    exact List.mem_of_mem_take member
  given := by
    have fits : items.length ≤ kind.fields.length := by
      have same := congrArg List.length first
      rw [List.length_map, List.length_map, List.length_take] at same
      exact same ▸ Nat.min_le_right _ _
    rw [Kind.names, given_zip kind.nodup_names fits, ← first, ← List.map_congr_left standard,
      ← List.map_append, List.take_append_drop, spells.given]

theorem Spells.unlisted (spells : Spells kind (.array items) fields given) :
    Spells kind (.table fields) fields given :=
  ⟨rfl, spells.distinct, spells.known, spells.given⟩

/-- The field that holds other structures is declared last. -/
theorem Kind.inner_last (holds : kind.inner? = some (name, inner)) :
    ∃ others standard, kind.fields = others ++ [⟨name, standard⟩] := by
  cases kind with
  | replacement => cases holds
  | job =>
    cases holds
    exact ⟨Kind.job.fields.take 6, _, rfl⟩
  | configuration =>
    cases holds
    exact ⟨Kind.configuration.fields.take 1, _, rfl⟩

theorem lookup_changed {front back : List (String × Value)} (apart : key ≠ name) :
    (front ++ (name, value) :: back).lookup key =
      (front ++ (name, other) :: back).lookup key := by
  rw [List.lookup_append, List.lookup_append, List.lookup_cons, List.lookup_cons,
    beq_eq_false_iff_ne.2 apart]

/-- The value of the field that holds other structures can be changed alone. -/
theorem Spells.changed {front back : List (String × Value)}
    (spells : Spells kind (.table (front ++ (name, value) :: back)) fields given)
    (holds : kind.inner? = some (name, inner)) :
    given.getLast? = some value ∧ ∀ other,
      Spells kind (.table (front ++ (name, other) :: back)) (front ++ (name, other) :: back)
        (given.dropLast ++ [other]) := by
  obtain ⟨declared, standard, last⟩ := Kind.inner_last holds
  have form := spells.form
  cases form
  have held (value : Value)
      (distinct : ((front ++ (name, value) :: back).map Prod.fst).Nodup) :
      Field.given ⟨name, standard⟩ (front ++ (name, value) :: back) = some value := by
    have found := (lookup_eq_some_iff_mem distinct).2 (List.mem_append_right _ List.mem_cons_self)
    rw [Field.given, found, Option.some_or]
  have distinct (other : Value) : ((front ++ (name, other) :: back).map Prod.fst).Nodup := by
    have same := spells.distinct
    rwa [List.map_append, List.map_cons] at same ⊢
  have alike (other : Value) :
      declared.map (fun field => field.given (front ++ (name, other) :: back)) =
        declared.map fun field => field.given (front ++ (name, value) :: back) := by
    have names := kind.nodup_names
    rw [Kind.names, last, List.map_append, List.nodup_append] at names
    apply List.map_congr_left
    intro field member
    have apart : field.name ≠ name :=
      names.2.2 _ (List.mem_map_of_mem member) _ (List.mem_singleton_self _)
    rw [Field.given, Field.given, lookup_changed apart]
  have whole := spells.given
  rw [last, List.map_append, List.map_singleton, held value spells.distinct, eq_comm,
    List.map_eq_append_iff] at whole
  obtain ⟨others, one, rfl, first, only⟩ := whole
  rw [← List.map_singleton, List.map_inj_right (fun _ _ => Option.some.inj)] at only
  subst only
  rw [List.getLast?_concat, List.dropLast_concat]
  refine ⟨rfl, fun other => ⟨rfl, distinct other, fun strict => ?_, ?_⟩⟩
  · have known := spells.known strict
    rwa [List.map_append, List.map_cons] at known ⊢
  · rw [last, List.map_append, List.map_singleton, held other (distinct other), alike, ← first,
      List.map_append, List.map_singleton]

/-! ## What is meant -/

/-- Whatever the one value means, the other means as well. -/
def Kind.Keeps : Kind → Value → Value → Prop
  | replacement, value, other => ∀ entry, MeansEntry value entry → MeansEntry other entry
  | job, value, other => ∀ job repeats, MeansJob value job repeats → MeansJob other job repeats
  | configuration, value, other => ∀ configuration repeats,
      MeansConfiguration value configuration repeats →
        MeansConfiguration other configuration repeats

theorem Kind.keeps_of_spells (spelled : ∀ fields given, Spells kind value fields given →
    ∃ others, Spells kind other others given) : kind.Keeps value other := by
  cases kind with
  | replacement =>
    intro entry ⟨fields, spells⟩
    exact spelled _ _ spells
  | job =>
    intro job repeats ⟨fields, base, replace, spells, means⟩
    obtain ⟨others, spells⟩ := spelled _ _ spells
    exact ⟨others, base, replace, spells, means⟩
  | configuration =>
    intro configuration repeats ⟨fields, root, items, spells, means⟩
    obtain ⟨others, spells⟩ := spelled _ _ spells
    exact ⟨others, root, items, spells, means⟩

theorem MeansTable.changed {before after : List Value} {item : Value} {table : Table}
    {repeats : List Repeat}
    (means : MeansTable (.array (before ++ item :: after)) table repeats)
    (keeps : Kind.replacement.Keeps item other) :
    MeansTable (.array (before ++ other :: after)) table repeats := by
  obtain ⟨_, entries, same, all, made⟩ := means
  cases same
  refine ⟨_, entries, rfl, ?_, made⟩
  clear made
  induction before generalizing entries with
  | nil =>
    cases all with
    | cons one rest => exact .cons (keeps _ one) rest
  | cons first before ih =>
    cases all with
    | cons one rest => exact .cons one (ih _ rest)

theorem MeanJobs.changed {before after : List Value} {item : Value} {jobs : List Job}
    {repeats : List Repeat} (mean : MeanJobs (before ++ item :: after) jobs repeats)
    (keeps : Kind.job.Keeps item other) : MeanJobs (before ++ other :: after) jobs repeats := by
  induction before generalizing jobs repeats with
  | nil =>
    cases mean with
    | cons one rest => exact .cons (keeps _ _ one) rest
  | cons first before ih =>
    cases mean with
    | cons one rest => exact .cons one (ih rest)

theorem Kind.keeps_within {front back : List (String × Value)} {before after : List Value}
    {item : Value} (holds : kind.inner? = some (name, inner)) (keeps : inner.Keeps item other) :
    kind.Keeps (.table (front ++ (name, .array (before ++ item :: after)) :: back))
      (.table (front ++ (name, .array (before ++ other :: after)) :: back)) := by
  cases kind with
  | replacement => cases holds
  | job =>
    intro job repeats ⟨fields, base, replace, spells, based, means⟩
    obtain ⟨last, changed⟩ := spells.changed holds
    cases last
    cases holds
    exact ⟨_, base, _, changed _, based, means.changed keeps⟩
  | configuration =>
    intro configuration repeats ⟨fields, root, items, spells, rooted, mean⟩
    obtain ⟨last, changed⟩ := spells.changed holds
    cases last
    cases holds
    exact ⟨_, root, _, changed _, rooted, mean.changed keeps⟩

/-- A table is looked at by its fields alone. -/
theorem Kind.keeps_of_table (spelled : ∀ given, Spells kind (.table fields) fields given →
    ∃ others, Spells kind other others given) : kind.Keeps (.table fields) other := by
  apply Kind.keeps_of_spells
  intro _ given spells
  cases spells.form
  exact spelled given spells

/-- A change of form keeps what is meant. -/
theorem Restates.keeps (restates : Restates kind value other) : kind.Keeps value other := by
  induction restates with
  | permuted same => exact Kind.keeps_of_table fun _ spells => ⟨_, spells.permuted same⟩
  | supplied known optional absent =>
    exact Kind.keeps_of_table fun _ spells => ⟨_, spells.supplied known optional absent⟩
  | omitted known optional =>
    exact Kind.keeps_of_table fun _ spells => ⟨_, spells.omitted known optional⟩
  | extended lenient unknown absent _ =>
    exact Kind.keeps_of_table fun _ spells => ⟨_, spells.extended lenient unknown absent⟩
  | listed listable first standard =>
    exact Kind.keeps_of_table fun _ spells => ⟨_, spells.listed listable first standard⟩
  | unlisted listable =>
    apply Kind.keeps_of_spells
    intro fields given spells
    cases (if_pos listable).symm.trans spells.form
    exact ⟨_, spells.unlisted⟩
  | within holds _ ih => exact Kind.keeps_within holds ih

/-! ## Changes of form one after another -/

/-- The table that an array stands for is written as any array that gives the fields the same
values. -/
theorem restates_zip {others : List Value} (listable : kind.listable = true)
    (fits : items.length ≤ kind.fields.length)
    (same : items.map some ++ (kind.fields.drop items.length).map Field.standard =
      others.map some ++ (kind.fields.drop others.length).map Field.standard) :
    Restates kind (.table (kind.names.zip items)) (.array others) := by
  have given : kind.fields.map (fun field => field.given (kind.names.zip items)) =
      others.map some ++ (kind.fields.drop others.length).map Field.standard :=
    (given_zip kind.nodup_names fits).trans same
  have length : (others.map some).length = others.length := List.length_map _
  apply Restates.listed listable
  · rw [List.map_take, given, List.take_left' length]
  · apply List.map_inj_left.1
    rw [List.map_drop, given, List.drop_left' length]

/-- Arrays that give all fields the same values, whichever they leave out at the end, can be put for
each other. -/
theorem restates_array {others : List Value} (listable : kind.listable = true)
    (fits : items.length ≤ kind.fields.length)
    (same : items.map some ++ (kind.fields.drop items.length).map Field.standard =
      others.map some ++ (kind.fields.drop others.length).map Field.standard) :
    Relation.ReflTransGen (Restates kind) (.array items) (.array others) :=
  .tail (.single (.unlisted listable)) (restates_zip listable fits same)

/-- The structures that a structure holds can be changed any number of times. -/
theorem restates_within {front back : List (String × Value)} {before after : List Value}
    {item : Value} (holds : kind.inner? = some (name, inner))
    (restated : Relation.ReflTransGen (Restates inner) item other) :
    Relation.ReflTransGen (Restates kind)
      (.table (front ++ (name, .array (before ++ item :: after)) :: back))
      (.table (front ++ (name, .array (before ++ other :: after)) :: back)) := by
  induction restated with
  | refl => exact .refl
  | tail _ last ih => exact ih.tail (.within holds last)

/-- They can be changed as well where the structure is the array of its fields. -/
theorem restates_within_array {before after : List Value} {item : Value}
    (holds : kind.inner? = some (name, inner)) (listable : kind.listable = true)
    (whole : items.length + 1 = kind.fields.length)
    (restated : Relation.ReflTransGen (Restates inner) item other) :
    Relation.ReflTransGen (Restates kind) (.array (items ++ [.array (before ++ item :: after)]))
      (.array (items ++ [.array (before ++ other :: after)])) := by
  obtain ⟨declared, standard, last⟩ := Kind.inner_last holds
  have names : kind.names = declared.map Field.name ++ [name] := by
    rw [Kind.names, last, List.map_append, List.map_singleton]
  have alike : (declared.map Field.name).length = items.length := by
    rw [last, List.length_append, List.length_singleton] at whole
    rw [List.length_map, Nat.add_right_cancel whole]
  have zipped (value : Value) : kind.names.zip (items ++ [value]) =
      (declared.map Field.name).zip items ++ [(name, value)] := by
    rw [names, List.zip_append alike, List.zip_cons_cons, List.zip_nil_left]
  have first : Restates kind (.array (items ++ [.array (before ++ item :: after)])) _ :=
    .unlisted listable
  have fits (value : Value) : (items ++ [value]).length ≤ kind.fields.length := by
    rw [List.length_append, List.length_singleton]
    exact Nat.le_of_eq whole
  have final : Restates kind _ (.array (items ++ [.array (before ++ other :: after)])) :=
    restates_zip listable (fits _) rfl
  rw [zipped] at first final
  exact (Relation.ReflTransGen.single first).trans ((restates_within holds restated).tail final)

end Forms

/-- Any number of changes of form to a configuration keep its keys apart and what it means. -/
theorem restated_means {value other : Value}
    (restated : Relation.ReflTransGen (Restates .configuration) value other) (keyed : value.Keyed) :
    other.Keyed ∧ ∀ configuration repeats, MeansConfiguration value configuration repeats →
      MeansConfiguration other configuration repeats := by
  induction restated with
  | refl => exact ⟨keyed, fun _ _ means => means⟩
  | tail _ last ih =>
    exact ⟨last.keyed ih.1, fun _ _ means => last.keeps _ _ (ih.2 _ _ means)⟩

namespace Shape

/-! ## Readings that fail -/

/-- From some repeats a reading fails with an error. -/
def Fails {α : Type} (act : Shaped α) (before : List Repeat) (error : ShapeError) : Prop :=
  (act.run.run before).1 = .error error

section Rules

variable {α β δ : Type} {before after middle : List Repeat} {error : ShapeError}

theorem Fails.bind {act : Shaped β} {next : β → Shaped α} (fails : Fails act before error) :
    Fails (act >>= next) before error := by
  unfold Fails at fails ⊢
  rw [run_bind]
  split
  · rename_i ended
    rw [ended] at fails
    cases fails
  · rename_i ended
    rw [ended] at fails
    cases fails
    rfl

theorem Ends.bind_fails {act : Shaped β} {next : β → Shaped α} {result : β}
    (ended : Ends act before result middle) (fails : Fails (next result) middle error) :
    Fails (act >>= next) before error := by
  unfold Ends at ended
  unfold Fails at fails ⊢
  rw [run_bind, ended]
  exact fails

/-- Where the fields in front are taken in, what is behind decides. -/
theorem byName_fails {set : String → Value → δ → Shaped δ}
    {front back others : List (String × Value)} {draft result : δ}
    (ended : Ends (byName set (front ++ back) draft) before result after)
    (behind : ∀ draft middle, Ends (byName set back draft) middle result after →
      Fails (byName set others draft) middle error) :
    Fails (byName set (front ++ others) draft) before error := by
  rw [byName_append] at ended ⊢
  obtain ⟨one, middle, first, onward⟩ := ends_bind.1 ended
  exact first.bind_fails (behind one middle onward)

theorem each_fails {read : Value → Shaped α} {front back : List Value} {item other : Value}
    {values : List α} (ended : Ends (each read (front ++ item :: back)) before values after)
    (there : ∀ middle value last, Ends (read item) middle value last →
      Fails (read other) middle error) :
    Fails (each read (front ++ other :: back)) before error := by
  induction front generalizing before values after with
  | nil =>
    obtain ⟨value, last, one, _⟩ := ends_bind.1 ended
    exact (there before value last one).bind
  | cons first front ih =>
    rw [List.cons_append, each] at ended
    obtain ⟨value, middle, one, onward⟩ := ends_bind.1 ended
    obtain ⟨rest, last, others, _⟩ := ends_bind.1 onward
    exact one.bind_fails (ih others).bind

end Rules

/-! ## Keys that are not known -/

section Unknown

variable {value other : Value} {before after : List Repeat} {error : ShapeError} {key : String}

theorem JobDraft.set_unknown (unknown : key ∉ Kind.job.names) (draft : JobDraft) :
    JobDraft.set key value draft = throw (.unknownField key Kind.job.names) := by
  simp only [Kind.names, Kind.fields, List.map_cons, List.map_nil, List.mem_cons,
    List.not_mem_nil, or_false, not_or] at unknown
  obtain ⟨name, base, source, target, sourceMark, targetMark, table⟩ := unknown
  rw [JobDraft.set, if_neg name, if_neg base, if_neg source, if_neg target, if_neg sourceMark,
    if_neg targetMark, if_neg table]
  rfl

theorem ConfigurationDraft.set_unknown (unknown : key ∉ Kind.configuration.names)
    (draft : ConfigurationDraft) :
    ConfigurationDraft.set key value draft =
      throw (.unknownField key Kind.configuration.names) := by
  simp only [Kind.names, Kind.fields, List.map_cons, List.map_nil, List.mem_cons,
    List.not_mem_nil, or_false, not_or] at unknown
  rw [ConfigurationDraft.set, if_neg unknown.1, if_neg unknown.2]
  rfl

theorem job_spoiled {job : Job} (spoils : Spoils .job value other error)
    (ended : Ends (Shape.job value) before job after) : Fails (Shape.job other) before error := by
  cases spoils with
  | unknown strict unknown =>
    obtain ⟨draft, middle, read, _⟩ := ends_bind.1 ended
    refine (byName_fails read fun draft middle _ => Fails.bind ?_).bind
    rw [JobDraft.set_unknown unknown]
    rfl
  | within holds change =>
    cases holds
    cases change with
    | unknown strict => cases strict
    | within holds => cases holds

theorem configuration_spoiled {fields others : List (String × Value)} {given : Configuration}
    (spoils : Spoils .configuration (.table fields) (.table others) error)
    (ended : Ends (configuration fields) before given after) :
    Fails (configuration others) before error := by
  obtain ⟨draft, middle, read, _⟩ := ends_bind.1 ended
  cases spoils with
  | unknown strict unknown =>
    refine (byName_fails read fun draft middle _ => Fails.bind ?_).bind
    rw [ConfigurationDraft.set_unknown unknown]
    rfl
  | within holds change =>
    cases holds
    refine (byName_fails read fun draft middle onward => Fails.bind ?_).bind
    obtain ⟨_, last, taken, _⟩ := ends_bind.1 onward
    obtain ⟨items, same, listed, taken⟩ := ends_bind.1 taken
    obtain ⟨isArray, rfl⟩ := ends_sequence.1 listed
    cases isArray
    obtain ⟨jobs, _, jobsRead, _⟩ := ends_bind.1 taken
    exact Ends.bind_fails rfl (each_fails jobsRead fun _ _ _ => job_spoiled change).bind

end Unknown

end Shape

/-! ## Documents -/

namespace Configuration

/-- The configuration that the fields of a document make, and the patterns its tables repeat. -/
def ofFields (fields : List (String × Value)) :
    Except DocumentError Configuration × List Repeat :=
  match (Shape.configuration fields).run.run [] with
  | (.error error, repeats) => (.error (.shape error), repeats)
  | (.ok configuration, repeats) =>
    match configuration.violation? with
    | some violation => (.error (.invalid violation), repeats)
    | none => (.ok configuration, repeats)

variable {fields others : List (String × Value)} {configuration : Configuration}
  {repeats : List Repeat} {text : String}

theorem ofDocument_of_read (read : Toml.read text = some fields) :
    ofDocument text = ofFields fields := by
  rw [ofDocument, read]
  rfl

theorem ofFields_eq_ok_iff : ofFields fields = (.ok configuration, repeats) ↔
    Shape.Ends (Shape.configuration fields) [] configuration repeats ∧
      configuration.violation? = none := by
  unfold ofFields Shape.Ends
  constructor
  · intro made
    split at made
    · cases made
    · next ended =>
      split at made
      · cases made
      · next passed =>
        cases made
        exact ⟨ended, passed⟩
  · intro ⟨ended, passed⟩
    rw [ended]
    simp only [passed]

theorem ofFields_of_fails {error : ShapeError}
    (fails : Shape.Fails (Shape.configuration fields) [] error) :
    (ofFields fields).1 = .error (.shape error) := by
  unfold ofFields
  unfold Shape.Fails at fails
  split
  · next ended =>
    rw [ended] at fails
    cases fails
    rfl
  · next ended =>
    rw [ended] at fails
    cases fails

/-- Whatever form the fields of a document have, the configuration is the same, and a key that is
not known in a configuration or a job has it refused. -/
theorem forms_agree (parsed : Toml.read text = some fields)
    (accepted : (ofDocument text).1 = .ok configuration)
    (restated : Relation.ReflTransGen (Restates .configuration) (.table fields) (.table others)) :
    ofFields others = ofDocument text ∧
    (∀ again, Toml.read again = some others → ofDocument again = ofDocument text) ∧
    ∀ spoiled error, Spoils .configuration (.table others) (.table spoiled) error →
      (ofFields spoiled).1 = .error (.shape error) ∧
      ∀ again, Toml.read again = some spoiled →
        (ofDocument again).1 = .error (.shape error) := by
  have keyed := Toml.keyed_of_read parsed
  obtain ⟨repeats, whole⟩ : ∃ repeats, ofFields fields = (.ok configuration, repeats) :=
    ⟨(ofFields fields).2, Prod.ext (ofDocument_of_read parsed ▸ accepted) rfl⟩
  obtain ⟨ended, passed⟩ := ofFields_eq_ok_iff.1 whole
  obtain ⟨_, means, rfl⟩ := (Shape.ends_configuration_iff keyed).1 ended
  obtain ⟨otherKeyed, keeps⟩ := restated_means restated keyed
  have otherEnded : Shape.Ends (Shape.configuration others) [] configuration _ :=
    (Shape.ends_configuration_iff otherKeyed).2 ⟨_, keeps _ _ means, rfl⟩
  have same : ofFields others = ofDocument text := by
    rw [ofDocument_of_read parsed, whole]
    exact ofFields_eq_ok_iff.2 ⟨otherEnded, passed⟩
  refine ⟨same, fun again read => (ofDocument_of_read read).trans same, ?_⟩
  intro spoiled error spoils
  have refused := ofFields_of_fails (Shape.configuration_spoiled spoils otherEnded)
  exact ⟨refused, fun again read => ofDocument_of_read read ▸ refused⟩

/-- A document with keys, and with values that need not be given. -/
def spacious : String :=
  "root = \"src\"\njob = [\x7b base = \"b\", name = \"j\", " ++
    "replace = [\x7b to = \"y\", from = \"x\" \x7d] \x7d, [\"k\", \"c\", \"tdouble\"]]\n"

/-- Its first job, with the form of the replacement open. -/
def keyedJob (entry : Value) : Value :=
  .table [("base", .string "b"), ("name", .string "j"), ("replace", .array [entry])]

/-- The first job as the array of its fields. -/
def listedJob (entry : Value) : Value :=
  .array [.string "j", .string "b", .string "tdouble", .string "tfloat", .string "D", .string "S",
    .array [entry]]

/-- The jobs as the only fields of a document. -/
def withJobs (first second : Value) : List (String × Value) := [("job", .array [first, second])]

/-- The fields of the document. -/
def spaciousFields : List (String × Value) :=
  ("root", .string "src") :: withJobs
    (keyedJob (.table [("to", .string "y"), ("from", .string "x")]))
    (.array [.string "k", .string "c", .string "tdouble"])

/-- The same in arrays, without what need not be given. -/
def terseFields : List (String × Value) :=
  withJobs (listedJob (.array [.string "x", .string "y"])) (.array [.string "k", .string "c"])

theorem restates_spacious :
    Relation.ReflTransGen (Restates .configuration) (.table spaciousFields)
      (.table terseFields) := by
  have root (fields : List (String × Value)) :
      Restates .configuration (.table (("root", .string "src") :: fields)) (.table fields) :=
    @Restates.omitted .configuration fields ⟨"root", some (.string "src")⟩ _ List.mem_cons_self rfl
  have entry : Restates .replacement (.table [("to", .string "y"), ("from", .string "x")])
      (.array [.string "x", .string "y"]) := by
    apply Restates.listed rfl
    · rfl
    · exact List.forall_mem_nil _
  have listed (entry : Value) : Restates .job (keyedJob entry) (listedJob entry) := by
    apply Restates.listed rfl
    · rfl
    · exact List.forall_mem_nil _
  have first : Relation.ReflTransGen (Restates .job)
      (keyedJob (.table [("to", .string "y"), ("from", .string "x")]))
      (listedJob (.array [.string "x", .string "y"])) :=
    .head (listed _) (@restates_within_array .job .replacement _ [_, _, _, _, _, _] "replace" [] []
      _ rfl rfl rfl (.single entry))
  have second : Relation.ReflTransGen (Restates .job)
      (.array [.string "k", .string "c", .string "tdouble"])
      (.array [.string "k", .string "c"]) := restates_array rfl (by decide) rfl
  have jobs : Relation.ReflTransGen (Restates .configuration) (.table (withJobs _ _))
      (.table terseFields) :=
    (@restates_within .configuration .job _ "job" [] [] [] [_] _ rfl first).trans
      (@restates_within .configuration .job _ "job" [] [] [_] [] _ rfl second)
  exact .head (root _) jobs

theorem forms_agree_spacious :
    Toml.read spacious = some spaciousFields ∧ ofFields terseFields = ofDocument spacious ∧
      (ofFields (("extra", .boolean true) :: terseFields)).1 =
        .error (.shape (.unknownField "extra" ["root", "job"])) := by
  have parsed : Toml.read spacious = some spaciousFields := by decide +kernel
  have accepted : (ofDocument spacious).1 = .ok ⟨Path.ofText "src",
      [⟨"j", Path.ofText "b", "tdouble", "tfloat", ⟨"D", "S"⟩, ⟨[⟨"x", "y"⟩], by decide⟩⟩,
        Job.named "k" (Path.ofText "c")]⟩ := by
    rw [ofDocument_of_read parsed]
    rfl
  obtain ⟨same, _, refused⟩ := forms_agree parsed accepted restates_spacious
  exact ⟨parsed, same, (refused _ _ (@Spoils.unknown .configuration [] _ _ _ rfl (by decide))).1⟩

end Configuration
end Retarget
