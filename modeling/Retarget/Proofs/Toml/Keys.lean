import Mathlib.Data.List.Nodup
import Retarget.Toml.Document

/-!
The keys of a document. In a document that is read each table gives each key once, and so do the
tables inside, however they are written: a key that has a value is refused a second one, and all
that is put together from keyed parts is keyed.
-/
namespace Retarget.Toml

/-- A value whose tables, at any depth, give each key once. -/
inductive Value.Keyed : Value → Prop where
  | string (value : String) : Keyed (.string value)
  | integer (value : Int) : Keyed (.integer value)
  | float (value : Binary64) : Keyed (.float value)
  | boolean (value : Bool) : Keyed (.boolean value)
  | datetime : Keyed .datetime
  | array {items : List Value} (all : ∀ item ∈ items, Keyed item) : Keyed (.array items)
  | table {fields : List (String × Value)} (distinct : (fields.map Prod.fst).Nodup)
      (all : ∀ field ∈ fields, Keyed field.2) : Keyed (.table fields)

namespace Value.Keyed

variable {items : List Value} {fields : List (String × Value)} {name : String} {value : Value}

theorem item (keyed : (Value.array items).Keyed) : ∀ item ∈ items, item.Keyed := by
  cases keyed with
  | array all => exact all

theorem distinct (keyed : (Value.table fields).Keyed) : (fields.map Prod.fst).Nodup := by
  cases keyed with
  | table distinct all => exact distinct

theorem each (keyed : (Value.table fields).Keyed) : ∀ field ∈ fields, field.2.Keyed := by
  cases keyed with
  | table distinct all => exact all

theorem cons (keyed : (Value.table fields).Keyed) (absent : name ∉ fields.map Prod.fst)
    (held : value.Keyed) : (Value.table ((name, value) :: fields)).Keyed :=
  .table (List.nodup_cons.2 ⟨absent, keyed.distinct⟩) (List.forall_mem_cons.2 ⟨held, keyed.each⟩)

end Value.Keyed

/-! ## Reading -/

/-- What a reader makes is good, where it makes anything. -/
def Gives {α : Type} (good : α → Prop) (result : Option (α × List Char)) : Prop :=
  ∀ value rest, result = some (value, rest) → good value

section Gives

variable {α β : Type} {good : α → Prop}

theorem gives_none : Gives good none := by
  intro value rest given
  cases given

theorem gives_some {value : α} (holds : good value) (rest : List Char) :
    Gives good (some (value, rest)) := by
  intro _ _ given
  cases given
  exact holds

theorem gives_bind {act : Option β} {next : β → Option (α × List Char)}
    (onward : ∀ result, act = some result → Gives good (next result)) :
    Gives good (act >>= next) := by
  cases act with
  | none => exact gives_none
  | some result => exact onward result rfl

theorem gives_map {act : Option β} {function : β → α × List Char}
    (holds : ∀ result, act = some result → good (function result).1) :
    Gives good (act.map function) := by
  cases act with
  | none => exact gives_none
  | some result => exact gives_some (holds result rfl) _

theorem gives_orElse {first second : Option (α × List Char)} (one : Gives good first)
    (other : Gives good second) : Gives good (first <|> second) := by
  cases first with
  | none => exact other
  | some result => exact one

end Gives

/-! ## Values as they are written -/

theorem keyed_integerValue? (value : Int) (rest : List Char) :
    Gives Value.Keyed (do pure (← integerValue? value, rest)) := by
  unfold integerValue?
  split
  · exact gives_some (.integer value) rest
  · exact gives_none

theorem keyed_inBase? (base : Nat) (isDigit : Char → Bool) (text : List Char) :
    Gives Value.Keyed (inBase? base isDigit text) := by
  apply gives_bind
  intro ⟨digits, rest⟩ _
  exact keyed_integerValue? _ rest

theorem keyed_integer? (text : List Char) : Gives Value.Keyed (integer? text) := by
  unfold integer?
  split
  · exact keyed_inBase? 16 _ _
  · exact keyed_inBase? 8 _ _
  · exact keyed_inBase? 2 _ _
  · apply gives_bind
    intro ⟨digits, rest⟩ _
    exact keyed_integerValue? _ rest

theorem keyed_floatValue? (value : Binary64) (rest : List Char) :
    Gives Value.Keyed (do pure (← floatValue? value, rest)) := by
  unfold floatValue?
  split
  · exact gives_none
  · exact gives_some (.float value) rest

theorem keyed_decimal? (text : List Char) : Gives Value.Keyed (decimal? text) := by
  apply gives_bind
  intro ⟨whole, rest⟩ _
  dsimp only
  split
  · apply gives_bind
    intro ⟨fraction, rest⟩ _
    dsimp only
    split
    · apply gives_bind
      intro given _
      exact keyed_floatValue? _ _
    · apply gives_bind
      intro given _
      exact keyed_floatValue? _ _
    · exact keyed_floatValue? _ _
  · apply gives_bind
    intro given _
    exact keyed_floatValue? _ _

theorem keyed_floatWord? (text : List Char) : Gives Value.Keyed (floatWord? text) := by
  unfold floatWord?
  dsimp only
  split
  · exact gives_some (.float _) _
  · exact gives_some (.float _) _
  · exact gives_none

theorem keyed_datetime? (text : List Char) : Gives Value.Keyed (datetime? text) := by
  unfold datetime?
  split
  · exact gives_map fun _ _ => .datetime
  · split
    · split
      · split
        · exact gives_some .datetime _
        · exact gives_map fun _ _ => .datetime
      · exact gives_some .datetime _
    · exact gives_some .datetime _

theorem keyed_scalar? (text : List Char) : Gives Value.Keyed (scalar? text) := by
  unfold scalar?
  split
  · exact gives_none
  · exact gives_some (.boolean _) _
  · exact gives_some (.boolean _) _
  · exact keyed_floatWord? _
  · exact keyed_floatWord? _
  · split
    · exact gives_map fun _ _ => .string _
    · split
      · exact gives_orElse (keyed_datetime? _) <|
          gives_orElse (keyed_decimal? _) <|
          gives_orElse (keyed_floatWord? _) (keyed_integer? _)
      · exact gives_none

def Assignment.Keyed (assignment : Assignment) : Prop := assignment.value.Keyed

/-- Assignments of keyed values. -/
def Assigned (assignments : List Assignment) : Prop :=
  ∀ assignment ∈ assignments, assignment.Keyed

/-- The fields made of assignments are keyed. -/
def Builds (build : List Assignment → Option (List (String × Value))) : Prop :=
  ∀ assignments fields, build assignments = some fields → Assigned assignments →
    (Value.table fields).Keyed

section Nested

variable {readValue : List Char → Option (Value × List Char)}
  {build : List Assignment → Option (List (String × Value))}

theorem keyed_arrayTail (keyed : ∀ text, Gives Value.Keyed (readValue text)) (fuel : Nat)
    (text : List Char) :
    Gives (fun items => ∀ item ∈ items, Value.Keyed item) (arrayTail readValue fuel text) := by
  induction fuel generalizing text with
  | zero => exact gives_none
  | succ fuel ih =>
    unfold arrayTail
    split
    · exact gives_some (by simp) _
    · apply gives_bind
      intro ⟨value, rest⟩ given
      have first := keyed _ _ _ given
      dsimp only
      split
      · apply gives_bind
        intro ⟨values, rest⟩ more
        exact gives_some (List.forall_mem_cons.2 ⟨first, ih _ _ _ more⟩) _
      · exact gives_some (by simpa using first) _
      · exact gives_none

theorem keyed_assignment? (keyed : ∀ text, Gives Value.Keyed (readValue text)) (text : List Char) :
    Gives Assignment.Keyed (assignment? readValue text) := by
  apply gives_bind
  intro ⟨keys, rest⟩ _
  apply gives_bind
  intro ⟨path, key⟩ _
  apply gives_bind
  intro behind _
  apply gives_bind
  intro ⟨value, rest⟩ given
  have holds : Assignment.Keyed ⟨path, key, value⟩ := keyed _ _ _ given
  exact gives_some holds rest

theorem keyed_inlineTail (keyed : ∀ text, Gives Value.Keyed (readValue text)) (fuel : Nat)
    (text : List Char) : Gives Assigned (inlineTail readValue fuel text) := by
  induction fuel generalizing text with
  | zero => exact gives_none
  | succ fuel ih =>
    apply gives_bind
    intro ⟨assignment, rest⟩ given
    have first := keyed_assignment? keyed _ _ _ given
    dsimp only
    split
    · apply gives_bind
      intro ⟨assignments, rest⟩ more
      have both : Assigned (assignment :: assignments) :=
        List.forall_mem_cons.2 ⟨first, ih _ _ _ more⟩
      exact gives_some both _
    · have one : Assigned [assignment] := List.forall_mem_singleton.2 first
      exact gives_some one _
    · exact gives_none

theorem keyed_inlineTable? (keyed : ∀ text, Gives Value.Keyed (readValue text))
    (text : List Char) : Gives Assigned (inlineTable? readValue text) := by
  unfold inlineTable?
  split
  · exact gives_some (List.forall_mem_nil _) _
  · exact keyed_inlineTail keyed _ _

theorem keyed_value? (builds : Builds build) (depth : Nat) (text : List Char) :
    Gives Value.Keyed (value? build depth text) := by
  induction depth generalizing text with
  | zero =>
    unfold value?
    split
    · exact gives_none
    · exact gives_none
    · exact keyed_scalar? _
  | succ depth ih =>
    unfold value?
    split
    · apply gives_map
      intro ⟨items, rest⟩ given
      exact .array (keyed_arrayTail ih _ _ _ _ given)
    · apply gives_bind
      intro ⟨assignments, rest⟩ given
      apply gives_bind
      intro fields built
      exact gives_some (builds _ _ built (keyed_inlineTable? ih _ _ _ given)) _
    · exact keyed_scalar? _

end Nested

/-! ## Fields put together -/

/-- What stands under a key, keyed as far down as there are tables. -/
inductive Item.Keyed : Item → Prop where
  | value {value : Value} (keyed : value.Keyed) : Keyed (.value value)
  | table {passed dotted : Bool} {fields : List (String × Item)}
      (distinct : (fields.map Prod.fst).Nodup) (all : ∀ field ∈ fields, Keyed field.2) :
      Keyed (.table passed dotted fields)
  | elements {tables : List Item} (all : ∀ table ∈ tables, Keyed table) : Keyed (.elements tables)

/-- Fields with each key once, keyed themselves. -/
structure Fields.Keyed (fields : Fields) : Prop where
  distinct : (fields.map Prod.fst).Nodup
  all : ∀ field ∈ fields, field.2.Keyed

namespace Fields

variable {fields : Fields} {key : String} {item : Item}

theorem keyed_nil : Fields.Keyed [] := ⟨List.nodup_nil, List.forall_mem_nil _⟩

theorem Keyed.table (keyed : fields.Keyed) (passed dotted : Bool) :
    (Item.table passed dotted fields).Keyed := .table keyed.distinct keyed.all

theorem keyed_of_table {passed dotted : Bool} (keyed : (Item.table passed dotted fields).Keyed) :
    fields.Keyed := by
  cases keyed with
  | table distinct all => exact ⟨distinct, all⟩

theorem Keyed.get? (keyed : fields.Keyed) (found : fields.get? key = some item) : item.Keyed := by
  obtain ⟨field, first, rfl⟩ := Option.map_eq_some_iff.1 found
  exact keyed.all field (List.mem_of_find?_eq_some first)

theorem fresh_of_get? (missing : fields.get? key = none) : key ∉ fields.map Prod.fst := by
  intro inside
  obtain ⟨field, member, same⟩ := List.mem_map.1 inside
  have other := List.find?_eq_none.1 (Option.map_eq_none_iff.1 missing) field member
  exact other (decide_eq_true same)

theorem Keyed.concat (keyed : fields.Keyed) (fresh : key ∉ fields.map Prod.fst)
    (holds : item.Keyed) : Fields.Keyed (fields ++ [(key, item)]) := by
  constructor
  · rw [List.map_append, List.map_cons, List.map_nil, ← List.concat_eq_append]
    exact List.Nodup.concat fresh keyed.distinct
  · intro field member
    rcases List.mem_append.1 member with old | new
    · exact keyed.all field old
    · obtain rfl := List.mem_singleton.1 new
      exact holds

theorem map_fst_replace (key : String) (item : Item) (fields : Fields) :
    (fields.replace key item).map Prod.fst = fields.map Prod.fst := by
  unfold replace
  rw [List.map_map]
  apply List.map_congr_left
  intro field _
  rw [Function.comp_apply]
  split
  · rename_i same
    exact same.symm
  · rfl

theorem Keyed.replace (keyed : fields.Keyed) (key : String) (holds : item.Keyed) :
    (fields.replace key item).Keyed := by
  constructor
  · rw [map_fst_replace]
    exact keyed.distinct
  · intro field member
    obtain ⟨old, inside, rfl⟩ := List.mem_map.1 member
    split
    · exact holds
    · exact keyed.all old inside

theorem Keyed.erase (keyed : fields.Keyed) (key : String) : (fields.erase key).Keyed := by
  constructor
  · exact keyed.distinct.sublist (List.filter_sublist.map _)
  · exact fun field member => keyed.all field (List.mem_filter.1 member).1

end Fields

/-- A change keeps fields keyed, and what it gives besides is good. -/
def Keeps {α : Type} (good : α → Prop) (change : Bool → Fields → Option (α × Fields)) : Prop :=
  ∀ isDotted fields result after, Fields.Keyed fields →
    change isDotted fields = some (result, after) → good result ∧ Fields.Keyed after

/-- Changed at the end of a path, fields stay keyed. -/
theorem keeps_alter {α : Type} (good : α → Prop) {change : Bool → Fields → Option (α × Fields)}
    (keeps : Keeps good change) (dotted : Bool) (path : List String) :
    Keeps good fun isDotted => alter dotted change isDotted path := by
  induction path with
  | nil => exact keeps
  | cons key path ih =>
    intro isDotted fields result after keyed altered
    dsimp only at altered
    unfold alter at altered
    split at altered
    · rename_i missing
      obtain ⟨⟨made, inner⟩, deeper, same⟩ := Option.bind_eq_some_iff.1 altered
      cases same
      obtain ⟨holds, below⟩ := ih _ _ _ _ Fields.keyed_nil deeper
      exact ⟨holds, keyed.concat (Fields.fresh_of_get? missing) (below.table true dotted)⟩
    · cases altered
    · rename_i tables found
      split at altered
      · rename_i passed isDotted inner last
        obtain ⟨⟨made, changed⟩, deeper, same⟩ := Option.bind_eq_some_iff.1 altered
        cases same
        have elements : ∀ table ∈ tables, table.Keyed := by
          cases keyed.get? found with
          | elements all => exact all
        have innerKeyed := Fields.keyed_of_table (elements _ (List.mem_of_getLast? last))
        obtain ⟨holds, below⟩ := ih _ _ _ _ innerKeyed deeper
        refine ⟨holds, keyed.replace key (.elements fun table member => ?_)⟩
        rcases List.mem_append.1 member with before | new
        · exact elements table (List.dropLast_subset _ before)
        · obtain rfl := List.mem_singleton.1 new
          exact below.table passed isDotted
      · cases altered
    · rename_i passed isDotted inner found
      split at altered
      · cases altered
      · obtain ⟨⟨made, changed⟩, deeper, same⟩ := Option.bind_eq_some_iff.1 altered
        cases same
        have innerKeyed := Fields.keyed_of_table (keyed.get? found)
        obtain ⟨holds, below⟩ := ih _ _ _ _ innerKeyed deeper
        exact ⟨holds, keyed.replace key (below.table passed isDotted)⟩

theorem keyed_assign {assignment : Assignment} (holds : assignment.Keyed) {fields after : Fields}
    (keyed : fields.Keyed) (assigned : assign assignment fields = some after) : after.Keyed := by
  obtain ⟨⟨made, changed⟩, altered, same⟩ := Option.bind_eq_some_iff.1 assigned
  cases same
  refine (keeps_alter (fun _ => True) ?_ true assignment.path _ _ _ _ keyed altered).2
  intro isDotted fields result after keyed changed
  dsimp only at changed
  split at changed
  · cases changed
  · split at changed
    · cases changed
    · rename_i missing
      cases changed
      exact ⟨trivial, keyed.concat (Fields.fresh_of_get? missing) (.value holds)⟩

theorem keyed_assignAll {assignments : List Assignment} (holds : Assigned assignments)
    {fields after : Fields} (keyed : fields.Keyed)
    (assigned : assignAll assignments fields = some after) : after.Keyed := by
  induction assignments generalizing fields with
  | nil =>
    cases assigned
    exact keyed
  | cons assignment rest ih =>
    obtain ⟨first, others⟩ := List.forall_mem_cons.1 holds
    obtain ⟨middle, one, more⟩ := Option.bind_eq_some_iff.1 assigned
    exact ih others (keyed_assign first keyed one) more

theorem closeFields_eq (fields : Fields) :
    closeFields fields = fields.map fun field => (field.1, field.2.close) := by
  induction fields with
  | nil => rfl
  | cons field rest ih => rw [closeFields, ih, List.map_cons]

theorem closeItems_eq (items : List Item) : closeItems items = items.map Item.close := by
  induction items with
  | nil => rfl
  | cons item rest ih => rw [closeItems, ih, List.map_cons]

theorem Item.Keyed.close {item : Item} (keyed : item.Keyed) : item.close.Keyed := by
  induction keyed with
  | value keyed => exact keyed
  | table distinct _ ih =>
    rw [Item.close, closeFields_eq]
    constructor
    · rw [List.map_map]
      exact distinct
    · intro field member
      obtain ⟨old, inside, rfl⟩ := List.mem_map.1 member
      exact ih old inside
  | elements _ ih =>
    rw [Item.close, closeItems_eq]
    constructor
    intro value member
    obtain ⟨old, inside, rfl⟩ := List.mem_map.1 member
    exact ih old inside

theorem Fields.Keyed.close {fields : Fields} (keyed : fields.Keyed) :
    (Value.table (closeFields fields)).Keyed :=
  (keyed.table false false).close

theorem builds_inlineFields : Builds inlineFields := by
  intro assignments fields built holds
  obtain ⟨items, assigned, rfl⟩ := Option.map_eq_some_iff.1 built
  exact (keyed_assignAll holds Fields.keyed_nil assigned).close

/-! ## A document -/

/-- A statement that assigns nothing but keyed values. -/
def Statement.Keyed : Statement → Prop
  | .assign assignment => assignment.Keyed
  | _ => True

/-- A document on its way: what is settled is keyed, and so is what is open. -/
structure Draft.Keyed (draft : Draft) : Prop where
  root : draft.root.Keyed
  current : draft.current.Keyed

namespace Draft

variable {draft after : Draft}

theorem keyed_empty : empty.Keyed := ⟨Fields.keyed_nil, Fields.keyed_nil⟩

theorem Keyed.settle (keyed : draft.Keyed) {fields : Fields}
    (settled : draft.settle = some fields) : fields.Keyed := by
  unfold Draft.settle at settled
  split at settled
  · cases settled
    exact keyed.current
  · rename_i path key _
    obtain ⟨⟨made, root⟩, altered, same⟩ := Option.bind_eq_some_iff.1 settled
    cases same
    refine (keeps_alter (fun _ => True) ?_ false path _ _ _ _ keyed.root altered).2
    intro isDotted fields result after fieldsKeyed changed
    dsimp only at changed
    split at changed
    · cases changed
    · rename_i missing
      cases changed
      exact ⟨trivial, fieldsKeyed.concat (Fields.fresh_of_get? missing)
        (keyed.current.table false false)⟩
  · rename_i path key _
    obtain ⟨⟨made, root⟩, altered, same⟩ := Option.bind_eq_some_iff.1 settled
    cases same
    have table := keyed.current.table false false
    refine (keeps_alter (fun _ => True) ?_ false path _ _ _ _ keyed.root altered).2
    intro isDotted fields result after fieldsKeyed changed
    dsimp only at changed
    split at changed
    · rename_i missing
      cases changed
      exact ⟨trivial, fieldsKeyed.concat (Fields.fresh_of_get? missing)
        (.elements (List.forall_mem_singleton.2 table))⟩
    · rename_i tables found
      cases changed
      have elements : ∀ table ∈ tables, table.Keyed := by
        cases fieldsKeyed.get? found with
        | elements all => exact all
      refine ⟨trivial, fieldsKeyed.replace key (.elements ?_)⟩
      rw [List.forall_mem_append, List.forall_mem_singleton]
      exact ⟨elements, table⟩
    · cases changed

theorem Keyed.openTable (keyed : draft.Keyed) {path : List String} {key : String}
    (opened : draft.openTable path key = some after) : after.Keyed := by
  obtain ⟨root, settled, onward⟩ := Option.bind_eq_some_iff.1 opened
  obtain ⟨⟨current, changed⟩, altered, same⟩ := Option.bind_eq_some_iff.1 onward
  cases same
  obtain ⟨taken, rest⟩ := keeps_alter Fields.Keyed (fun isDotted fields result after
    fieldsKeyed changed => by
      split at changed
      · cases changed
        exact ⟨Fields.keyed_nil, fieldsKeyed⟩
      · rename_i inner found
        cases changed
        exact ⟨Fields.keyed_of_table (fieldsKeyed.get? found), fieldsKeyed.erase key⟩
      · cases changed) false path _ _ _ _ (keyed.settle settled) altered
  exact ⟨rest, taken⟩

theorem Keyed.openElement (keyed : draft.Keyed) {path : List String} {key : String}
    (opened : draft.openElement path key = some after) : after.Keyed := by
  obtain ⟨root, settled, onward⟩ := Option.bind_eq_some_iff.1 opened
  obtain ⟨⟨made, changed⟩, altered, same⟩ := Option.bind_eq_some_iff.1 onward
  cases same
  refine ⟨(keeps_alter (fun _ => True) ?_ false path _ _ _ _ (keyed.settle settled)
    altered).2, Fields.keyed_nil⟩
  intro isDotted fields result after fieldsKeyed changed
  dsimp only at changed
  split at changed
  · rename_i missing
    cases changed
    exact ⟨trivial, fieldsKeyed.concat (Fields.fresh_of_get? missing)
      (.elements (List.forall_mem_nil _))⟩
  · cases changed
    exact ⟨trivial, fieldsKeyed⟩
  · cases changed

theorem Keyed.run (keyed : draft.Keyed) {statement : Statement} (holds : statement.Keyed)
    (ran : draft.run statement = some after) : after.Keyed := by
  cases statement with
  | assign assignment =>
    obtain ⟨current, assigned, same⟩ := Option.bind_eq_some_iff.1 ran
    cases same
    exact ⟨keyed.root, keyed_assign holds keyed.current assigned⟩
  | openTable path key => exact keyed.openTable ran
  | openElement path key => exact keyed.openElement ran

theorem Keyed.runAll (keyed : draft.Keyed) {statements : List Statement}
    (hold : ∀ statement ∈ statements, statement.Keyed)
    (ran : draft.runAll statements = some after) : after.Keyed := by
  induction statements generalizing draft with
  | nil =>
    cases ran
    exact keyed
  | cons statement rest ih =>
    obtain ⟨first, others⟩ := List.forall_mem_cons.1 hold
    obtain ⟨middle, one, more⟩ := Option.bind_eq_some_iff.1 ran
    exact ih (keyed.run first one) others more

end Draft

theorem keyed_statement? {build : List Assignment → Option (List (String × Value))}
    (builds : Builds build) (text : List Char) :
    Gives Statement.Keyed (statement? build text) := by
  unfold statement?
  split
  · exact gives_map fun _ _ => trivial
  · exact gives_map fun _ _ => trivial
  · apply gives_bind
    intro ⟨assignment, rest⟩ given
    have holds : (Statement.assign assignment).Keyed :=
      keyed_assignment? (keyed_value? builds _) _ _ _ given
    apply gives_bind
    intro behind _
    exact gives_some holds behind

theorem keyed_statements {build : List Assignment → Option (List (String × Value))}
    (builds : Builds build) (fuel : Nat) {text : List Char} {made : List Statement}
    (read : statements build fuel text = some made) : ∀ statement ∈ made, statement.Keyed := by
  induction fuel generalizing text made with
  | zero => cases read
  | succ fuel ih =>
    unfold statements at read
    split at read
    · cases read
      exact List.forall_mem_nil _
    · obtain ⟨rest, _, onward⟩ := Option.bind_eq_some_iff.1 read
      exact ih onward
    · exact ih read
    · obtain ⟨rest, _, onward⟩ := Option.bind_eq_some_iff.1 read
      exact ih onward
    · obtain ⟨⟨statement, rest⟩, first, onward⟩ := Option.bind_eq_some_iff.1 read
      obtain ⟨more, others, same⟩ := Option.bind_eq_some_iff.1 onward
      cases same
      exact List.forall_mem_cons.2 ⟨keyed_statement? builds _ _ _ first, ih others⟩

/-- A document that is read gives each key once in each of its tables. -/
theorem keyed_of_read {text : String} {fields : List (String × Value)}
    (given : read text = some fields) : (Value.table fields).Keyed := by
  obtain ⟨made, statements, onward⟩ := Option.bind_eq_some_iff.1 given
  obtain ⟨draft, ran, onward⟩ := Option.bind_eq_some_iff.1 onward
  obtain ⟨settled, root, same⟩ := Option.bind_eq_some_iff.1 onward
  cases same
  have hold := keyed_statements builds_inlineFields _ statements
  exact ((Draft.keyed_empty.runAll hold ran).settle root).close

end Retarget.Toml
