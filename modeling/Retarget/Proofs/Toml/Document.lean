import Retarget.Proofs.Toml.Reading

/-!
A document of written fields and an array of tables, read back. Each line makes one statement; the
fields of a table gather in their order, and each table opened joins the array behind those before
it.
-/
namespace Retarget.Toml

variable {written text : List Char} {value : Value} {key : String} {made : List Statement}
  {fields : List (String × List Char)} {values : List (String × Value)}

/-! ## Lines -/

def line (given : String × List Char) : List Char := field given ++ ['\n']

/-- The head of a table in an array, a blank line before it, and its fields. -/
def block (key : String) (fields : List (String × List Char)) : List Char :=
  '\n' :: '[' :: '[' :: (key.toList ++ ']' :: ']' :: '\n' :: fields.flatMap line)

/-- Fields at the top and the tables of one array. -/
def document (top : List (String × List Char)) (key : String)
    (tables : List (List (String × List Char))) : List Char :=
  top.flatMap line ++ tables.flatMap (block key)

/-- A text makes statements when it has a step for each of its characters and one more. -/
def Makes (text : List Char) (made : List Statement) : Prop :=
  ∀ fuel, text.length < fuel → statements inlineFields fuel text = some made

/-- The statement that one written field makes. -/
def assignment (given : String × Value) : Statement := .assign (assigned given)

theorem makes_nil : Makes [] [] := by
  intro fuel enough
  obtain ⟨fuel, rfl⟩ := Nat.exists_eq_succ_of_ne_zero (by omega : fuel ≠ 0)
  rfl

theorem Makes.blankLine (makes : Makes text made) : Makes ('\n' :: text) made := by
  intro fuel enough
  obtain ⟨fuel, rfl⟩ := Nat.exists_eq_succ_of_ne_zero (by omega : fuel ≠ 0)
  rw [List.length_cons] at enough
  exact makes fuel (by omega)

/-- A statement is read where the text begins neither a comment nor a line end. -/
theorem Makes.statement {first : Char} {behind : List Char} {statement : Statement}
    (makes : Makes text made) (seen : isBlank first = false) (comment : first ≠ '#')
    (line : first ≠ '\n') (back : first ≠ '\r') (shorter : text.length ≤ behind.length)
    (stated : statement? inlineFields (first :: behind) = some (statement, text)) :
    Makes (first :: behind) (statement :: made) := by
  intro fuel enough
  obtain ⟨fuel, rfl⟩ := Nat.exists_eq_succ_of_ne_zero (by omega : fuel ≠ 0)
  rw [List.length_cons] at enough
  have more := makes fuel (by omega)
  have spaced : skipBlank (first :: behind) = first :: behind := by
    rw [skipBlank, List.dropWhile_cons_of_neg (by simp [seen])]
  rw [statements, spaced]
  split
  · rename_i same
    cases same
  · rename_i same
    exact absurd (List.cons.inj same).1 comment
  · rename_i same
    exact absurd (List.cons.inj same).1 line
  · rename_i same
    exact absurd (List.cons.inj same).1 back
  · simp [stated, more]

theorem statement?_line (bare : Bare key) (reads : Reads (depthLimit - 1) written value)
    (text : List Char) : statement? inlineFields (line (key, written) ++ text) =
      some (assignment (key, value), text) := by
  have whole : line (key, written) ++ text = field (key, written) ++ '\n' :: text := by
    simp [line]
  have clear : ('\n' :: text).head? ≠ some '"' := by simp
  have assigns := assignment?_field bare reads clear (bare.skipBlank_field written ('\n' :: text))
  obtain ⟨first, more, spelled, plain⟩ := bare.first
  have front : field (key, written) ++ '\n' :: text = first :: (more ++ ' ' :: '=' :: ' ' ::
      (written ++ '\n' :: text)) := by
    rw [field_append, spelled, List.cons_append]
  rw [front] at assigns
  rw [whole, front, statement?]
  · rw [assigns]
    rfl
  · rintro _ same
    exact bare_apart plain (by decide) (List.cons.inj same).1
  · rintro _ same
    exact bare_apart plain (by decide) (List.cons.inj same).1

theorem Makes.line (makes : Makes text made) (bare : Bare key)
    (reads : Reads (depthLimit - 1) written value) :
    Makes (line (key, written) ++ text) (assignment (key, value) :: made) := by
  have stated := statement?_line bare reads text
  obtain ⟨first, more, spelled, plain⟩ := bare.first
  have front : Toml.line (key, written) ++ text =
      first :: (more ++ ' ' :: '=' :: ' ' :: (written ++ '\n' :: text)) := by
    simp [Toml.line, field, spelled]
  rw [front] at stated ⊢
  refine makes.statement (isBlank_of_isBareKey plain) (bare_apart plain (by decide))
    (bare_apart plain (by decide)) (bare_apart plain (by decide)) ?_ stated
  simp only [List.length_append, List.length_cons]
  omega

theorem Makes.lines (makes : Makes text made) (reads : ReadsAll (depthLimit - 1) fields values) :
    Makes (fields.flatMap Toml.line ++ text) (values.map assignment ++ made) := by
  induction reads with
  | nil => exact makes
  | cons bare reads more ih =>
    rw [List.flatMap_cons, List.append_assoc, List.map_cons, List.cons_append]
    exact ih.line bare reads

theorem statement?_header (bare : Bare key) (text : List Char) :
    statement? inlineFields ('[' :: '[' :: (key.toList ++ ']' :: ']' :: '\n' :: text)) =
      some (.openElement [] key, text) := by
  have keyed : key? (key.toList ++ ']' :: ']' :: '\n' :: text) =
      some ([key], ']' :: ']' :: '\n' :: text) := by
    refine bare.key? (bare.skipBlank _) ?_ ?_
    · rintro _ ⟨⟩
      decide
    · show some ']' ≠ some '.'
      decide
  have ended : lineEnd ('\n' :: text) = some text := rfl
  rw [statement?, header?, keyed]
  simp [unsnoc?, ended]

theorem Makes.block (makes : Makes text made) (bare : Bare key)
    (reads : ReadsAll (depthLimit - 1) fields values) :
    Makes (block key fields ++ text)
      (.openElement [] key :: (values.map assignment ++ made)) := by
  have whole : Toml.block key fields ++ text = '\n' :: '[' :: '[' :: (key.toList ++
      ']' :: ']' :: '\n' :: (fields.flatMap Toml.line ++ text)) := by
    simp [Toml.block]
  rw [whole]
  refine ((makes.lines reads).statement (by decide) (by decide) (by decide) (by decide) ?_
    (statement?_header bare _)).blankLine
  simp only [List.length_cons, List.length_append]
  omega

/-! ## What the statements add up to -/

/-- A field while the document is put together. -/
def item (given : String × Value) : String × Item := (given.1, .value given.2)

/-- The root with an array of tables behind its other fields. -/
def listed (top : Fields) (key : String) (tables : List Item) : Fields :=
  top ++ [(key, .elements tables)]

variable {top : Fields}

theorem get?_listed (fresh : key ∉ top.map Prod.fst) (tables : List Item) :
    (listed top key tables).get? key = some (.elements tables) := by
  have missing : top.find? (fun given => given.1 = key) = none := by
    simpa [Fields.get?] using get?_fresh fresh
  simp [Fields.get?, listed, missing]

theorem replace_listed (fresh : key ∉ top.map Prod.fst) (tables more : List Item) :
    (listed top key tables).replace key (.elements more) = listed top key more := by
  have kept : top.map (fun field => if field.1 = key then (key, Item.elements more) else field) =
      top := by
    refine (List.map_congr_left fun given member => if_neg fun same => ?_).trans (List.map_id _)
    exact fresh (same ▸ List.mem_map_of_mem member)
  rw [listed, Fields.replace, List.map_append, kept, List.map_singleton, if_pos rfl, listed]

theorem openElement_first (fresh : key ∉ top.map Prod.fst) {draft : Draft}
    (settled : draft.settle = some top) :
    draft.openElement [] key = some ⟨listed top key [], .element [] key, []⟩ := by
  simp [Draft.openElement, settled, alter, get?_fresh fresh, listed]

theorem openElement_again (fresh : key ∉ top.map Prod.fst) {draft : Draft} {tables : List Item}
    (settled : draft.settle = some (listed top key tables)) :
    draft.openElement [] key = some ⟨listed top key tables, .element [] key, []⟩ := by
  simp [Draft.openElement, settled, alter, get?_listed fresh]

theorem settle_element (fresh : key ∉ top.map Prod.fst) (tables : List Item) (current : Fields) :
    Draft.settle ⟨listed top key tables, .element [] key, current⟩ =
      some (listed top key (tables ++ [.table false false current])) := by
  simp [Draft.settle, alter, get?_listed fresh, replace_listed fresh]

theorem runAll_assignments {assignments : List Assignment} {draft : Draft} {fields : Fields}
    (assigns : assignAll assignments draft.current = some fields) (more : List Statement) :
    draft.runAll (assignments.map .assign ++ more) =
      Draft.runAll { draft with current := fields } more := by
  induction assignments generalizing draft with
  | nil =>
    rw [assignAll, Option.some_inj] at assigns
    subst assigns
    rfl
  | cons first rest ih =>
    rw [assignAll, Option.bind_eq_bind, Option.bind_eq_some_iff] at assigns
    obtain ⟨between, one, others⟩ := assigns
    rw [List.map_cons, List.cons_append, Draft.runAll]
    simp only [Draft.run, one, Option.bind_eq_bind, Option.bind_some]
    exact ih others

/-- Fields with different keys are gathered in their order. -/
theorem runAll_values (draft : Draft) {values : List (String × Value)}
    (apart : (draft.current.map Prod.fst ++ values.map Prod.fst).Nodup) (more : List Statement) :
    draft.runAll (values.map assignment ++ more) =
      Draft.runAll { draft with current := draft.current ++ values.map item } more := by
  have gathered := runAll_assignments (assignAll_fresh values apart) more
  rwa [List.map_map] at gathered

/-- The statements of a table in an array. -/
def opening (key : String) (values : List (String × Value)) : List Statement :=
  .openElement [] key :: values.map assignment

/-- A table in an array while the document is put together. -/
def element (values : List (String × Value)) : Item := .table false false (values.map item)

theorem runAll_opening {draft : Draft} {tables : List Item}
    (opens : draft.openElement [] key = some ⟨listed top key tables, .element [] key, []⟩)
    (apart : (values.map Prod.fst).Nodup) (more : List Statement) :
    draft.runAll (opening key values ++ more) =
      Draft.runAll ⟨listed top key tables, .element [] key, values.map item⟩ more := by
  have gathered := runAll_values ⟨listed top key tables, .element [] key, []⟩ apart more
  rw [opening, List.cons_append, Draft.runAll]
  simp only [Draft.run, opens, Option.bind_eq_bind, Option.bind_some]
  exact gathered

/-- Each further table joins the array behind those that are in it. -/
theorem runAll_openings (fresh : key ∉ top.map Prod.fst) {tables : List Item} {draft : Draft}
    (settled : draft.settle = some (listed top key tables))
    {others : List (List (String × Value))}
    (apart : ∀ values ∈ others, (values.map Prod.fst).Nodup) :
    (draft.runAll (others.flatMap (opening key))).bind Draft.settle =
      some (listed top key (tables ++ others.map element)) := by
  induction others generalizing draft tables with
  | nil =>
    rw [List.map_nil, List.append_nil]
    exact settled
  | cons values rest ih =>
    have onward := ih (settle_element fresh tables (values.map item)) fun values member =>
      apart values (List.mem_cons_of_mem _ member)
    rw [List.flatMap_cons, runAll_opening (openElement_again fresh settled)
      (apart values List.mem_cons_self), onward, List.append_assoc]
    rfl

theorem runAll_document {topValues : List (String × Value)} (fresh : key ∉ topValues.map Prod.fst)
    (topApart : (topValues.map Prod.fst).Nodup) {tables : List (List (String × Value))}
    (nonempty : tables ≠ []) (apart : ∀ values ∈ tables, (values.map Prod.fst).Nodup) :
    (Draft.empty.runAll (topValues.map assignment ++ tables.flatMap (opening key))).bind
      Draft.settle = some (listed (topValues.map item) key (tables.map element)) := by
  obtain ⟨values, others, rfl⟩ := List.exists_cons_of_ne_nil nonempty
  have clear : key ∉ (topValues.map item).map Prod.fst := by
    rw [List.map_map]
    exact fresh
  have opens := openElement_first clear (rfl : Draft.settle ⟨[], .top, topValues.map item⟩ = _)
  have gathered : Draft.empty.runAll (topValues.map assignment ++
      (values :: others).flatMap (opening key)) =
      Draft.runAll ⟨[], .top, topValues.map item⟩ ((values :: others).flatMap (opening key)) :=
    runAll_values Draft.empty topApart _
  rw [gathered, List.flatMap_cons, runAll_opening opens (apart values List.mem_cons_self)]
  exact runAll_openings clear (settle_element clear [] (values.map item)) fun values member =>
    apart values (List.mem_cons_of_mem _ member)

theorem closeItems_elements (tables : List (List (String × Value))) :
    closeItems (tables.map element) = tables.map .table := by
  induction tables with
  | nil => rfl
  | cons values rest ih =>
    rw [List.map_cons, closeItems, ih, element, Item.close]
    rw [show closeFields (values.map item) = values from closeFields_values values]
    rfl

theorem closeFields_listed (topValues : List (String × Value)) (key : String)
    (tables : List (List (String × Value))) :
    closeFields (listed (topValues.map item) key (tables.map element)) =
      topValues ++ [(key, .array (tables.map .table))] := by
  induction topValues with
  | nil => simp [listed, closeFields, Item.close, closeItems_elements]
  | cons given rest ih =>
    rw [listed] at ih
    rw [List.map_cons, listed, List.cons_append, closeFields, ih]
    rfl

/-! ## The whole document -/

theorem makes_document {α : Type} (bare : Bare key)
    {topValues : List (String × Value)} (topReads : ReadsAll (depthLimit - 1) fields topValues)
    (written : α → List (String × List Char)) (values : α → List (String × Value))
    {tables : List α}
    (reads : ∀ table ∈ tables, ReadsAll (depthLimit - 1) (written table) (values table)) :
    Makes (document fields key (tables.map written))
      (topValues.map assignment ++ (tables.map values).flatMap (opening key)) := by
  refine Makes.lines ?_ topReads
  induction tables with
  | nil => exact makes_nil
  | cons table rest ih =>
    have onward := ih fun table member => reads table (List.mem_cons_of_mem _ member)
    exact onward.block bare (reads table List.mem_cons_self)

theorem read_of_makes (makes : Makes text made) (mark : text.head? ≠ some '\uFEFF')
    {gathered : Fields} (adds : (Draft.empty.runAll made).bind Draft.settle = some gathered) :
    read (String.ofList text) = some (closeFields gathered) := by
  obtain ⟨draft, ran, settled⟩ := Option.bind_eq_some_iff.1 adds
  have stated := makes (text.length + 1) (Nat.lt_succ_self _)
  rw [read, String.toList_ofList]
  split
  · exact absurd rfl mark
  · simp only [stated, ran, settled, Option.bind_eq_bind, Option.bind_some]
    rfl

theorem head?_document {topValues : List (String × Value)}
    (topReads : ReadsAll (depthLimit - 1) fields topValues) (key : String)
    (tables : List (List (String × List Char))) :
    (document fields key tables).head? ≠ some '\uFEFF' := by
  cases topReads with
  | nil =>
    cases tables with
    | nil => simp [document]
    | cons table rest => simp [document, block]
  | cons bare reads more =>
    obtain ⟨first, behind, spelled, plain⟩ := bare.first
    simpa [document, line, field, spelled] using bare_apart plain (by decide)

/-- The fields of a document are those it was written from, its tables behind them as one array. -/
theorem read_document {α : Type} (bare : Bare key)
    {topValues : List (String × Value)} (topReads : ReadsAll (depthLimit - 1) fields topValues)
    (topApart : (topValues.map Prod.fst).Nodup) (fresh : key ∉ topValues.map Prod.fst)
    (written : α → List (String × List Char)) (values : α → List (String × Value))
    {tables : List α} (nonempty : tables ≠ [])
    (reads : ∀ table ∈ tables, ReadsAll (depthLimit - 1) (written table) (values table))
    (apart : ∀ table ∈ tables, ((values table).map Prod.fst).Nodup) :
    read (String.ofList (document fields key (tables.map written))) =
      some (topValues ++ [(key, .array (tables.map fun table => .table (values table)))]) := by
  have made := makes_document bare topReads written values reads
  have filled : tables.map values ≠ [] := by
    rwa [Ne, List.map_eq_nil_iff]
  have distinct : ∀ fields ∈ tables.map values, (fields.map Prod.fst).Nodup := by
    rintro _ member
    obtain ⟨table, inside, rfl⟩ := List.mem_map.1 member
    exact apart table inside
  have gathered := runAll_document fresh topApart filled distinct
  rw [read_of_makes made (head?_document topReads key _) gathered, closeFields_listed, List.map_map]
  rfl

end Retarget.Toml
