import Mathlib.Tactic.Common
import Retarget.Proofs.Text.Escapes
import Retarget.Toml.Document

/-!
Values written as TOML and read back: strings on one line, arrays and inline tables on one line,
keys without quotes. What is written of a value is said to read as it when the reader takes
exactly that off the front of a text, and each way to put written values together keeps this.
-/
namespace Retarget.Toml

/-! ## Strings -/

/-- A character inside a written string: escaped as in JSON, and so is the one control character
that JSON lets stand. -/
def escaped (char : Char) : List Char :=
  if char = '\x7f' then ['\\', 'u', '0', '0', '7', 'f'] else Json.escaped char

def quoted (text : String) : List Char := '"' :: (text.toList.flatMap escaped ++ ['"'])

theorem hexNumber?_numbered : ∀ number < 0x20,
    hexNumber? ['0', '0', Json.hexDigits.getD (number / 16) '0',
      Json.hexDigits.getD (number % 16) '0'] = some number := by decide

theorem basicTail_letter {pair : Char × Char} (member : pair ∈ Json.letters) (rest : List Char) :
    basicTail ('\\' :: pair.2 :: rest) = consTo (some pair.1) (basicTail rest) := by
  fin_cases member <;> rfl

theorem basicTail_escaped (char : Char) (rest : List Char) :
    basicTail (escaped char ++ rest) = consTo (some char) (basicTail rest) := by
  by_cases delete : char = '\x7f'
  · subst delete
    rfl
  rw [escaped, if_neg delete]
  have written := Json.escaped_escaped char
  generalize Json.escaped char = spelled at written
  cases written with
  | letter member => exact basicTail_letter member rest
  | number control =>
    have valid : char.toNat.isValidChar := char.valid
    simp only [Json.numbered, List.cons_append, List.nil_append, basicTail,
      hexNumber?_numbered char.toNat control, charNumbered?, Option.bind_eq_bind,
      Option.bind_some, valid, if_true, Char.ofNat_toNat]
  | plain quote backslash shown =>
    have kept : char.toNat ≠ 0x7F := fun same => delete (Char.toNat_inj.1 same)
    have plain : isPlain char = true := by
      simp [isPlain, kept]
      omega
    rw [List.singleton_append, basicTail]
    · rw [if_pos plain]
    all_goals simp_all

/-- A written string is read up to its closing quote. -/
theorem basicTail_written (chars rest : List Char) :
    basicTail (chars.flatMap escaped ++ '"' :: rest) = some (chars, rest) := by
  induction chars with
  | nil => rfl
  | cons char more ih =>
    rw [List.flatMap_cons, List.append_assoc, basicTail_escaped, ih]
    rfl

theorem head?_escaped (char : Char) :
    ∃ first more, escaped char = first :: more ∧ first ≠ '"' := by
  by_cases delete : char = '\x7f'
  · exact ⟨'\\', _, if_pos delete, by decide⟩
  rw [escaped, if_neg delete]
  have written := Json.escaped_escaped char
  generalize Json.escaped char = spelled at written
  cases written with
  | letter member => exact ⟨_, _, rfl, by decide⟩
  | number control => exact ⟨_, _, rfl, by decide⟩
  | plain quote backslash shown => exact ⟨_, _, rfl, quote⟩

theorem quoted_append (text : String) (rest : List Char) :
    quoted text ++ rest = '"' :: (text.toList.flatMap escaped ++ '"' :: rest) := by
  simp [quoted]

/-- Behind an empty string there may be no quote: three of them would open a string of several
lines. -/
theorem string?_quoted (text : String) {rest : List Char} (clear : rest.head? ≠ some '"') :
    string? (quoted text ++ rest) = some (text, rest) := by
  have onOneLine : ∀ behind : List Char, ¬['"', '"'] <+: behind →
      string? ('"' :: behind) = asText (basicTail behind) := by
    intro behind apart
    rw [string?]
    rintro more rfl
    exact apart ⟨more, rfl⟩
  rw [quoted_append, onOneLine]
  · simp only [basicTail_written, asText, Option.map_some, String.ofList_toList]
  · cases text.toList with
    | nil =>
      rintro ⟨more, same⟩
      simp at same
      simp [← same] at clear
    | cons char others =>
      obtain ⟨first, more, spelled, other⟩ := head?_escaped char
      rw [List.flatMap_cons, spelled]
      rintro ⟨tail, same⟩
      exact other (by simpa using (List.cons.inj same).1.symm)

/-! ## Keys -/

/-- A key that needs no quotes. -/
def Bare (key : String) : Prop := key.toList ≠ [] ∧ ∀ char ∈ key.toList, isBareKey char = true

-- The characters of the key are gone through, and not all characters there are.
instance (key : String) : Decidable (Bare key) :=
  @instDecidableAnd _ _ _ (List.decidableBAll _ _)

theorem bare_apart {char other : Char} (bare : isBareKey char = true)
    (never : isBareKey other = false) : char ≠ other := by
  rintro rfl
  rw [bare] at never
  cases never

theorem Bare.first {key : String} (bare : Bare key) :
    ∃ first more, key.toList = first :: more ∧ isBareKey first = true := by
  obtain ⟨first, more, spelled⟩ := List.exists_cons_of_ne_nil bare.1
  exact ⟨first, more, spelled, bare.2 first (by simp [spelled])⟩

theorem isBlank_of_isBareKey {char : Char} (bare : isBareKey char = true) :
    isBlank char = false := by
  have space : char ≠ ' ' := bare_apart bare (by decide)
  have tab : char ≠ '\t' := bare_apart bare (by decide)
  simp [isBlank, space, tab]

theorem Bare.skipBlank {key : String} (bare : Bare key) (rest : List Char) :
    skipBlank (key.toList ++ rest) = key.toList ++ rest := by
  obtain ⟨first, more, spelled, plain⟩ := bare.first
  rw [spelled, List.cons_append, Toml.skipBlank,
    List.dropWhile_cons_of_neg (by simp [isBlank_of_isBareKey plain])]

theorem Bare.simpleKey {key : String} (bare : Bare key) {rest : List Char}
    (ends : ∀ char, rest.head? = some char → isBareKey char = false) :
    simpleKey (key.toList ++ rest) = some (key, rest) := by
  have stops : rest.takeWhile isBareKey = [] ∧ rest.dropWhile isBareKey = rest := by
    cases rest with
    | nil => exact ⟨rfl, rfl⟩
    | cons first more => simp [ends first rfl]
  have taken : (key.toList ++ rest).takeWhile isBareKey = key.toList := by
    rw [List.takeWhile_append_of_pos bare.2, stops.1, List.append_nil]
  have dropped : (key.toList ++ rest).dropWhile isBareKey = rest := by
    rw [List.dropWhile_append_of_pos bare.2, stops.2]
  obtain ⟨first, more, spelled, plain⟩ := bare.first
  have front : key.toList ++ rest = first :: (more ++ rest) := by
    rw [spelled, List.cons_append]
  rw [Toml.simpleKey]
  · simp only [taken, dropped, bare.1, if_false, String.ofList_toList]
  · intro behind same
    exact bare_apart plain (by decide) (List.cons.inj (front.symm.trans same)).1
  · intro behind same
    exact bare_apart plain (by decide) (List.cons.inj (front.symm.trans same)).1

theorem Bare.key? {key : String} (bare : Bare key) {text rest : List Char}
    (found : Toml.skipBlank text = key.toList ++ rest)
    (ends : ∀ char, rest.head? = some char → isBareKey char = false)
    (single : (Toml.skipBlank rest).head? ≠ some '.') :
    key? text = some ([key], Toml.skipBlank rest) := by
  have read : dottedKey (text.length + 1) text = some ([key], Toml.skipBlank rest) := by
    rw [dottedKey, found, bare.simpleKey ends]
    simp only [Option.bind_eq_bind, Option.bind_some]
    split
    · rename_i dotted
      rw [dotted] at single
      exact absurd rfl single
    · rfl
  rw [Toml.key?, read]
  rfl

/-! ## Values -/

/-- What is written reads as a value at a depth: its first character tells it apart from blanks and
closing brackets, and it is read off the front of a text that goes on with anything but a quote. -/
structure Reads (depth : Nat) (written : List Char) (value : Value) : Prop where
  opens : ∃ first more, written = first :: more ∧ (first = '"' ∨ first = '[' ∨ first = '\x7b')
  read : ∀ rest : List Char, rest.head? ≠ some '"' →
    value? inlineFields depth (written ++ rest) = some (value, rest)

variable {depth : Nat} {written : List Char} {value : Value}

theorem reads_quoted (text : String) : Reads depth (quoted text) (.string text) := by
  refine ⟨⟨_, _, rfl, .inl rfl⟩, fun rest clear => ?_⟩
  have read := string?_quoted text clear
  rw [quoted_append] at read ⊢
  rw [value?, scalar?]
  · simp [read]
  all_goals simp

theorem Reads.ne_nil (reads : Reads depth written value) : written ≠ [] := by
  obtain ⟨first, more, rfl, _⟩ := reads.opens
  exact List.cons_ne_nil first more

theorem Reads.skipBlank (reads : Reads depth written value) (rest : List Char) :
    skipBlank (written ++ rest) = written ++ rest := by
  obtain ⟨first, more, rfl, rfl | rfl | rfl⟩ := reads.opens
  · rfl
  · rfl
  · rfl

/-! ## Items with commas between -/

def separated (items : List (List Char)) : List Char := [',', ' '].intercalate items

theorem separated_singleton (item : List Char) : separated [item] = item := by
  simp [separated, List.intercalate]

theorem separated_cons (first second : List Char) (rest : List (List Char)) :
    separated (first :: second :: rest) = first ++ ',' :: ' ' :: separated (second :: rest) := by
  simp [separated, List.intercalate, List.intersperse]

theorem separated_front (first : List Char) (rest : List (List Char)) :
    ∃ tail, separated (first :: rest) = first ++ tail := by
  cases rest with
  | nil => exact ⟨[], by rw [separated_singleton, List.append_nil]⟩
  | cons second others => exact ⟨_, separated_cons first second others⟩

theorem length_le_separated {items : List (List Char)} (some : ∀ item ∈ items, item ≠ []) :
    items.length ≤ (separated items).length := by
  induction items with
  | nil => exact Nat.zero_le _
  | cons first rest ih =>
    have here := List.length_pos_iff.2 (some first (by simp))
    cases rest with
    | nil =>
      rw [separated_singleton]
      exact here
    | cons second others =>
      have more := ih fun item member => some item (List.mem_cons_of_mem _ member)
      rw [separated_cons]
      simp only [List.length_cons, List.length_append] at more ⊢
      omega

/-! ## Arrays -/

def array (items : List (List Char)) : List Char := '[' :: (separated items ++ [']'])

theorem filler_stop {first : Char} (seen : isBlank first = false) (line : first ≠ '\n')
    (comment : first ≠ '#') (back : first ≠ '\r') (rest : List Char) :
    filler (first :: rest) = first :: rest := by
  rw [filler, skipFiller.eq_def]
  simp [seen, line, comment, back]

theorem filler_blank (text : List Char) : filler (' ' :: text) = filler text := by
  rw [filler, skipFiller.eq_def]
  rfl

theorem filler_comma (rest : List Char) : filler (',' :: rest) = ',' :: rest :=
  filler_stop (by decide) (by decide) (by decide) (by decide) rest

theorem filler_closing (rest : List Char) : filler (']' :: rest) = ']' :: rest :=
  filler_stop (by decide) (by decide) (by decide) (by decide) rest

theorem Reads.filler (reads : Reads depth written value) (rest : List Char) :
    filler (written ++ rest) = written ++ rest := by
  obtain ⟨first, more, rfl, rfl | rfl | rfl⟩ := reads.opens <;>
    exact filler_stop (by decide) (by decide) (by decide) (by decide) _

theorem Reads.arrayTail (reads : Reads depth written value) {rest : List Char}
    (clear : rest.head? ≠ some '"') (fuel : Nat) :
    arrayTail (value? inlineFields depth) (fuel + 1) (written ++ rest) =
      match Toml.filler rest with
      | ',' :: rest => do
        let (values, rest) ← Toml.arrayTail (value? inlineFields depth) fuel rest
        pure (value :: values, rest)
      | ']' :: rest => some ([value], rest)
      | _ => none := by
  have item : ∀ more, written ++ rest ≠ ']' :: more := by
    obtain ⟨first, behind, rfl, rfl | rfl | rfl⟩ := reads.opens <;> simp
  rw [Toml.arrayTail, reads.filler]
  split
  · rename_i same
    exact absurd same (item _)
  · rw [reads.read rest clear]
    rfl

theorem arrayTail_blank (readValue : List Char → Option (Value × List Char)) (fuel : Nat)
    (text : List Char) :
    arrayTail readValue fuel (' ' :: text) = arrayTail readValue fuel text := by
  cases fuel with
  | zero => rfl
  | succ fuel => rw [arrayTail, arrayTail, filler_blank]

theorem arrayTail_items {α : Type} (written : α → List Char) (value : α → Value) (first : α)
    (others : List α) (rest : List Char) {fuel : Nat} (enough : others.length < fuel)
    (reads : ∀ item ∈ first :: others, Reads depth (written item) (value item)) :
    arrayTail (value? inlineFields depth) fuel
      (separated ((first :: others).map written) ++ ']' :: rest) =
        some ((first :: others).map value, rest) := by
  obtain ⟨fuel, rfl⟩ := Nat.exists_eq_succ_of_ne_zero (by omega : fuel ≠ 0)
  induction others generalizing first fuel with
  | nil =>
    rw [List.map_singleton, separated_singleton, (reads first (by simp)).arrayTail (by simp),
      filler_closing]
    rfl
  | cons second others ih =>
    rw [List.length_cons] at enough
    obtain ⟨fuel, rfl⟩ := Nat.exists_eq_succ_of_ne_zero (by omega : fuel ≠ 0)
    have onward := ih second (fun item member => reads item (List.mem_cons_of_mem _ member)) fuel
      (by omega)
    rw [List.map_cons] at onward
    rw [List.map_cons, List.map_cons, separated_cons, List.append_assoc, List.cons_append,
      List.cons_append, (reads first (by simp)).arrayTail (by simp), filler_comma]
    simp only [arrayTail_blank, onward]
    rfl

theorem reads_array {α : Type} (written : α → List Char) (value : α → Value) (items : List α)
    (reads : ∀ item ∈ items, Reads depth (written item) (value item)) :
    Reads (depth + 1) (array (items.map written)) (.array (items.map value)) := by
  refine ⟨⟨_, _, rfl, .inr (.inl rfl)⟩, fun rest _ => ?_⟩
  have tail : arrayTail (value? inlineFields depth)
      ((separated (items.map written) ++ ']' :: rest).length + 1)
      (separated (items.map written) ++ ']' :: rest) = some (items.map value, rest) := by
    cases items with
    | nil =>
      rw [List.map_nil, separated, List.intercalate_nil, List.nil_append, arrayTail, filler_closing]
      rfl
    | cons first others =>
      refine arrayTail_items written value first others rest ?_ reads
      have spelled : ∀ item ∈ (first :: others).map written, item ≠ [] := by
        intro item member
        obtain ⟨given, inside, rfl⟩ := List.mem_map.1 member
        exact (reads given inside).ne_nil
      have items := length_le_separated spelled
      simp only [List.length_map, List.length_cons, List.length_append] at items ⊢
      omega
  rw [array, List.cons_append, List.append_assoc, List.singleton_append, value?, tail]
  rfl

/-! ## Fields -/

/-- A key, an equals sign and what the value is written as. -/
def field (given : String × List Char) : List Char := given.1.toList ++ ' ' :: '=' :: ' ' :: given.2

/-- Keys with what is written of their values, and the fields these read as. -/
inductive ReadsAll (depth : Nat) : List (String × List Char) → List (String × Value) → Prop where
  | nil : ReadsAll depth [] []
  | cons {key : String} {written : List Char} {value : Value}
    {fields : List (String × List Char)} {values : List (String × Value)}
    (bare : Bare key) (reads : Reads depth written value) (more : ReadsAll depth fields values) :
      ReadsAll depth ((key, written) :: fields) ((key, value) :: values)

/-- A key that is not dotted, given a value. -/
def assigned (given : String × Value) : Assignment := ⟨[], given.1, given.2⟩

variable {key : String}

theorem field_append (key : String) (written rest : List Char) :
    field (key, written) ++ rest = key.toList ++ ' ' :: '=' :: ' ' :: (written ++ rest) := by
  simp [field]

theorem field_ne_nil (given : String × List Char) : field given ≠ [] := by
  simp [field]

theorem Bare.skipBlank_field (bare : Bare key) (written rest : List Char) :
    Toml.skipBlank (field (key, written) ++ rest) = field (key, written) ++ rest := by
  rw [field_append, bare.skipBlank]

theorem assignment?_field (bare : Bare key) (reads : Reads depth written value)
    {text rest : List Char} (clear : rest.head? ≠ some '"')
    (found : skipBlank text = field (key, written) ++ rest) :
    assignment? (value? inlineFields depth) text = some (assigned (key, value), rest) := by
  have keyed : key? text = some ([key], '=' :: ' ' :: (written ++ rest)) := by
    refine bare.key? (found.trans (field_append key written rest)) ?_ ?_
    · rintro _ ⟨⟩
      decide
    · show some '=' ≠ some '.'
      decide
  have spaced : skipBlank (' ' :: (written ++ rest)) = written ++ rest := reads.skipBlank rest
  rw [assignment?, keyed]
  simp only [Option.bind_eq_bind, Option.bind_some, unsnoc?, List.getLast?_singleton,
    Option.map_some, after?, if_true, spaced, reads.read rest clear, List.dropLast_singleton,
    Option.pure_def, assigned]

/-! ## Assigning in order -/

theorem get?_fresh {fields : Fields} (fresh : key ∉ fields.map Prod.fst) :
    fields.get? key = none := by
  have missing : fields.find? (fun given => given.1 = key) = none := by
    apply List.find?_eq_none.2
    intro given member same
    apply fresh
    rw [← of_decide_eq_true same]
    exact List.mem_map_of_mem member
  rw [Fields.get?, missing]
  rfl

/-- A key that has no value yet is given one, behind the others. -/
theorem assign_fresh (given : String × Value) {fields : Fields}
    (fresh : given.1 ∉ fields.map Prod.fst) :
    assign (assigned given) fields = some (fields ++ [(given.1, .value given.2)]) := by
  simp [assign, assigned, alter, get?_fresh fresh]

theorem assignAll_fresh (values : List (String × Value)) {fields : Fields}
    (apart : (fields.map Prod.fst ++ values.map Prod.fst).Nodup) :
    assignAll (values.map assigned) fields =
      some (fields ++ values.map fun given => (given.1, .value given.2)) := by
  induction values generalizing fields with
  | nil => simp [assignAll]
  | cons given rest ih =>
    have fresh : given.1 ∉ fields.map Prod.fst := fun inside =>
      (List.nodup_append.1 apart).2.2 _ inside _ List.mem_cons_self rfl
    rw [List.map_cons, assignAll, assign_fresh given fresh]
    simp only [Option.bind_eq_bind, Option.bind_some]
    rw [ih (by simpa using apart)]
    simp

theorem closeFields_values (values : List (String × Value)) :
    closeFields (values.map fun given => (given.1, .value given.2)) = values := by
  induction values with
  | nil => rfl
  | cons given rest ih => simp [closeFields, Item.close, ih]

theorem inlineFields_assigned {values : List (String × Value)}
    (apart : (values.map Prod.fst).Nodup) : inlineFields (values.map assigned) = some values := by
  rw [inlineFields, assignAll_fresh values (by simpa using apart), Option.map_some,
    List.nil_append, closeFields_values]

/-! ## Inline tables -/

def inlineTable (fields : List (String × List Char)) : List Char :=
  '\x7b' :: ' ' :: (separated (fields.map field) ++ [' ', '\x7d'])

theorem Bare.skipBlank_fields (bare : Bare key) (written : List Char) (others : List (List Char))
    (rest : List Char) :
    Toml.skipBlank (separated (field (key, written) :: others) ++ rest) =
      separated (field (key, written) :: others) ++ rest := by
  obtain ⟨tail, front⟩ := separated_front (field (key, written)) others
  rw [front, List.append_assoc, bare.skipBlank_field]

theorem inlineTail_fields {fields : List (String × List Char)} {values : List (String × Value)}
    (bare : Bare key) (reads : Reads depth written value) (more : ReadsAll depth fields values)
    (rest : List Char) {text : List Char} {fuel : Nat} (enough : fields.length < fuel)
    (found : skipBlank text =
      separated (((key, written) :: fields).map field) ++ ' ' :: '\x7d' :: rest) :
    inlineTail (value? inlineFields depth) fuel text =
      some (((key, value) :: values).map assigned, rest) := by
  obtain ⟨fuel, rfl⟩ := Nat.exists_eq_succ_of_ne_zero (by omega : fuel ≠ 0)
  induction more generalizing key written value text fuel with
  | nil =>
    rw [List.map_singleton, separated_singleton] at found
    rw [inlineTail, assignment?_field bare reads (by simp) found]
    rfl
  | @cons second laid other fields values also readsOther onward ih =>
    rw [List.map_cons, List.map_cons, separated_cons, List.append_assoc] at found
    rw [List.length_cons] at enough
    obtain ⟨fuel, rfl⟩ := Nat.exists_eq_succ_of_ne_zero (by omega : fuel ≠ 0)
    let behind := separated (((second, laid) :: fields).map field) ++ ' ' :: '\x7d' :: rest
    have spaced : skipBlank (' ' :: behind) = behind :=
      also.skipBlank_fields laid (fields.map field) (' ' :: '\x7d' :: rest)
    have later := ih also readsOther spaced fuel (by omega)
    have comma : ∀ text, skipBlank (',' :: text) = ',' :: text := fun _ => rfl
    rw [inlineTail, assignment?_field bare reads (by simp) found]
    simp only [List.cons_append, Option.bind_eq_bind, Option.bind_some, comma]
    show (inlineTail _ (fuel + 1) (' ' :: behind)).bind _ = _
    rw [later]
    rfl

theorem inlineTable?_of_items {readValue : List Char → Option (Value × List Char)}
    {text given : List Char} (found : skipBlank given = text)
    (items : ∀ behind, text ≠ '\x7d' :: behind) :
    inlineTable? readValue given = inlineTail readValue (text.length + 1) text := by
  rw [inlineTable?, found]
  split
  · exact absurd rfl (items _)
  · rfl

theorem inlineTable?_fields {fields : List (String × List Char)} {values : List (String × Value)}
    (bare : Bare key) (reads : Reads depth written value) (more : ReadsAll depth fields values)
    (rest : List Char) :
    inlineTable? (value? inlineFields depth)
      (' ' :: (separated (((key, written) :: fields).map field) ++ ' ' :: '\x7d' :: rest)) =
        some (((key, value) :: values).map assigned, rest) := by
  let text := separated (((key, written) :: fields).map field) ++ ' ' :: '\x7d' :: rest
  have spaced : skipBlank text = text :=
    bare.skipBlank_fields written (fields.map field) (' ' :: '\x7d' :: rest)
  have items : ∀ behind, text ≠ '\x7d' :: behind := by
    intro behind same
    obtain ⟨char, others, spelled, plain⟩ := bare.first
    obtain ⟨tail, front⟩ := separated_front (field (key, written)) (fields.map field)
    simp only [text, List.map_cons, front, List.append_assoc, field_append, spelled] at same
    exact bare_apart plain (by decide) (List.cons.inj same).1
  have enough : fields.length < text.length + 1 := by
    have spelled : ∀ item ∈ ((key, written) :: fields).map field, item ≠ [] := by
      intro item member
      obtain ⟨given, _, rfl⟩ := List.mem_map.1 member
      exact field_ne_nil given
    have counted := length_le_separated spelled
    simp only [text, List.length_map, List.length_cons, List.length_append] at counted ⊢
    omega
  have opened : skipBlank (' ' :: text) = text := spaced
  show inlineTable? _ (' ' :: text) = _
  rw [inlineTable?_of_items opened items]
  exact inlineTail_fields bare reads more rest enough spaced

theorem reads_inlineTable {first : String × List Char} {fields : List (String × List Char)}
    {values : List (String × Value)} (all : ReadsAll depth (first :: fields) values)
    (apart : (values.map Prod.fst).Nodup) :
    Reads (depth + 1) (inlineTable (first :: fields)) (.table values) := by
  refine ⟨⟨_, _, rfl, .inr (.inr rfl)⟩, fun rest _ => ?_⟩
  cases all with
  | @cons key written value _ values bare reads more =>
    have whole : inlineTable ((key, written) :: fields) ++ rest =
        '\x7b' :: ' ' :: (separated (((key, written) :: fields).map field) ++
          ' ' :: '\x7d' :: rest) := by
      simp [inlineTable]
    rw [whole, value?, inlineTable?_fields bare reads more]
    simp only [Option.bind_eq_bind, Option.bind_some, inlineFields_assigned apart]
    rfl

end Retarget.Toml
