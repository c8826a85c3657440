import Mathlib.Algebra.Group.Nat.Defs
import Mathlib.Tactic.Common
import Retarget.Text.Utf8

/-!
Lossy reading. A character of more than one byte never comes out as one of ASCII, however it ends,
so an ASCII character that is read was a byte. What was written as text is read back as it was.
-/
namespace Retarget

theorem utf8_eq_flatMap (text : String) :
    utf8 text = text.toList.flatMap String.utf8EncodeChar := by
  rw [utf8, String.toUTF8_eq_toByteArray, ← String.utf8Encode_toList]
  simp [List.utf8Encode]

namespace Utf8

/-- The number of a character that takes more than one byte. -/
def Wide (number : Nat) : Prop := 0x80 ≤ number ∧ number.isValidChar

/-- Whatever the next byte in range and the bytes after it are, the character has a wide number. -/
def State.Wide : State → Prop
  | .between => True
  | .inside owed low high code => owed ≠ 0 ∧ ∀ byte, low ≤ byte → byte ≤ high → ∀ number,
      number / 64 ^ (owed - 1) = code * 64 + (byte.toNat - 0x80) → Utf8.Wide number

theorem Wide.toNat_ofNat {number : Nat} (wide : Wide number) :
    (Char.ofNat number).toNat = number := by
  rw [Char.ofNat, dif_pos wide.2]
  rfl

theorem lead_wide {byte : UInt8} {state : State} (begun : lead byte = some state) : state.Wide := by
  unfold lead at begun
  simp only [UInt8.le_iff_toNat_le, ← UInt8.toNat_inj] at begun
  split_ifs at begun <;> cases begun <;>
    refine ⟨by decide, fun next low high number whole => ?_⟩ <;>
    simp only [UInt8.le_iff_toNat_le, UInt8.reduceToNat, Utf8.Wide, Nat.isValidChar, Nat.reducePow,
      Nat.reduceSub] at * <;>
    omega

theorem start_wide (byte : UInt8) : (start byte).2.Wide ∧
    ∀ char ∈ (start byte).1, char.toNat < 0x80 → byte.toNat = char.toNat := by
  unfold start
  split_ifs with narrow
  · refine ⟨trivial, fun char member _ => ?_⟩
    have small : byte.toNat < 0x80 := UInt8.lt_iff_toNat_lt.1 narrow
    rw [List.mem_singleton.1 member, Char.ofNat, dif_pos (.inl (by omega))]
    rfl
  · cases begun : lead byte with
    | some state => exact ⟨lead_wide begun, by simp⟩
    | none =>
      refine ⟨trivial, fun char member small => ?_⟩
      rw [List.mem_singleton.1 member] at small
      exact absurd small (by decide)

/-- One byte keeps the promise, and an ASCII character that comes out of it is that byte. -/
theorem step_wide {state : State} (wide : state.Wide) (byte : UInt8) : (step state byte).2.Wide ∧
    ∀ char ∈ (step state byte).1, char.toNat < 0x80 → byte.toNat = char.toNat := by
  cases state with
  | between => exact start_wide byte
  | inside owed low high code =>
    simp only [step]
    split_ifs with inRange last
    · refine ⟨trivial, fun char member small => ?_⟩
      have whole :=
        wide.2 byte inRange.1 inRange.2 (code * 64 + (byte.toNat - 0x80)) (by simp [last])
      rw [List.mem_singleton.1 member, whole.toNat_ofNat] at small
      exact absurd small (by have := whole.1; omega)
    · obtain ⟨more, rfl⟩ : ∃ more, owed = more + 2 :=
        ⟨owed - 2, by have := wide.1; omega⟩
      refine ⟨⟨by simp, fun next low high number whole => ?_⟩, by simp⟩
      refine wide.2 byte inRange.1 inRange.2 number ?_
      simp only [UInt8.le_iff_toNat_le, UInt8.reduceToNat, Nat.add_one_sub_one] at low high whole ⊢
      rw [Nat.pow_succ, ← Nat.div_div_eq_div_mul]
      omega
    · obtain ⟨later, ascii⟩ := start_wide byte
      refine ⟨later, fun char member small => ?_⟩
      rcases List.mem_cons.1 member with rfl | further
      · exact absurd small (by decide)
      · exact ascii char further small

/-- An ASCII character that is read is one of the bytes. -/
theorem mem_lossyFrom {state : State} (wide : state.Wide) {bytes : Bytes} {char : Char}
    (inside : char ∈ lossyFrom state bytes) (narrow : char.toNat < 0x80) :
    ∃ byte ∈ bytes, byte.toNat = char.toNat := by
  induction bytes generalizing state with
  | nil =>
    cases state with
    | between => cases inside
    | inside owed low high code =>
      rw [List.mem_singleton.1 inside] at narrow
      exact absurd narrow (by decide)
  | cons byte rest ih =>
    obtain ⟨later, ascii⟩ := step_wide wide byte
    have unfolded : lossyFrom state (byte :: rest) =
        (step state byte).1 ++ lossyFrom (step state byte).2 rest := by cases state <;> rfl
    rw [unfolded, List.mem_append] at inside
    rcases inside with here | further
    · exact ⟨byte, by simp, ascii char here narrow⟩
    · obtain ⟨found, member, same⟩ := ih later further
      exact ⟨found, List.mem_cons_of_mem _ member, same⟩

/-! ## Reading what was written -/

theorem lossyFrom_last {low high byte : UInt8} {code : Nat} (inRange : low ≤ byte ∧ byte ≤ high)
    (rest : Bytes) : lossyFrom (.inside 1 low high code) (byte :: rest) =
      Char.ofNat (code * 64 + (byte.toNat - 0x80)) :: lossyFrom .between rest := by
  simp [lossyFrom, step, inRange]

theorem lossyFrom_more {low high byte : UInt8} {code owed : Nat}
    (inRange : low ≤ byte ∧ byte ≤ high) (rest : Bytes) :
    lossyFrom (.inside (owed + 2) low high code) (byte :: rest) =
      lossyFrom (.inside (owed + 1) 0x80 0xBF (code * 64 + (byte.toNat - 0x80))) rest := by
  simp [lossyFrom, step, inRange]

theorem lossyFrom_lead {byte : UInt8} {state : State} (begun : lead byte = some state)
    (wide : ¬byte < 0x80) (rest : Bytes) :
    lossyFrom .between (byte :: rest) = lossyFrom state rest := by
  simp [lossyFrom, step, start, wide, begun]

/-- A byte in the tail of a character, with six bits of its number. -/
theorem tail_toNat (number : Nat) :
    (UInt8.ofNat (number % 0x40 + 0x80)).toNat = number % 0x40 + 0x80 :=
  UInt8.toNat_ofNat_of_lt' (by rw [UInt8.size]; omega)

theorem tail_inRange {low high : UInt8} {number : Nat} (above : low.toNat ≤ number % 0x40 + 0x80)
    (below : number % 0x40 + 0x80 ≤ high.toNat) :
    low ≤ UInt8.ofNat (number % 0x40 + 0x80) ∧ UInt8.ofNat (number % 0x40 + 0x80) ≤ high := by
  rw [UInt8.le_iff_toNat_le, UInt8.le_iff_toNat_le, tail_toNat]
  exact ⟨above, below⟩

/-- The first byte of a character, with the bits in front of its number. -/
theorem lead_toNat (front mark : Nat) (fits : front + mark < 0x100) :
    (UInt8.ofNat (front + mark)).toNat = front + mark := UInt8.toNat_ofNat_of_lt' fits

theorem lossyFrom_two {number : Nat} (low : 0x80 ≤ number) (high : number ≤ 0x7FF) (rest : Bytes) :
    lossyFrom .between (UInt8.ofNat (number / 64 % 0x20 + 0xC0) ::
      UInt8.ofNat (number % 0x40 + 0x80) :: rest) =
        Char.ofNat number :: lossyFrom .between rest := by
  have first := lead_toNat (number / 64 % 0x20) 0xC0 (by omega)
  have begun : lead (UInt8.ofNat (number / 64 % 0x20 + 0xC0)) =
      some (.inside 1 0x80 0xBF (number / 64)) := by
    simp only [lead, UInt8.le_iff_toNat_le, first, UInt8.reduceToNat]
    rw [if_pos (by omega), Nat.add_sub_cancel, Nat.mod_eq_of_lt (by omega)]
  have wide : ¬UInt8.ofNat (number / 64 % 0x20 + 0xC0) < 0x80 := by
    simp only [UInt8.lt_iff_toNat_lt, first, UInt8.reduceToNat]
    omega
  rw [lossyFrom_lead begun wide, lossyFrom_last (tail_inRange (by simp) (by simp; omega)),
    tail_toNat, show number / 64 * 64 + (number % 0x40 + 0x80 - 0x80) = number by omega]

theorem lossyFrom_three {number : Nat} (valid : number.isValidChar) (low : 0x800 ≤ number)
    (high : number ≤ 0xFFFF) (rest : Bytes) :
    lossyFrom .between (UInt8.ofNat (number / 4096 % 0x10 + 0xE0) ::
      UInt8.ofNat (number / 64 % 0x40 + 0x80) :: UInt8.ofNat (number % 0x40 + 0x80) :: rest) =
        Char.ofNat number :: lossyFrom .between rest := by
  have first := lead_toNat (number / 4096 % 0x10) 0xE0 (by omega)
  obtain ⟨start, stop, code, begun, front, above, below⟩ : ∃ start stop code,
      lead (UInt8.ofNat (number / 4096 % 0x10 + 0xE0)) = some (.inside 2 start stop code) ∧
      code = number / 4096 ∧
      start.toNat ≤ number / 64 % 0x40 + 0x80 ∧ number / 64 % 0x40 + 0x80 ≤ stop.toNat := by
    simp only [lead, UInt8.le_iff_toNat_le, ← UInt8.toNat_inj, first, UInt8.reduceToNat]
    rw [if_neg (by omega)]
    rcases valid with before | ⟨after, _⟩ <;> split_ifs <;>
      first
      | omega
      | refine ⟨_, _, _, rfl, by omega, ?_, ?_⟩ <;> simp only [UInt8.reduceToNat] <;> omega
  have wide : ¬UInt8.ofNat (number / 4096 % 0x10 + 0xE0) < 0x80 := by
    simp only [UInt8.lt_iff_toNat_lt, first, UInt8.reduceToNat]
    omega
  rw [lossyFrom_lead begun wide, lossyFrom_more (tail_inRange above below),
    lossyFrom_last (tail_inRange (by simp) (by simp; omega)), tail_toNat, tail_toNat, front]
  rw [show (number / 4096 * 64 + (number / 64 % 0x40 + 0x80 - 0x80)) * 64 +
    (number % 0x40 + 0x80 - 0x80) = number by omega]

theorem lossyFrom_four {number : Nat} (low : 0x10000 ≤ number) (high : number < 0x110000)
    (rest : Bytes) :
    lossyFrom .between (UInt8.ofNat (number / 262144 % 0x08 + 0xF0) ::
      UInt8.ofNat (number / 4096 % 0x40 + 0x80) :: UInt8.ofNat (number / 64 % 0x40 + 0x80) ::
        UInt8.ofNat (number % 0x40 + 0x80) :: rest) =
          Char.ofNat number :: lossyFrom .between rest := by
  have first := lead_toNat (number / 262144 % 0x08) 0xF0 (by omega)
  obtain ⟨start, stop, code, begun, front, above, below⟩ : ∃ start stop code,
      lead (UInt8.ofNat (number / 262144 % 0x08 + 0xF0)) = some (.inside 3 start stop code) ∧
      code = number / 262144 ∧
      start.toNat ≤ number / 4096 % 0x40 + 0x80 ∧ number / 4096 % 0x40 + 0x80 ≤ stop.toNat := by
    simp only [lead, UInt8.le_iff_toNat_le, ← UInt8.toNat_inj, first, UInt8.reduceToNat]
    rw [if_neg (by omega)]
    split_ifs <;>
      first
      | omega
      | refine ⟨_, _, _, rfl, by omega, ?_, ?_⟩ <;> simp only [UInt8.reduceToNat] <;> omega
  have wide : ¬UInt8.ofNat (number / 262144 % 0x08 + 0xF0) < 0x80 := by
    simp only [UInt8.lt_iff_toNat_lt, first, UInt8.reduceToNat]
    omega
  rw [lossyFrom_lead begun wide, lossyFrom_more (tail_inRange above below),
    lossyFrom_more (tail_inRange (by simp) (by simp; omega)),
    lossyFrom_last (tail_inRange (by simp) (by simp; omega)), tail_toNat, tail_toNat, tail_toNat,
    front]
  rw [show ((number / 262144 * 64 + (number / 4096 % 0x40 + 0x80 - 0x80)) * 64 +
    (number / 64 % 0x40 + 0x80 - 0x80)) * 64 + (number % 0x40 + 0x80 - 0x80) = number by omega]

theorem lossyFrom_char (char : Char) (rest : Bytes) :
    lossyFrom .between (String.utf8EncodeChar char ++ rest) = char :: lossyFrom .between rest := by
  have valid : char.val.toNat.isValidChar := char.valid
  have same : Char.ofNat char.val.toNat = char := Char.ofNat_toNat char
  have small : char.val.toNat < 0x110000 := by
    rcases valid with before | ⟨_, after⟩ <;> omega
  unfold String.utf8EncodeChar
  simp only
  split_ifs with one two three
  · have byte : (UInt8.ofNat char.val.toNat).toNat = char.val.toNat :=
      UInt8.toNat_ofNat_of_lt' (by rw [UInt8.size]; omega)
    have narrow : UInt8.ofNat char.val.toNat < 0x80 := by
      rw [UInt8.lt_iff_toNat_lt, byte]
      exact Nat.lt_succ_of_le one
    simp only [List.cons_append, List.nil_append, lossyFrom, step, start, if_pos narrow, byte, same]
  · exact (lossyFrom_two (by omega) two rest).trans (by rw [same])
  · exact (lossyFrom_three valid (by omega) three rest).trans (by rw [same])
  · exact (lossyFrom_four (by omega) small rest).trans (by rw [same])

end Utf8

/-- What was written as text is read as that text. -/
@[simp] theorem lossyText_utf8 (text : String) : lossyText (utf8 text) = text := by
  have read : ∀ chars : List Char,
      Utf8.lossyFrom .between (chars.flatMap String.utf8EncodeChar) = chars := by
    intro chars
    induction chars with
    | nil => rfl
    | cons char rest ih => rw [List.flatMap_cons, Utf8.lossyFrom_char, ih]
  rw [lossyText, utf8_eq_flatMap, read, String.ofList_toList]

/-- A byte of ASCII in what a character is written as is that character. -/
theorem toNat_of_mem_utf8EncodeChar {char : Char} {byte : UInt8}
    (inside : byte ∈ String.utf8EncodeChar char) (narrow : byte < 0x80) :
    byte.toNat = char.toNat := by
  have small : byte.toNat < 0x80 := UInt8.lt_iff_toNat_lt.1 narrow
  have wide : ∀ front mark : Nat, front + mark < 0x100 → 0x80 ≤ mark →
      byte ≠ UInt8.ofNat (front + mark) := by
    rintro front mark fits marked rfl
    rw [Utf8.lead_toNat front mark fits] at small
    omega
  unfold String.utf8EncodeChar at inside
  simp only at inside
  split_ifs at inside with one two three
  · rw [List.mem_singleton.1 inside, UInt8.toNat_ofNat_of_lt' (by rw [UInt8.size]; omega)]
    rfl
  all_goals simp only [List.mem_cons, List.not_mem_nil, or_false] at inside
  · rcases inside with same | same <;> exact absurd same (wide _ _ (by omega) (by decide))
  · rcases inside with same | same | same <;> exact absurd same (wide _ _ (by omega) (by decide))
  · rcases inside with same | same | same | same <;>
      exact absurd same (wide _ _ (by omega) (by decide))

/-- Reading and writing again makes no byte of ASCII that was not there. -/
theorem mem_of_mem_utf8_lossyText {bytes : Bytes} {byte : UInt8}
    (inside : byte ∈ utf8 (lossyText bytes)) (narrow : byte < 0x80) : byte ∈ bytes := by
  rw [utf8_eq_flatMap] at inside
  obtain ⟨char, read, written⟩ := List.mem_flatMap.1 inside
  have same := toNat_of_mem_utf8EncodeChar written narrow
  rw [lossyText, String.toList_ofList] at read
  have between : Utf8.State.Wide .between := trivial
  obtain ⟨found, member, given⟩ := Utf8.mem_lossyFrom between read
    (same ▸ UInt8.lt_iff_toNat_lt.1 narrow)
  rwa [← UInt8.toNat_inj.1 (given.trans same.symm)]

/-- Bytes that are text are told from other such bytes by what they are read as. -/
theorem lossyText_injOn {first second : Bytes} (isText : text? first ≠ none)
    (alsoText : text? second ≠ none) (same : lossyText first = lossyText second) :
    first = second := by
  obtain ⟨text, read⟩ := Option.ne_none_iff_exists'.1 isText
  obtain ⟨other, alsoRead⟩ := Option.ne_none_iff_exists'.1 alsoText
  rw [← text?_eq_some_iff.1 read, ← text?_eq_some_iff.1 alsoRead] at same ⊢
  rw [lossyText_utf8, lossyText_utf8] at same
  rw [same]

end Retarget
