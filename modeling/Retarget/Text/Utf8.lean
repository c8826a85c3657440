/-!
Bytes and the text they stand for. Strict reading accepts exactly the written forms of texts; lossy
reading never fails and puts U+FFFD for every longest run of bytes that begins a character and does
not finish it.
-/
namespace Retarget

abbrev Bytes := List UInt8

def utf8 (text : String) : Bytes := text.toUTF8.data.toList

/-- The text whose written form these bytes are. -/
def text? (bytes : Bytes) : Option String := String.fromUTF8? ⟨bytes.toArray⟩

theorem text?_eq_some_iff {bytes : Bytes} {text : String} : text? bytes = some text ↔ utf8 text = bytes := by
  simp only [text?, utf8, String.fromUTF8?]
  split
  · rename_i valid
    constructor
    · intro h
      cases h
      rfl
    · intro h
      subst h
      exact congrArg some (String.toByteArray_inj.1 rfl)
  · rename_i invalid
    constructor
    · intro h
      cases h
    · intro h
      subst h
      exact absurd text.isValidUTF8 invalid

@[simp] theorem text?_utf8 (text : String) : text? (utf8 text) = some text := text?_eq_some_iff.2 rfl

theorem utf8_injective {first second : String} (same : utf8 first = utf8 second) : first = second := by
  have read := text?_utf8 first
  rw [same, text?_utf8] at read
  exact (Option.some.inj read).symm

theorem utf8_append (first second : String) : utf8 (first ++ second) = utf8 first ++ utf8 second := by
  simp [utf8, String.toByteArray_append]

namespace Utf8

/-- Where a reader stands: between characters, or inside one with `owed` more bytes to come, the next
of them between `low` and `high`. `code` is the number read so far. -/
inductive State where
  | between
  | inside (owed : Nat) (low high : UInt8) (code : Nat)

/-- The state after the first byte of a character of more than one byte. -/
def lead (byte : UInt8) : Option State :=
  let code := byte.toNat
  if 0xC2 ≤ byte ∧ byte ≤ 0xDF then some (.inside 1 0x80 0xBF (code - 0xC0))
  else if byte = 0xE0 then some (.inside 2 0xA0 0xBF 0)
  else if byte = 0xED then some (.inside 2 0x80 0x9F 0xD)
  else if 0xE1 ≤ byte ∧ byte ≤ 0xEF then some (.inside 2 0x80 0xBF (code - 0xE0))
  else if byte = 0xF0 then some (.inside 3 0x90 0xBF 0)
  else if 0xF1 ≤ byte ∧ byte ≤ 0xF3 then some (.inside 3 0x80 0xBF (code - 0xF0))
  else if byte = 0xF4 then some (.inside 3 0x80 0x8F 4)
  else none

def replacement : Char := Char.ofNat 0xFFFD

/-- Reads a byte between characters: what it yields at once, and the state after it. -/
def start (byte : UInt8) : List Char × State :=
  if byte < 0x80 then ([Char.ofNat byte.toNat], .between)
  else match lead byte with
    | some state => ([], state)
    | none => ([replacement], .between)

def step : State → UInt8 → List Char × State
  | .between, byte => start byte
  | .inside owed low high code, byte =>
    if low ≤ byte ∧ byte ≤ high then
      let code := code * 64 + (byte.toNat - 0x80)
      if owed = 1 then ([Char.ofNat code], .between)
      else ([], .inside (owed - 1) 0x80 0xBF code)
    else
      let (chars, state) := start byte
      (replacement :: chars, state)

def lossyFrom : State → Bytes → List Char
  | .between, [] => []
  | .inside .., [] => [replacement]
  | state, byte :: rest =>
    let (chars, state) := step state byte
    chars ++ lossyFrom state rest

end Utf8

def lossyText (bytes : Bytes) : String := String.ofList (Utf8.lossyFrom .between bytes)

end Retarget
