/-!
Literal search from left to right. An occurrence that is taken is passed over whole, so occurrences
that are counted or replaced never overlap, and each is the leftmost that is left.
-/
namespace Retarget

/-- Whether a pattern stands anywhere in a text. -/
def occursIn (pattern : List Char) : List Char → Bool
  | [] => pattern.isEmpty
  | char :: rest => pattern.isPrefixOf (char :: rest) || occursIn pattern rest

/-- Counts occurrences; `skip` characters of the last one are still to be passed over. -/
def countFrom (pattern : List Char) : (skip : Nat) → List Char → Nat
  | _, [] => 0
  | skip + 1, _ :: rest => countFrom pattern skip rest
  | 0, char :: rest =>
    if pattern.isPrefixOf (char :: rest) then 1 + countFrom pattern (pattern.length - 1) rest
    else countFrom pattern 0 rest

/-- Replaces occurrences; `skip` characters of the last one are still to be passed over. -/
def replaceFrom (pattern replacement : List Char) : (skip : Nat) → List Char → List Char
  | _, [] => []
  | skip + 1, _ :: rest => replaceFrom pattern replacement skip rest
  | 0, char :: rest =>
    if pattern.isPrefixOf (char :: rest) then
      replacement ++ replaceFrom pattern replacement (pattern.length - 1) rest
    else char :: replaceFrom pattern replacement 0 rest

/-- How often a non-empty pattern is met. -/
def occurrences (pattern text : List Char) : Nat := countFrom pattern 0 text

/-- The text with every occurrence of a non-empty pattern replaced. -/
def replaceAll (pattern replacement text : List Char) : List Char := replaceFrom pattern replacement 0 text

theorem countFrom_drop (pattern : List Char) (skip : Nat) (text : List Char) :
    countFrom pattern skip text = occurrences pattern (text.drop skip) := by
  induction text generalizing skip with
  | nil => cases skip <;> simp [countFrom, occurrences]
  | cons char rest ih =>
    cases skip with
    | zero => rfl
    | succ skip => simpa [countFrom] using ih skip

theorem replaceFrom_drop (pattern replacement : List Char) (skip : Nat) (text : List Char) :
    replaceFrom pattern replacement skip text = replaceAll pattern replacement (text.drop skip) := by
  induction text generalizing skip with
  | nil => cases skip <;> simp [replaceFrom, replaceAll]
  | cons char rest ih =>
    cases skip with
    | zero => rfl
    | succ skip => simpa [replaceFrom] using ih skip

theorem occursIn_iff {pattern text : List Char} : occursIn pattern text = true ↔ pattern <:+: text := by
  induction text with
  | nil => simp [occursIn]
  | cons char rest ih => simp [occursIn, ih, List.infix_cons_iff]

end Retarget
