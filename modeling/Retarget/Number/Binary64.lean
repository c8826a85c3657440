/-!
Floating point numbers of 64 bits. A decimal is read as the nearest of them, an exact half going to the
even neighbour; a number is written with the fewest digits that read back, never with an exponent.
-/
namespace Retarget

inductive Binary64 where
  /-- `mantissa * 2 ^ exponent`, with the sign apart so that both zeros are there. -/
  | finite (negative : Bool) (mantissa : Nat) (exponent : Int)
  | infinite (negative : Bool)
  | nan
deriving DecidableEq

namespace Binary64

def leastExponent : Int := -1074

def greatestExponent : Int := 971

/-- A fraction `numerator / denominator * 2 ^ -exponent` in lowest steps of one, rounded half to even. -/
def roundHalfEven (numerator denominator : Nat) (exponent : Int) : Nat :=
  let numerator := numerator * Nat.pow 2 (-exponent).toNat
  let denominator := denominator * Nat.pow 2 exponent.toNat
  let quotient := numerator / denominator
  let remainder := numerator % denominator
  if 2 * remainder < denominator then quotient
  else if denominator < 2 * remainder then quotient + 1
  else quotient + quotient % 2

def ofFraction (negative : Bool) (numerator denominator : Nat) : Binary64 :=
  let estimate : Int := (numerator.log2 : Int) - denominator.log2 - 53
  let wide := roundHalfEven numerator denominator estimate
  let exponent := max leastExponent (if Nat.pow 2 53 ≤ wide then estimate + 1 else estimate)
  let mantissa := roundHalfEven numerator denominator exponent
  let (mantissa, exponent) := if mantissa = Nat.pow 2 53 then (Nat.pow 2 52, exponent + 1) else (mantissa, exponent)
  if greatestExponent < exponent then infinite negative else finite negative mantissa exponent

/-- The number nearest to `digits * 10 ^ exponent`. `count` is the number of digits. -/
def ofDecimal (negative : Bool) (digits count : Nat) (exponent : Int) : Binary64 :=
  if digits = 0 then finite negative 0 leastExponent
  else if 400 < (count : Int) + exponent then infinite negative
  else if (count : Int) + exponent < -400 then finite negative 0 leastExponent
  else ofFraction negative (digits * Nat.pow 10 exponent.toNat) (Nat.pow 10 (-exponent).toNat)

/-- The multiples of `10 ^ power` on both sides of a fraction that lie between the bounds, the nearer first;
of two equally near the greater. All are taken over one denominator, and `closed` tells whether the bounds
themselves count. -/
def nearby (low value high denominator : Nat) (closed : Bool) (power : Int) : Option Nat :=
  let unit := denominator * Nat.pow 10 power.toNat
  let scale := Nat.pow 10 (-power).toNat
  let below := value * scale / unit
  let inside := fun (multiple : Nat) =>
    if closed then low * scale ≤ multiple * unit && multiple * unit ≤ high * scale
    else low * scale < multiple * unit && multiple * unit < high * scale
  let nearerAbove := unit ≤ 2 * (value * scale % unit)
  if inside below && (!inside (below + 1) || !nearerAbove) && below ≠ 0 then some below
  else if inside (below + 1) then some (below + 1)
  else none

/-- Tries ever finer powers of ten, from `power` on. -/
def shortestFrom (low value high denominator : Nat) (closed : Bool) : (fuel : Nat) → (power : Int) → Nat × Int
  | 0, power => (value, power)
  | fuel + 1, power =>
    match nearby low value high denominator closed power with
    | some digits => (digits, power)
    | none => shortestFrom low value high denominator closed fuel (power - 1)

/-- Digits and power of ten of the shortest decimal that reads back as `mantissa * 2 ^ exponent`. -/
def shortest (mantissa : Nat) (exponent : Int) : Nat × Int :=
  if mantissa = 0 then (0, 0)
  else
    let factor := 4 * Nat.pow 2 exponent.toNat
    let value := mantissa * factor
    let gapBelow := if mantissa = Nat.pow 2 52 ∧ leastExponent < exponent then factor / 4 else factor / 2
    let high := value + factor / 2
    shortestFrom (value - gapBelow) value high (4 * Nat.pow 2 (-exponent).toNat) (mantissa % 2 = 0) 700 310

/-- Digits times a power of ten, written out in full with at least one digit on each side of the point. -/
def positional (digits : Nat) (power : Int) : List Char :=
  let written := Nat.toDigits 10 digits
  if 0 ≤ power then written ++ List.replicate power.toNat '0' ++ ['.', '0']
  else
    let places := (-power).toNat
    let padded := List.replicate (places + 1 - written.length) '0' ++ written
    padded.take (padded.length - places) ++ '.' :: padded.drop (padded.length - places)

def text : Binary64 → String
  | nan => "NaN"
  | infinite false => "inf"
  | infinite true => "-inf"
  | finite negative mantissa exponent =>
    let (digits, power) := shortest mantissa exponent
    String.ofList ((if negative then ['-'] else []) ++ positional digits power)

end Binary64
end Retarget
