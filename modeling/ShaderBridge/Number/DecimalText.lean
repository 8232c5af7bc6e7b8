import ShaderBridge.Number.Binary

namespace ShaderBridge

open scoped PlainNumbers

/-- A decimal number `digits * 10 ^ exponent`, written with a leading digit that is not zero. -/
structure Digits where
  digits : Nat
  exponent : Int
deriving DecidableEq, Repr

namespace Digits

def text (d : Digits) : List Char :=
  Nat.toDigits 10 d.digits

/-- The power of ten that the leading digit counts. -/
def leadingExponent (d : Digits) : Int :=
  d.exponent + (d.text.length - 1 : Nat)

end Digits

/-- `num / den` rounded to `n` significant digits, a tie going to the even digit. -/
def significantDigits (n num den : Nat) : Digits :=
  let e := floorLog10 num den - (n - 1 : Nat)
  let d := roundScaled num den 10 e
  if d = 10 ^ n then ⟨10 ^ (n - 1), e + 1⟩ else ⟨d, e⟩

/-- The digits of a natural number around a point with `places` digits after it. -/
def placePoint (places digits : Nat) : List Char :=
  let padded := (Nat.toDigits 10 digits)
  let padded := List.replicate (places + 1 - padded.length) '0' ++ padded
  let whole := padded.take (padded.length - places)
  let fraction := padded.drop (padded.length - places)
  if places = 0 then whole else whole ++ '.' :: fraction

/-- A text with a fraction, without the zeros at its end and without a point that would be last. -/
def trimFraction (cs : List Char) : List Char :=
  if cs.contains '.' then
    let kept := (cs.reverse.dropWhile (· == '0')).reverse
    if kept.getLast? = some '.' then kept.dropLast else kept
  else cs

/-- The quotients that round to one binary number, scaled by a common denominator. -/
structure RoundingInterval where
  low : Nat
  value : Nat
  high : Nat
  den : Nat
  closed : Bool
deriving Repr

namespace RoundingInterval

/-- The interval of a positive finite number of a format. Below a power of two the neighbour is half
as far away. -/
def ofFinite (f : BinaryFormat) (significand : Nat) (exponent : Int) : RoundingInterval :=
  let narrow := significand = 2 ^ f.fractionBits ∧ f.minExponent < exponent
  let unit := match exponent with
    | .ofNat e => 2 ^ e
    | .negSucc _ => 1
  let den := match exponent with
    | .ofNat _ => 4
    | .negSucc e => 4 * 2 ^ (e + 1)
  let value := 4 * significand * unit
  { low := if narrow then value - unit else value - 2 * unit
    value := value
    high := value + 2 * unit
    den := den
    closed := significand % 2 = 0 }

/-- Whether `digits * 10 ^ exponent` lies in the interval. -/
def contains (i : RoundingInterval) (digits : Nat) (exponent : Int) : Bool :=
  let (scale, unscale) : Nat × Nat := match exponent with
    | .ofNat e => (10 ^ e, 1)
    | .negSucc e => (1, 10 ^ (e + 1))
  let x := digits * scale * i.den
  let low := i.low * unscale
  let high := i.high * unscale
  if i.closed then low ≤ x && x ≤ high else low < x && x < high

/-- The better neighbour of the value on the grid of `n` significant digits, if one of the two lies
in the interval. A value halfway between both goes up. -/
def onGrid? (i : RoundingInterval) (n : Nat) : Option Digits :=
  let e := floorLog10 i.value i.den - (n - 1 : Nat)
  let (num, den) : Nat × Nat := match e with
    | .ofNat e => (i.value, i.den * 10 ^ e)
    | .negSucc e => (i.value * 10 ^ (e + 1), i.den)
  let below := num / den
  let remainder := num % den
  let downFits := i.contains below e
  let upFits := i.contains (below + 1) e
  if upFits && (!downFits || den ≤ 2 * remainder) then some ⟨below + 1, e⟩
  else if downFits then some ⟨below, e⟩
  else none

end RoundingInterval

def Digits.stripZeros : Nat → Digits → Digits
  | 0, d => d
  | n + 1, d =>
    if d.digits ≠ 0 ∧ d.digits % 10 = 0 then stripZeros n ⟨d.digits / 10, d.exponent + 1⟩ else d

/-- The fewest digits that read back as the given positive number, and of those the nearest. -/
def shortestDigits (f : BinaryFormat) (significand : Nat) (exponent : Int) : Digits :=
  let i := RoundingInterval.ofFinite f significand exponent
  let most := 17
  match (List.range most).findSome? fun n => i.onGrid? (n + 1) with
  | some d => d.stripZeros most
  | none => significantDigits most i.value i.den

end ShaderBridge
