import ShaderBridge.Number.Rounding

/-!
Binary floating-point numbers as bit patterns. A format fixes how many bits the fraction and the
exponent take; every operation decodes its operands to exact numbers, computes exactly, and rounds
the exact result once, to the nearest number of the format with ties to the even pattern.
-/

namespace ShaderBridge

open scoped PlainNumbers

/-- A binary interchange format: one sign bit, then the exponent, then the fraction. -/
structure BinaryFormat where
  exponentBits : Nat
  fractionBits : Nat
deriving DecidableEq, Repr

/-- What a bit pattern stands for: a finite pattern is `± significand * 2 ^ exponent`. -/
inductive BinaryValue where
  | nan
  | infinite (negative : Bool)
  | finite (negative : Bool) (significand : Nat) (exponent : Int)
deriving DecidableEq, Repr

namespace BinaryFormat

def single : BinaryFormat := ⟨8, 23⟩

def double : BinaryFormat := ⟨11, 52⟩

def width (f : BinaryFormat) : Nat :=
  f.exponentBits + f.fractionBits + 1

/-- The exponent that the least significant bit of a subnormal number has. -/
def minExponent (f : BinaryFormat) : Int :=
  2 - 2 ^ (f.exponentBits - 1) - f.fractionBits

def infinityBits (f : BinaryFormat) : Nat :=
  (2 ^ f.exponentBits - 1) * 2 ^ f.fractionBits

variable (f : BinaryFormat)

def withSign (negative : Bool) (magnitude : Nat) : BitVec f.width :=
  BitVec.ofNat f.width (if negative then magnitude + 2 ^ (f.width - 1) else magnitude)

/-- The pattern that every invalid operation yields. -/
def nan : BitVec f.width :=
  f.withSign false (f.infinityBits + 2 ^ (f.fractionBits - 1))

def infinity (negative : Bool) : BitVec f.width :=
  f.withSign negative f.infinityBits

def zero (negative : Bool) : BitVec f.width :=
  f.withSign negative 0

def decode (bits : BitVec f.width) : BinaryValue :=
  let n := bits.toNat
  let fraction := n % 2 ^ f.fractionBits
  let exponent := n / 2 ^ f.fractionBits % 2 ^ f.exponentBits
  let negative := 2 ^ (f.width - 1) ≤ n
  if exponent = 2 ^ f.exponentBits - 1 then
    if fraction = 0 then .infinite negative else .nan
  else if exponent = 0 then
    .finite negative fraction f.minExponent
  else
    .finite negative (fraction + 2 ^ f.fractionBits) (f.minExponent + (exponent - 1))

/-- The magnitude bits nearest to the positive quotient `num / den`. Counting the exponent from its
least value makes a carry out of the significand step into the exponent by itself. -/
def roundMagnitude (num den : Nat) : Nat :=
  if num = 0 then 0
  else
    let exponent := max f.minExponent (floorLog2 num den - f.fractionBits)
    let significand := roundScaled num den 2 exponent
    min f.infinityBits ((exponent - f.minExponent).toNat * 2 ^ f.fractionBits + significand)

/-- The number nearest to `± num / den`. -/
def ofRatio (negative : Bool) (num den : Nat) : BitVec f.width :=
  f.withSign negative (f.roundMagnitude num den)

/-- The number nearest to `± significand * 2 ^ exponent`. -/
def ofDyadic (negative : Bool) (significand : Nat) (exponent : Int) : BitVec f.width :=
  match exponent with
  | .ofNat e => f.ofRatio negative (significand * 2 ^ e) 1
  | .negSucc e => f.ofRatio negative significand (2 ^ (e + 1))

def ofInt (i : Int) : BitVec f.width :=
  f.ofRatio (i < 0) i.natAbs 1

/-- The number of this format nearest to a number of any format. -/
def ofValue : BinaryValue → BitVec f.width
  | .nan => f.nan
  | .infinite negative => f.infinity negative
  | .finite negative significand exponent => f.ofDyadic negative significand exponent

/-- The number nearest to `digits * 10 ^ exponent`, without sign. A decimal far outside the range of
the format is settled by its magnitude alone. -/
def ofDecimal (digits : Nat) (exponent : Int) : BitVec f.width :=
  let limit : Int := 2 ^ f.exponentBits + f.fractionBits
  let magnitude := exponent + (digits.log2 : Int)
  if digits = 0 then f.zero false
  else if limit < exponent then f.infinity false
  else if magnitude < -limit then f.zero false
  else
    match exponent with
    | .ofNat e => f.ofRatio false (digits * 10 ^ e) 1
    | .negSucc e => f.ofRatio false digits (10 ^ (e + 1))

def isNegative (bits : BitVec f.width) : Bool :=
  2 ^ (f.width - 1) ≤ bits.toNat

/-- Changes the sign, of zeros and of infinities too. -/
def negate (bits : BitVec f.width) : BitVec f.width :=
  match f.decode bits with
  | .nan => f.nan
  | _ => bits ^^^ BitVec.ofNat f.width (2 ^ (f.width - 1))

end BinaryFormat

namespace BinaryValue

/-- A finite value as a signed integer multiple of `2 ^ exponent`. -/
def signed (negative : Bool) (significand : Nat) : Int :=
  if negative then -(significand : Int) else significand

/-- Two finite values written over their smaller exponent. -/
def aligned (na : Bool) (ma : Nat) (ea : Int) (nb : Bool) (mb : Nat) (eb : Int) : Int × Int × Int :=
  let e := min ea eb
  (signed na ma * 2 ^ (ea - e).toNat, signed nb mb * 2 ^ (eb - e).toNat, e)

/-- The order of two values, `none` if one of them is not a number. -/
def compare? : BinaryValue → BinaryValue → Option Ordering
  | nan, _ | _, nan => none
  | infinite a, infinite b => some (compare b.toNat a.toNat)
  | infinite a, finite .. => some (if a then .lt else .gt)
  | finite .., infinite b => some (if b then .gt else .lt)
  | finite na ma ea, finite nb mb eb =>
    let (a, b, _) := aligned na ma ea nb mb eb
    some (compare a b)

def isZero : BinaryValue → Bool
  | finite _ 0 _ => true
  | _ => false

def isFinite : BinaryValue → Bool
  | finite .. => true
  | _ => false

/-- The integer part, clamped to `[low, high]`; zero for what is not a number. -/
def truncate (low high : Int) : BinaryValue → Int
  | nan => 0
  | infinite negative => if negative then low else high
  | finite negative significand exponent =>
    let magnitude := match exponent with
      | .ofNat e => significand * 2 ^ e
      | .negSucc e => significand / 2 ^ (e + 1)
    max low (min high (signed negative magnitude))

end BinaryValue

namespace BinaryFormat

variable (f : BinaryFormat)

/-- The sum. Where it is exactly zero, it is negative only if both operands are. -/
def add (a b : BitVec f.width) : BitVec f.width :=
  match f.decode a, f.decode b with
  | .nan, _ | _, .nan => f.nan
  | .infinite x, .infinite y => if x = y then f.infinity x else f.nan
  | .infinite x, _ => f.infinity x
  | _, .infinite y => f.infinity y
  | .finite na ma ea, .finite nb mb eb =>
    let (x, y, e) := BinaryValue.aligned na ma ea nb mb eb
    let sum := x + y
    if sum = 0 then f.zero (na && nb) else f.ofDyadic (sum < 0) sum.natAbs e

def sub (a b : BitVec f.width) : BitVec f.width :=
  f.add a (f.negate b)

def mul (a b : BitVec f.width) : BitVec f.width :=
  match f.decode a, f.decode b with
  | .nan, _ | _, .nan => f.nan
  | .infinite x, .infinite y => f.infinity (x != y)
  | .infinite x, .finite y m _ | .finite y m _, .infinite x =>
    if m = 0 then f.nan else f.infinity (x != y)
  | .finite na ma ea, .finite nb mb eb => f.ofDyadic (na != nb) (ma * mb) (ea + eb)

def div (a b : BitVec f.width) : BitVec f.width :=
  match f.decode a, f.decode b with
  | .nan, _ | _, .nan => f.nan
  | .infinite _, .infinite _ => f.nan
  | .infinite x, .finite y _ _ => f.infinity (x != y)
  | .finite x _ _, .infinite y => f.zero (x != y)
  | .finite na ma ea, .finite nb mb eb =>
    if mb = 0 then
      if ma = 0 then f.nan else f.infinity (na != nb)
    else
      match ea - eb with
      | .ofNat e => f.ofRatio (na != nb) (ma * 2 ^ e) mb
      | .negSucc e => f.ofRatio (na != nb) ma (mb * 2 ^ (e + 1))

end BinaryFormat

end ShaderBridge
