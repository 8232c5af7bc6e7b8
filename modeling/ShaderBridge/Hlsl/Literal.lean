import ShaderBridge.Constant.Basic
import ShaderBridge.Number.DecimalText
import ShaderBridge.Text.Chars

namespace ShaderBridge.Hlsl

open scoped PlainNumbers

def intSuffix : IntKind → List Char
  | .int16 => ['s']
  | .uint16 => ['u', 's']
  | .int => []
  | .uint => ['u']
  | .int64 => ['l']
  | .uint64 => ['u', 'l']

def integerText (i : Int) : List Char :=
  match i with
  | .ofNat n => Nat.toDigits 10 n
  | .negSucc n => '-' :: Nat.toDigits 10 (n + 1)

/-- An exponent with its sign and at least two digits. -/
def exponentText (e : Int) : List Char :=
  let digits := Nat.toDigits 10 e.natAbs
  'e' :: (if e < 0 then '-' else '+') :: List.replicate (2 - digits.length) '0' ++ digits

/-- The number of significant digits that are shown of a single. -/
def shownDigits : Nat := 9

/-- A positive quotient with the shown number of significant digits, less the zeros at its end.
Numbers below `10 ^ -4` and numbers that have more digits than are shown before the point have an
exponent. -/
def magnitudeText (num den : Nat) : List Char :=
  let d := significantDigits shownDigits num den
  let e := d.leadingExponent
  if e < -4 || shownDigits ≤ e then
    trimFraction (placePoint (shownDigits - 1) d.digits) ++ exponentText e
  else trimFraction (placePoint (-d.exponent).toNat d.digits)

/-- Appends a fraction to what would otherwise read as an integer. -/
def withFraction (cs : List Char) : List Char :=
  if cs.any (['.', 'e', 'n', 'i'].contains ·) then cs else cs ++ ['.', '0']

def signText (negative : Bool) : List Char :=
  if negative then ['-'] else []

/-- Numerator and denominator of `significand * 2 ^ exponent`. -/
def quotient (significand : Nat) (exponent : Int) : Nat × Nat :=
  match exponent with
  | .ofNat e => (significand * 2 ^ e, 1)
  | .negSucc e => (significand, 2 ^ (e + 1))

/-- A floating-point number without suffix. Both zeros are shown alike. -/
def realText : BinaryValue → List Char
  | .nan => withFraction ['N', 'a', 'N']
  | .infinite negative => signText negative ++ ['i', 'n', 'f']
  | .finite _ 0 _ => withFraction ['0']
  | .finite negative significand exponent =>
    let (num, den) := quotient significand exponent
    withFraction (signText negative ++ magnitudeText num den)

/-- The fewest digits of a double that read back, positional from `10 ^ -4` up to `10 ^ 16`. -/
def shortestText : BinaryValue → List Char
  | .nan => ['N', 'a', 'N']
  | .infinite negative => signText negative ++ ['i', 'n', 'f']
  | .finite negative 0 _ => signText negative ++ ['0', '.', '0']
  | .finite negative significand exponent =>
    let d := shortestDigits .double significand exponent
    let e := d.leadingExponent
    signText negative ++
      if -4 ≤ e && e < 16 then
        if d.exponent < 0 then placePoint (-d.exponent).toNat d.digits
        else d.text ++ List.replicate d.exponent.toNat '0' ++ ['.', '0']
      else placePoint (d.text.length - 1) d.digits ++ 'e' :: integerText e

/-- Whether a number of single precision has the same value. -/
def isSingle (v : BinaryValue) : Bool :=
  v.compare? (BinaryFormat.single.decode (BinaryFormat.single.ofValue v)) == some .eq

def boolText (b : Bool) : List Char :=
  if b then ['t', 'r', 'u', 'e'] else ['f', 'a', 'l', 's', 'e']

def literalText : Constant → List Char
  | .bool b => boolText b
  | .integer kind bits => integerText (kind.toInt bits) ++ intSuffix kind
  | .real .half bits => realText (BinaryFormat.single.decode bits) ++ ['h', 'f']
  | .real .float bits => realText (BinaryFormat.single.decode bits)
  | .real .double bits =>
    let value := BinaryFormat.double.decode bits
    if isSingle value then realText value else shortestText value ++ ['l', 'f']

end ShaderBridge.Hlsl
