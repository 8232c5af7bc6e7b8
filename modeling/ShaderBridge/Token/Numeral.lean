import ShaderBridge.Text.Chars
import ShaderBridge.Token.Basic

namespace ShaderBridge

/-- The ending of an integer literal, which fixes its type. -/
inductive IntSuffix where
  | none | unsigned | long | unsignedLong | short | unsignedShort
deriving DecidableEq, Repr

/-- A number literal, split into the parts it is written in. -/
inductive Numeral where
  | integer (radix : Nat) (digits : List Char) (suffix : IntSuffix)
  | real (whole fraction : List Char) (exponent : Int) (kind : RealKind)
deriving DecidableEq, Repr

/-- The value of a digit in any radix up to sixteen. -/
def digitValue (c : Char) : Nat :=
  if isDigit c then c.toNat - '0'.toNat
  else if 'a' ≤ c && c ≤ 'f' then c.toNat - 'a'.toNat + 10
  else c.toNat - 'A'.toNat + 10

def digitsValue (radix : Nat) (cs : List Char) : Nat :=
  cs.foldl (fun n c => n * radix + digitValue c) 0

namespace IntSuffix

/-- The longest integer ending at the front of a text, and its length. -/
def scan : List Char → IntSuffix × Nat
  | a :: b :: _ =>
    match a.toLower, b.toLower with
    | 'u', 'l' => (unsignedLong, 2)
    | 'u', 's' => (unsignedShort, 2)
    | 'u', _ => (unsigned, 1)
    | 'l', _ => (long, 1)
    | 's', _ => (short, 1)
    | _, _ => (none, 0)
  | [a] =>
    match a.toLower with
    | 'u' => (unsigned, 1)
    | 'l' => (long, 1)
    | 's' => (short, 1)
    | _ => (none, 0)
  | [] => (none, 0)

end IntSuffix

namespace Numeral

/-- The ending that makes a literal floating-point, and its length. -/
def realSuffix? : List Char → Option (RealKind × Nat)
  | 'f' :: _ | 'F' :: _ => some (.float, 1)
  | 'l' :: 'f' :: _ | 'L' :: 'F' :: _ => some (.double, 2)
  | 'h' :: 'f' :: _ | 'H' :: 'F' :: _ => some (.half, 2)
  | _ => none

/-- An exponent at the front of a text, and its length. -/
def exponent? : List Char → Option (Int × Nat)
  | e :: cs =>
    if e = 'e' ∨ e = 'E' then
      let (negative, sign, rest) : Bool × Nat × List Char := match cs with
        | '+' :: rest => (false, 1, rest)
        | '-' :: rest => (true, 1, rest)
        | rest => (false, 0, rest)
      let digits := rest.takeWhile isDigit
      if digits.isEmpty then none
      else
        let n : Int := digitsValue 10 digits
        some (if negative then -n else n, 1 + sign + digits.length)
    else none
  | [] => none

/-- What may follow the digits of a real literal: an exponent, then a suffix. -/
def realTail (whole fraction rest : List Char) : Numeral × Nat :=
  let (exponent, n) := (exponent? rest).getD (0, 0)
  let (kind, m) := (realSuffix? (rest.drop n)).getD (.float, 0)
  (.real whole fraction exponent kind, n + m)

/-- A literal in radix sixteen, after its leading zero. -/
def hexadecimal? : List Char → Option (Numeral × Nat)
  | x :: cs =>
    let digits := cs.takeWhile isHexDigit
    if (x = 'x' ∨ x = 'X') ∧ digits ≠ [] then
      let (suffix, n) := IntSuffix.scan (cs.dropWhile isHexDigit)
      some (.integer 16 digits suffix, 1 + digits.length + n)
    else none
  | [] => none

/-- What may follow a run of digits that no point follows. -/
def integerTail (digits rest : List Char) : Numeral × Nat :=
  if (exponent? rest).isSome ∨ (realSuffix? rest).isSome then realTail digits [] rest
  else
    let (suffix, n) := IntSuffix.scan rest
    match digits with
    | '0' :: d :: ds => (.integer 8 (d :: ds) suffix, n)
    | _ => (.integer 10 digits suffix, n)

/-- The longest number at the front of a text, and its length. -/
def scan? (cs : List Char) : Option (Numeral × Nat) :=
  let digits := cs.takeWhile isDigit
  let rest := cs.dropWhile isDigit
  match rest with
  | '.' :: rest' =>
    let fraction := rest'.takeWhile isDigit
    if digits.isEmpty && fraction.isEmpty then none
    else
      let (numeral, n) := realTail digits fraction (rest'.dropWhile isDigit)
      some (numeral, digits.length + 1 + fraction.length + n)
  | _ =>
    if digits.isEmpty then none
    else
      match if digits = ['0'] then hexadecimal? rest else none with
      | some (numeral, n) => some (numeral, 1 + n)
      | none =>
        let (numeral, n) := integerTail digits rest
        some (numeral, digits.length + n)

/-- An integer literal of the type that its suffix asks for. Without suffix, values beyond the
largest signed number wrap into the negative range. -/
def integerValue (n : Nat) : IntSuffix → Except LexError Constant
  | .none =>
    if n < wordCount 32 then .ok (.integer .int (BitVec.ofNat 32 n)) else .error .exceeds32Bits
  | .unsigned =>
    if n < wordCount 32 then .ok (.integer .uint (BitVec.ofNat 32 n)) else .error .exceeds32Bits
  | .long => .ok (.integer .int64 (BitVec.ofNat 64 n))
  | .unsignedLong => .ok (.integer .uint64 (BitVec.ofNat 64 n))
  | .short =>
    if n < wordCount 16 then .ok (.integer .int16 (BitVec.ofNat 16 n)) else .error .exceeds16Bits
  | .unsignedShort =>
    if n < wordCount 16 then .ok (.integer .uint16 (BitVec.ofNat 16 n)) else .error .exceeds16Bits

/-- The value of a number literal. A real literal is first read as a double and then narrowed to
the kind that its suffix asks for. -/
def value : Numeral → Except LexError Constant
  | integer radix digits suffix =>
    let n := digitsValue radix digits
    if digits.all (fun c => digitValue c < radix) && n < wordCount 64 then integerValue n suffix
    else .error .invalidNumber
  | real whole fraction exponent kind =>
    let digits := digitsValue 10 (whole ++ fraction)
    let wide := BinaryFormat.double.ofDecimal digits (exponent - fraction.length)
    .ok (.real kind (kind.format.ofValue (BinaryFormat.double.decode wide)))

end Numeral

end ShaderBridge
