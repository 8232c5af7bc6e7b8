import ShaderBridge.Constant.Basic
import ShaderBridge.Operator

namespace ShaderBridge

inductive FoldError where
  | notConstant | invalidOperation | divisionByZero
deriving DecidableEq, Repr

def FoldError.message : FoldError → String
  | notConstant => "not a valid constant expression"
  | invalidOperation => "invalid operation in constant expression"
  | divisionByZero => "division by zero in constant expression"

/-- The position of a scalar type in the order of conversions. -/
def Scalar.rank : Scalar → Nat
  | bool => 0
  | int16 => 1
  | uint16 => 2
  | int => 3
  | uint => 4
  | int64 => 5
  | uint64 => 6
  | float16 => 7
  | float => 8
  | double => 9

namespace Constant

/-- The number nearest to a literal that a double can hold. -/
def toDouble : Constant → BitVec BinaryFormat.double.width
  | bool value => BinaryFormat.double.ofInt (if value then 1 else 0)
  | integer k bits => BinaryFormat.double.ofInt (k.toInt bits)
  | real k bits => BinaryFormat.double.ofValue (k.format.decode bits)

/-- The integer part of a literal, clamped to 64 bits where it comes from a real number. -/
def toInteger : Constant → Int
  | bool value => if value then 1 else 0
  | integer k bits => k.toInt bits
  | real k bits => (k.format.decode bits).truncate (-(wordCount 63 : Int)) (wordCount 63 - 1)

def asInteger (k : IntKind) (c : Constant) : BitVec k.width :=
  BitVec.ofInt k.width c.toInteger

/-- A literal as a number of kind `k`, by way of a double. -/
def asReal (k : RealKind) (c : Constant) : BitVec k.format.width :=
  k.format.ofValue (BinaryFormat.double.decode c.toDouble)

def truth : Constant → Except FoldError Bool
  | bool value => .ok value
  | integer _ bits => .ok (bits != 0)
  | real _ _ => .error .invalidOperation

def unary : UnaryOp → Constant → Except FoldError Constant
  | .plus, integer k bits => .ok (integer k bits)
  | .plus, real k bits => .ok (real k bits)
  | .minus, integer k bits => .ok (integer k (-bits))
  | .minus, real k bits => .ok (real k (k.format.negate bits))
  | .bitNot, integer k bits => .ok (integer k (~~~bits))
  | .logicalNot, bool value => .ok (bool !value)
  | _, _ => .error .invalidOperation

/-- Shifts `bits` by an amount that is taken modulo the width. -/
def shift (op : BinaryOp) (k : IntKind) (bits : BitVec k.width) (amount : Int) : BitVec k.width :=
  let n := (amount % k.width).toNat
  if op = .shl then bits <<< n
  else if k.isSigned then bits.sshiftRight n
  else bits >>> n

def less (k : IntKind) (a b : BitVec k.width) : Bool :=
  if k.isSigned then a.slt b else a.ult b

def binaryInteger (op : BinaryOp) (k : IntKind) (a b : BitVec k.width) :
    Except FoldError Constant :=
  match op with
  | .mul => .ok (integer k (a * b))
  | .div =>
    if b = 0 then .error .divisionByZero
    else .ok (integer k (if k.isSigned then a.sdiv b else a.udiv b))
  | .mod =>
    if b = 0 then .error .divisionByZero
    else .ok (integer k (if k.isSigned then a.srem b else a.umod b))
  | .add => .ok (integer k (a + b))
  | .sub => .ok (integer k (a - b))
  | .bitAnd => .ok (integer k (a &&& b))
  | .bitXor => .ok (integer k (a ^^^ b))
  | .bitOr => .ok (integer k (a ||| b))
  | .lt => .ok (bool (less k a b))
  | .gt => .ok (bool (less k b a))
  | .le => .ok (bool !(less k b a))
  | .ge => .ok (bool !(less k a b))
  | .eq => .ok (bool (a == b))
  | .ne => .ok (bool (a != b))
  | _ => .error .invalidOperation

/-- Comparisons with what is not a number are false, except that it differs from everything. -/
def binaryReal (op : BinaryOp) (k : RealKind) (a b : BitVec k.format.width) :
    Except FoldError Constant :=
  let order := (k.format.decode a).compare? (k.format.decode b)
  match op with
  | .mul => .ok (real k (k.format.mul a b))
  | .div => .ok (real k (k.format.div a b))
  | .add => .ok (real k (k.format.add a b))
  | .sub => .ok (real k (k.format.sub a b))
  | .lt => .ok (bool (order == some .lt))
  | .gt => .ok (bool (order == some .gt))
  | .le => .ok (bool (order == some .lt || order == some .eq))
  | .ge => .ok (bool (order == some .gt || order == some .eq))
  | .eq => .ok (bool (order == some .eq))
  | .ne => .ok (bool (order != some .eq))
  | _ => .error .invalidOperation

def binaryBool (op : BinaryOp) (a b : Bool) : Except FoldError Constant :=
  match op with
  | .eq => .ok (bool (a == b))
  | .ne => .ok (bool (a != b))
  | _ => .error .invalidOperation

def binary (op : BinaryOp) (a b : Constant) : Except FoldError Constant :=
  match op with
  | .logicalAnd => return bool ((← a.truth) && (← b.truth))
  | .logicalOr => return bool ((← a.truth) || (← b.truth))
  | .logicalXor => return bool ((← a.truth) != (← b.truth))
  | .shl | .shr =>
    match a, b with
    | integer k bits, integer k' amount => .ok (integer k (shift op k bits (k'.toInt amount)))
    | _, _ => .error .invalidOperation
  | _ =>
    match if b.scalar.rank ≤ a.scalar.rank then a else b with
    | bool _ => binaryBool op (a.toInteger != 0) (b.toInteger != 0)
    | integer k _ => binaryInteger op k (a.asInteger k) (b.asInteger k)
    | real k _ => binaryReal op k (a.asReal k) (b.asReal k)

end Constant

end ShaderBridge
