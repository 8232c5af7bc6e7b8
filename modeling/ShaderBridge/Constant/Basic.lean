import ShaderBridge.Number.Binary
import ShaderBridge.Type.Builtin

namespace ShaderBridge

inductive IntKind where
  | int16 | uint16 | int | uint | int64 | uint64
deriving DecidableEq, Repr

namespace IntKind

def width : IntKind → Nat
  | int16 | uint16 => 16
  | int | uint => 32
  | int64 | uint64 => 64

def isSigned : IntKind → Bool
  | int16 | int | int64 => true
  | _ => false

def toScalar : IntKind → Scalar
  | int16 => .int16
  | uint16 => .uint16
  | int => .int
  | uint => .uint
  | int64 => .int64
  | uint64 => .uint64

theorem width_pos (k : IntKind) : 0 < k.width := by
  cases k <;> decide

/-- The integer that bits of this kind stand for. -/
def toInt (k : IntKind) (bits : BitVec k.width) : Int :=
  if k.isSigned then bits.toInt else bits.toNat

end IntKind

/-- The floating-point kinds. A half is held with the range and precision of a single. -/
inductive RealKind where
  | half | float | double
deriving DecidableEq, Repr

namespace RealKind

def format : RealKind → BinaryFormat
  | half | float => .single
  | double => .double

def toScalar : RealKind → Scalar
  | half => .float16
  | float => .float
  | double => .double

end RealKind

inductive Constant where
  | bool (value : Bool)
  | integer (kind : IntKind) (bits : BitVec kind.width)
  | real (kind : RealKind) (bits : BitVec kind.format.width)
deriving DecidableEq, Repr

instance : Inhabited Constant := ⟨.bool false⟩

namespace Constant

def int (i : Int) : Constant := .integer .int (BitVec.ofInt 32 i)

def uint (n : Nat) : Constant := .integer .uint (BitVec.ofNat 32 n)

def scalar : Constant → Scalar
  | bool _ => .bool
  | integer k _ => k.toScalar
  | real k _ => k.toScalar

def type (c : Constant) : BuiltinType :=
  .scalar c.scalar

/-- The value of an integer literal as a signed 64-bit number, for array sizes and layout values. -/
def toInt64? : Constant → Option Int
  | integer k bits => some (BitVec.ofInt 64 (k.toInt bits)).toInt
  | _ => none

end Constant

end ShaderBridge
