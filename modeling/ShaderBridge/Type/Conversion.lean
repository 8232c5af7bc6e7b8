import ShaderBridge.Type.Builtin

namespace ShaderBridge

/-- Whether a value of scalar type `a` converts to the different scalar type `b`. -/
def Scalar.widensTo : Scalar → Scalar → Bool
  | int16, int | int16, int64 | int, int64 => true
  | uint16, uint | uint16, uint64 | uint, uint64 => true
  | float16, float | float16, double | float, double => true
  | _, _ => false

namespace BuiltinType

/-- Whether a value of one type converts to the other, different type. -/
def widensTo : BuiltinType → BuiltinType → Bool
  | scalar a, scalar b => a.widensTo b
  | vector a m, vector b n => m == n && a.widensTo b
  | _, _ => false

/-- Whether an argument of type `a` may be passed where `b` is expected. -/
def isCompatible (a b : BuiltinType) : Bool :=
  a == b || a.widensTo b

theorem isCompatible_refl (t : BuiltinType) : t.isCompatible t = true := by
  simp [isCompatible]

end BuiltinType

theorem Scalar.widensTo_trans {a b c : Scalar} (hab : a.widensTo b = true)
    (hbc : b.widensTo c = true) : a.widensTo c = true := by
  cases a <;> cases b <;> simp [widensTo] at hab <;> cases c <;> simp_all [widensTo]

end ShaderBridge
