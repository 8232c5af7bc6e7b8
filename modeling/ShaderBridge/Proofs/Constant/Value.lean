import ShaderBridge.Constant.Arithmetic
import Mathlib.Data.Int.Basic
import Mathlib.Tactic.Common

/-!
What literals stand for. Integers are plain numbers here, reduced into the range of their kind after
every exact operation, so that nothing is said in terms of bits except where the operators are about
bits. The operators of literals compute exactly this.

Constant expressions are trees, in which a variable stands together with its first value. A tree has
a value, in which every variable counts with the type that it is declared with, and it has a literal
that it folds to, for which the types of variables are not asked.
-/

/-! ## Values of literals -/

namespace ShaderBridge

open scoped PlainNumbers

namespace IntKind

/-- A number reduced into the range of a kind. -/
def wrap (k : IntKind) (n : Int) : Int :=
  if k.isSigned then n.bmod (2 ^ k.width) else n % (2 ^ k.width : Nat)

theorem toInt_ofInt (k : IntKind) (n : Int) :
    k.toInt (BitVec.ofInt k.width n) = k.wrap n := by
  unfold toInt wrap
  split
  · rw [BitVec.toInt_ofInt]
  · rw [BitVec.toNat_ofInt]
    apply Int.toNat_of_nonneg
    apply Int.emod_nonneg
    exact Int.natCast_ne_zero.2 (Nat.pos_iff_ne_zero.1 (Nat.two_pow_pos _))

theorem ofInt_toInt (k : IntKind) (bits : BitVec k.width) :
    BitVec.ofInt k.width (k.toInt bits) = bits := by
  unfold toInt
  split
  · rw [BitVec.ofInt_toInt]
  · rw [BitVec.ofInt_natCast, BitVec.ofNat_toNat, BitVec.setWidth_eq]

theorem toInt_inj (k : IntKind) (a b : BitVec k.width) : k.toInt a = k.toInt b ↔ a = b := by
  constructor
  · intro h
    rw [← k.ofInt_toInt a, h, k.ofInt_toInt]
  · rintro rfl
    rfl

theorem toInt_zero (k : IntKind) : k.toInt 0 = 0 := by
  unfold toInt
  split
  · exact BitVec.toInt_zero
  · simp

theorem toInt_eq_zero_iff (k : IntKind) (bits : BitVec k.width) :
    k.toInt bits = 0 ↔ bits = 0 := by
  rw [← k.toInt_zero, k.toInt_inj]

/-! ### Operators on bits -/

theorem toInt_neg (k : IntKind) (a : BitVec k.width) : k.toInt (-a) = k.wrap (-k.toInt a) := by
  rw [← k.toInt_ofInt, BitVec.ofInt_neg, k.ofInt_toInt]

theorem toInt_add (k : IntKind) (a b : BitVec k.width) :
    k.toInt (a + b) = k.wrap (k.toInt a + k.toInt b) := by
  rw [← k.toInt_ofInt, BitVec.ofInt_add, k.ofInt_toInt, k.ofInt_toInt]

theorem toInt_sub (k : IntKind) (a b : BitVec k.width) :
    k.toInt (a - b) = k.wrap (k.toInt a - k.toInt b) := by
  rw [← k.toInt_ofInt, Int.sub_eq_add_neg, BitVec.ofInt_add, BitVec.ofInt_neg, k.ofInt_toInt,
    k.ofInt_toInt, BitVec.sub_eq_add_neg]

theorem toInt_mul (k : IntKind) (a b : BitVec k.width) :
    k.toInt (a * b) = k.wrap (k.toInt a * k.toInt b) := by
  rw [← k.toInt_ofInt, BitVec.ofInt_mul, k.ofInt_toInt, k.ofInt_toInt]

theorem toInt_not (k : IntKind) (a : BitVec k.width) :
    k.toInt (~~~a) = k.wrap (-k.toInt a - 1) := by
  rw [← k.toInt_ofInt, Int.sub_eq_add_neg, BitVec.ofInt_add, BitVec.ofInt_neg, BitVec.ofInt_neg,
    k.ofInt_toInt, BitVec.not_eq_neg_add, BitVec.sub_eq_add_neg, BitVec.ofInt_ofNat]

theorem toInt_div (k : IntKind) (a b : BitVec k.width) :
    k.toInt (if k.isSigned then a.sdiv b else a.udiv b) =
      k.wrap ((k.toInt a).tdiv (k.toInt b)) := by
  unfold toInt wrap
  split
  · rw [BitVec.toInt_sdiv]
  · rw [BitVec.udiv_eq, BitVec.toNat_udiv, ← Int.ofNat_tdiv, ← Int.natCast_emod, Nat.mod_eq_of_lt]
    exact Nat.lt_of_le_of_lt (Nat.div_le_self _ _) a.isLt

theorem toInt_mod (k : IntKind) (a b : BitVec k.width) :
    k.toInt (if k.isSigned then a.srem b else a.umod b) = (k.toInt a).tmod (k.toInt b) := by
  unfold toInt
  split
  · rw [BitVec.toInt_srem]
  · rw [BitVec.umod_eq, BitVec.toNat_umod, Int.ofNat_tmod]

theorem toInt_shiftLeft (k : IntKind) (a : BitVec k.width) (n : Nat) :
    k.toInt (a <<< n) = k.wrap (k.toInt a * (2 ^ n : Nat)) := by
  have htwo : BitVec.twoPow k.width n = BitVec.ofNat k.width (2 ^ n) := by
    apply BitVec.eq_of_toNat_eq
    rw [BitVec.toNat_twoPow, BitVec.toNat_ofNat]
  rw [← k.toInt_ofInt, BitVec.ofInt_mul, k.ofInt_toInt, BitVec.shiftLeft_eq_mul_twoPow, htwo,
    BitVec.ofInt_natCast]

theorem toInt_shiftRight (k : IntKind) (a : BitVec k.width) (n : Nat) :
    k.toInt (if k.isSigned then a.sshiftRight n else a >>> n) = k.toInt a / (2 ^ n : Nat) := by
  unfold toInt
  split
  · rw [BitVec.toInt_sshiftRight, Int.shiftRight_eq_div_pow]
  · rw [BitVec.toNat_ushiftRight, Nat.shiftRight_eq_div_pow, Int.natCast_ediv]

theorem less_eq (k : IntKind) (a b : BitVec k.width) :
    Constant.less k a b = decide (k.toInt a < k.toInt b) := by
  unfold Constant.less toInt
  split
  · rw [BitVec.slt_eq_decide]
  · rw [BitVec.ult_eq_decide]
    simp only [Int.ofNat_lt]

end IntKind

namespace Scalar

/-- The kind of the integers that a type holds. -/
def intKind? : Scalar → Option IntKind
  | int16 => some .int16
  | uint16 => some .uint16
  | int => some .int
  | uint => some .uint
  | int64 => some .int64
  | uint64 => some .uint64
  | _ => none

/-- The kind of the real numbers that a type holds. -/
def realKind? : Scalar → Option RealKind
  | float16 => some .half
  | float => some .float
  | double => some .double
  | _ => none

/-- The later of two types in the order of conversions. -/
def later (a b : Scalar) : Scalar :=
  if b.rank ≤ a.rank then a else b

@[simp]
theorem intKind?_toScalar (k : IntKind) : k.toScalar.intKind? = some k := by
  cases k <;> rfl

@[simp]
theorem intKind?_realKind (k : RealKind) : k.toScalar.intKind? = none := by
  cases k <;> rfl

@[simp]
theorem realKind?_toScalar (k : RealKind) : k.toScalar.realKind? = some k := by
  cases k <;> rfl

theorem toScalar_of_intKind? {t : Scalar} {k : IntKind} (h : t.intKind? = some k) :
    k.toScalar = t := by
  cases t <;> simp only [intKind?, Option.some.injEq, reduceCtorEq] at h <;> subst h <;> rfl

theorem toScalar_of_realKind? {t : Scalar} {k : RealKind} (h : t.realKind? = some k) :
    k.toScalar = t := by
  cases t <;> simp only [realKind?, Option.some.injEq, reduceCtorEq] at h <;> subst h <;> rfl

theorem eq_bool_of_kinds {t : Scalar} (hint : t.intKind? = none) (hreal : t.realKind? = none) :
    t = .bool := by
  cases t <;> simp_all [intKind?, realKind?]

end Scalar

/-! ### Values -/

/-- What a literal stands for. A real number is kept as the pattern of its format. -/
inductive ScalarValue where
  | truth (b : Bool)
  | whole (kind : IntKind) (n : Int)
  | real (kind : RealKind) (bits : BitVec kind.format.width)
deriving DecidableEq

/-- What a literal stands for. -/
def Constant.value : Constant → ScalarValue
  | bool b => .truth b
  | integer k bits => .whole k (k.toInt bits)
  | real k bits => .real k bits

namespace ScalarValue

def scalar : ScalarValue → Scalar
  | truth _ => .bool
  | whole k _ => k.toScalar
  | real k _ => k.toScalar

def integer : ScalarValue → Int
  | truth b => if b then 1 else 0
  | whole _ n => n
  | real k bits => (k.format.decode bits).truncate (-(wordCount 63 : Int)) (wordCount 63 - 1)

/-- A value as a real number of a kind, by way of a double. -/
def toReal (k : RealKind) (v : ScalarValue) : BitVec k.format.width :=
  k.format.ofValue (BinaryFormat.double.decode
    (match v with
    | truth b => BinaryFormat.double.ofInt (if b then 1 else 0)
    | whole _ n => BinaryFormat.double.ofInt n
    | real k' bits => BinaryFormat.double.ofValue (k'.format.decode bits)))

def isTrue : ScalarValue → Bool
  | truth b => b
  | whole _ n => n != 0
  | real k bits => !(k.format.decode bits).isZero

def convert (t : Scalar) (v : ScalarValue) : ScalarValue :=
  if v.scalar = t then v
  else
    match t.intKind?, t.realKind? with
    | some k, _ => whole k (k.wrap v.integer)
    | none, some k => real k (v.toReal k)
    | none, none => truth v.isTrue

theorem convert_self {t : Scalar} {v : ScalarValue} (h : v.scalar = t) : v.convert t = v :=
  if_pos h

theorem scalar_convert (t : Scalar) (v : ScalarValue) : (v.convert t).scalar = t := by
  unfold convert
  split
  · assumption
  · cases hint : t.intKind? with
    | some k => exact Scalar.toScalar_of_intKind? hint
    | none =>
        cases hreal : t.realKind? with
        | some k => exact Scalar.toScalar_of_realKind? hreal
        | none => exact (Scalar.eq_bool_of_kinds hint hreal).symm

/-- The operand of a logical operator. There is none among the real numbers. -/
def truth? : ScalarValue → Option Bool
  | truth b => some b
  | whole _ n => some (n != 0)
  | real .. => none

def unary? : UnaryOp → ScalarValue → Option ScalarValue
  | .plus, whole k n => some (whole k n)
  | .plus, real k bits => some (real k bits)
  | .minus, whole k n => some (whole k (k.wrap (-n)))
  | .minus, real k bits => some (real k (k.format.negate bits))
  | .bitNot, whole k n => some (whole k (k.wrap (-n - 1)))
  | .logicalNot, truth b => some (truth !b)
  | _, _ => none

/-- A shift by an amount that is taken modulo the width. -/
def shifted (op : BinaryOp) (k : IntKind) (n amount : Int) : Int :=
  let factor : Nat := 2 ^ (amount % k.width).toNat
  if op = .shl then k.wrap (n * factor) else n / factor

/-- An operator on numbers of one kind. Quotients are truncated, and a remainder has the sign of the
dividend. -/
def wholeBinary? (op : BinaryOp) (k : IntKind) (a b : Int) : Option ScalarValue :=
  match op with
  | .mul => some (whole k (k.wrap (a * b)))
  | .div => if b = 0 then none else some (whole k (k.wrap (a.tdiv b)))
  | .mod => if b = 0 then none else some (whole k (a.tmod b))
  | .add => some (whole k (k.wrap (a + b)))
  | .sub => some (whole k (k.wrap (a - b)))
  | .bitAnd => some (whole k (k.toInt (BitVec.ofInt k.width a &&& BitVec.ofInt k.width b)))
  | .bitXor => some (whole k (k.toInt (BitVec.ofInt k.width a ^^^ BitVec.ofInt k.width b)))
  | .bitOr => some (whole k (k.toInt (BitVec.ofInt k.width a ||| BitVec.ofInt k.width b)))
  | .lt => some (truth (a < b))
  | .gt => some (truth (b < a))
  | .le => some (truth (a ≤ b))
  | .ge => some (truth (b ≤ a))
  | .eq => some (truth (a = b))
  | .ne => some (truth (a ≠ b))
  | _ => none

/-- Truth values can only be compared. -/
def truthBinary? (op : BinaryOp) (a b : Bool) : Option ScalarValue :=
  match op with
  | .eq => some (truth (a == b))
  | .ne => some (truth (a != b))
  | _ => none

def realBinary? (op : BinaryOp) (k : RealKind) (a b : BitVec k.format.width) : Option ScalarValue :=
  (Constant.binaryReal op k a b).toOption.map Constant.value

def logical (op : BinaryOp) (a b : Bool) : Bool :=
  match op with
  | .logicalAnd => a && b
  | .logicalOr => a || b
  | _ => a != b

/-- Only integers are shifted. The kind of the amount does not matter. -/
def shift? (op : BinaryOp) : ScalarValue → ScalarValue → Option ScalarValue
  | whole k n, whole _ amount => some (whole k (shifted op k n amount))
  | _, _ => none

/-- An operator on operands that are converted to the later of their types. -/
def converted? (op : BinaryOp) (a b : ScalarValue) : Option ScalarValue :=
  let t := a.scalar.later b.scalar
  match t.intKind?, t.realKind? with
  | some k, _ => wholeBinary? op k (k.wrap a.integer) (k.wrap b.integer)
  | none, some k => realBinary? op k (a.toReal k) (b.toReal k)
  | none, none => truthBinary? op a.isTrue b.isTrue

def binary? (op : BinaryOp) (a b : ScalarValue) : Option ScalarValue :=
  if op.isLogical then
    a.truth?.bind fun x => b.truth?.map fun y => truth (logical op x y)
  else if op.isShift then shift? op a b
  else converted? op a b

end ScalarValue

/-! ### The operators of literals -/

namespace Constant

theorem scalar_value (c : Constant) : c.value.scalar = c.scalar := by
  cases c <;> rfl

theorem integer_value (c : Constant) : c.value.integer = c.toInteger := by
  cases c <;> rfl

theorem toReal_value (k : RealKind) (c : Constant) : c.value.toReal k = c.asReal k := by
  cases c <;> rfl

theorem toInt_asInteger (k : IntKind) (c : Constant) :
    k.toInt (c.asInteger k) = k.wrap c.value.integer := by
  rw [integer_value, asInteger, k.toInt_ofInt]

theorem truth?_value (c : Constant) : c.value.truth? = c.truth.toOption := by
  cases c with
  | bool b => rfl
  | integer k bits =>
      have h : (k.toInt bits != 0) = (bits != 0) := by
        rw [Bool.eq_iff_iff, bne_iff_ne, bne_iff_ne, ne_eq, k.toInt_eq_zero_iff]
      simp only [value, ScalarValue.truth?, truth, h]
      rfl
  | real k bits => rfl

theorem value_unary (op : UnaryOp) (c : Constant) :
    (unary op c).toOption.map value = c.value.unary? op := by
  cases c with
  | bool b => cases op <;> rfl
  | real k bits => cases op <;> rfl
  | integer k bits =>
      cases op with
      | minus =>
          change some (ScalarValue.whole k (k.toInt (-bits))) = _
          rw [k.toInt_neg]
          rfl
      | bitNot =>
          change some (ScalarValue.whole k (k.toInt (~~~bits))) = _
          rw [k.toInt_not]
          rfl
      | _ => rfl

theorem value_binaryInteger (op : BinaryOp) (k : IntKind) (a b : BitVec k.width) :
    (binaryInteger op k a b).toOption.map value =
      ScalarValue.wholeBinary? op k (k.toInt a) (k.toInt b) := by
  have hlt : less k a b = decide (k.toInt a < k.toInt b) := k.less_eq a b
  have hgt : less k b a = decide (k.toInt b < k.toInt a) := k.less_eq b a
  cases op with
  | mul =>
      change some (ScalarValue.whole k (k.toInt (a * b))) = _
      rw [k.toInt_mul]
      rfl
  | add =>
      change some (ScalarValue.whole k (k.toInt (a + b))) = _
      rw [k.toInt_add]
      rfl
  | sub =>
      change some (ScalarValue.whole k (k.toInt (a - b))) = _
      rw [k.toInt_sub]
      rfl
  | div =>
      simp only [binaryInteger, ScalarValue.wholeBinary?, k.toInt_eq_zero_iff]
      split
      · rfl
      · rw [← k.toInt_div]
        rfl
  | mod =>
      simp only [binaryInteger, ScalarValue.wholeBinary?, k.toInt_eq_zero_iff]
      split
      · rfl
      · rw [← k.toInt_mod]
        rfl
  | bitAnd | bitXor | bitOr =>
      simp only [ScalarValue.wholeBinary?, k.ofInt_toInt]
      rfl
  | lt =>
      change some (ScalarValue.truth (less k a b)) = _
      rw [hlt]
      rfl
  | gt =>
      change some (ScalarValue.truth (less k b a)) = _
      rw [hgt]
      rfl
  | le =>
      change some (ScalarValue.truth (!less k b a)) = some (ScalarValue.truth _)
      rw [hgt, ← decide_not]
      simp only [Int.not_lt]
  | ge =>
      change some (ScalarValue.truth (!less k a b)) = some (ScalarValue.truth _)
      rw [hlt, ← decide_not]
      simp only [Int.not_lt]
  | eq =>
      change some (ScalarValue.truth (a == b)) = some (ScalarValue.truth _)
      simp only [k.toInt_inj]
      rfl
  | ne =>
      change some (ScalarValue.truth (a != b)) = some (ScalarValue.truth _)
      simp only [ne_eq, k.toInt_inj, decide_not]
      rfl
  | shl | shr | logicalAnd | logicalXor | logicalOr => rfl

theorem toInt_shift (op : BinaryOp) (k : IntKind) (bits : BitVec k.width) (amount : Int) :
    k.toInt (shift op k bits amount) = ScalarValue.shifted op k (k.toInt bits) amount := by
  unfold shift ScalarValue.shifted
  by_cases h : op = .shl
  · simp only [h, if_true]
    exact k.toInt_shiftLeft _ _
  · simp only [h, if_false]
    exact k.toInt_shiftRight _ _

theorem value_binaryBool (op : BinaryOp) (a b : Bool) :
    (binaryBool op a b).toOption.map value = ScalarValue.truthBinary? op a b := by
  cases op <;> rfl

theorem rank_eq_zero {t : Scalar} (h : t.rank = 0) : t = .bool := by
  cases t <;> simp_all [Scalar.rank]

theorem eq_bool_of_scalar {c : Constant} (h : c.scalar = .bool) : ∃ b, c = bool b := by
  cases c with
  | bool b => exact ⟨b, rfl⟩
  | integer k bits => cases k <;> simp [scalar, IntKind.toScalar] at h
  | real k bits => cases k <;> simp [scalar, RealKind.toScalar] at h

theorem bool_of_later {a b : Constant} (h : a.scalar.later b.scalar = .bool) :
    ∃ x y, a = bool x ∧ b = bool y := by
  have hzero : a.scalar.rank = 0 ∧ b.scalar.rank = 0 := by
    unfold Scalar.later at h
    split at h
    · simp_all [Scalar.rank]
    · simp_all [Scalar.rank]
  obtain ⟨x, hx⟩ := eq_bool_of_scalar (rank_eq_zero hzero.1)
  obtain ⟨y, hy⟩ := eq_bool_of_scalar (rank_eq_zero hzero.2)
  exact ⟨x, y, hx, hy⟩

/-! Every operator of literals is of one of three sorts. -/

theorem value_logical {op : BinaryOp} (h : op.isLogical) (a b : Constant) :
    (binary op a b).toOption.map value =
      a.value.truth?.bind fun x =>
        b.value.truth?.map fun y => .truth (ScalarValue.logical op x y) := by
  have hbinary : binary op a b =
      a.truth.bind fun x => b.truth.bind fun y => .ok (bool (ScalarValue.logical op x y)) := by
    cases op <;> first | rfl | simp [BinaryOp.isLogical] at h
  rw [hbinary, truth?_value, truth?_value]
  cases a.truth <;> cases b.truth <;> rfl

theorem value_shift {op : BinaryOp} (h : op.isShift) (a b : Constant) :
    (binary op a b).toOption.map value = ScalarValue.shift? op a.value b.value := by
  have hinteger (k k' : IntKind) (bits : BitVec k.width) (amount : BitVec k'.width) :
      some (ScalarValue.whole k (k.toInt (shift op k bits (k'.toInt amount)))) =
        ScalarValue.shift? op (integer k bits).value (integer k' amount).value := by
    rw [toInt_shift]
    rfl
  cases op with
  | shl | shr => cases a <;> cases b <;> first | exact hinteger _ _ _ _ | rfl
  | _ => simp [BinaryOp.isShift] at h

theorem value_converted {op : BinaryOp} (hlogical : op.isLogical = false)
    (hshift : op.isShift = false) (a b : Constant) :
    (binary op a b).toOption.map value = ScalarValue.converted? op a.value b.value := by
  let chosen := if b.scalar.rank ≤ a.scalar.rank then a else b
  have hbinary : binary op a b =
      match chosen with
      | bool _ => binaryBool op (a.toInteger != 0) (b.toInteger != 0)
      | integer k _ => binaryInteger op k (a.asInteger k) (b.asInteger k)
      | real k _ => binaryReal op k (a.asReal k) (b.asReal k) := by
    cases op <;> first | rfl | simp [BinaryOp.isLogical, BinaryOp.isShift] at hlogical hshift
  have hlater : chosen.scalar = a.value.scalar.later b.value.scalar := by
    rw [scalar_value, scalar_value]
    exact apply_ite scalar _ _ _
  rw [hbinary, ScalarValue.converted?, ← hlater]
  cases hc : chosen with
  | bool x =>
      rw [hc, scalar_value, scalar_value] at hlater
      obtain ⟨x, y, rfl, rfl⟩ := bool_of_later hlater.symm
      change (binaryBool op _ _).toOption.map value = ScalarValue.truthBinary? op x y
      rw [value_binaryBool]
      cases x <;> cases y <;> rfl
  | integer k bits =>
      simp only [scalar, Scalar.intKind?_toScalar]
      rw [value_binaryInteger, toInt_asInteger, toInt_asInteger]
  | real k bits =>
      simp only [scalar, Scalar.intKind?_realKind, Scalar.realKind?_toScalar]
      rw [toReal_value, toReal_value]
      rfl

/-- The operators of literals compute the value of the operation, and fail where it has none. -/
theorem value_binary (op : BinaryOp) (a b : Constant) :
    (binary op a b).toOption.map value = ScalarValue.binary? op a.value b.value := by
  unfold ScalarValue.binary?
  by_cases hlogical : op.isLogical
  · rw [if_pos hlogical, value_logical hlogical]
  by_cases hshift : op.isShift
  · rw [if_neg hlogical, if_pos hshift, value_shift hshift]
  · rw [if_neg hlogical, if_neg hshift, value_converted (by simpa using hlogical)
      (by simpa using hshift)]

end Constant

end ShaderBridge

/-! ## Constant expressions -/

namespace ShaderBridge

def BinaryOp.scalar (op : BinaryOp) (a b : Scalar) : Scalar :=
  if op.isComparison || op.isLogical then .bool
  else if op.isShift then a
  else a.later b

inductive ConstExpr where
  | literal (c : Constant)
  /-- A variable of a scalar type with its first value. -/
  | named (type : Scalar) (initial : ConstExpr)
  | unary (op : UnaryOp) (operand : ConstExpr)
  | binary (op : BinaryOp) (left right : ConstExpr)
  | sequence (left right : ConstExpr)
  | choice (condition onTrue onFalse : ConstExpr)

theorem subset_cons_of_mem {α : Type} {f : α → List α} {t u : α} {l : List α} (h : u ∈ t :: l)
    (ht : f t = t :: l) (hl : u ∈ l → f u ⊆ l) : f u ⊆ t :: l := by
  rcases List.mem_cons.1 h with rfl | hu
  · rw [ht]
    exact List.Subset.refl _
  · exact List.subset_cons_of_subset _ (hl hu)

theorem subset_append_of_mem {α : Type} {u : α} {l a b : List α} (h : u ∈ a ++ b)
    (ha : u ∈ a → l ⊆ a) (hb : u ∈ b → l ⊆ b) : l ⊆ a ++ b := by
  rcases List.mem_append.1 h with hu | hu
  · exact List.subset_append_of_subset_left _ (ha hu)
  · exact List.subset_append_of_subset_right _ (hb hu)

namespace ConstExpr

def scalar : ConstExpr → Scalar
  | literal c => c.scalar
  | named t _ => t
  | unary _ e => e.scalar
  | binary op a b => op.scalar a.scalar b.scalar
  | sequence _ b => b.scalar
  | choice _ a b => a.scalar.later b.scalar

/-- The value of an expression. What a variable holds has been converted to its type, and what a
choice yields is converted to the type that both of its branches convert to. -/
def value? : ConstExpr → Option ScalarValue
  | literal c => some c.value
  | named t e => e.value?.map (ScalarValue.convert t)
  | unary op e => e.value?.bind (ScalarValue.unary? op)
  | binary op a b => a.value?.bind fun x => b.value?.bind fun y => ScalarValue.binary? op x y
  | sequence _ b => b.value?
  | choice c a b =>
    match c.value? with
    | some (.truth true) => a.value?.map (ScalarValue.convert (a.scalar.later b.scalar))
    | some (.truth false) => b.value?.map (ScalarValue.convert (a.scalar.later b.scalar))
    | _ => none

/-- The literal that folding an expression yields. -/
def folded? : ConstExpr → Option Constant
  | literal c => some c
  | named _ e => e.folded?
  | unary op e => e.folded?.bind fun x => (Constant.unary op x).toOption
  | binary op a b =>
    a.folded?.bind fun x => b.folded?.bind fun y => (Constant.binary op x y).toOption
  | sequence _ _ => none
  | choice c a b =>
    match c.folded? with
    | some (.bool true) => a.folded?
    | some (.bool false) => b.folded?
    | _ => none

/-- An expression with all that it is made of, the first values of its variables among it. -/
def parts : ConstExpr → List ConstExpr
  | literal c => [literal c]
  | named t e => named t e :: e.parts
  | unary op e => unary op e :: e.parts
  | binary op a b => binary op a b :: (a.parts ++ b.parts)
  | sequence a b => sequence a b :: (a.parts ++ b.parts)
  | choice c a b => choice c a b :: (c.parts ++ a.parts ++ b.parts)

/-- Whether the type of an expression is not the one of the literal that it takes over. -/
def isConverted : ConstExpr → Bool
  | named .. | choice .. => true
  | _ => false

theorem self_mem_parts (T : ConstExpr) : T ∈ T.parts := by
  cases T <;> exact List.mem_cons_self

theorem parts_subset {U T : ConstExpr} (h : U ∈ T.parts) : U.parts ⊆ T.parts := by
  induction T with
  | literal c => exact subset_cons_of_mem h rfl fun hu => nomatch hu
  | named t e ih => exact subset_cons_of_mem h rfl ih
  | unary op e ih => exact subset_cons_of_mem h rfl ih
  | binary op a b iha ihb =>
      exact subset_cons_of_mem h rfl fun hab => subset_append_of_mem hab iha ihb
  | sequence a b iha ihb =>
      exact subset_cons_of_mem h rfl fun hab => subset_append_of_mem hab iha ihb
  | choice c a b ihc iha ihb =>
      refine subset_cons_of_mem h rfl fun hcab => subset_append_of_mem hcab (fun hca => ?_) ihb
      exact subset_append_of_mem hca ihc iha

/-- Every variable and every choice folds to a literal of its own type. -/
def KeepsTypes (T : ConstExpr) : Prop :=
  ∀ U ∈ T.parts, U.isConverted → ∀ c, U.folded? = some c → c.scalar = U.scalar

theorem KeepsTypes.part {T U : ConstExpr} (h : T.KeepsTypes) (hU : U ∈ T.parts) :
    U.KeepsTypes :=
  fun V hV => h V (parts_subset hU hV)

theorem KeepsTypes.scalar_eq {T : ConstExpr} (h : T.KeepsTypes) (hT : T.isConverted)
    {c : Constant} (hc : T.folded? = some c) : c.value.scalar = T.scalar := by
  rw [Constant.scalar_value]
  exact h T T.self_mem_parts hT c hc

/-- Where every variable and every choice folds to a literal of its own type, folding yields the
value. -/
theorem KeepsTypes.value_eq {T : ConstExpr} (h : T.KeepsTypes) {c : Constant}
    (hc : T.folded? = some c) : T.value? = some c.value := by
  induction T generalizing c with
  | literal d =>
      simp only [folded?, Option.some.injEq] at hc
      rw [value?, hc]
  | named t e ih =>
      have he := ih (h.part (by simp [parts, self_mem_parts])) hc
      have hscalar : c.value.scalar = t := h.scalar_eq rfl hc
      rw [value?, he, Option.map_some, ScalarValue.convert_self hscalar]
  | unary op e ih =>
      obtain ⟨x, hx, hop⟩ := Option.bind_eq_some_iff.1 hc
      have he := ih (h.part (by simp [parts, self_mem_parts])) hx
      rw [value?, he, Option.bind_some, ← Constant.value_unary, hop]
      rfl
  | binary op a b iha ihb =>
      obtain ⟨x, hx, hrest⟩ := Option.bind_eq_some_iff.1 hc
      obtain ⟨y, hy, hop⟩ := Option.bind_eq_some_iff.1 hrest
      have ha := iha (h.part (by simp [parts, self_mem_parts])) hx
      have hb := ihb (h.part (by simp [parts, self_mem_parts])) hy
      rw [value?, ha, hb, Option.bind_some, Option.bind_some, ← Constant.value_binary, hop]
      rfl
  | sequence a b iha ihb =>
      simp [folded?] at hc
  | choice d a b ihd iha ihb =>
      have hscalar : c.value.scalar = a.scalar.later b.scalar := h.scalar_eq rfl hc
      simp only [folded?] at hc
      split at hc
      · rename_i hcondition
        have hd : d.value? = some (.truth true) :=
          ihd (h.part (by simp [parts, self_mem_parts])) hcondition
        have ha := iha (h.part (by simp [parts, self_mem_parts])) hc
        rw [value?, hd]
        change a.value?.map _ = _
        rw [ha, Option.map_some, ScalarValue.convert_self hscalar]
      · rename_i hcondition
        have hd : d.value? = some (.truth false) :=
          ihd (h.part (by simp [parts, self_mem_parts])) hcondition
        have hb := ihb (h.part (by simp [parts, self_mem_parts])) hc
        rw [value?, hd]
        change b.value?.map _ = _
        rw [hb, Option.map_some, ScalarValue.convert_self hscalar]
      · contradiction

theorem scalar_of_value? {T : ConstExpr} (hT : T.isConverted) {v : ScalarValue}
    (hv : T.value? = some v) : v.scalar = T.scalar := by
  cases T with
  | named t e =>
      obtain ⟨w, _, rfl⟩ := Option.map_eq_some_iff.1 hv
      exact ScalarValue.scalar_convert t w
  | choice d a b =>
      simp only [value?] at hv
      split at hv
      · obtain ⟨w, _, rfl⟩ := Option.map_eq_some_iff.1 hv
        exact ScalarValue.scalar_convert _ w
      · obtain ⟨w, _, rfl⟩ := Option.map_eq_some_iff.1 hv
        exact ScalarValue.scalar_convert _ w
      · contradiction
  | literal | unary | binary | sequence => simp [isConverted] at hT

end ConstExpr

end ShaderBridge
