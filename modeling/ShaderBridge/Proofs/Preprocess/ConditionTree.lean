import ShaderBridge.Preprocess.Condition
import ShaderBridge.Proofs.Constant.Value

namespace ShaderBridge

/-- An expression of 64-bit numbers without names. Conditions have all operators of expressions but
those that change their operand and the exclusive logical one. -/
inductive ConditionTree where
  | number (n : Fin (wordCount 63))
  | unary (op : { op : UnaryOp // op.isStep = false }) (operand : ConditionTree)
  | binary (op : { op : BinaryOp // op ≠ .logicalXor }) (left right : ConditionTree)
  | choice (condition onTrue onFalse : ConditionTree)

namespace ConditionTree

/-- What an operator in front of a number makes of it. -/
def signed (op : UnaryOp) (n : Int) : Int :=
  match op with
  | .logicalNot => (ScalarValue.truth (n == 0)).integer
  | .bitNot => IntKind.int64.wrap (-n - 1)
  | .minus => IntKind.int64.wrap (-n)
  | _ => n

/-- What an operator makes of two numbers, with truth values as numbers again. There is nothing to
be made of a division by zero. -/
def combined? (op : BinaryOp) (a b : Int) : Option Int :=
  if op.isLogical then
    some (ScalarValue.truth (ScalarValue.logical op (a != 0) (b != 0))).integer
  else if op.isShift then some (ScalarValue.shifted op .int64 a b)
  else (ScalarValue.wholeBinary? op .int64 a b).map ScalarValue.integer

/-- The value of a tree, for which every part must have one. -/
def value? : ConditionTree → Option Int
  | number n => some n.val
  | unary op e => e.value?.map (signed op)
  | binary op a b => a.value?.bind fun x => b.value?.bind fun y => combined? op x y
  | choice c a b =>
    c.value?.bind fun x => a.value?.bind fun y => b.value?.map fun z => if x = 0 then z else y

def parts : ConditionTree → List ConditionTree
  | number n => [number n]
  | unary op e => unary op e :: e.parts
  | binary op a b => binary op a b :: (a.parts ++ b.parts)
  | choice c a b => choice c a b :: (c.parts ++ (a.parts ++ b.parts))

/-- A division or a remainder whose divisor has the value zero. -/
inductive DividesByZero : ConditionTree → Prop
  | intro {op : { op : BinaryOp // op ≠ .logicalXor }} {a b : ConditionTree} :
      op.val = .div ∨ op.val = .mod → b.value? = some 0 → DividesByZero (binary op a b)

theorem combined?_eq_none_iff (op : BinaryOp) (a b : Int) :
    combined? op a b = none ↔ (op = .div ∨ op = .mod) ∧ b = 0 := by
  cases op <;>
    simp [combined?, ScalarValue.wholeBinary?, BinaryOp.isLogical, BinaryOp.isShift]

theorem dividesByZero_binary_iff {op : { op : BinaryOp // op ≠ .logicalXor }}
    {a b : ConditionTree} :
    (binary op a b).DividesByZero ↔ (op.val = .div ∨ op.val = .mod) ∧ b.value? = some 0 :=
  ⟨fun | .intro hop hb => ⟨hop, hb⟩, fun ⟨hop, hb⟩ => .intro hop hb⟩

theorem value?_eq_none_iff (T : ConditionTree) :
    T.value? = none ↔ ∃ U ∈ T.parts, U.DividesByZero := by
  induction T with
  | number n => exact ⟨nofun, fun ⟨U, hU, h⟩ => by cases List.mem_singleton.1 hU; cases h⟩
  | unary op e ih =>
      have hself : ¬(unary op e).DividesByZero := nofun
      simp [value?, parts, hself, ih]
  | binary op a b iha ihb =>
      simp only [value?, parts, List.mem_cons, List.mem_append, or_and_right, exists_or,
        exists_eq_left, ← iha, ← ihb, dividesByZero_binary_iff]
      cases a.value? with
      | none => simp
      | some x =>
          cases b.value? with
          | none => simp
          | some y => simp [combined?_eq_none_iff, or_and_right]
  | choice c a b ihc iha ihb =>
      have hself : ¬(choice c a b).DividesByZero := nofun
      simp only [value?, parts, List.mem_cons, List.mem_append, or_and_right, exists_or,
        exists_eq_left, ← ihc, ← iha, ← ihb, hself, false_or]
      cases c.value? <;> cases a.value? <;> cases b.value? <;> simp

def signedBits (op : UnaryOp) (bits : BitVec 64) : BitVec 64 :=
  match op with
  | .logicalNot => Condition.truth (bits == 0)
  | .bitNot => ~~~bits
  | .minus => -bits
  | _ => bits

/-- What the rules compute, part by part. -/
def result : ConditionTree → Except ConditionError (BitVec 64)
  | number n => .ok (BitVec.ofNat 64 n.val)
  | unary op e => signedBits op <$> e.result
  | binary op a b => a.result >>= fun x => b.result >>= fun y => Condition.apply op x y
  | choice c a b =>
    c.result >>= fun x => a.result >>= fun y => b.result >>= fun z => pure (if x ≠ 0 then y else z)

/-- The bits of a value are computed; where there is none, the division by zero is reported. -/
def Computes (r : Except ConditionError (BitVec 64)) : Option Int → Prop
  | some n => ∃ bits, r = .ok bits ∧ bits.toInt = n
  | none => r = .error .divisionByZero

theorem Computes.bind {r : Except ConditionError (BitVec 64)} {v : Option Int}
    {f : BitVec 64 → Except ConditionError (BitVec 64)} {g : Int → Option Int}
    (h : Computes r v) (hf : ∀ bits, Computes (f bits) (g bits.toInt)) :
    Computes (r >>= f) (v.bind g) := by
  cases v with
  | none =>
      rcases (h : r = _) with rfl
      exact rfl
  | some n =>
      obtain ⟨bits, rfl, rfl⟩ := h
      exact hf bits

theorem computes_ok {bits : BitVec 64} {n : Int} (h : bits.toInt = n) :
    Computes (.ok bits) (some n) :=
  ⟨bits, rfl, h⟩

theorem toInt_ofNat {n : Nat} (h : n < wordCount 63) : (BitVec.ofNat 64 n).toInt = n := by
  have hlt : n < 9223372036854775808 := h
  have hbits : (BitVec.ofNat 64 n).toNat = n := Nat.mod_eq_of_lt (by omega)
  rw [BitVec.toInt_eq_toNat_of_lt (by omega), hbits]

theorem toInt_truth (b : Bool) : (Condition.truth b).toInt = (ScalarValue.truth b).integer := by
  cases b <;> rfl

theorem toInt_eq_zero_iff (bits : BitVec 64) : bits.toInt = 0 ↔ bits = 0 :=
  IntKind.int64.toInt_eq_zero_iff bits

theorem toInt_bne_zero (bits : BitVec 64) : (bits.toInt != 0) = (bits != 0) := by
  rw [Bool.eq_iff_iff, bne_iff_ne, bne_iff_ne, ne_eq, toInt_eq_zero_iff]

theorem toInt_signedBits (op : UnaryOp) (bits : BitVec 64) :
    (signedBits op bits).toInt = signed op bits.toInt := by
  cases op with
  | logicalNot =>
      have hzero : (bits.toInt == 0) = (bits == 0) := by
        rw [Bool.eq_iff_iff, beq_iff_eq, beq_iff_eq, toInt_eq_zero_iff]
      rw [signedBits, toInt_truth, ← hzero]
      rfl
  | bitNot => exact IntKind.int64.toInt_not bits
  | minus => exact IntKind.int64.toInt_neg bits
  | _ => rfl

theorem computes_shift {op : BinaryOp} (h : op.isShift) (a b : BitVec 64) :
    Computes (Condition.apply op a b) (combined? op a.toInt b.toInt) := by
  -- Modulo the width, the amount is the same with its sign as without.
  have hamount : (b.toInt % (64 : Nat)).toNat = b.toNat % 64 := by
    rw [BitVec.toInt_eq_toNat_cond]
    split <;> omega
  have hshift := Constant.toInt_shift op .int64 a b.toInt
  have happly : Condition.apply op a b = .ok (Constant.shift op .int64 a b.toInt) := by
    unfold Constant.shift
    rw [show (IntKind.int64.width : Int) = (64 : Nat) from rfl, hamount]
    cases op <;> first | rfl | simp [BinaryOp.isShift] at h
  have hlogical : op.isLogical = false := by
    cases op <;> first | rfl | simp [BinaryOp.isShift] at h
  rw [happly, combined?, if_neg (by simp [hlogical]), if_pos h]
  exact computes_ok hshift

theorem computes_apply (op : BinaryOp) (a b : BitVec 64) :
    Computes (Condition.apply op a b) (combined? op a.toInt b.toInt) := by
  have hwhole (h : op.isLogical = false) (h' : op.isShift = false) :
      combined? op a.toInt b.toInt = (Constant.binaryInteger op .int64 a b).toOption.map
        fun c => c.value.integer := by
    have hvalue := Constant.value_binaryInteger op .int64 a b
    unfold combined?
    rw [if_neg (by simp [h]), if_neg (by simp [h'])]
    exact (congrArg _ hvalue.symm).trans (Option.map_map ..)
  cases op with
  | logicalOr | logicalAnd | logicalXor =>
      refine computes_ok ?_
      rw [toInt_truth, ← toInt_bne_zero, ← toInt_bne_zero]
      rfl
  | shl | shr => exact computes_shift rfl a b
  | div =>
      rw [hwhole rfl rfl]
      by_cases hb : b = 0
      · subst hb
        rfl
      · have hquotient : Constant.binaryInteger .div .int64 a b =
            .ok (.integer .int64 (a.sdiv b)) := if_neg hb
        rw [hquotient, Condition.apply, if_neg hb]
        exact computes_ok rfl
  | mod =>
      rw [hwhole rfl rfl]
      by_cases hb : b = 0
      · subst hb
        rfl
      · have hremainder : Constant.binaryInteger .mod .int64 a b =
            .ok (.integer .int64 (a.srem b)) := if_neg hb
        rw [hremainder, Condition.apply, if_neg hb]
        exact computes_ok rfl
  | le | ge =>
      rw [hwhole rfl rfl]
      refine computes_ok ?_
      rw [toInt_truth, BitVec.sle_eq_not_slt]
      rfl
  | lt | gt | eq | ne =>
      rw [hwhole rfl rfl]
      exact computes_ok (toInt_truth _)
  | mul | add | sub | bitAnd | bitXor | bitOr =>
      rw [hwhole rfl rfl]
      exact computes_ok rfl

theorem computes_result (T : ConditionTree) : Computes T.result T.value? := by
  induction T with
  | number n => exact computes_ok (toInt_ofNat n.isLt)
  | unary op e ih =>
      rw [result, value?, map_eq_pure_bind, Option.map_eq_bind]
      exact ih.bind fun bits => computes_ok (toInt_signedBits op bits)
  | binary op a b iha ihb =>
      exact iha.bind fun x => ihb.bind fun y => computes_apply op x y
  | choice c a b ihc iha ihb =>
      simp only [result, value?, Option.map_eq_bind]
      refine ihc.bind fun x => iha.bind fun y => ihb.bind fun z => computes_ok ?_
      rw [apply_ite BitVec.toInt, ite_not]
      simp only [toInt_eq_zero_iff]

end ConditionTree

end ShaderBridge
