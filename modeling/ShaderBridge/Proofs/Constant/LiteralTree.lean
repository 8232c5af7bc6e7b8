import ShaderBridge.Proofs.Constant.Value

namespace ShaderBridge

open scoped PlainNumbers

/-! ### Where an operator is defined -/

/-- Signs are for numbers, complements for integers, and negation is for truth values. -/
def UnaryOp.isDefinedOn : UnaryOp → Scalar → Bool
  | .plus, t | .minus, t => t != .bool
  | .bitNot, t => t.isInteger
  | .logicalNot, t => t == .bool
  | _, _ => false

/-- Of two operands of one type, truth values can only be told apart, and real numbers have neither
remainders nor bits. -/
def BinaryOp.isDefinedAt (op : BinaryOp) (t : Scalar) : Bool :=
  match op with
  | .eq | .ne => true
  | .mod | .bitAnd | .bitXor | .bitOr => t.isInteger
  | _ => t != .bool

/-- Everything but a real number can be seen as a truth value, and integers are shifted by integers.
Operands of other operators meet in the later of their types. -/
def BinaryOp.isDefinedOn (op : BinaryOp) (a b : Scalar) : Bool :=
  if op.isLogical then !a.isFloat && !b.isFloat
  else if op.isShift then a.isInteger && b.isInteger
  else op.isDefinedAt (a.later b)

/-- Whether an operation divides an integer by zero. -/
def BinaryOp.DividesByZero (op : BinaryOp) (a b : ScalarValue) : Prop :=
  (op = .div ∨ op = .mod) ∧ (a.scalar.later b.scalar).isInteger ∧ b.integer = 0

namespace IntKind

@[simp]
theorem isInteger_toScalar (k : IntKind) : k.toScalar.isInteger = true := by
  cases k <;> rfl

@[simp]
theorem isFloat_toScalar (k : IntKind) : k.toScalar.isFloat = false := by
  cases k <;> rfl

theorem toScalar_ne_bool (k : IntKind) : k.toScalar ≠ .bool := by
  cases k <;> nofun

theorem wrap_eq_zero_iff {k : IntKind} {n : Int} (h : n.natAbs < 2 ^ k.width) :
    k.wrap n = 0 ↔ n = 0 := by
  have hdvd : k.wrap n = 0 ↔ ((2 ^ k.width : Nat) : Int) ∣ n := by
    unfold wrap
    split
    · rw [Int.dvd_iff_bmod_eq_zero]
    · rw [Int.dvd_iff_emod_eq_zero]
  rw [hdvd, Int.natCast_dvd]
  constructor
  · intro hn
    exact Int.natAbs_eq_zero.1 (Nat.eq_zero_of_dvd_of_lt hn h)
  · rintro rfl
    exact Nat.dvd_zero _

theorem natAbs_toInt_lt (k : IntKind) (bits : BitVec k.width) :
    (k.toInt bits).natAbs < 2 ^ k.width := by
  have hlt := bits.isLt
  unfold toInt
  split
  · rw [BitVec.toInt_eq_toNat_cond]
    split <;> omega
  · simpa using hlt

theorem width_le_of_rank_le {k k' : IntKind} (h : k'.toScalar.rank ≤ k.toScalar.rank) :
    k'.width ≤ k.width := by
  cases k <;> cases k' <;> first | decide | simp [toScalar, Scalar.rank] at h

end IntKind

namespace RealKind

@[simp]
theorem isInteger_toScalar (k : RealKind) : k.toScalar.isInteger = false := by
  cases k <;> rfl

@[simp]
theorem isFloat_toScalar (k : RealKind) : k.toScalar.isFloat = true := by
  cases k <;> rfl

theorem toScalar_ne_bool (k : RealKind) : k.toScalar ≠ .bool := by
  cases k <;> nofun

end RealKind

namespace Scalar

theorem rank_le_later (a b : Scalar) : b.rank ≤ (a.later b).rank := by
  unfold later
  split
  · assumption
  · exact Nat.le_refl _

theorem rank_lt_of_isInteger {k : IntKind} {k' : RealKind} :
    k.toScalar.rank < k'.toScalar.rank := by
  cases k <;> cases k' <;> decide

theorem kinds (t : Scalar) :
    (∃ k : IntKind, t = k.toScalar) ∨ (∃ k : RealKind, t = k.toScalar) ∨ t = .bool := by
  cases hint : t.intKind? with
  | some k => exact .inl ⟨k, (toScalar_of_intKind? hint).symm⟩
  | none =>
      cases hreal : t.realKind? with
      | some k => exact .inr (.inl ⟨k, (toScalar_of_realKind? hreal).symm⟩)
      | none => exact .inr (.inr (eq_bool_of_kinds hint hreal))

end Scalar

namespace ScalarValue

theorem unary?_eq_none_iff (op : UnaryOp) (v : ScalarValue) :
    v.unary? op = none ↔ op.isDefinedOn v.scalar = false := by
  cases v with
  | truth b => cases op <;> simp [unary?, UnaryOp.isDefinedOn, scalar, Scalar.isInteger]
  | whole k n => cases op <;> simp [unary?, UnaryOp.isDefinedOn, scalar, k.toScalar_ne_bool]
  | real k bits => cases op <;> simp [unary?, UnaryOp.isDefinedOn, scalar, k.toScalar_ne_bool]

theorem truth?_eq_none_iff (v : ScalarValue) : v.truth? = none ↔ v.scalar.isFloat = true := by
  cases v with
  | truth b => exact ⟨nofun, nofun⟩
  | whole k n => simp [truth?, scalar]
  | real k bits => simp [truth?, scalar]

theorem shift?_eq_none_iff (op : BinaryOp) (a b : ScalarValue) :
    shift? op a b = none ↔ (a.scalar.isInteger && b.scalar.isInteger) = false := by
  have hbool : Scalar.isInteger .bool = false := rfl
  cases a <;> cases b <;> simp [shift?, scalar, hbool]

theorem wholeBinary?_eq_none_iff {op : BinaryOp} (hlogical : op.isLogical = false)
    (hshift : op.isShift = false) (k : IntKind) (a b : Int) :
    wholeBinary? op k a b = none ↔ (op = .div ∨ op = .mod) ∧ b = 0 := by
  cases op <;>
    simp_all [wholeBinary?, BinaryOp.isLogical, BinaryOp.isShift]

end ScalarValue

namespace Constant

theorem natAbs_integer_lt {c : Constant} {k : IntKind} (h : c.scalar.rank ≤ k.toScalar.rank) :
    c.value.integer.natAbs < 2 ^ k.width := by
  cases c with
  | bool b =>
      have hpos : 1 < 2 ^ k.width := Nat.one_lt_two_pow (Nat.pos_iff_ne_zero.1 k.width_pos)
      cases b
      · exact Nat.lt_trans Nat.zero_lt_one hpos
      · exact hpos
  | integer k' bits =>
      refine Nat.lt_of_lt_of_le (k'.natAbs_toInt_lt bits) ?_
      exact Nat.pow_le_pow_right (by decide) (IntKind.width_le_of_rank_le h)
  | real k' bits => exact absurd h (Nat.not_le.2 Scalar.rank_lt_of_isInteger)

theorem converted?_eq_none_iff {op : BinaryOp} (hlogical : op.isLogical = false)
    (hshift : op.isShift = false) (a b : Constant) :
    ScalarValue.converted? op a.value b.value = none ↔
      op.isDefinedOn a.scalar b.scalar = false ∨ op.DividesByZero a.value b.value := by
  have hrank := Scalar.rank_le_later a.scalar b.scalar
  unfold ScalarValue.converted? BinaryOp.DividesByZero BinaryOp.isDefinedOn
  rw [scalar_value, scalar_value, if_neg (by simp [hlogical]), if_neg (by simp [hshift])]
  obtain ⟨k, hk⟩ | ⟨k, hk⟩ | hk := (a.scalar.later b.scalar).kinds
  · have hdefined : op.isDefinedAt k.toScalar = true := by
      cases op <;> simp [BinaryOp.isDefinedAt, k.toScalar_ne_bool]
    rw [hk] at hrank ⊢
    simp only [Scalar.intKind?_toScalar, hdefined, k.isInteger_toScalar]
    rw [ScalarValue.wholeBinary?_eq_none_iff hlogical hshift,
      IntKind.wrap_eq_zero_iff (natAbs_integer_lt hrank)]
    simp
  · rw [hk]
    simp only [Scalar.intKind?_realKind, Scalar.realKind?_toScalar, k.isInteger_toScalar]
    cases op <;> simp_all [BinaryOp.isLogical, BinaryOp.isShift, BinaryOp.isDefinedAt,
      k.toScalar_ne_bool, ScalarValue.realBinary?, binaryReal, Except.toOption]
  · have hbool : Scalar.isInteger .bool = false := rfl
    rw [hk]
    cases op <;> simp_all [BinaryOp.isLogical, BinaryOp.isShift, BinaryOp.isDefinedAt,
      ScalarValue.truthBinary?, Scalar.intKind?, Scalar.realKind?]

/-- An operation on literals has no value exactly where the operator is not defined for their types
or an integer is divided by zero. -/
theorem binary?_eq_none_iff (op : BinaryOp) (a b : Constant) :
    ScalarValue.binary? op a.value b.value = none ↔
      op.isDefinedOn a.scalar b.scalar = false ∨ op.DividesByZero a.value b.value := by
  unfold ScalarValue.binary?
  have hdivides (h : op ≠ .div ∧ op ≠ .mod) : ¬op.DividesByZero a.value b.value := by
    rintro ⟨hop, _⟩
    exact hop.elim h.1 h.2
  by_cases hlogical : op.isLogical
  · have hop : op ≠ .div ∧ op ≠ .mod := by cases op <;> simp_all [BinaryOp.isLogical]
    have htruth : (a.value.truth?.bind fun x => b.value.truth?.map fun y =>
        ScalarValue.truth (ScalarValue.logical op x y)) = none ↔
          a.value.truth? = none ∨ b.value.truth? = none := by
      cases a.value.truth? <;> cases b.value.truth? <;> simp
    rw [if_pos hlogical, htruth, a.value.truth?_eq_none_iff, b.value.truth?_eq_none_iff]
    simp only [hdivides hop, or_false, BinaryOp.isDefinedOn, hlogical, if_true, scalar_value]
    cases a.scalar.isFloat <;> cases b.scalar.isFloat <;> simp
  by_cases hshift : op.isShift
  · have hop : op ≠ .div ∧ op ≠ .mod := by cases op <;> simp_all [BinaryOp.isShift]
    rw [if_neg hlogical, if_pos hshift, ScalarValue.shift?_eq_none_iff]
    simp [hdivides hop, BinaryOp.isDefinedOn, hlogical, hshift, scalar_value]
  · rw [if_neg hlogical, if_neg hshift, converted?_eq_none_iff (by simpa using hlogical)
      (by simpa using hshift)]

end Constant

/-! ### Trees -/

/-- An expression of literals and operators alone. -/
inductive LiteralTree where
  | literal (c : Constant)
  | unary (op : UnaryOp) (operand : LiteralTree)
  | binary (op : BinaryOp) (left right : LiteralTree)
  | choice (condition onTrue onFalse : LiteralTree)

namespace LiteralTree

def toConst : LiteralTree → ConstExpr
  | literal c => .literal c
  | unary op e => .unary op e.toConst
  | binary op a b => .binary op a.toConst b.toConst
  | choice c a b => .choice c.toConst a.toConst b.toConst

/-- The value of a tree. Of the branches of a choice only the selected one counts. -/
def value? : LiteralTree → Option ScalarValue
  | literal c => some c.value
  | unary op e => e.value?.bind (ScalarValue.unary? op)
  | binary op a b => a.value?.bind fun x => b.value?.bind fun y => ScalarValue.binary? op x y
  | choice c a b =>
    match c.value? with
    | some (.truth true) => a.value?
    | some (.truth false) => b.value?
    | _ => none

/-- The parts of a tree that are evaluated. -/
def evaluated : LiteralTree → List LiteralTree
  | literal c => [literal c]
  | unary op e => unary op e :: e.evaluated
  | binary op a b => binary op a b :: (a.evaluated ++ b.evaluated)
  | choice c a b =>
    choice c a b ::
      (c.evaluated ++
        match c.value? with
        | some (.truth true) => a.evaluated
        | some (.truth false) => b.evaluated
        | _ => [])

/-- What keeps a tree from having a value although its operands have theirs. -/
inductive Faults : LiteralTree → Prop
  | operand {op : UnaryOp} {e : LiteralTree} {x : ScalarValue} :
      e.value? = some x → op.isDefinedOn x.scalar = false → Faults (unary op e)
  | operands {op : BinaryOp} {a b : LiteralTree} {x y : ScalarValue} :
      a.value? = some x → b.value? = some y → op.isDefinedOn x.scalar y.scalar = false →
      Faults (binary op a b)
  | divisor {op : BinaryOp} {a b : LiteralTree} {x y : ScalarValue} :
      a.value? = some x → b.value? = some y → op.DividesByZero x y → Faults (binary op a b)
  | condition {c a b : LiteralTree} {x : ScalarValue} :
      c.value? = some x → x.scalar ≠ .bool → Faults (choice c a b)

theorem self_mem_evaluated (T : LiteralTree) : T ∈ T.evaluated := by
  cases T <;> exact List.mem_cons_self

theorem evaluated_subset {T U : LiteralTree} (h : U ∈ T.evaluated) : U.evaluated ⊆ T.evaluated := by
  induction T with
  | literal c => exact subset_cons_of_mem h rfl fun hu => nomatch hu
  | unary op e ih => exact subset_cons_of_mem h rfl ih
  | binary op a b iha ihb =>
      exact subset_cons_of_mem h rfl fun hab => subset_append_of_mem hab iha ihb
  | choice c a b ihc iha ihb =>
      refine subset_cons_of_mem h rfl fun hbranch => subset_append_of_mem hbranch ihc fun hu => ?_
      split at hu
      · exact iha hu
      · exact ihb hu
      · cases hu

theorem mem_parts_of_evaluated {T U : LiteralTree} (h : U ∈ T.evaluated) :
    U.toConst ∈ T.toConst.parts := by
  induction T with
  | literal c =>
      rcases List.mem_singleton.1 h with rfl
      exact ConstExpr.self_mem_parts _
  | unary op e ih =>
      rcases List.mem_cons.1 h with rfl | he
      · exact ConstExpr.self_mem_parts _
      · exact List.mem_cons_of_mem _ (ih he)
  | binary op a b iha ihb =>
      rcases List.mem_cons.1 h with rfl | hab
      · exact ConstExpr.self_mem_parts _
      apply List.mem_cons_of_mem
      rcases List.mem_append.1 hab with ha | hb
      · exact List.mem_append_left _ (iha ha)
      · exact List.mem_append_right _ (ihb hb)
  | choice c a b ihc iha ihb =>
      rcases List.mem_cons.1 h with rfl | hbranch
      · exact ConstExpr.self_mem_parts _
      apply List.mem_cons_of_mem
      rcases List.mem_append.1 hbranch with hc | hbranch
      · exact List.mem_append_left _ (List.mem_append_left _ (ihc hc))
      · split at hbranch
        · exact List.mem_append_left _ (List.mem_append_right _ (iha hbranch))
        · exact List.mem_append_right _ (ihb hbranch)
        · cases hbranch

theorem value?_eq (T : LiteralTree) : T.value? = T.toConst.folded?.map Constant.value := by
  induction T with
  | literal c => rfl
  | unary op e ih =>
      rw [value?, ih]
      change _ = (e.toConst.folded?.bind _).map _
      cases e.toConst.folded? with
      | none => rfl
      | some x => exact (Constant.value_unary op x).symm
  | binary op a b iha ihb =>
      rw [value?, iha, ihb]
      change _ = (a.toConst.folded?.bind _).map _
      cases a.toConst.folded? with
      | none => rfl
      | some x =>
          cases b.toConst.folded? with
          | none => rfl
          | some y => exact (Constant.value_binary op x y).symm
  | choice c a b ihc iha ihb =>
      rw [value?, ihc, iha, ihb, toConst, ConstExpr.folded?]
      rcases c.toConst.folded? with _ | (_ | _) | _ | _ <;> rfl

theorem exists_constant {T : LiteralTree} {v : ScalarValue} (h : T.value? = some v) :
    ∃ c : Constant, c.value = v := by
  rw [value?_eq] at h
  obtain ⟨c, _, hc⟩ := Option.map_eq_some_iff.1 h
  exact ⟨c, hc⟩

theorem faults_unary_iff {op : UnaryOp} {e : LiteralTree} {x : ScalarValue}
    (he : e.value? = some x) : (unary op e).Faults ↔ op.isDefinedOn x.scalar = false := by
  constructor
  · intro h
    cases h with
    | operand he' hop => rwa [Option.some.inj (he.symm.trans he')]
  · exact .operand he

theorem faults_binary_iff {op : BinaryOp} {a b : LiteralTree} {x y : ScalarValue}
    (ha : a.value? = some x) (hb : b.value? = some y) :
    (binary op a b).Faults ↔ ScalarValue.binary? op x y = none := by
  obtain ⟨c, rfl⟩ := exists_constant ha
  obtain ⟨d, rfl⟩ := exists_constant hb
  rw [Constant.binary?_eq_none_iff, ← c.scalar_value, ← d.scalar_value]
  constructor
  · intro h
    cases h with
    | operands ha' hb' hop =>
        rw [Option.some.inj (ha.symm.trans ha'), Option.some.inj (hb.symm.trans hb')]
        exact .inl hop
    | divisor ha' hb' hzero =>
        rw [Option.some.inj (ha.symm.trans ha'), Option.some.inj (hb.symm.trans hb')]
        exact .inr hzero
  · rintro (hop | hzero)
    · exact .operands ha hb hop
    · exact .divisor ha hb hzero

theorem faults_choice_iff {c a b : LiteralTree} {x : ScalarValue} (hc : c.value? = some x) :
    (choice c a b).Faults ↔ x.scalar ≠ .bool := by
  constructor
  · intro h
    cases h with
    | condition hc' hx => rwa [Option.some.inj (hc.symm.trans hc')]
  · exact .condition hc

/-- A tree has no value exactly where a part of it faults that is evaluated. -/
theorem value?_eq_none_iff (T : LiteralTree) :
    T.value? = none ↔ ∃ U ∈ T.evaluated, U.Faults := by
  induction T with
  | literal c =>
      refine ⟨nofun, ?_⟩
      rintro ⟨U, hU, hfaults⟩
      rcases List.mem_singleton.1 hU with rfl
      cases hfaults
  | unary op e ih =>
      simp only [value?, evaluated, List.mem_cons, or_and_right, exists_or, exists_eq_left, ← ih]
      cases he : e.value? with
      | none => simp
      | some x => simp [faults_unary_iff he, ScalarValue.unary?_eq_none_iff]
  | binary op a b iha ihb =>
      simp only [value?, evaluated, List.mem_cons, List.mem_append, or_and_right, exists_or,
        exists_eq_left, ← iha, ← ihb]
      cases ha : a.value? with
      | none => simp
      | some x =>
          cases hb : b.value? with
          | none => simp
          | some y => simp [faults_binary_iff ha hb]
  | choice c a b ihc iha ihb =>
      simp only [value?, evaluated, List.mem_cons, List.mem_append, or_and_right, exists_or,
        exists_eq_left, ← ihc]
      cases hc : c.value? with
      | none => simp
      | some x =>
          rw [faults_choice_iff hc]
          cases x with
          | truth condition => cases condition <;> simp [ScalarValue.scalar, iha, ihb]
          | whole k n => simp [ScalarValue.scalar, k.toScalar_ne_bool]
          | real k bits => simp [ScalarValue.scalar, k.toScalar_ne_bool]

end LiteralTree

end ShaderBridge
