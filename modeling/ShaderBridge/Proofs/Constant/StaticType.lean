import ShaderBridge.Proofs.Constant.Folding
import ShaderBridge.Proofs.Constant.LiteralTree
import ShaderBridge.Proofs.Constant.Replacing
import ShaderBridge.Shader.Binding

/-! ## Folding trees of literals -/

namespace ShaderBridge

namespace LiteralTree

theorem height_pos (T : LiteralTree) : 0 < T.toConst.height := by
  cases T <;> simp [toConst, ConstExpr.height]

end LiteralTree

/-- Folding an expression ends with an error. -/
def Shader.FailsToFold (s : Shader) (id : ExprId) : Prop :=
  ∃ e s', (Folding.evaluate id).run.run s = (.error e, s')

namespace Folding

variable {s s' : Shader} {id : ExprId} {T : LiteralTree}

/-- Whatever a computation comes to is a literal. -/
def YieldsLiteral (m : FoldM ExprId) : Prop :=
  ∀ s r s', m.run.run s = (.ok r, s') → s'.constant? r ≠ none

theorem YieldsLiteral.behind {α : Type} (m : FoldM α) {f : α → FoldM ExprId}
    (hf : ∀ a, YieldsLiteral (f a)) : YieldsLiteral (m >>= f) := by
  intro s r s' hrun
  obtain ⟨a, s₁, _, hrun⟩ := run_bind_ok.1 hrun
  exact hf a s₁ r s' hrun

theorem yieldsLiteral_addConstant (c : Constant) : YieldsLiteral (addConstant c) := by
  intro s r s' hrun
  rw [run_addConstant] at hrun
  cases hrun
  simp [Shader.constant?, Shader.expr]

theorem isLiteral_evaluateWithin (h : s.Represents id T.toConst) {depth : Nat}
    (hdepth : T.toConst.height ≤ depth) {r : ExprId}
    (hrun : (evaluateWithin depth id).run.run s = (.ok r, s')) : s'.constant? r ≠ none := by
  induction depth generalizing s id T with
  | zero => exact absurd hdepth (Nat.not_le.2 T.height_pos)
  | succ depth ih =>
      unfold evaluateWithin at hrun
      rw [run_bind, run_get] at hrun
      have hexpr {e : Expr} (he : s.exprs[id.index]? = some e) : s.expr id = e := by
        simp [Shader.expr, Array.getD_eq_getD_getElem?, he]
      cases T with
      | literal c =>
          cases h with
          | literal hid =>
              simp only [hexpr hid] at hrun
              cases hrun
              simp [Shader.constant?, hexpr hid]
      | unary op e =>
          cases h with
          | unary hid he =>
              simp only [hexpr hid] at hrun
              refine YieldsLiteral.behind _ (fun _ => ?_) _ _ _ hrun
              exact .behind _ fun _ => .behind _ yieldsLiteral_addConstant
      | binary op a b =>
          cases h with
          | binary hid ha hb =>
              simp only [hexpr hid] at hrun
              refine YieldsLiteral.behind _ (fun _ => .behind _ fun _ => ?_) _ _ _ hrun
              exact .behind _ fun _ => .behind _ fun _ => .behind _ yieldsLiteral_addConstant
      | choice c a b =>
          cases h with
          | choice hid hc ha hb =>
              simp only [hexpr hid] at hrun
              simp only [LiteralTree.toConst, ConstExpr.height] at hdepth
              obtain ⟨condition, s₁, hcondition, hrun⟩ := run_bind_ok.1 hrun
              have hs : s.AppendsTo s₁ := by
                have hout : Outcome s c.toConst.folded? ((evaluateWithin depth _).run.run s) :=
                  outcome_evaluateWithin hc (by omega)
                rw [hcondition] at hout
                exact hout.1
              obtain ⟨x, s₂, hx, hrun⟩ := run_bind_ok.1 hrun
              cases run_literal hx
              split at hrun
              · exact ih (ha.appendsTo hs) (by omega) hrun
              · exact ih (hb.appendsTo hs) (by omega) hrun
              · cases hrun

theorem isLiteral_evaluate (h : s.Represents id T.toConst) {r : ExprId}
    (hrun : (evaluate id).run.run s = (.ok r, s')) : s'.constant? r ≠ none := by
  have hheight := h.height_le
  unfold evaluate at hrun
  rw [run_bind, run_get] at hrun
  refine isLiteral_evaluateWithin h ?_ hrun
  unfold Shader.foldingDepth
  omega

/-- Folding a tree of literals fails exactly where the tree folds to no literal. -/
theorem failsToFold_iff (h : s.Represents id T.toConst) :
    s.FailsToFold id ↔ T.toConst.folded? = none := by
  have hout := outcome_evaluate h
  unfold Shader.FailsToFold
  constructor
  · rintro ⟨e, s', hfails⟩
    rw [hfails] at hout
    exact hout.2
  · intro hnone
    cases hresult : (evaluate id).run.run s with
    | mk result s' =>
        cases result with
        | error e => exact ⟨e, s', rfl⟩
        | ok r =>
            rw [hresult] at hout
            exact absurd (hout.2.constant?.trans hnone) (isLiteral_evaluate h hresult)

end Folding

/-- A tree of literals folds to the literal of its exact value. Folding fails exactly where there is
none: where, among the parts that are evaluated, an integer is divided by zero, an operator is not
defined for the types of its operands, or a condition is no truth value. -/
theorem Shader.Represents.folds_exactly {s : Shader} {id : ExprId} {T : LiteralTree}
    (h : s.Represents id T.toConst) :
    (∀ v, T.value? = some v ↔ ∃ c, s.Folds id c ∧ c.value = v) ∧
      (T.value? = none ↔ s.FailsToFold id) ∧
      (s.FailsToFold id ↔ ∃ U ∈ T.evaluated, U.Faults) := by
  have hfails : T.value? = none ↔ s.FailsToFold id := by
    rw [Folding.failsToFold_iff h, T.value?_eq, Option.map_eq_none_iff]
  refine ⟨fun v => ?_, hfails, ?_⟩
  · rw [T.value?_eq, Option.map_eq_some_iff]
    simp only [Folding.folds_iff h]
  · rw [← hfails, T.value?_eq_none_iff]

namespace LiteralTree

/-- The branch that is not selected divides by zero, and the other one divides the least number of
its kind by minus one, which no number of the kind is the exact quotient of. -/
def leastByMinusOne : LiteralTree :=
  .choice (.literal (.bool false))
    (.binary .div (.literal (.int 1)) (.literal (.int 0)))
    (.binary .div (.literal (.int (-2147483648))) (.literal (.int (-1))))

theorem exists_folds_exactly :
    ∃ s : Shader, s.Represents ⟨7⟩ leastByMinusOne.toConst ∧
      (∃ c, s.Folds ⟨7⟩ c ∧ c.value = .whole .int (-2147483648)) ∧ ¬s.FailsToFold ⟨7⟩ := by
  let s : Shader :=
    { stage := .fragment
      exprs := #[.constant (.bool false), .constant (.int 1), .constant (.int 0),
        .binary .div ⟨1⟩ ⟨2⟩, .constant (.int (-2147483648)), .constant (.int (-1)),
        .binary .div ⟨4⟩ ⟨5⟩, .choice ⟨0⟩ ⟨3⟩ ⟨6⟩] }
  have hrepresents : s.Represents ⟨7⟩ leastByMinusOne.toConst :=
    .choice rfl (.literal rfl) (.binary rfl (.literal rfl) (.literal rfl))
      (.binary rfl (.literal rfl) (.literal rfl))
  have hvalue : leastByMinusOne.value? = some (.whole .int (-2147483648)) := by decide
  obtain ⟨hfolds, hfails, _⟩ := hrepresents.folds_exactly
  refine ⟨s, hrepresents, (hfolds _).1 hvalue, ?_⟩
  rw [← hfails, hvalue]
  nofun

end LiteralTree

end ShaderBridge

/-! ## Types of trees -/

namespace ShaderBridge

/-- The static type of an operation on scalars, if there is one. -/
def BinaryOp.staticType? (op : BinaryOp) (x y : Scalar) : Option Scalar :=
  if op.isComparison || op.isLogical then some .bool
  else if x = y then some x
  else if x.isInteger && y.isInteger then some (if x.isUnsigned && !y.isUnsigned then x else y)
  else if x.isInteger && y.isFloat then some y
  else if x.isFloat && y.isInteger then some x
  else none

theorem BuiltinType.componentwise?_scalar {x y : Scalar} (h : x ≠ y) :
    (BuiltinType.scalar x).componentwise? (.scalar y) =
      if x.isInteger && y.isInteger then
        some (.scalar (if x.isUnsigned && !y.isUnsigned then x else y))
      else if x.isInteger && y.isFloat then some (.scalar y)
      else if x.isFloat && y.isInteger then some (.scalar x)
      else none := by
  unfold BuiltinType.componentwise?
  simp only [component, isMatrix, matrixExtents?, isInteger, isUnsigned, isFloat, vectorSize,
    scalar.injEq, h, apply_ite some, apply_ite scalar]
  rfl

theorem BinaryOp.resultType?_scalar (op : BinaryOp) (x y : Scalar) :
    op.resultType? (.builtin (.scalar x)) (.builtin (.scalar y)) =
      (op.staticType? x y).map fun t => .builtin (.scalar t) := by
  unfold BinaryOp.resultType? BinaryOp.staticType?
  by_cases hbool : op.isComparison || op.isLogical
  · rw [if_pos hbool, if_pos hbool]
    rfl
  by_cases heq : x = y
  · rw [if_neg hbool, if_neg hbool, if_pos heq, if_pos (by rw [heq])]
    rfl
  · rw [if_neg hbool, if_neg hbool, if_neg heq, if_neg (by simpa using heq)]
    have hproduct : (BuiltinType.scalar x).matrixProduct? (.scalar y) = none := rfl
    simp only [hproduct, ite_self, BuiltinType.componentwise?_scalar heq, apply_ite (Option.map _),
      Option.map_some, Option.map_none]

/-- Whether the static type of an operation that has a value is the type of that value. Integers of
different types do not always meet in the later type, and neither do shifts keep the type of what is
shifted. -/
def BinaryOp.typesMeet (op : BinaryOp) (x y : Scalar) : Bool :=
  op.isComparison || op.isLogical || x == y ||
    if x.isInteger && y.isInteger then
      if x.isUnsigned && !y.isUnsigned then op.isShift || y.rank ≤ x.rank
      else !op.isShift && x.rank ≤ y.rank
    else x.isInteger && y.isFloat || x.isFloat && y.isInteger

theorem BinaryOp.staticType?_eq_iff {op : BinaryOp} {x y : Scalar} (h : op.isDefinedOn x y) :
    op.staticType? x y = some (op.scalar x y) ↔ op.typesMeet x y := by
  unfold isDefinedOn at h
  unfold staticType? scalar typesMeet
  by_cases hbool : op.isComparison || op.isLogical
  · simp [hbool]
  have hlogical : op.isLogical = false := by simp_all
  have hcomparison : op.isComparison = false := by simp_all
  rw [if_neg (by simp [hlogical])] at h
  simp only [hlogical, hcomparison]
  cases hshift : op.isShift with
  | true =>
      rw [if_pos hshift] at h
      clear hshift hbool
      revert h
      cases x <;> cases y <;> decide
  | false =>
      clear h hshift hbool
      cases x <;> cases y <;> decide

namespace ScalarValue

theorem scalar_of_unary? {op : UnaryOp} {x v : ScalarValue} (h : x.unary? op = some v) :
    v.scalar = x.scalar := by
  cases x <;> cases op <;> simp only [unary?, Option.some.injEq, reduceCtorEq] at h <;>
    subst h <;> rfl

theorem scalar_of_wholeBinary? {op : BinaryOp} {k : IntKind} {a b : Int} {v : ScalarValue}
    (h : wholeBinary? op k a b = some v) :
    v.scalar = if op.isComparison then .bool else k.toScalar := by
  cases op with
  | div | mod =>
      simp only [wholeBinary?] at h
      split at h
      · cases h
      · cases h
        rfl
  | _ =>
      cases h
      try rfl

theorem scalar_of_realBinary? {op : BinaryOp} {k : RealKind} {a b : BitVec k.format.width}
    {v : ScalarValue} (h : realBinary? op k a b = some v) :
    v.scalar = if op.isComparison then .bool else k.toScalar := by
  cases op <;> cases h <;> rfl

theorem scalar_of_truthBinary? {op : BinaryOp} {a b : Bool} {v : ScalarValue}
    (h : truthBinary? op a b = some v) : v.scalar = .bool := by
  cases op <;> cases h <;> rfl

theorem scalar_of_binary? {op : BinaryOp} {x y v : ScalarValue} (h : binary? op x y = some v) :
    v.scalar = op.scalar x.scalar y.scalar := by
  unfold binary? at h
  unfold BinaryOp.scalar
  by_cases hlogical : op.isLogical
  · rw [if_pos hlogical] at h
    obtain ⟨a, _, h⟩ := Option.bind_eq_some_iff.1 h
    obtain ⟨b, _, rfl⟩ := Option.map_eq_some_iff.1 h
    simp [hlogical, scalar]
  rw [if_neg hlogical] at h
  by_cases hshift : op.isShift
  · have hcomparison : op.isComparison = false := by
      cases op <;> simp_all [BinaryOp.isShift, BinaryOp.isComparison]
    rw [if_pos hshift] at h
    cases x <;> cases y <;> simp only [shift?, Option.some.injEq, reduceCtorEq] at h
    subst h
    simp [hshift, hlogical, hcomparison, scalar]
  · rw [if_neg hshift] at h
    unfold converted? at h
    simp only [hlogical, hshift, Bool.or_false]
    obtain ⟨k, hk⟩ | ⟨k, hk⟩ | hk := (x.scalar.later y.scalar).kinds
    · rw [hk] at h ⊢
      simp only [Scalar.intKind?_toScalar] at h
      exact scalar_of_wholeBinary? h
    · rw [hk] at h ⊢
      simp only [Scalar.intKind?_realKind, Scalar.realKind?_toScalar] at h
      exact scalar_of_realBinary? h
    · rw [hk] at h ⊢
      simp [scalar_of_truthBinary? h]

end ScalarValue

namespace LiteralTree

/-- The static type of a tree. -/
def static? : LiteralTree → Option Scalar
  | literal c => some c.scalar
  | unary _ e => e.static?
  | binary op a b => a.static?.bind fun x => b.static?.bind fun y => op.staticType? x y
  | choice _ a _ => a.static?

theorem typeWithin?_eq {s : Shader} {id : ExprId} {T : LiteralTree} (h : s.Represents id T.toConst)
    {depth : Nat} (hdepth : T.toConst.height ≤ depth) :
    s.typeWithin? depth id = T.static?.map fun t => ⟨.builtin (.scalar t), 0⟩ := by
  induction depth generalizing id T with
  | zero => exact absurd hdepth (Nat.not_le.2 T.height_pos)
  | succ depth ih =>
      have hexpr {e : Expr} (he : s.exprs[id.index]? = some e) : s.expr id = e := by
        simp [Shader.expr, Array.getD_eq_getD_getElem?, he]
      unfold Shader.typeWithin?
      cases T with
      | literal c =>
          cases h with
          | literal hid =>
              simp only [hexpr hid]
              rfl
      | unary op e =>
          cases h with
          | unary hid he =>
              simp only [toConst, ConstExpr.height] at hdepth
              simp only [hexpr hid]
              change _ = e.static?.map _
              exact ih he (by omega)
      | binary op a b =>
          cases h with
          | binary hid ha hb =>
              simp only [toConst, ConstExpr.height] at hdepth
              simp only [hexpr hid, ih ha (by omega), ih hb (by omega), static?]
              cases a.static? with
              | none => rfl
              | some x =>
                  cases b.static? with
                  | none => rfl
                  | some y =>
                      change (op.resultType? _ _).bind (fun t => some (ExprType.mk t 0)) = _
                      rw [op.resultType?_scalar]
                      cases hxy : op.staticType? x y <;> simp [hxy]
      | choice c a b =>
          cases h with
          | choice hid hc ha hb =>
              simp only [toConst, ConstExpr.height] at hdepth
              simp only [hexpr hid]
              change _ = a.static?.map _
              exact ih ha (by omega)

theorem typeOf?_eq {s : Shader} {id : ExprId} {T : LiteralTree} (h : s.Represents id T.toConst) :
    s.typeOf? id = T.static?.map fun t => ⟨.builtin (.scalar t), 0⟩ :=
  typeWithin?_eq h (Nat.le_succ_of_le h.height_le)

/-! ### Types of values -/

/-- The operands of every operator that has a value meet in the type of that value. -/
def OperandsMeet (T : LiteralTree) : Prop :=
  ∀ op a b, binary op a b ∈ T.evaluated → (binary op a b).value? ≠ none →
    ∀ x y, a.value? = some x → b.value? = some y → op.typesMeet x.scalar y.scalar

/-- Wherever a second branch is taken, and has a value, the first one has the same static type. -/
def BranchesMeet (T : LiteralTree) : Prop :=
  ∀ c a b, choice c a b ∈ T.evaluated → c.value? = some (.truth false) → b.value? ≠ none →
    a.static? = b.static?

theorem OperandsMeet.part {T U : LiteralTree} (h : T.OperandsMeet) (hU : U ∈ T.evaluated) :
    U.OperandsMeet :=
  fun op a b hab => h op a b (evaluated_subset hU hab)

theorem BranchesMeet.part {T U : LiteralTree} (h : T.BranchesMeet) (hU : U ∈ T.evaluated) :
    U.BranchesMeet :=
  fun c a b hchoice => h c a b (evaluated_subset hU hchoice)

theorem static?_eq {T : LiteralTree} (hoperands : T.OperandsMeet) (hbranches : T.BranchesMeet)
    {v : ScalarValue} (hv : T.value? = some v) : T.static? = some v.scalar := by
  induction T generalizing v with
  | literal c =>
      cases hv
      rw [c.scalar_value]
      rfl
  | unary op e ih =>
      have he : e ∈ (unary op e).evaluated := List.mem_cons_of_mem _ e.self_mem_evaluated
      obtain ⟨x, hx, hop⟩ := Option.bind_eq_some_iff.1 hv
      rw [static?, ih (hoperands.part he) (hbranches.part he) hx, ScalarValue.scalar_of_unary? hop]
  | binary op a b iha ihb =>
      have ha : a ∈ (binary op a b).evaluated :=
        List.mem_cons_of_mem _ (List.mem_append_left _ a.self_mem_evaluated)
      have hb : b ∈ (binary op a b).evaluated :=
        List.mem_cons_of_mem _ (List.mem_append_right _ b.self_mem_evaluated)
      obtain ⟨x, hx, hrest⟩ := Option.bind_eq_some_iff.1 hv
      obtain ⟨y, hy, hop⟩ := Option.bind_eq_some_iff.1 hrest
      have hmeet := hoperands op a b (self_mem_evaluated _) (by rw [hv]; nofun) x y hx hy
      have hdefined : op.isDefinedOn x.scalar y.scalar = true := by
        obtain ⟨c, rfl⟩ := exists_constant hx
        obtain ⟨d, rfl⟩ := exists_constant hy
        rw [c.scalar_value, d.scalar_value]
        by_contra hundefined
        have hnone := (Constant.binary?_eq_none_iff op c d).2 (.inl (by simpa using hundefined))
        cases hnone.symm.trans hop
      rw [static?, iha (hoperands.part ha) (hbranches.part ha) hx,
        ihb (hoperands.part hb) (hbranches.part hb) hy, Option.bind_some, Option.bind_some,
        (BinaryOp.staticType?_eq_iff hdefined).2 hmeet, ScalarValue.scalar_of_binary? hop]
  | choice c a b ihc iha ihb =>
      have hselected {U : LiteralTree} {condition : Bool} (hc : c.value? = some (.truth condition))
          (hU : U = if condition then a else b) : U ∈ (choice c a b).evaluated := by
        apply List.mem_cons_of_mem
        rw [hc]
        cases condition <;> subst hU <;> exact List.mem_append_right _ (self_mem_evaluated _)
      rw [static?]
      have hvalue := hv
      simp only [value?] at hvalue
      split at hvalue
      · rename_i hc
        have ha := hselected hc rfl
        exact iha (hoperands.part ha) (hbranches.part ha) hvalue
      · rename_i hc
        have hb := hselected hc rfl
        rw [hbranches c a b (self_mem_evaluated _) hc (by rw [hvalue]; nofun)]
        exact ihb (hoperands.part hb) (hbranches.part hb) hvalue
      · cases hvalue

theorem branchesMeet_of_static? {T : LiteralTree}
    (h : ∀ U ∈ T.evaluated, ∀ v, U.value? = some v → U.static? = some v.scalar) :
    T.BranchesMeet := by
  intro c a b hchoice hc hb
  obtain ⟨v, hv⟩ := Option.ne_none_iff_exists'.1 hb
  have hvalue : (choice c a b).value? = some v := by
    rw [value?, hc]
    exact hv
  have hselected : b ∈ (choice c a b).evaluated := by
    apply List.mem_cons_of_mem
    rw [hc]
    exact List.mem_append_right _ b.self_mem_evaluated
  have ha := h _ hchoice v hvalue
  rw [static?] at ha
  rw [ha, h b (evaluated_subset hchoice hselected) v hv]

end LiteralTree

/-! ### Types of folded expressions -/

namespace Shader

/-- Whatever the expression at a place is folded to is a literal of its static type, and overloads
are selected for the literal as they are for the expression. -/
def TypedAsFolded (s : Shader) (place : ExprId) : Prop :=
  ∀ r s', (Folding.evaluate place).run.run s = (.ok r, s') →
    ∃ c, s'.constant? r = some c ∧ s.typeOf? place = some ⟨.builtin c.type, 0⟩ ∧
      ∀ name before after, s'.selectOverload? name (before ++ place :: after) =
        s'.selectOverload? name (before ++ r :: after)

variable {s s' : Shader} {id place : ExprId} {T : LiteralTree}

theorem typeOf?_of_constant? {c : Constant} (h : s.constant? id = some c) :
    s.typeOf? id = some ⟨.builtin c.type, 0⟩ := by
  unfold constant? at h
  unfold typeOf? typeWithin?
  split at h
  · cases h
    simp [*]
  · cases h

theorem selectOverload?_append_congr {r : ExprId} (h : s.typeOf? place = s.typeOf? r)
    (name : String) (before after : List ExprId) :
    s.selectOverload? name (before ++ place :: after) =
      s.selectOverload? name (before ++ r :: after) := by
  have hargs : (before ++ place :: after).mapM s.baseTypeOf? =
      (before ++ r :: after).mapM s.baseTypeOf? := by
    simp only [List.mapM_append, List.mapM_cons, baseTypeOf?, h]
  unfold selectOverload?
  rw [hargs]

theorem Represents.typedAsFolded_iff (h : s.Represents place T.toConst) :
    s.TypedAsFolded place ↔ ∀ v, T.value? = some v → T.static? = some v.scalar := by
  have hout := Folding.outcome_evaluate h
  constructor
  · intro htyped v hv
    rw [T.value?_eq, Option.map_eq_some_iff] at hv
    obtain ⟨c, hc, rfl⟩ := hv
    obtain ⟨r, s', hrun, hr⟩ := (Folding.folds_iff h c).2 hc
    obtain ⟨d, hd, htype, _⟩ := htyped r s' hrun
    rcases Option.some.inj (hr.symm.trans hd) with rfl
    rw [LiteralTree.typeOf?_eq h] at htype
    obtain ⟨t, ht, htype⟩ := Option.map_eq_some_iff.1 htype
    rw [ht, c.scalar_value]
    cases htype
    rfl
  · intro hstatic r s' hrun
    obtain ⟨c, hc⟩ := Option.ne_none_iff_exists'.1 (Folding.isLiteral_evaluate h hrun)
    rw [hrun] at hout
    have hvalue : T.value? = some c.value := by
      rw [T.value?_eq, (Folding.folds_iff h c).1 ⟨r, s', hrun, hc⟩]
      rfl
    have htype {u : Shader} (hu : u.Represents place T.toConst) :
        u.typeOf? place = some ⟨.builtin c.type, 0⟩ := by
      rw [LiteralTree.typeOf?_eq hu, hstatic _ hvalue, c.scalar_value]
      rfl
    refine ⟨c, hc, htype h, ?_⟩
    apply selectOverload?_append_congr
    rw [htype (h.appendsTo hout.1), typeOf?_of_constant? hc]

/-- The static types of the parts of a tree that are evaluated are those of the literals they fold
to exactly where no choice takes a second branch whose static type is not that of the first one. -/
theorem Represents.typedAsFolded (h : s.Represents id T.toConst) (hoperands : T.OperandsMeet) :
    (∀ U ∈ T.evaluated, ∀ place, s.Represents place U.toConst → s.TypedAsFolded place) ↔
      T.BranchesMeet := by
  constructor
  · intro htyped
    apply LiteralTree.branchesMeet_of_static?
    intro U hU
    obtain ⟨place, hplace⟩ := h.part (LiteralTree.mem_parts_of_evaluated hU)
    exact hplace.typedAsFolded_iff.1 (htyped U hU place hplace)
  · intro hbranches U hU place hplace
    rw [hplace.typedAsFolded_iff]
    exact fun v => LiteralTree.static?_eq (hoperands.part hU) (hbranches.part hU)

/-- The second branch, which is taken, is as much an integer as the first one, and its sum with a
number without sign has none either. -/
theorem exists_typedAsFolded :
    ∃ (s : Shader) (T : LiteralTree), s.Represents ⟨5⟩ T.toConst ∧ T.OperandsMeet ∧
      T.BranchesMeet ∧ s.TypedAsFolded ⟨5⟩ := by
  let choice : LiteralTree := .choice (.literal (.bool false)) (.literal (.int 1))
    (.literal (.int 2))
  let T : LiteralTree := .binary .add choice (.literal (.uint 3))
  let s : Shader :=
    { stage := .fragment
      exprs := #[.constant (.bool false), .constant (.int 1), .constant (.int 2),
        .choice ⟨0⟩ ⟨1⟩ ⟨2⟩, .constant (.uint 3), .binary .add ⟨3⟩ ⟨4⟩] }
  have hrepresents : s.Represents ⟨5⟩ T.toConst :=
    .binary rfl (.choice rfl (.literal rfl) (.literal rfl) (.literal rfl)) (.literal rfl)
  have hevaluated : T.evaluated =
      [T, choice, .literal (.bool false), .literal (.int 2), .literal (.uint 3)] := rfl
  have hoperands : T.OperandsMeet := by
    intro op a b hab _ x y hx hy
    simp only [hevaluated, T, choice, List.mem_cons, LiteralTree.binary.injEq, reduceCtorEq,
      List.not_mem_nil, or_false] at hab
    obtain ⟨rfl, rfl, rfl⟩ := hab
    cases hx
    cases hy
    decide
  have hbranches : T.BranchesMeet := by
    intro c a b hchoice _ _
    simp only [hevaluated, T, choice, List.mem_cons, LiteralTree.choice.injEq, reduceCtorEq,
      List.not_mem_nil, or_false, false_or] at hchoice
    obtain ⟨rfl, rfl, rfl⟩ := hchoice
    rfl
  exact ⟨s, T, hrepresents, hoperands, hbranches,
    (hrepresents.typedAsFolded hoperands).2 hbranches T T.self_mem_evaluated ⟨5⟩ hrepresents⟩

/-- A second branch without sign is taken where the first branch has one. -/
theorem exists_not_typedAsFolded :
    ∃ (s : Shader) (T : LiteralTree), s.Represents ⟨3⟩ T.toConst ∧ s.Folds ⟨3⟩ (.uint 2) ∧
      s.typeOf? ⟨3⟩ = some ⟨.builtin (.scalar .int), 0⟩ ∧ ¬s.TypedAsFolded ⟨3⟩ := by
  let T : LiteralTree := .choice (.literal (.bool false)) (.literal (.int 1)) (.literal (.uint 2))
  let s : Shader :=
    { stage := .fragment
      exprs := #[.constant (.bool false), .constant (.int 1), .constant (.uint 2),
        .choice ⟨0⟩ ⟨1⟩ ⟨2⟩] }
  have hrepresents : s.Represents ⟨3⟩ T.toConst :=
    .choice rfl (.literal rfl) (.literal rfl) (.literal rfl)
  refine ⟨s, T, hrepresents, (Folding.folds_iff hrepresents _).2 rfl,
    LiteralTree.typeOf?_eq hrepresents, ?_⟩
  rw [hrepresents.typedAsFolded_iff]
  intro htyped
  cases htyped _ rfl

end Shader

end ShaderBridge
