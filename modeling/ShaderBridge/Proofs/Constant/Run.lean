import ShaderBridge.Shader.Folding

namespace ShaderBridge

/-- Shaders that differ in their expressions only. -/
def Shader.SameRest (s s' : Shader) : Prop :=
  ∃ exprs : Array Expr, s' = { s with exprs }

namespace Shader.SameRest

variable {s s' s'' : Shader}

theorem refl (s : Shader) : s.SameRest s :=
  ⟨s.exprs, rfl⟩

theorem trans (h : s.SameRest s') (h' : s'.SameRest s'') : s.SameRest s'' := by
  rcases h with ⟨_, rfl⟩
  rcases h' with ⟨exprs, rfl⟩
  exact ⟨exprs, rfl⟩

theorem symm (h : s.SameRest s') : s'.SameRest s := by
  rcases h with ⟨_, rfl⟩
  exact ⟨s.exprs, rfl⟩

theorem addExpr (s : Shader) (e : Expr) : s.SameRest (s.addExpr e).2 :=
  ⟨s.exprs.push e, rfl⟩

theorem setExpr (s : Shader) (id : ExprId) (e : Expr) : s.SameRest (s.setExpr id e) :=
  ⟨s.exprs.setIfInBounds id.index e, rfl⟩

end Shader.SameRest

namespace Folding

theorem run_bind {α β : Type} (m : FoldM α) (f : α → FoldM β) (s : Shader) :
    (m >>= f).run.run s =
      match m.run.run s with
      | (.ok a, s') => (f a).run.run s'
      | (.error e, s') => (.error e, s') := by
  rw [ExceptT.run_bind, StateT.run_bind]
  rcases m.run.run s with ⟨_ | a, s'⟩
  · rfl
  · rfl

theorem run_get (s : Shader) : (get : FoldM Shader).run.run s = (.ok s, s) :=
  rfl

theorem run_addConstant (c : Constant) (s : Shader) :
    (addConstant c).run.run s =
      (.ok ⟨s.exprs.size⟩, { s with exprs := s.exprs.push (.constant c) }) :=
  rfl

section

variable {α β : Type} {s s' : Shader}

theorem run_bind_ok {m : FoldM α} {f : α → FoldM β} {b : β} :
    (m >>= f).run.run s = (.ok b, s') ↔
      ∃ a s₁, m.run.run s = (.ok a, s₁) ∧ (f a).run.run s₁ = (.ok b, s') := by
  rw [run_bind]
  rcases m.run.run s with ⟨e | a, s₁⟩
  · constructor
    · intro h
      cases h
    · rintro ⟨a, s₂, h, _⟩
      cases h
  · constructor
    · intro h
      exact ⟨a, s₁, rfl, h⟩
    · rintro ⟨a, s₂, h, hf⟩
      cases h
      exact hf

theorem run_literal {id : ExprId} {v : Constant} (h : (literal id).run.run s = (.ok v, s')) :
    s' = s := by
  obtain ⟨_, _, hget, h⟩ := run_bind_ok.1 h
  cases hget
  split at h
  · cases h
    rfl
  · cases h

theorem run_liftExcept {r : Except FoldError Constant} {v : Constant}
    (h : (evaluateWithin.liftExcept r).run.run s = (.ok v, s')) : s' = s := by
  cases r with
  | ok => cases h; rfl
  | error => cases h

end

/-- Every run of a computation leaves a shader that differs in its expressions only. -/
def ChangesExprs {α : Type} (m : FoldM α) : Prop :=
  ∀ s : Shader, s.SameRest (m.run.run s).2

section

variable {α β : Type}

theorem changesExprs_pure (a : α) : ChangesExprs (pure a) :=
  fun s => .refl s

theorem changesExprs_throw (e : FoldError) : ChangesExprs (throw e : FoldM α) :=
  fun s => .refl s

theorem changesExprs_bind {m : FoldM α} {f : α → FoldM β} (hm : ChangesExprs m)
    (hf : ∀ a, ChangesExprs (f a)) : ChangesExprs (m >>= f) := by
  intro s
  rw [run_bind]
  have hfirst := hm s
  generalize m.run.run s = result at hfirst ⊢
  rcases result with ⟨e | a, s'⟩
  · exact hfirst
  · exact hfirst.trans (hf a s')

theorem changesExprs_get_bind {f : Shader → FoldM β} (hf : ∀ s, ChangesExprs (f s)) :
    ChangesExprs (get >>= f) :=
  changesExprs_bind (fun s => .refl s) hf

theorem changesExprs_mapM {f : α → FoldM β} (hf : ∀ a, ChangesExprs (f a)) (l : List α) :
    ChangesExprs (l.mapM f) := by
  induction l with
  | nil => exact changesExprs_pure _
  | cons a rest ih =>
      rw [List.mapM_cons]
      exact changesExprs_bind (hf a) fun _ => changesExprs_bind ih fun _ => changesExprs_pure _

end

theorem changesExprs_literal (id : ExprId) : ChangesExprs (literal id) := by
  refine changesExprs_get_bind fun s => ?_
  split
  · exact changesExprs_pure _
  · exact changesExprs_throw _

theorem changesExprs_addConstant (c : Constant) : ChangesExprs (addConstant c) :=
  fun s => .addExpr s (.constant c)

theorem changesExprs_liftExcept (r : Except FoldError Constant) :
    ChangesExprs (evaluateWithin.liftExcept r) := by
  cases r with
  | ok c => exact changesExprs_pure c
  | error e => exact changesExprs_throw e

theorem changesExprs_replace (id : ExprId) (e : Expr) :
    ChangesExprs (do modify (Shader.setExpr id e); return id) :=
  fun s => .setExpr s id e

theorem changesExprs_evaluateWithin (depth : Nat) (id : ExprId) :
    ChangesExprs (evaluateWithin depth id) := by
  induction depth generalizing id with
  | zero => exact changesExprs_throw _
  | succ depth ih =>
      refine changesExprs_get_bind fun s => ?_
      cases s.expr id with
      | constant | sequence => exact changesExprs_pure id
      | var v =>
          refine changesExprs_get_bind fun s => ?_
          cases (s.var v).initial? with
          | some initial => exact ih initial
          | none => exact changesExprs_throw _
      | unary op operand =>
          refine changesExprs_bind (ih operand) fun operand => ?_
          refine changesExprs_bind (changesExprs_literal operand) fun c => ?_
          exact changesExprs_bind (changesExprs_liftExcept _) changesExprs_addConstant
      | binary op left right =>
          refine changesExprs_bind (ih left) fun left => ?_
          refine changesExprs_bind (ih right) fun right => ?_
          refine changesExprs_bind (changesExprs_literal left) fun a => ?_
          refine changesExprs_bind (changesExprs_literal right) fun b => ?_
          exact changesExprs_bind (changesExprs_liftExcept _) changesExprs_addConstant
      | choice condition onTrue onFalse =>
          refine changesExprs_bind (ih condition) fun condition => ?_
          refine changesExprs_bind (changesExprs_literal condition) fun c => ?_
          split
          · exact ih onTrue
          · exact ih onFalse
          · exact changesExprs_throw _
      | construct type args =>
          exact changesExprs_bind (changesExprs_mapM ih args) fun args =>
            changesExprs_replace id (.construct type args)
      | aggregate items =>
          exact changesExprs_bind (changesExprs_mapM ih items) fun items =>
            changesExprs_replace id (.aggregate items)
      | member | subscript | call | assign => exact changesExprs_throw _

theorem changesExprs_evaluate (id : ExprId) : ChangesExprs (evaluate id) :=
  changesExprs_get_bind fun _ => changesExprs_evaluateWithin _ id

/-- The expressions whose items are folded where they stand. -/
inductive HoldsItems : (List ExprId → Expr) → Prop where
  | construct (type : TypeRef) : HoldsItems (.construct type)
  | aggregate : HoldsItems .aggregate

/-- One level of a run that comes to a result, by the runs for what the expression leads to. -/
inductive StepsTo (m : ExprId → FoldM ExprId) (s : Shader) (e : ExprId) :
    ExprId → Shader → Prop where
  | literal {c : Constant} : s.expr e = .constant c → StepsTo m s e e s
  | sequence {left right : ExprId} : s.expr e = .sequence left right → StepsTo m s e e s
  | var {v : VarId} {initial r : ExprId} {s' : Shader} :
      s.expr e = .var v → (s.var v).initial? = some initial →
      (m initial).run.run s = (.ok r, s') → StepsTo m s e r s'
  | unary {op : UnaryOp} {operand operand' r : ExprId} {c : Constant} {s₁ s' : Shader} :
      s.expr e = .unary op operand → (m operand).run.run s = (.ok operand', s₁) →
      (addConstant c).run.run s₁ = (.ok r, s') → StepsTo m s e r s'
  | binary {op : BinaryOp} {left right left' right' r : ExprId} {c : Constant}
      {s₁ s₂ s' : Shader} :
      s.expr e = .binary op left right → (m left).run.run s = (.ok left', s₁) →
      (m right).run.run s₁ = (.ok right', s₂) → (addConstant c).run.run s₂ = (.ok r, s') →
      StepsTo m s e r s'
  | choice {condition onTrue onFalse condition' branch r : ExprId} {s₁ s' : Shader} :
      s.expr e = .choice condition onTrue onFalse →
      (m condition).run.run s = (.ok condition', s₁) → branch = onTrue ∨ branch = onFalse →
      (m branch).run.run s₁ = (.ok r, s') → StepsTo m s e r s'
  | items {wrap : List ExprId → Expr} {items items' : List ExprId} {s₁ : Shader} :
      HoldsItems wrap → s.expr e = wrap items → (items.mapM m).run.run s = (.ok items', s₁) →
      StepsTo m s e e (s₁.setExpr e (wrap items'))

theorem stepsTo_of_run {s s' : Shader} {e r : ExprId} {depth : Nat}
    (h : (evaluateWithin (depth + 1) e).run.run s = (.ok r, s')) :
    StepsTo (evaluateWithin depth) s e r s' := by
  obtain ⟨_, _, hget, h⟩ := run_bind_ok.1 h
  cases hget
  cases hexpr : s.expr e with
  | constant c =>
      rw [hexpr] at h
      cases h
      exact .literal hexpr
  | sequence left right =>
      rw [hexpr] at h
      cases h
      exact .sequence hexpr
  | var v =>
      rw [hexpr] at h
      obtain ⟨_, _, hget, h⟩ := run_bind_ok.1 h
      cases hget
      cases hinitial : (s.var v).initial? with
      | none =>
          rw [hinitial] at h
          cases h
      | some initial =>
          rw [hinitial] at h
          exact .var hexpr hinitial h
  | unary op operand =>
      rw [hexpr] at h
      obtain ⟨operand', s₁, hoperand, h⟩ := run_bind_ok.1 h
      obtain ⟨value, s₂, hliteral, h⟩ := run_bind_ok.1 h
      obtain ⟨result, s₃, hlift, h⟩ := run_bind_ok.1 h
      rw [run_liftExcept hlift, run_literal hliteral] at h
      exact .unary hexpr hoperand h
  | binary op left right =>
      rw [hexpr] at h
      obtain ⟨left', s₁, hleft, h⟩ := run_bind_ok.1 h
      obtain ⟨right', s₂, hright, h⟩ := run_bind_ok.1 h
      obtain ⟨a, s₃, hliteral, h⟩ := run_bind_ok.1 h
      obtain ⟨b, s₄, hliteral', h⟩ := run_bind_ok.1 h
      obtain ⟨result, s₅, hlift, h⟩ := run_bind_ok.1 h
      rw [run_liftExcept hlift, run_literal hliteral', run_literal hliteral] at h
      exact .binary hexpr hleft hright h
  | choice condition onTrue onFalse =>
      rw [hexpr] at h
      obtain ⟨condition', s₁, hcondition, h⟩ := run_bind_ok.1 h
      obtain ⟨value, s₂, hliteral, h⟩ := run_bind_ok.1 h
      rw [run_literal hliteral] at h
      split at h
      · exact .choice hexpr hcondition (.inl rfl) h
      · exact .choice hexpr hcondition (.inr rfl) h
      · cases h
  | construct type args =>
      rw [hexpr] at h
      obtain ⟨args', s₁, hargs, h⟩ := run_bind_ok.1 h
      cases h
      exact .items (.construct type) hexpr hargs
  | aggregate items =>
      rw [hexpr] at h
      obtain ⟨items', s₁, hitems, h⟩ := run_bind_ok.1 h
      cases h
      exact .items .aggregate hexpr hitems
  | member | subscript | call | assign =>
      rw [hexpr] at h
      cases h

end Folding

end ShaderBridge
