import ShaderBridge.Proofs.Constant.FoldedThrough

/-!
Folding what has been folded. What is constant rests on finitely many levels of expressions, and
folding brings nothing to a higher level, although it replaces items where they stand and other
expressions may share them. So all that is constant stays constant, and what an expression has been
folded to is left alone when it is folded once more.
-/

namespace ShaderBridge

namespace Shader

variable {s s₀ s' : Shader} {e d r : ExprId} {n k : Nat}

/-- Whether an expression is of a form that is constant if all it leads to is constant. -/
def hasConstantForm (s : Shader) (e : ExprId) : Bool :=
  match s.expr e with
  | .constant _ | .binary .. | .sequence .. | .choice .. | .construct .. | .aggregate _ => true
  | .var v => (s.var v).isImmutable && (s.var v).initial?.isSome
  | .unary op _ => !op.isStep
  | .member .. | .subscript .. | .call .. | .assign .. => false

theorem isConstantWithin_succ_iff :
    s.isConstantWithin (n + 1) e ↔
      s.hasConstantForm e ∧ ∀ d, s.LeadsTo e d → s.isConstantWithin n d := by
  have hoperands {x : Expr} (hx : s.expr e = x) (hvar : ∀ v, x ≠ .var v) :
      (∀ d, s.LeadsTo e d → s.isConstantWithin n d) ↔ ∀ d ∈ x.operands, s.isConstantWithin n d := by
    subst hx
    refine ⟨fun h d hd => h d (.operand hd), fun h d hd => ?_⟩
    cases hd with
    | operand ho => exact h d ho
    | initial hv => exact absurd hv (hvar _)
  rw [isConstantWithin.eq_def s (n + 1) e]
  dsimp only
  unfold hasConstantForm
  cases hexpr : s.expr e with
  | var v =>
      have hinitial : (∀ d, s.LeadsTo e d → s.isConstantWithin n d) ↔
          ∀ d ∈ (s.var v).initial?, s.isConstantWithin n d := by
        refine ⟨fun h d hd => h d (.initial hexpr hd), fun h d hd => ?_⟩
        cases hd with
        | operand ho => rw [hexpr] at ho; cases ho
        | initial hv hd =>
            rw [hexpr] at hv
            cases hv
            exact h d hd
      rw [hinitial]
      cases hinitial : (s.var v).initial? <;> simp [hinitial]
  | _ =>
      rw [hoperands hexpr fun _ => Expr.noConfusion]
      simp [Expr.operands, and_assoc]

theorem isConstantWithin_mono (h : s.isConstantWithin n e) {m : Nat} (hnm : n ≤ m) :
    s.isConstantWithin m e := by
  induction n generalizing e m with
  | zero => cases h
  | succ n ih =>
      cases m with
      | zero => exact absurd hnm (Nat.not_succ_le_zero n)
      | succ m =>
          obtain ⟨hform, hrest⟩ := isConstantWithin_succ_iff.1 h
          exact isConstantWithin_succ_iff.2
            ⟨hform, fun d hd => ih (hrest d hd) (Nat.le_of_succ_le_succ hnm)⟩

theorem exists_level (h : s.isConstantWithin n e) :
    ∃ k, s.isConstantWithin (k + 1) e ∧ ¬ s.isConstantWithin k e := by
  induction n with
  | zero => cases h
  | succ n ih =>
      by_cases hn : s.isConstantWithin n e
      · exact ih hn
      · exact ⟨n, h, hn⟩

theorem isConstantWithin_of_size_le (h : s.exprs.size ≤ e.index) :
    s.isConstantWithin (n + 1) e := by
  unfold isConstantWithin
  rw [expr_of_size_le h]
  rfl

/-! ### Levels -/

/-- What was constant at some level of the first shader rests on lower levels in the second one as
well. -/
structure KeepsLevels (s₀ s : Shader) : Prop where
  size : s₀.exprs.size ≤ s.exprs.size
  form : ∀ k e, s₀.isConstantWithin k e → s.hasConstantForm e
  lower : ∀ k e d, s₀.isConstantWithin (k + 1) e → s.LeadsTo e d → s₀.isConstantWithin k d

theorem KeepsLevels.refl (s : Shader) : s.KeepsLevels s where
  size := Nat.le_refl _
  form k _ h := (isConstantWithin_succ_iff.1 (isConstantWithin_mono h (Nat.le_succ k))).1
  lower _ _ d h := (isConstantWithin_succ_iff.1 h).2 d

theorem KeepsLevels.isConstantWithin (h : s₀.KeepsLevels s) (he : s₀.isConstantWithin n e) :
    s.isConstantWithin n e := by
  induction n generalizing e with
  | zero => cases he
  | succ n ih =>
      exact isConstantWithin_succ_iff.2
        ⟨h.form _ e he, fun d hd => ih (h.lower n e d he hd)⟩

theorem KeepsLevels.addLiteral (h : s₀.KeepsLevels s) (c : Constant) :
    s₀.KeepsLevels (s.addExpr (.constant c)).2 where
  size := h.size.trans (by simp [Shader.addExpr])
  form k e he := by
    by_cases hsize : e.index = s.exprs.size
    · simp [hasConstantForm, expr_addExpr, hsize]
    · have hform := h.form k e he
      unfold hasConstantForm at hform ⊢
      rwa [expr_addExpr, if_neg hsize]
  lower k e d he hd := by
    by_cases hsize : e.index = s.exprs.size
    · cases hd <;> simp_all [expr_addExpr, Expr.operands]
    · refine h.lower k e d he ?_
      cases hd with
      | operand ho =>
          rw [expr_addExpr, if_neg hsize] at ho
          exact .operand ho
      | initial hv hd =>
          rw [expr_addExpr, if_neg hsize] at hv
          exact .initial hv hd

theorem KeepsLevels.setItems (h : s₀.KeepsLevels s) {x : Expr} (he : e.index < s.exprs.size)
    (hvar : ∀ v, x ≠ .var v) (hform : ∀ t : Shader, t.expr e = x → t.hasConstantForm e)
    (hitems : ∀ k, s₀.isConstantWithin (k + 1) e → ∀ o ∈ x.operands, s₀.isConstantWithin k o) :
    s₀.KeepsLevels (s.setExpr e x) where
  size := h.size.trans (by simp [Shader.setExpr])
  form k d hd := by
    by_cases hde : d = e
    · subst hde
      exact hform _ (by rw [expr_setExpr _ _ _ _ he, if_pos rfl])
    · have hold := h.form k d hd
      unfold hasConstantForm at hold ⊢
      rwa [expr_setExpr _ _ _ _ he, if_neg hde]
  lower k d a hd ha := by
    by_cases hde : d = e
    · subst hde
      refine hitems k hd a ?_
      cases ha with
      | operand ho => rwa [expr_setExpr _ _ _ _ he, if_pos rfl] at ho
      | initial hv =>
          rw [expr_setExpr _ _ _ _ he, if_pos rfl] at hv
          exact absurd hv (hvar _)
    · refine h.lower k d a hd ?_
      cases ha with
      | operand ho =>
          rw [expr_setExpr _ _ _ _ he, if_neg hde] at ho
          exact .operand ho
      | initial hv ha =>
          rw [expr_setExpr _ _ _ _ he, if_neg hde] at hv
          exact .initial hv ha

/-! ### IsSettled expressions -/

/-- Nothing is left to fold: a literal, a comma expression, or a constructor or an array of what is
settled. -/
inductive IsSettled (s : Shader) : ExprId → Prop where
  | literal {e : ExprId} {c : Constant} : s.expr e = .constant c → IsSettled s e
  | sequence {e a b : ExprId} : s.expr e = .sequence a b → IsSettled s e
  | construct {e : ExprId} {type : TypeRef} {args : List ExprId} :
      s.expr e = .construct type args → (∀ a ∈ args, IsSettled s a) → IsSettled s e
  | aggregate {e : ExprId} {items : List ExprId} :
      s.expr e = .aggregate items → (∀ a ∈ items, IsSettled s a) → IsSettled s e

/-- Expressions are added and settled, and otherwise they are what they were. -/
structure Settles (s s' : Shader) : Prop where
  size : s.exprs.size ≤ s'.exprs.size
  expr : ∀ e, s'.expr e = s.expr e ∨ s'.IsSettled e

theorem Settles.refl (s : Shader) : s.Settles s :=
  ⟨Nat.le_refl _, fun _ => .inl rfl⟩

theorem IsSettled.of_settles (h : s.Settles s') (he : s.IsSettled e) : s'.IsSettled e := by
  induction he with
  | @literal e c hexpr => exact (h.expr e).elim (fun heq => .literal (heq.trans hexpr)) id
  | @sequence e a b hexpr => exact (h.expr e).elim (fun heq => .sequence (heq.trans hexpr)) id
  | @construct e type args hexpr _ ih =>
      exact (h.expr e).elim (fun heq => .construct (heq.trans hexpr) ih) id
  | @aggregate e items hexpr _ ih =>
      exact (h.expr e).elim (fun heq => .aggregate (heq.trans hexpr) ih) id

theorem Settles.trans {s'' : Shader} (h : s.Settles s') (h' : s'.Settles s'') : s.Settles s'' where
  size := h.size.trans h'.size
  expr e := by
    rcases h'.expr e with heq | he
    · exact (h.expr e).imp heq.trans (.of_settles h')
    · exact .inr he

theorem Settles.addLiteral (s : Shader) (c : Constant) :
    s.Settles (s.addExpr (.constant c)).2 where
  size := by simp [Shader.addExpr]
  expr e := by
    by_cases hsize : e.index = s.exprs.size
    · exact .inr (.literal (by rw [expr_addExpr, if_pos hsize]))
    · exact .inl (by rw [expr_addExpr, if_neg hsize])

theorem Settles.setExpr {x : Expr} (hlt : e.index < s.exprs.size)
    (he : (s.setExpr e x).IsSettled e) : s.Settles (s.setExpr e x) where
  size := by simp [Shader.setExpr]
  expr d := by
    by_cases hde : d = e
    · exact .inr (hde ▸ he)
    · exact .inl (by rw [expr_setExpr _ _ _ _ hlt, if_neg hde])

theorem IsSettled.setExpr_above (h : s₀.KeepsLevels s) {x : Expr} (hlt : e.index < s.exprs.size)
    (he : ¬ s₀.isConstantWithin n e) (hr : s.IsSettled r) (hlevel : s₀.isConstantWithin n r) :
    (s.setExpr e x).IsSettled r := by
  have hsame {a : ExprId} (ha : s₀.isConstantWithin n a) : (s.setExpr e x).expr a = s.expr a := by
    rw [expr_setExpr _ _ _ _ hlt, if_neg fun heq : a = e => he (heq ▸ ha)]
  have hbelow {a d : ExprId} (ha : s₀.isConstantWithin n a) (hd : d ∈ (s.expr a).operands) :
      s₀.isConstantWithin n d := by
    obtain ⟨m, rfl⟩ : ∃ m, n = m + 1 := ⟨n - 1, by cases n with | zero => cases ha | succ n => rfl⟩
    exact isConstantWithin_mono (h.lower m a d ha (.operand hd)) (Nat.le_succ m)
  induction hr with
  | literal hexpr => exact .literal ((hsame hlevel).trans hexpr)
  | sequence hexpr => exact .sequence ((hsame hlevel).trans hexpr)
  | construct hexpr _ ih =>
      exact .construct ((hsame hlevel).trans hexpr) fun a ha =>
        ih a ha (hbelow hlevel (by rwa [hexpr]))
  | aggregate hexpr _ ih =>
      exact .aggregate ((hsame hlevel).trans hexpr) fun a ha =>
        ih a ha (hbelow hlevel (by rwa [hexpr]))

end Shader

namespace Constant

theorem unary_ne_notConstant (op : UnaryOp) (c : Constant) : unary op c ≠ .error .notConstant := by
  unfold unary
  split <;> simp

theorem truth_ne_notConstant (c : Constant) : c.truth ≠ .error .notConstant := by
  cases c <;> simp [truth]

theorem binary_ne_notConstant (op : BinaryOp) (a b : Constant) :
    binary op a b ≠ .error .notConstant := by
  have htruths (f : Bool → Bool → Bool) :
      (do return bool (f (← a.truth) (← b.truth))) ≠ Except.error FoldError.notConstant := by
    have ha := a.truth_ne_notConstant
    have hb := b.truth_ne_notConstant
    cases ha' : a.truth with
    | error => simpa [ha', bind, Except.bind] using ha
    | ok =>
        cases hb' : b.truth with
        | error => simpa [hb', bind, Except.bind] using hb
        | ok => simp [bind, Except.bind, pure, Except.pure]
  unfold binary
  split
  · exact htruths (· && ·)
  · exact htruths (· || ·)
  · exact htruths (· != ·)
  · split <;> simp
  · split <;> simp
  · split
    · unfold binaryBool
      split <;> simp
    · unfold binaryInteger
      split <;> grind
    · unfold binaryReal
      split <;> simp

end Constant

namespace Folding

open Shader

variable {α β : Type} {s s₀ s' : Shader} {e r : ExprId} {n : Nat}

/-- A run gives a result with a property, or it fails, but not because something is not constant. -/
def Finds (P : α → Shader → Prop) : Except FoldError α × Shader → Prop
  | (.ok a, s) => P a s
  | (.error e, _) => e ≠ .notConstant

theorem Finds.bind {P : α → Shader → Prop} {Q : β → Shader → Prop} {m : FoldM α}
    {f : α → FoldM β} (hm : Finds P (m.run.run s))
    (hf : ∀ a s', P a s' → Finds Q ((f a).run.run s')) : Finds Q ((m >>= f).run.run s) := by
  rw [run_bind]
  generalize m.run.run s = result at hm
  rcases result with ⟨err | a, s'⟩
  · exact hm
  · exact hf a s' hm

theorem Finds.imp {P Q : α → Shader → Prop} {result : Except FoldError α × Shader}
    (h : Finds P result) (hPQ : ∀ a s', P a s' → Q a s') : Finds Q result := by
  rcases result with ⟨err | a, s'⟩
  · exact h
  · exact hPQ a s' h

theorem finds_get_bind {P : β → Shader → Prop} {f : Shader → FoldM β}
    (h : Finds P ((f s).run.run s)) : Finds P ((get >>= f).run.run s) := by
  rwa [run_bind, run_get]

theorem finds_literal (r : ExprId) : Finds (fun _ s' => s' = s) ((literal r).run.run s) := by
  unfold literal
  rw [run_bind, run_get]
  dsimp only
  cases s.constant? r with
  | none => exact FoldError.noConfusion
  | some c => rfl

theorem finds_liftExcept {result : Except FoldError Constant} (h : result ≠ .error .notConstant) :
    Finds (fun _ s' => s' = s) ((evaluateWithin.liftExcept result).run.run s) := by
  cases result with
  | ok c => rfl
  | error err => exact fun heq => h (heq ▸ rfl)

/-- What folding an expression comes to, told from a shader in front of the run: levels are kept,
and the result is settled and at no higher level than the expression. -/
structure Reaches (s₀ s : Shader) (e r : ExprId) (s' : Shader) : Prop where
  levels : s₀.KeepsLevels s'
  below : ∀ k, s₀.isConstantWithin k e → s₀.isConstantWithin k r
  settled : s'.IsSettled r
  settles : s.Settles s'

theorem reaches_self (h : s₀.KeepsLevels s) (he : s.IsSettled e) : Reaches s₀ s e e s :=
  ⟨h, fun _ => id, he, .refl s⟩

theorem Reaches.of_below {s₁ : Shader} {d : ExprId} (h : Reaches s₀ s₁ d r s')
    (hbelow : ∀ k, s₀.isConstantWithin (k + 1) e → s₀.isConstantWithin k d)
    (hsettles : s.Settles s₁) : Reaches s₀ s e r s' where
  levels := h.levels
  below k he := by
    cases k with
    | zero => cases he
    | succ k => exact isConstantWithin_mono (h.below k (hbelow k he)) (Nat.le_succ k)
  settled := h.settled
  settles := hsettles.trans h.settles

theorem finds_addConstant {s₁ : Shader} (h : s₀.KeepsLevels s₁) (hsettles : s.Settles s₁)
    (c : Constant) : Finds (Reaches s₀ s e) ((addConstant c).run.run s₁) := by
  rw [run_addConstant]
  refine ⟨h.addLiteral c, fun k he => ?_, .literal (expr_addExpr_self s₁ _),
    hsettles.trans (.addLiteral s₁ c)⟩
  cases k with
  | zero => cases he
  | succ k => exact isConstantWithin_of_size_le h.size

/-- What a list of expressions is folded to. -/
structure ReachesAll (s₀ s : Shader) (es rs : List ExprId) (s' : Shader) : Prop where
  levels : s₀.KeepsLevels s'
  below : ∀ k, (∀ e ∈ es, s₀.isConstantWithin k e) → ∀ r ∈ rs, s₀.isConstantWithin k r
  settled : ∀ r ∈ rs, s'.IsSettled r
  settles : s.Settles s'

theorem finds_mapM {m : ExprId → FoldM ExprId} {es : List ExprId}
    (hm : ∀ e ∈ es, ∀ s, s₀.KeepsLevels s → Finds (Reaches s₀ s e) ((m e).run.run s))
    (h : s₀.KeepsLevels s) : Finds (ReachesAll s₀ s es) ((es.mapM m).run.run s) := by
  induction es generalizing s with
  | nil => exact ⟨h, fun _ _ => List.forall_mem_nil _, List.forall_mem_nil _, .refl s⟩
  | cons e rest ih =>
      obtain ⟨he, hrest⟩ := List.forall_mem_cons.1 hm
      rw [List.mapM_cons]
      refine (he s h).bind fun r s₁ hr => ?_
      refine (ih hrest hr.levels).bind fun rs s₂ hrs => ?_
      refine ⟨hrs.levels, fun k hk => ?_, ?_, hr.settles.trans hrs.settles⟩
      · obtain ⟨hfirst, hothers⟩ := List.forall_mem_cons.1 hk
        exact List.forall_mem_cons.2 ⟨hr.below k hfirst, hrs.below k hothers⟩
      · exact List.forall_mem_cons.2 ⟨hr.settled.of_settles hrs.settles, hrs.settled⟩

theorem HoldsItems.hasConstantForm {wrap : List ExprId → Expr} (h : HoldsItems wrap)
    {items : List ExprId} (hexpr : s.expr e = wrap items) : s.hasConstantForm e := by
  cases h <;> rw [Shader.hasConstantForm, hexpr]

theorem HoldsItems.isSettled {wrap : List ExprId → Expr} (h : HoldsItems wrap)
    {items : List ExprId} (hexpr : s.expr e = wrap items) (hitems : ∀ a ∈ items, s.IsSettled a) :
    s.IsSettled e := by
  cases h with
  | construct type => exact .construct hexpr hitems
  | aggregate => exact .aggregate hexpr hitems

theorem finds_items {m : ExprId → FoldM ExprId} {items : List ExprId}
    (hm : ∀ a ∈ items, ∀ s, s₀.KeepsLevels s → Finds (Reaches s₀ s a) ((m a).run.run s))
    {wrap : List ExprId → Expr} (hwrap : HoldsItems wrap) (hexpr : s.expr e = wrap items)
    (h : s₀.KeepsLevels s) (he : s₀.isConstantWithin n e) :
    Finds (Reaches s₀ s e) ((do
      let items ← items.mapM m
      modify (Shader.setExpr e (wrap items))
      return e : FoldM ExprId).run.run s) := by
  obtain ⟨k, hk, hnot⟩ := exists_level he
  have hlower (j : Nat) (hj : s₀.isConstantWithin (j + 1) e) :
      ∀ a ∈ items, s₀.isConstantWithin j a :=
    fun a ha => h.lower j e a hj (.operand (by rwa [hexpr, hwrap.operands_eq]))
  refine (finds_mapM hm h).bind fun rs s₁ hrs => ?_
  have hlt : e.index < s₁.exprs.size :=
    Nat.lt_of_lt_of_le (index_lt_of_expr hexpr (hwrap.ne_default items)) hrs.settles.size
  have hput : (s₁.setExpr e (wrap rs)).expr e = wrap rs := by
    rw [expr_setExpr _ _ _ _ hlt, if_pos rfl]
  have hdone : (s₁.setExpr e (wrap rs)).IsSettled e :=
    hwrap.isSettled hput fun a ha =>
      (hrs.settled a ha).setExpr_above hrs.levels hlt hnot (hrs.below k (hlower k hk) a ha)
  refine ⟨hrs.levels.setItems hlt (hwrap.ne_var rs) (fun _ => hwrap.hasConstantForm)
    fun j hj o ho => ?_, fun _ => id, hdone, hrs.settles.trans (.setExpr hlt hdone)⟩
  rw [hwrap.operands_eq] at ho
  exact hrs.below j (hlower j hj) o ho

theorem finds_evaluateWithin (h : s₀.KeepsLevels s) (he : s₀.isConstantWithin n e) :
    Finds (Reaches s₀ s e) ((evaluateWithin n e).run.run s) := by
  induction n generalizing e s with
  | zero => cases he
  | succ n ih =>
      have hform := h.form _ e he
      have hlower {d : ExprId} (hd : s.LeadsTo e d) := h.lower n e d he hd
      -- What folds to what one of its parts folds to.
      have hpart {d : ExprId} {s₁ : Shader} (hd : s.LeadsTo e d) (h₁ : s₀.KeepsLevels s₁)
          (hsettles : s.Settles s₁) : Finds (Reaches s₀ s e) ((evaluateWithin n d).run.run s₁) :=
        (ih h₁ (hlower hd)).imp fun r s' hr =>
          hr.of_below (fun k hk => h.lower k e d hk hd) hsettles
      refine finds_get_bind ?_
      cases hexpr : s.expr e with
      | constant c => exact reaches_self h (.literal hexpr)
      | sequence left right => exact reaches_self h (.sequence hexpr)
      | var v =>
          refine finds_get_bind ?_
          cases hinitial : (s.var v).initial? with
          | none => simp [hasConstantForm, hexpr, hinitial] at hform
          | some initial => exact hpart (.initial hexpr hinitial) h (.refl s)
      | unary op operand =>
          have hoperand : s.LeadsTo e operand := .operand (by simp [hexpr, Expr.operands])
          refine (ih h (hlower hoperand)).bind fun operand s₁ ho => ?_
          refine (finds_literal operand).bind fun c s₂ heq => ?_
          subst heq
          refine (finds_liftExcept (Constant.unary_ne_notConstant op c)).bind fun c s₃ heq => ?_
          subst heq
          exact finds_addConstant ho.levels ho.settles c
      | binary op left right =>
          have hleft : s.LeadsTo e left := .operand (by simp [hexpr, Expr.operands])
          have hright : s.LeadsTo e right := .operand (by simp [hexpr, Expr.operands])
          refine (ih h (hlower hleft)).bind fun left s₁ hl => ?_
          refine (ih hl.levels (hlower hright)).bind fun right s₂ hr => ?_
          refine (finds_literal left).bind fun a s₃ heq => ?_
          subst heq
          refine (finds_literal right).bind fun b s₄ heq => ?_
          subst heq
          refine (finds_liftExcept (Constant.binary_ne_notConstant op a b)).bind fun c s₅ heq => ?_
          subst heq
          exact finds_addConstant hr.levels (hl.settles.trans hr.settles) c
      | choice condition onTrue onFalse =>
          have hcondition : s.LeadsTo e condition := .operand (by simp [hexpr, Expr.operands])
          refine (ih h (hlower hcondition)).bind fun condition s₁ hc => ?_
          refine (finds_literal condition).bind fun c s₂ heq => ?_
          subst heq
          split
          · exact hpart (.operand (by simp [hexpr, Expr.operands])) hc.levels hc.settles
          · exact hpart (.operand (by simp [hexpr, Expr.operands])) hc.levels hc.settles
          · exact FoldError.noConfusion
      | construct type args =>
          exact finds_items (fun a ha s₁ h₁ => ih h₁ (hlower (.operand (by rwa [hexpr]))))
            (.construct type) hexpr h he
      | aggregate items =>
          exact finds_items (fun a ha s₁ h₁ => ih h₁ (hlower (.operand (by rwa [hexpr]))))
            .aggregate hexpr h he
      | member | subscript | call | assign => simp [hasConstantForm, hexpr] at hform

theorem run_mapM_self {m : ExprId → FoldM ExprId} {es : List ExprId}
    (hm : ∀ e ∈ es, (m e).run.run s = (.ok e, s)) : (es.mapM m).run.run s = (.ok es, s) := by
  induction es with
  | nil => rfl
  | cons e rest ih =>
      obtain ⟨he, hrest⟩ := List.forall_mem_cons.1 hm
      rw [List.mapM_cons, run_bind, he]
      dsimp only
      rw [run_bind, ih hrest]
      rfl

theorem run_items_self {m : ExprId → FoldM ExprId} {items : List ExprId} {wrap : List ExprId → Expr}
    (hm : ∀ a ∈ items, (m a).run.run s = (.ok a, s)) (hexpr : s.expr e = wrap items) :
    (do
      let items ← items.mapM m
      modify (Shader.setExpr e (wrap items))
      return e : FoldM ExprId).run.run s = (.ok e, s) := by
  rw [run_bind, run_mapM_self hm]
  exact congrArg (Except.ok e, ·) (setExpr_self hexpr)

theorem run_isSettled (h : s₀.KeepsLevels s) (hr : s.IsSettled r)
    (hlevel : s₀.isConstantWithin n r) : (evaluateWithin n r).run.run s = (.ok r, s) := by
  induction hr generalizing n with
  | literal hexpr | sequence hexpr =>
      cases n with
      | zero => cases hlevel
      | succ n =>
          unfold evaluateWithin
          rw [run_bind, run_get]
          dsimp only
          rw [hexpr]
          rfl
  | construct hexpr _ ih | aggregate hexpr _ ih =>
      cases n with
      | zero => cases hlevel
      | succ n =>
          unfold evaluateWithin
          rw [run_bind, run_get]
          dsimp only
          rw [hexpr]
          exact run_items_self
            (fun a ha => ih a ha (h.lower n _ a hlevel (.operand (by rwa [hexpr])))) hexpr

/-- The test for constants and folding agree, and folding is done after the first time. What is
constant is never refused as not constant, and what it is folded to is constant again and folded to
itself, without any change to the shader. -/
theorem folded_is_fixed_point (h : s.isConstant e) :
    (∀ s', (evaluate e).run.run s ≠ (.error .notConstant, s')) ∧
      ∀ r s', (evaluate e).run.run s = (.ok r, s') →
        s'.isConstant r ∧ (evaluate r).run.run s' = (.ok r, s') := by
  have hrun (d : ExprId) (t : Shader) :
      (evaluate d).run.run t = (evaluateWithin t.foldingDepth d).run.run t := rfl
  have hfinds := finds_evaluateWithin (.refl s) h
  rw [← hrun] at hfinds
  refine ⟨fun s' heq => ?_, fun r s' heq => ?_⟩
  · rw [heq] at hfinds
    exact hfinds rfl
  · have hrest := changesExprs_evaluate e s
    rw [heq] at hfinds hrest
    have hdepth : s.foldingDepth ≤ s'.foldingDepth := by
      obtain ⟨exprs, rfl⟩ := hrest
      have hsize := hfinds.levels.size
      simp only [foldingDepth] at hsize ⊢
      omega
    have hlevel : s.isConstantWithin s'.foldingDepth r :=
      isConstantWithin_mono (hfinds.below _ h) hdepth
    exact ⟨hfinds.levels.isConstantWithin hlevel, run_isSettled hfinds.levels hfinds.settled hlevel⟩

/-- `const ivec2 v = ivec2(1, -1);` and the items `{ v, v }`, which share the constructor. -/
def sharedConstructor : Shader where
  stage := .fragment
  exprs := #[.constant (.int 1), .constant (.int 1), .unary .minus ⟨1⟩,
    .construct (.builtin (.vector .int .two)) [⟨0⟩, ⟨2⟩], .var ⟨0⟩, .var ⟨0⟩,
    .aggregate [⟨4⟩, ⟨5⟩]]
  vars := #[{ name := "v", type := .builtin (.vector .int .two), flags := { constant := true },
              role := .localVar (some ⟨3⟩) }]

/-- The items have been replaced by the constructor, and in it the negation by a literal. -/
theorem sharedConstructor_folded : sharedConstructor.isConstant ⟨6⟩ ∧
    ∃ s', (evaluate ⟨6⟩).run.run sharedConstructor = (.ok ⟨6⟩, s') ∧
      s'.expr ⟨6⟩ = .aggregate [⟨3⟩, ⟨3⟩] ∧
      s'.expr ⟨3⟩ = .construct (.builtin (.vector .int .two)) [⟨0⟩, ⟨7⟩] ∧
      s'.expr ⟨7⟩ = .constant (.int (-1)) ∧
      s'.isConstant ⟨6⟩ ∧ (evaluate ⟨6⟩).run.run s' = (.ok ⟨6⟩, s') := by
  have hconstant : sharedConstructor.isConstant ⟨6⟩ := by decide
  exact ⟨hconstant, _, rfl, rfl, rfl, rfl, (folded_is_fixed_point hconstant).2 _ _ rfl⟩

end Folding

end ShaderBridge
