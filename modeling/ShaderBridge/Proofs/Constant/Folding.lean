import ShaderBridge.Proofs.Constant.Value
import ShaderBridge.Proofs.Constant.Run
import ShaderBridge.Proofs.Parse.Accepted
import ShaderBridge.Proofs.Shader.References

/-!
Folding constant expressions where they stand in a shader. What folding does to the shader is to add
literals behind all other expressions; the literal that it yields is the one that the tree of the
expression folds to.

Folding takes over the literal that a variable was given, whatever type the variable is declared
with, and the literal of the branch that a choice takes. Its results are right exactly where these
literals have the declared types already.
-/

/-! ## Literals of trees -/

namespace ShaderBridge

namespace ConstExpr

/-- The number of expressions one inside the other. -/
def height : ConstExpr → Nat
  | literal _ => 1
  | named _ e => e.height + 1
  | unary _ e => e.height + 1
  | binary _ a b => max a.height b.height + 1
  | sequence a b => max a.height b.height + 1
  | choice c a b => max c.height (max a.height b.height) + 1

theorem exists_part_of_height {T : ConstExpr} {k : Nat} (h : k < T.height) :
    ∃ U ∈ T.parts, U.height = k + 1 := by
  induction T with
  | literal c =>
      rcases Nat.lt_one_iff.1 h with rfl
      exact ⟨literal c, List.mem_cons_self, rfl⟩
  | named t e ih | unary op e ih =>
      rcases Nat.lt_succ_iff_lt_or_eq.1 h with hk | rfl
      · obtain ⟨U, hU, hheight⟩ := ih hk
        exact ⟨U, List.mem_cons_of_mem _ hU, hheight⟩
      · exact ⟨_, List.mem_cons_self, rfl⟩
  | binary op a b iha ihb | sequence a b iha ihb =>
      rcases Nat.lt_succ_iff_lt_or_eq.1 h with hk | rfl
      · rcases lt_max_iff.1 hk with hk | hk
        · obtain ⟨U, hU, hheight⟩ := iha hk
          exact ⟨U, List.mem_cons_of_mem _ (List.mem_append_left _ hU), hheight⟩
        · obtain ⟨U, hU, hheight⟩ := ihb hk
          exact ⟨U, List.mem_cons_of_mem _ (List.mem_append_right _ hU), hheight⟩
      · exact ⟨_, List.mem_cons_self, rfl⟩
  | choice c a b ihc iha ihb =>
      rcases Nat.lt_succ_iff_lt_or_eq.1 h with hk | rfl
      · simp only [parts, List.mem_cons, List.mem_append]
        rcases lt_max_iff.1 hk with hk | hk
        · obtain ⟨U, hU, hheight⟩ := ihc hk
          exact ⟨U, .inr (.inl (.inl hU)), hheight⟩
        rcases lt_max_iff.1 hk with hk | hk
        · obtain ⟨U, hU, hheight⟩ := iha hk
          exact ⟨U, .inr (.inl (.inr hU)), hheight⟩
        · obtain ⟨U, hU, hheight⟩ := ihb hk
          exact ⟨U, .inr (.inr hU), hheight⟩
      · exact ⟨_, List.mem_cons_self, rfl⟩

end ConstExpr

namespace Shader

/-- The expression at a place is the tree: a literal, a variable that keeps its first value, or an
operation on what stands at other places. -/
inductive Represents (s : Shader) : ExprId → ConstExpr → Prop where
  | literal {id : ExprId} {c : Constant} :
      s.exprs[id.index]? = some (.constant c) → Represents s id (.literal c)
  | named {id : ExprId} {v : VarId} {t : Scalar} {e : ExprId} {E : ConstExpr} :
      s.exprs[id.index]? = some (.var v) → (s.var v).isImmutable →
      (s.var v).type = .builtin (.scalar t) → (s.var v).dims = [] → (s.var v).initial? = some e →
      Represents s e E → Represents s id (.named t E)
  | unary {id : ExprId} {op : UnaryOp} {e : ExprId} {E : ConstExpr} :
      s.exprs[id.index]? = some (.unary op e) → Represents s e E → Represents s id (.unary op E)
  | binary {id : ExprId} {op : BinaryOp} {a b : ExprId} {A B : ConstExpr} :
      s.exprs[id.index]? = some (.binary op a b) → Represents s a A → Represents s b B →
      Represents s id (.binary op A B)
  | sequence {id a b : ExprId} {A B : ConstExpr} :
      s.exprs[id.index]? = some (.sequence a b) → Represents s a A → Represents s b B →
      Represents s id (.sequence A B)
  | choice {id c a b : ExprId} {C A B : ConstExpr} :
      s.exprs[id.index]? = some (.choice c a b) → Represents s c C → Represents s a A →
      Represents s b B → Represents s id (.choice C A B)

def Folds (s : Shader) (id : ExprId) (c : Constant) : Prop :=
  ∃ r s', (Folding.evaluate id).run.run s = (.ok r, s') ∧ s'.constant? r = some c

variable {s : Shader} {id : ExprId} {T : ConstExpr}

theorem Represents.index_lt (h : s.Represents id T) : id.index < s.exprs.size := by
  cases h with
  | literal hid | named hid | unary hid | binary hid | sequence hid | choice hid =>
      exact (Array.getElem?_eq_some_iff.1 hid).1

theorem Represents.unique {U : ConstExpr} (hT : s.Represents id T) (hU : s.Represents id U) :
    T = U := by
  induction hT generalizing U with
  | literal hid =>
      cases hU <;> simp_all
  | named hid _ htype _ hinitial _ ih =>
      cases hU with
      | named hid' _ htype' _ hinitial' he =>
          rw [hid] at hid'
          simp only [Option.some.injEq, Expr.var.injEq] at hid'
          subst hid'
          rw [htype] at htype'
          rw [hinitial] at hinitial'
          simp only [TypeRef.builtin.injEq, BuiltinType.scalar.injEq] at htype'
          simp only [Option.some.injEq] at hinitial'
          subst htype' hinitial'
          rw [ih he]
      | _ => simp_all
  | unary hid _ ih =>
      cases hU with
      | unary hid' he =>
          rw [hid] at hid'
          simp only [Option.some.injEq, Expr.unary.injEq] at hid'
          rcases hid' with ⟨rfl, rfl⟩
          rw [ih he]
      | _ => simp_all
  | binary hid _ _ iha ihb =>
      cases hU with
      | binary hid' ha hb =>
          rw [hid] at hid'
          simp only [Option.some.injEq, Expr.binary.injEq] at hid'
          rcases hid' with ⟨rfl, rfl, rfl⟩
          rw [iha ha, ihb hb]
      | _ => simp_all
  | sequence hid _ _ iha ihb =>
      cases hU with
      | sequence hid' ha hb =>
          rw [hid] at hid'
          simp only [Option.some.injEq, Expr.sequence.injEq] at hid'
          rcases hid' with ⟨rfl, rfl⟩
          rw [iha ha, ihb hb]
      | _ => simp_all
  | choice hid _ _ _ ihc iha ihb =>
      cases hU with
      | choice hid' hc ha hb =>
          rw [hid] at hid'
          simp only [Option.some.injEq, Expr.choice.injEq] at hid'
          rcases hid' with ⟨rfl, rfl, rfl⟩
          rw [ihc hc, iha ha, ihb hb]
      | _ => simp_all

theorem Represents.part {U : ConstExpr} (h : s.Represents id T) (hU : U ∈ T.parts) :
    ∃ place, s.Represents place U := by
  induction h with
  | @literal id c hid =>
      rcases List.mem_singleton.1 hU with rfl
      exact ⟨id, .literal hid⟩
  | @named id v t e E hid himmutable htype hdims hinitial he ih =>
      rcases List.mem_cons.1 hU with rfl | hU
      · exact ⟨id, .named hid himmutable htype hdims hinitial he⟩
      · exact ih hU
  | @unary id op e E hid he ih =>
      rcases List.mem_cons.1 hU with rfl | hU
      · exact ⟨id, .unary hid he⟩
      · exact ih hU
  | @binary id op a b A B hid ha hb iha ihb =>
      rcases List.mem_cons.1 hU with rfl | hU
      · exact ⟨id, .binary hid ha hb⟩
      · rcases List.mem_append.1 hU with hU | hU
        · exact iha hU
        · exact ihb hU
  | @sequence id a b A B hid ha hb iha ihb =>
      rcases List.mem_cons.1 hU with rfl | hU
      · exact ⟨id, .sequence hid ha hb⟩
      · rcases List.mem_append.1 hU with hU | hU
        · exact iha hU
        · exact ihb hU
  | @choice id c a b C A B hid hc ha hb ihc iha ihb =>
      rcases List.mem_cons.1 hU with rfl | hU
      · exact ⟨id, .choice hid hc ha hb⟩
      · rcases List.mem_append.1 hU with hU | hU
        · rcases List.mem_append.1 hU with hU | hU
          · exact ihc hU
          · exact iha hU
        · exact ihb hU

theorem Represents.height_le (h : s.Represents id T) : T.height ≤ s.exprs.size := by
  apply height_le_of_levels fun i k => ∃ U, s.Represents ⟨i⟩ U ∧ U.height = k + 1
  · rintro i k l ⟨U, hU, hk⟩ ⟨V, hV, hl⟩
    rw [hU.unique hV] at hk
    omega
  · intro k hk
    obtain ⟨U, hU, hheight⟩ := ConstExpr.exists_part_of_height hk
    obtain ⟨place, hplace⟩ := h.part hU
    exact ⟨place.index, hplace.index_lt, U, hplace, hheight⟩

/-! ### Runs -/

/-- Expressions are added behind all others, and nothing else changes. -/
def AppendsTo (s s' : Shader) : Prop :=
  ∃ added : Array Expr, s' = { s with exprs := s.exprs ++ added }

theorem AppendsTo.refl (s : Shader) : s.AppendsTo s :=
  ⟨#[], by rw [Array.append_empty]⟩

theorem AppendsTo.trans {a b c : Shader} (hab : a.AppendsTo b) (hbc : b.AppendsTo c) :
    a.AppendsTo c := by
  rcases hab with ⟨first, rfl⟩
  rcases hbc with ⟨second, rfl⟩
  exact ⟨first ++ second, by rw [Array.append_assoc]⟩

theorem AppendsTo.addExpr (s : Shader) (e : Expr) : s.AppendsTo (s.addExpr e).2 :=
  ⟨#[e], rfl⟩

theorem AppendsTo.getElem? {s s' : Shader} (h : s.AppendsTo s') {i : Nat} {e : Expr}
    (he : s.exprs[i]? = some e) : s'.exprs[i]? = some e := by
  rcases h with ⟨added, rfl⟩
  have hi := (Array.getElem?_eq_some_iff.1 he).1
  rw [← he]
  exact Array.getElem?_append_left hi

theorem AppendsTo.var {s s' : Shader} (h : s.AppendsTo s') (v : VarId) : s'.var v = s.var v := by
  rcases h with ⟨added, rfl⟩
  rfl

theorem Represents.appendsTo {s' : Shader} (h : s.Represents id T) (hs : s.AppendsTo s') :
    s'.Represents id T := by
  induction h with
  | literal hid => exact .literal (hs.getElem? hid)
  | named hid himmutable htype hdims hinitial _ ih =>
      refine .named (hs.getElem? hid) ?_ ?_ ?_ ?_ ih
      · rwa [hs.var]
      · rwa [hs.var]
      · rwa [hs.var]
      · rwa [hs.var]
  | unary hid _ ih => exact .unary (hs.getElem? hid) ih
  | binary hid _ _ iha ihb => exact .binary (hs.getElem? hid) iha ihb
  | sequence hid _ _ iha ihb => exact .sequence (hs.getElem? hid) iha ihb
  | choice hid _ _ _ ihc iha ihb => exact .choice (hs.getElem? hid) ihc iha ihb

end Shader

namespace Folding

variable {s : Shader} {id : ExprId} {T : ConstExpr}

/-- An expression is the given literal, or is there and is none. -/
def Holds (s : Shader) (r : ExprId) : Option Constant → Prop
  | some c => s.exprs[r.index]? = some (.constant c)
  | none => ∃ e, s.exprs[r.index]? = some e ∧ ∀ c, e ≠ .constant c

theorem Holds.appendsTo {s s' : Shader} {r : ExprId} {x : Option Constant} (h : Holds s r x)
    (hs : s.AppendsTo s') : Holds s' r x := by
  cases x with
  | some c => exact hs.getElem? h
  | none =>
      rcases h with ⟨e, he, hother⟩
      exact ⟨e, hs.getElem? he, hother⟩

theorem Holds.constant? {r : ExprId} {x : Option Constant} (h : Holds s r x) :
    s.constant? r = x := by
  cases x with
  | some c => simp [Shader.constant?, Shader.expr, Array.getD_eq_getD_getElem?, show _ = _ from h]
  | none =>
      rcases h with ⟨e, he, hother⟩
      have hexpr : s.expr r = e := by
        simp [Shader.expr, Array.getD_eq_getD_getElem?, he]
      unfold Shader.constant?
      rw [hexpr]
      cases e with
      | constant c => exact absurd rfl (hother c)
      | _ => rfl

/-- What a run leaves that folds an expression to the given literal, or to none. -/
def Outcome (s : Shader) (x : Option Constant) : Except FoldError ExprId × Shader → Prop
  | (.ok r, s') => s.AppendsTo s' ∧ Holds s' r x
  | (.error _, s') => s.AppendsTo s' ∧ x = none

theorem Outcome.after {s s' : Shader} {x : Option Constant}
    {result : Except FoldError ExprId × Shader} (hs : s.AppendsTo s') (h : Outcome s' x result) :
    Outcome s x result := by
  rcases result with ⟨_ | r, s''⟩
  · exact ⟨hs.trans h.1, h.2⟩
  · exact ⟨hs.trans h.1, h.2⟩

theorem Outcome.bind {x y : Option Constant} {m : FoldM ExprId} {f : ExprId → FoldM ExprId}
    (hm : Outcome s x (m.run.run s)) (hnone : x = none → y = none)
    (hf : ∀ r s', s.AppendsTo s' → Holds s' r x → Outcome s' y ((f r).run.run s')) :
    Outcome s y ((m >>= f).run.run s) := by
  rw [run_bind]
  generalize m.run.run s = result at hm
  rcases result with ⟨_ | r, s'⟩
  · exact ⟨hm.1, hnone hm.2⟩
  · exact (hf r s' hm.1 hm.2).after hm.1

theorem outcome_literal {r : ExprId} {x y : Option Constant} {f : Constant → FoldM ExprId}
    (hr : Holds s r x) (hnone : x = none → y = none)
    (hf : ∀ c, x = some c → Outcome s y ((f c).run.run s)) :
    Outcome s y ((literal r >>= f).run.run s) := by
  have hliteral : (literal r).run.run s =
      match x with
      | some c => (.ok c, s)
      | none => (.error .invalidOperation, s) := by
    unfold literal
    rw [run_bind, run_get]
    simp only [hr.constant?]
    cases x <;> rfl
  rw [run_bind, hliteral]
  cases x with
  | none => exact ⟨.refl s, hnone rfl⟩
  | some c => exact hf c rfl

theorem outcome_lift (result : Except FoldError Constant) :
    Outcome s result.toOption
      ((evaluateWithin.liftExcept result >>= addConstant).run.run s) := by
  rw [run_bind]
  cases result with
  | error e => exact ⟨.refl s, rfl⟩
  | ok c =>
      change Outcome s (some c) ((addConstant c).run.run s)
      rw [run_addConstant]
      exact ⟨.addExpr s (.constant c), Array.getElem?_push_size⟩

theorem outcome_evaluateWithin (h : s.Represents id T) {depth : Nat} (hdepth : T.height ≤ depth) :
    Outcome s T.folded? ((evaluateWithin depth id).run.run s) := by
  induction depth generalizing s id T with
  | zero => cases T <;> simp [ConstExpr.height] at hdepth
  | succ depth ih =>
      unfold evaluateWithin
      rw [run_bind, run_get]
      have hexpr {e : Expr} (he : s.exprs[id.index]? = some e) : s.expr id = e := by
        simp [Shader.expr, Array.getD_eq_getD_getElem?, he]
      cases h with
      | literal hid =>
          simp only [hexpr hid]
          exact ⟨.refl s, hid⟩
      | @named _ v t e E hid _ _ _ hinitial he =>
          simp only [hexpr hid, run_bind, run_get, hinitial]
          simp only [ConstExpr.height] at hdepth
          change Outcome s E.folded? _
          exact ih he (by omega)
      | @unary _ op e E hid he =>
          simp only [hexpr hid]
          simp only [ConstExpr.height] at hdepth
          apply (ih he (by omega)).bind
          · intro hnone
            rw [ConstExpr.folded?, hnone, Option.bind_none]
          intro r s' hs hr
          apply outcome_literal hr
          · intro hnone
            rw [ConstExpr.folded?, hnone, Option.bind_none]
          intro c hc
          rw [ConstExpr.folded?, hc, Option.bind_some]
          exact outcome_lift _
      | @binary _ op a b A B hid ha hb =>
          simp only [hexpr hid]
          simp only [ConstExpr.height] at hdepth
          have hleft (hnone : A.folded? = none) : (ConstExpr.binary op A B).folded? = none := by
            rw [ConstExpr.folded?, hnone, Option.bind_none]
          have hright (hnone : B.folded? = none) : (ConstExpr.binary op A B).folded? = none := by
            rw [ConstExpr.folded?, hnone]
            exact Option.bind_eq_none_iff.2 fun _ _ => rfl
          apply (ih ha (by omega)).bind hleft
          intro l s₁ hs₁ hl
          apply (ih (hb.appendsTo hs₁) (by omega)).bind hright
          intro r s₂ hs₂ hr
          apply outcome_literal (hl.appendsTo hs₂) hleft
          intro x hx
          apply outcome_literal hr hright
          intro y hy
          rw [ConstExpr.folded?, hx, hy, Option.bind_some, Option.bind_some]
          exact outcome_lift _
      | sequence hid ha hb =>
          simp only [hexpr hid]
          refine ⟨.refl s, _, hid, ?_⟩
          intro c
          exact Expr.noConfusion
      | @choice _ c a b C A B hid hc ha hb =>
          simp only [hexpr hid]
          simp only [ConstExpr.height] at hdepth
          have hcondition (hnone : C.folded? = none) : (ConstExpr.choice C A B).folded? = none := by
            rw [ConstExpr.folded?, hnone]
          apply (ih hc (by omega)).bind hcondition
          intro r s' hs hr
          apply outcome_literal hr hcondition
          intro x hx
          rw [ConstExpr.folded?, hx]
          rcases x with (_ | _) | _ | _
          · exact ih (hb.appendsTo hs) (by omega)
          · exact ih (ha.appendsTo hs) (by omega)
          · exact ⟨.refl s', rfl⟩
          · exact ⟨.refl s', rfl⟩

theorem outcome_evaluate (h : s.Represents id T) :
    Outcome s T.folded? ((evaluate id).run.run s) := by
  have hdepth : T.height ≤ s.foldingDepth := by
    have hheight := h.height_le
    unfold Shader.foldingDepth
    omega
  unfold evaluate
  rw [run_bind, run_get]
  exact outcome_evaluateWithin h hdepth

/-- Folding an expression yields the literal that its tree folds to, and no other. -/
theorem folds_iff (h : s.Represents id T) (c : Constant) :
    s.Folds id c ↔ T.folded? = some c := by
  have hrun := outcome_evaluate h
  unfold Shader.Folds
  constructor
  · rintro ⟨r, s', hresult, hc⟩
    rw [hresult] at hrun
    rw [← hrun.2.constant?, hc]
  · intro hc
    rw [hc] at hrun
    generalize (evaluate id).run.run s = result at hrun ⊢
    rcases result with ⟨_ | r, s'⟩
    · exact absurd hrun.2 (by simp)
    · exact ⟨r, s', rfl, hrun.2.constant?⟩

end Folding

end ShaderBridge

/-! ## Declared types -/

namespace ShaderBridge

/-- In all parts of an expression folding yields the value, exactly if every variable and every
choice among them folds to a literal of its own type. -/
theorem Shader.folds_to_value_iff (s : Shader) (T : ConstExpr) :
    (∀ U ∈ T.parts, ∀ id, s.Represents id U → ∀ c, s.Folds id c → U.value? = some c.value) ↔
      ∀ U ∈ T.parts, U.isConverted → ∀ id, s.Represents id U → ∀ c, s.Folds id c →
        c.scalar = U.scalar := by
  constructor
  · intro h U hU hconverted id hid c hc
    rw [← c.scalar_value]
    exact ConstExpr.scalar_of_value? hconverted (h U hU id hid c hc)
  · intro h U hU id hid c hc
    have hkeeps : U.KeepsTypes := by
      intro V hV hconverted d hd
      obtain ⟨place, hplace⟩ := hid.part hV
      exact h V (ConstExpr.parts_subset hU hV) hconverted place hplace d
        ((Folding.folds_iff hplace d).2 hd)
    exact hkeeps.value_eq ((Folding.folds_iff hid c).1 hc)

namespace ConstExpr

/-- Half of a variable of unsigned type that holds minus one. -/
def halfOfMinusOne : ConstExpr :=
  .binary .div (.named .uint (.literal (.int (-1)))) (.literal (.int 2))

/-- The tokens of `const uint a = -1; const uint b = a / 2;`. -/
def halfTokens : List TokenKind :=
  [.keyword (.storage .constant), .keyword (.type (.scalar .uint)), .ident "a", .punct .eq,
    .punct .minus, .number (.int 1), .punct .semicolon, .keyword (.storage .constant),
    .keyword (.type (.scalar .uint)), .ident "b", .punct .eq, .ident "a", .punct .slash,
    .number (.int 2), .punct .semicolon, .endOfFile]

/-- The quotient is computed on signed numbers, although the variable is unsigned. -/
theorem exists_folds_not_value :
    ∃ s : Shader, s.Accepted ∧ ∃ id c, s.Represents id halfOfMinusOne ∧ s.Folds id c ∧
      halfOfMinusOne.value? ≠ some c.value := by
  obtain ⟨s, hs, hfacts⟩ := Parse.exists_accepted
    (f := fun s => (s.exprs[18]?, s.exprs[19]?, s.exprs[20]?, s.exprs[21]?, s.var ⟨36⟩))
    (show (Parse.plainShader? .fragment halfTokens).map _ =
      some (some (.constant (.int (-1))), some (.var ⟨36⟩), some (.constant (.int 2)),
        some (.binary .div ⟨19⟩ ⟨20⟩),
        { name := "a"
          type := .builtin (.scalar .uint)
          role := .global { storage := some .constant, initial := some ⟨18⟩ } }) by decide +kernel)
  simp only [Prod.mk.injEq] at hfacts
  rcases hfacts with ⟨hone, hvar, htwo, hquotient, ha⟩
  have hrepresents : s.Represents ⟨21⟩ halfOfMinusOne := by
    refine .binary hquotient (.named hvar ?_ ?_ ?_ ?_ (.literal hone)) (.literal htwo)
    · rw [ha]
      rfl
    · rw [ha]
    · rw [ha]
    · rw [ha]
      rfl
  refine ⟨s, hs, ⟨21⟩, .int 0, hrepresents, ?_, ?_⟩
  · rw [Folding.folds_iff hrepresents]
    decide
  · decide

end ConstExpr

end ShaderBridge
