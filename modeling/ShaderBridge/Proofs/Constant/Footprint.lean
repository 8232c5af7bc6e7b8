import ShaderBridge.Proofs.Constant.FixedPoint

/-!
What folding leaves behind, whether it comes to a result or not. Literals are added, and in the
constructors and arrays that an expression leads to, every item is replaced by what it is folded to.
Nothing else changes. Expressions share their parts, so an item may be folded again when it has been
replaced; it stays what it is then.
-/

namespace ShaderBridge

def Expr.isOperation : Expr → Bool
  | unary .. | binary .. => true
  | _ => false

namespace Shader

open Relation

/-- The literal that an expression stands for. -/
inductive LiteralOf (s : Shader) : ExprId → Constant → Prop where
  | constant {e : ExprId} {c : Constant} : s.expr e = .constant c → LiteralOf s e c
  | initial {e i : ExprId} {v : VarId} {c : Constant} :
      s.expr e = .var v → (s.var v).initial? = some i → LiteralOf s i c → LiteralOf s e c
  | unary {e a : ExprId} {op : UnaryOp} {x c : Constant} :
      s.expr e = .unary op a → LiteralOf s a x → Constant.unary op x = .ok c → LiteralOf s e c
  | binary {e a b : ExprId} {op : BinaryOp} {x y c : Constant} :
      s.expr e = .binary op a b → LiteralOf s a x → LiteralOf s b y →
      Constant.binary op x y = .ok c → LiteralOf s e c
  | choice {e condition onTrue onFalse : ExprId} {chosen : Bool} {c : Constant} :
      s.expr e = .choice condition onTrue onFalse → LiteralOf s condition (.bool chosen) →
      LiteralOf s (if chosen then onTrue else onFalse) c → LiteralOf s e c

/-- What an expression of the first shader is folded to in the second one. An operation becomes a
literal that has been added, a variable what its first value is folded to, and a choice what the
branch is folded to that it chooses. What folding leaves where it stands is folded to itself. -/
inductive FoldedForm (s s' : Shader) : ExprId → ExprId → Prop where
  | stays {e : ExprId} : s.HasFolded e → FoldedForm s s' e e
  | operation {e r : ExprId} {c : Constant} :
      (s.expr e).isOperation → s.LiteralOf e c → s.exprs.size ≤ r.index →
      s'.exprs[r.index]? = some (.constant c) → FoldedForm s s' e r
  | initial {e i r : ExprId} {v : VarId} :
      s.expr e = .var v → (s.var v).initial? = some i → FoldedForm s s' i r → FoldedForm s s' e r
  | choice {e condition onTrue onFalse r : ExprId} {chosen : Bool} :
      s.expr e = .choice condition onTrue onFalse → s.LiteralOf condition (.bool chosen) →
      FoldedForm s s' (if chosen then onTrue else onFalse) r → FoldedForm s s' e r

/-- A constructor of the same type or an array, with every item replaced by what it is folded to. -/
inductive ItemsFolded (s s' : Shader) : Expr → Expr → Prop where
  | construct (type : TypeRef) {args args' : List ExprId} :
      List.Forall₂ (s.FoldedForm s') args args' →
      ItemsFolded s s' (.construct type args) (.construct type args')
  | aggregate {items items' : List ExprId} :
      List.Forall₂ (s.FoldedForm s') items items' →
      ItemsFolded s s' (.aggregate items) (.aggregate items')

/-- What may be different after an expression of the first shader has been folded. -/
structure Footprint (s : Shader) (e : ExprId) (s' : Shader) : Prop where
  rest : s.SameRest s'
  size : s.exprs.size ≤ s'.exprs.size
  added : ∀ i, s.exprs.size ≤ i → i < s'.exprs.size → ∃ c, s'.exprs[i]? = some (.constant c)
  kept : ∀ d : ExprId, d.index < s.exprs.size → s'.expr d = s.expr d ∨
    ReflTransGen s.LeadsTo e d ∧ s.ItemsFolded s' (s.expr d) (s'.expr d)

/-- Literals that are no part of the first shader stay where they are. -/
def KeepsLiterals (s₀ s s' : Shader) : Prop :=
  ∀ i c, s₀.exprs.size ≤ i → s.exprs[i]? = some (.constant c) → s'.exprs[i]? = some (.constant c)

variable {s₀ s s' s'' : Shader} {e₀ e d r : ExprId} {c : Constant}

theorem KeepsLiterals.refl (s₀ s : Shader) : s₀.KeepsLiterals s s :=
  fun _ _ _ h => h

theorem KeepsLiterals.trans (h : s₀.KeepsLiterals s s') (h' : s₀.KeepsLiterals s' s'') :
    s₀.KeepsLiterals s s'' :=
  fun i c hi hc => h' i c hi (h i c hi hc)

theorem FoldedForm.mono (hform : s₀.FoldedForm s e r) (h : s₀.KeepsLiterals s s') :
    s₀.FoldedForm s' e r := by
  induction hform with
  | stays he => exact .stays he
  | operation hop hc hsize hr => exact .operation hop hc hsize (h _ _ hsize hr)
  | initial hv hi _ ih => exact .initial hv hi ih
  | choice hexpr hc _ ih => exact .choice hexpr hc ih

theorem ItemsFolded.mono {x y : Expr} (hitems : s₀.ItemsFolded s x y)
    (h : s₀.KeepsLiterals s s') : s₀.ItemsFolded s' x y := by
  cases hitems with
  | construct type hargs => exact .construct type (hargs.imp fun _ _ hform => hform.mono h)
  | aggregate hitems => exact .aggregate (hitems.imp fun _ _ hform => hform.mono h)

theorem FoldedForm.eq_of_isFolded (h : s.FoldedForm s' e r) (he : (s.expr e).isFolded) : r = e := by
  cases h with
  | stays => rfl
  | operation hop =>
      cases hexpr : s.expr e <;> rw [hexpr] at hop he <;>
        simp [Expr.isOperation, Expr.isFolded] at hop he
  | initial hv =>
      rw [hv] at he
      cases he
  | choice hexpr =>
      rw [hexpr] at he
      cases he

theorem LiteralOf.unique {x y : Constant} (hx : s.LiteralOf e x) (hy : s.LiteralOf e y) :
    x = y := by
  induction hx generalizing y with
  | constant hexpr => cases hy <;> simp_all
  | initial hv hi _ ih =>
      cases hy with
      | initial hv' hi' hy =>
          cases hv.symm.trans hv'
          cases hi.symm.trans hi'
          exact ih hy
      | _ => simp_all
  | unary hexpr _ hop ih =>
      cases hy with
      | unary hexpr' ha hop' =>
          cases hexpr.symm.trans hexpr'
          cases ih ha
          exact Except.ok.inj (hop.symm.trans hop')
      | _ => simp_all
  | binary hexpr _ _ hop iha ihb =>
      cases hy with
      | binary hexpr' ha hb hop' =>
          cases hexpr.symm.trans hexpr'
          cases iha ha
          cases ihb hb
          exact Except.ok.inj (hop.symm.trans hop')
      | _ => simp_all
  | choice hexpr _ _ ihc ih =>
      cases hy with
      | choice hexpr' hc hy =>
          cases hexpr.symm.trans hexpr'
          cases ihc hc
          exact ih hy
      | _ => simp_all

/-- What an expression is folded to is determined, but for the place of a literal that has been
added. -/
theorem FoldedForm.unique {r' : ExprId} (hr : s.FoldedForm s' e r) (hr' : s.FoldedForm s' e r') :
    r' = r ∨ ∃ c, s'.exprs[r.index]? = some (.constant c) ∧
      s'.exprs[r'.index]? = some (.constant c) := by
  induction hr with
  | stays he => exact .inl (hr'.eq_of_isFolded he.2)
  | @operation e r c hop hc _ hr =>
      cases hr' with
      | stays he => exact .inl ((FoldedForm.operation hop hc ‹_› hr).eq_of_isFolded he.2).symm
      | operation _ hc' _ hr' =>
          cases hc.unique hc'
          exact .inr ⟨c, hr, hr'⟩
      | initial hv | choice hv =>
          rw [hv] at hop
          cases hop
  | initial hv hi hr ih =>
      cases hr' with
      | stays he => exact .inl ((FoldedForm.initial hv hi hr).eq_of_isFolded he.2).symm
      | initial hv' hi' hr' =>
          cases hv.symm.trans hv'
          cases hi.symm.trans hi'
          exact ih hr'
      | operation hop =>
          rw [hv] at hop
          cases hop
      | choice hexpr => cases hv.symm.trans hexpr
  | choice hexpr hc hr ih =>
      cases hr' with
      | stays he => exact .inl ((FoldedForm.choice hexpr hc hr).eq_of_isFolded he.2).symm
      | choice hexpr' hc' hr' =>
          cases hexpr.symm.trans hexpr'
          cases hc.unique hc'
          exact ih hr'
      | operation hop =>
          rw [hexpr] at hop
          cases hop
      | initial hv => cases hv.symm.trans hexpr

theorem FoldedForm.cases_added (h : s.FoldedForm s' e r) :
    (s.exprs.size ≤ r.index ∧ ∃ c, s'.exprs[r.index]? = some (.constant c)) ∨
      s.HasFolded r ∧ ReflTransGen s.LeadsTo e r := by
  induction h with
  | stays he => exact .inr ⟨he, .refl⟩
  | operation _ _ hsize hr => exact .inl ⟨hsize, _, hr⟩
  | initial hv hi _ ih => exact ih.imp id fun ⟨hr, hreach⟩ => ⟨hr, .head (.initial hv hi) hreach⟩
  | @choice e condition onTrue onFalse r chosen hexpr _ _ ih =>
      refine ih.imp id fun ⟨hr, hreach⟩ => ⟨hr, .head (.operand ?_) hreach⟩
      rw [hexpr]
      cases chosen <;> simp [Expr.operands]

namespace Footprint

theorem refl (s : Shader) (e : ExprId) : s.Footprint e s where
  rest := .refl s
  size := Nat.le_refl _
  added _ hi hlt := absurd hlt (Nat.not_lt.2 hi)
  kept _ _ := .inl rfl

theorem var (h : s₀.Footprint e₀ s) (v : VarId) : s.var v = s₀.var v := by
  obtain ⟨exprs, rfl⟩ := h.rest
  rfl

theorem addConstant (h : s₀.Footprint e₀ s) (c : Constant) :
    s₀.Footprint e₀ (s.addExpr (.constant c)).2 ∧
      s₀.KeepsLiterals s (s.addExpr (.constant c)).2 := by
  have hpush {i : Nat} (hi : i < s.exprs.size) :
      (s.addExpr (.constant c)).2.exprs[i]? = s.exprs[i]? := by
    simp [Shader.addExpr, Array.getElem?_push, Nat.ne_of_lt hi]
  have hkeeps : s₀.KeepsLiterals s (s.addExpr (.constant c)).2 := fun i x _ hx =>
    (hpush (Array.getElem?_eq_some_iff.1 hx).1).trans hx
  refine ⟨⟨h.rest.trans (.addExpr s _), h.size.trans (by simp [Shader.addExpr]),
    fun i hi hlt => ?_, fun d hd => ?_⟩, hkeeps⟩
  · by_cases hi' : i < s.exprs.size
    · rw [hpush hi']
      exact h.added i hi hi'
    · have heq : i = s.exprs.size := by
        simp only [Shader.addExpr, Array.size_push] at hlt
        omega
      exact ⟨c, by simp [Shader.addExpr, heq]⟩
  · rw [expr_addExpr, if_neg (Nat.ne_of_lt (Nat.lt_of_lt_of_le hd h.size))]
    exact (h.kept d hd).imp_right (And.imp_right fun hitems => hitems.mono hkeeps)

theorem setItems (h : s₀.Footprint e₀ s) (he : e.index < s₀.exprs.size)
    (hreach : ReflTransGen s₀.LeadsTo e₀ e) {x : Expr} (hx : s₀.ItemsFolded s (s₀.expr e) x) :
    s₀.Footprint e₀ (s.setExpr e x) ∧ s₀.KeepsLiterals s (s.setExpr e x) := by
  have hother {i : Nat} (hi : s₀.exprs.size ≤ i) : (s.setExpr e x).exprs[i]? = s.exprs[i]? :=
    Array.getElem?_setIfInBounds_ne (Nat.ne_of_lt (Nat.lt_of_lt_of_le he hi))
  have hkeeps : s₀.KeepsLiterals s (s.setExpr e x) := fun i c hi hc => (hother hi).trans hc
  have hsize : (s.setExpr e x).exprs.size = s.exprs.size := by simp [Shader.setExpr]
  refine ⟨⟨h.rest.trans (.setExpr s e x), hsize ▸ h.size, fun i hi hlt => ?_, fun d hd => ?_⟩,
    hkeeps⟩
  · rw [hother hi]
    exact h.added i hi (hsize ▸ hlt)
  · rw [expr_setExpr _ _ _ _ (Nat.lt_of_lt_of_le he h.size)]
    split
    · next heq =>
        subst heq
        exact .inr ⟨hreach, hx.mono hkeeps⟩
    · exact (h.kept d hd).imp_right (And.imp_right fun hitems => hitems.mono hkeeps)

theorem literalOf (h : s₀.Footprint e₀ s) (hform : s₀.FoldedForm s e r)
    (hc : s.constant? r = some c) : s₀.LiteralOf e c := by
  have hconstant : s.expr r = .constant c := by
    unfold constant? at hc
    split at hc
    · next x hx =>
        cases hc
        exact hx
    · cases hc
  induction hform with
  | @stays e he =>
      rcases h.kept e he.1 with hsame | ⟨-, hitems⟩
      · exact .constant (hsame ▸ hconstant)
      · rw [hconstant] at hitems
        generalize s₀.expr e = x at hitems
        cases hitems
  | @operation e r x _ hx _ hr =>
      have hexpr : s.expr r = .constant x := by
        simp [Shader.expr, Array.getD_eq_getD_getElem?, hr]
      cases hexpr.symm.trans hconstant
      exact hx
  | initial hv hi _ ih => exact .initial hv hi (ih hc hconstant)
  | choice hexpr hcondition _ ih => exact .choice hexpr hcondition (ih hc hconstant)

end Footprint

end Shader

namespace Folding

open Relation Shader

variable {α β : Type} {s₀ s s' : Shader} {e₀ e r : ExprId} {n m : Nat}

/-- A run leaves a footprint and keeps the literals that have been added; its result, if there is
one, has a property. -/
def Leaves (s₀ : Shader) (e₀ : ExprId) (s : Shader) (P : α → Shader → Prop) :
    Except FoldError α × Shader → Prop
  | (.ok a, s') => s₀.Footprint e₀ s' ∧ s₀.KeepsLiterals s s' ∧ P a s'
  | (.error _, s') => s₀.Footprint e₀ s'

theorem Leaves.bind {P : α → Shader → Prop} {Q : β → Shader → Prop} {m : FoldM α}
    {f : α → FoldM β} (hm : Leaves s₀ e₀ s P (m.run.run s))
    (hf : ∀ a s', s₀.Footprint e₀ s' → s₀.KeepsLiterals s s' → P a s' →
      Leaves s₀ e₀ s' Q ((f a).run.run s')) : Leaves s₀ e₀ s Q ((m >>= f).run.run s) := by
  rw [run_bind]
  generalize m.run.run s = result at hm
  rcases result with ⟨err | a, s'⟩
  · exact hm
  · obtain ⟨h, hkeeps, ha⟩ := hm
    have hlast := hf a s' h hkeeps ha
    dsimp only
    generalize (f a).run.run s' = result at hlast
    rcases result with ⟨err | b, s''⟩
    · exact hlast
    · exact ⟨hlast.1, hkeeps.trans hlast.2.1, hlast.2.2⟩

theorem Leaves.imp {P Q : α → Shader → Prop} {result : Except FoldError α × Shader}
    (h : Leaves s₀ e₀ s P result) (hPQ : ∀ a s', P a s' → Q a s') : Leaves s₀ e₀ s Q result := by
  rcases result with ⟨err | a, s'⟩
  · exact h
  · exact ⟨h.1, h.2.1, hPQ a s' h.2.2⟩

theorem leaves_get_bind {P : β → Shader → Prop} {f : Shader → FoldM β}
    (h : Leaves s₀ e₀ s P ((f s).run.run s)) : Leaves s₀ e₀ s P ((get >>= f).run.run s) := by
  rwa [run_bind, run_get]

theorem leaves_literal (h : s₀.Footprint e₀ s) (r : ExprId) :
    Leaves s₀ e₀ s (fun c s' => s' = s ∧ s.constant? r = some c) ((literal r).run.run s) := by
  unfold literal
  rw [run_bind, run_get]
  dsimp only
  cases hc : s.constant? r with
  | none => exact h
  | some c => exact ⟨h, .refl s₀ s, rfl, rfl⟩

theorem leaves_liftExcept (h : s₀.Footprint e₀ s) (result : Except FoldError Constant) :
    Leaves s₀ e₀ s (fun c s' => s' = s ∧ result = .ok c)
      ((evaluateWithin.liftExcept result).run.run s) := by
  cases result with
  | error err => exact h
  | ok c => exact ⟨h, .refl s₀ s, rfl, rfl⟩

theorem leaves_addConstant (h : s₀.Footprint e₀ s) (he : (s₀.expr e).isOperation) {c : Constant}
    (hc : s₀.LiteralOf e c) :
    Leaves s₀ e₀ s (fun r s' => s₀.FoldedForm s' e r) ((addConstant c).run.run s) := by
  obtain ⟨hadded, hkeeps⟩ := h.addConstant c
  exact ⟨hadded, hkeeps, .operation he hc h.size (by simp)⟩

/-- An item is the one that stood there first, or what that one is folded to. -/
def IsItem (s₀ s : Shader) (e a : ExprId) : Prop :=
  a = e ∨ s₀.FoldedForm s e a

theorem IsItem.mono {a : ExprId} (ha : IsItem s₀ s e a) (h : s₀.KeepsLiterals s s') :
    IsItem s₀ s' e a :=
  ha.imp id fun hform => hform.mono h

/-- A way of folding that comes to the folded form of an expression wherever a footprint has been
left, also for an item that is the folded form. -/
def FoldsItem (s₀ : Shader) (e₀ : ExprId) (m : ExprId → FoldM ExprId) (e : ExprId) : Prop :=
  ∀ s a, s₀.Footprint e₀ s → IsItem s₀ s e a →
    Leaves s₀ e₀ s (fun r s' => s₀.FoldedForm s' e r) ((m a).run.run s)

theorem leaves_mapM {m : ExprId → FoldM ExprId} {items items' : List ExprId}
    (hm : ∀ e ∈ items, FoldsItem s₀ e₀ m e) (hitems : List.Forall₂ (IsItem s₀ s) items items')
    (h : s₀.Footprint e₀ s) :
    Leaves s₀ e₀ s (fun rs s' => List.Forall₂ (s₀.FoldedForm s') items rs)
      ((items'.mapM m).run.run s) := by
  induction items generalizing s items' with
  | nil =>
      cases hitems
      exact ⟨h, .refl s₀ s, .nil⟩
  | cons e items ih =>
      cases hitems with
      | cons ha hitems =>
          obtain ⟨hfirst, hrest⟩ := List.forall_mem_cons.1 hm
          rw [List.mapM_cons]
          refine (hfirst s _ h ha).bind fun r s₁ h₁ hkeeps₁ hr => ?_
          have hitems₁ := hitems.imp fun _ _ hitem => hitem.mono hkeeps₁
          refine (ih hrest hitems₁ h₁).bind fun rs s₂ h₂ hkeeps₂ hrs => ?_
          exact ⟨h₂, .refl s₀ s₂, .cons (hr.mono hkeeps₂) hrs⟩

theorem HoldsItems.itemsFolded {wrap : List ExprId → Expr} (h : HoldsItems wrap)
    {items rs : List ExprId} (hrs : List.Forall₂ (s₀.FoldedForm s) items rs) :
    s₀.ItemsFolded s (wrap items) (wrap rs) := by
  cases h with
  | construct type => exact .construct type hrs
  | aggregate => exact .aggregate hrs

theorem leaves_items {m : ExprId → FoldM ExprId} {items items' : List ExprId}
    (hm : ∀ e ∈ items, FoldsItem s₀ e₀ m e) {wrap : List ExprId → Expr} (hwrap : HoldsItems wrap)
    (hexpr : s₀.expr e = wrap items) (he : e.index < s₀.exprs.size)
    (hreach : ReflTransGen s₀.LeadsTo e₀ e)
    (hitems : List.Forall₂ (IsItem s₀ s) items items') (h : s₀.Footprint e₀ s) :
    Leaves s₀ e₀ s (fun r s' => s₀.FoldedForm s' e r) ((do
      let items ← items'.mapM m
      modify (Shader.setExpr e (wrap items))
      return e : FoldM ExprId).run.run s) := by
  have hfolded : s₀.HasFolded e := ⟨he, hexpr ▸ hwrap.isFolded items⟩
  refine (leaves_mapM hm hitems h).bind fun rs s₁ h₁ _ hrs => ?_
  obtain ⟨hput, hkeeps⟩ := h₁.setItems he hreach (hexpr ▸ hwrap.itemsFolded hrs)
  exact ⟨hput, hkeeps, .stays hfolded⟩

theorem leaves_unary {m : ExprId → FoldM ExprId} {op : UnaryOp} {operand : ExprId}
    (hexpr : s₀.expr e = .unary op operand) (hm : FoldsItem s₀ e₀ m operand)
    (h : s₀.Footprint e₀ s) :
    Leaves s₀ e₀ s (fun r s' => s₀.FoldedForm s' e r) ((do
      let operand ← m operand
      addConstant (← evaluateWithin.liftExcept (Constant.unary op (← literal operand))) :
        FoldM ExprId).run.run s) := by
  refine (hm s operand h (.inl rfl)).bind fun operand' s₁ h₁ _ hform => ?_
  refine (leaves_literal h₁ operand').bind fun x s₂ _ _ hx => ?_
  obtain ⟨rfl, hx⟩ := hx
  refine (leaves_liftExcept h₁ _).bind fun c s₃ _ _ hc => ?_
  obtain ⟨rfl, hc⟩ := hc
  exact leaves_addConstant h₁ (by rw [hexpr]; rfl) (.unary hexpr (h₁.literalOf hform hx) hc)

theorem leaves_binary {m : ExprId → FoldM ExprId} {op : BinaryOp} {left right : ExprId}
    (hexpr : s₀.expr e = .binary op left right) (hleft : FoldsItem s₀ e₀ m left)
    (hright : FoldsItem s₀ e₀ m right) (h : s₀.Footprint e₀ s) :
    Leaves s₀ e₀ s (fun r s' => s₀.FoldedForm s' e r) ((do
      let left ← m left
      let right ← m right
      let left ← literal left
      let right ← literal right
      addConstant (← evaluateWithin.liftExcept (Constant.binary op left right)) :
        FoldM ExprId).run.run s) := by
  refine (hleft s left h (.inl rfl)).bind fun left' s₁ h₁ _ hform => ?_
  refine (hright s₁ right h₁ (.inl rfl)).bind fun right' s₂ h₂ hkeeps hform' => ?_
  refine (leaves_literal h₂ left').bind fun x s₃ _ _ hx => ?_
  obtain ⟨rfl, hx⟩ := hx
  refine (leaves_literal h₂ right').bind fun y s₄ _ _ hy => ?_
  obtain ⟨rfl, hy⟩ := hy
  refine (leaves_liftExcept h₂ _).bind fun c s₅ _ _ hc => ?_
  obtain ⟨rfl, hc⟩ := hc
  -- The right operand has been folded behind the left one, and has kept its literal.
  have hx := h₂.literalOf (hform.mono hkeeps) hx
  exact leaves_addConstant h₂ (by rw [hexpr]; rfl) (.binary hexpr hx (h₂.literalOf hform' hy) hc)

theorem leaves_choice {m : ExprId → FoldM ExprId} {condition onTrue onFalse : ExprId}
    (hexpr : s₀.expr e = .choice condition onTrue onFalse)
    (hcondition : FoldsItem s₀ e₀ m condition) (htrue : FoldsItem s₀ e₀ m onTrue)
    (hfalse : FoldsItem s₀ e₀ m onFalse) (h : s₀.Footprint e₀ s) :
    Leaves s₀ e₀ s (fun r s' => s₀.FoldedForm s' e r) ((do
      let condition ← m condition
      match ← literal condition with
      | .bool true => m onTrue
      | .bool false => m onFalse
      | _ => throw .invalidOperation : FoldM ExprId).run.run s) := by
  refine (hcondition s condition h (.inl rfl)).bind fun condition' s₁ h₁ _ hform => ?_
  refine (leaves_literal h₁ condition').bind fun x s₂ _ _ hx => ?_
  obtain ⟨rfl, hx⟩ := hx
  have hliteral := h₁.literalOf hform hx
  split
  · exact (htrue _ onTrue h₁ (.inl rfl)).imp fun _ _ => .choice hexpr hliteral
  · exact (hfalse _ onFalse h₁ (.inl rfl)).imp fun _ _ => .choice hexpr hliteral
  · exact h₁

theorem run_literal_self {c : Constant} (hr : s.expr r = .constant c) (n : Nat) :
    (evaluateWithin (n + 1) r).run.run s = (.ok r, s) := by
  unfold evaluateWithin
  rw [run_bind, run_get]
  dsimp only
  rw [hr]
  rfl

/-- What an expression leads to can be folded, and so can what it is folded to. -/
theorem foldsItem_of_leaves
    (hleaves : ∀ d s, d.index < s₀.exprs.size → ReflTransGen s₀.LeadsTo e₀ d → s₀.Footprint e₀ s →
      Leaves s₀ e₀ s (fun r s' => s₀.FoldedForm s' d r) ((evaluateWithin n d).run.run s))
    (he : e.index < s₀.exprs.size) (hreach : ReflTransGen s₀.LeadsTo e₀ e) :
    FoldsItem s₀ e₀ (evaluateWithin n) e := by
  rintro s a h (rfl | hform)
  · exact hleaves a s he hreach h
  rcases hform.cases_added with ⟨hadded, c, hc⟩ | ⟨hfolded, hleads⟩
  · cases n with
    | zero => exact h
    | succ n =>
        have hexpr : s.expr a = .constant c := by
          simp [Shader.expr, Array.getD_eq_getD_getElem?, hc]
        rw [run_literal_self hexpr]
        exact ⟨h, .refl s₀ s, hform⟩
  · have hrun := hleaves a s hfolded.1 (hreach.trans hleads) h
    generalize (evaluateWithin n a).run.run s = result at hrun
    rcases result with ⟨err | r, s'⟩
    · exact hrun
    · obtain ⟨h', hkeeps, hr⟩ := hrun
      rw [hr.eq_of_isFolded hfolded.2]
      exact ⟨h', hkeeps, hform.mono hkeeps⟩

theorem leaves_evaluateWithin (hrange : ∀ x, s₀.has x → ∀ y ∈ s₀.references x, s₀.has y) (n : Nat) :
    ∀ e s, e.index < s₀.exprs.size → ReflTransGen s₀.LeadsTo e₀ e → s₀.Footprint e₀ s →
      Leaves s₀ e₀ s (fun r s' => s₀.FoldedForm s' e r) ((evaluateWithin n e).run.run s) := by
  induction n with
  | zero => exact fun e s _ _ h => h
  | succ n ih =>
      intro e s he hreach h
      have hnext {d : ExprId} (hd : s₀.LeadsTo e d) :
          d.index < s₀.exprs.size ∧ ReflTransGen s₀.LeadsTo e₀ d :=
        ⟨by simpa [has] using hd.has hrange, hreach.tail hd⟩
      have hitem {d : ExprId} (hd : s₀.LeadsTo e d) : FoldsItem s₀ e₀ (evaluateWithin n) d :=
        foldsItem_of_leaves ih (hnext hd).1 (hnext hd).2
      have hoperand {d : ExprId} (hd : d ∈ (s₀.expr e).operands) :
          FoldsItem s₀ e₀ (evaluateWithin n) d := hitem (.operand hd)
      have hconstruct {type : TypeRef} {args args' : List ExprId}
          (hexpr : s₀.expr e = .construct type args)
          (hargs : List.Forall₂ (IsItem s₀ s) args args') :=
        leaves_items (fun a ha => hoperand (by rwa [hexpr])) (.construct type) hexpr he hreach
          hargs h
      have haggregate {items items' : List ExprId} (hexpr : s₀.expr e = .aggregate items)
          (hitems : List.Forall₂ (IsItem s₀ s) items items') :=
        leaves_items (fun a ha => hoperand (by rwa [hexpr])) .aggregate hexpr he hreach hitems h
      refine leaves_get_bind ?_
      -- Either the expression is as it was at first, or its items have been folded before.
      rcases h.kept e he with hsame | ⟨-, hchanged⟩
      · rw [hsame]
        cases hexpr : s₀.expr e with
        | constant | sequence => exact ⟨h, .refl s₀ s, .stays ⟨he, by rw [hexpr]; rfl⟩⟩
        | var v =>
            refine leaves_get_bind ?_
            rw [h.var]
            cases hinitial : (s₀.var v).initial? with
            | none => exact h
            | some initial =>
                have hi := hitem (.initial hexpr hinitial) s initial h (.inl rfl)
                exact hi.imp fun _ _ => .initial hexpr hinitial
        | unary op operand =>
            exact leaves_unary hexpr (hoperand (by simp [hexpr, Expr.operands])) h
        | binary op left right =>
            exact leaves_binary hexpr (hoperand (by simp [hexpr, Expr.operands]))
              (hoperand (by simp [hexpr, Expr.operands])) h
        | choice condition onTrue onFalse =>
            exact leaves_choice hexpr (hoperand (by simp [hexpr, Expr.operands]))
              (hoperand (by simp [hexpr, Expr.operands]))
              (hoperand (by simp [hexpr, Expr.operands])) h
        | construct type args => exact hconstruct hexpr (List.forall₂_same.2 fun _ _ => .inl rfl)
        | aggregate items => exact haggregate hexpr (List.forall₂_same.2 fun _ _ => .inl rfl)
        | member | subscript | call | assign => exact h
      · generalize hexpr : s₀.expr e = x at hchanged
        generalize s.expr e = y at hchanged
        cases hchanged with
        | construct type hargs => exact hconstruct hexpr (hargs.imp fun _ _ => .inr)
        | aggregate hitems => exact haggregate hexpr (hitems.imp fun _ _ => .inr)

/-- Whether it comes to a result or not, folding adds nothing but literals, and replaces nothing but
the items of constructors and arrays that the expression leads to, each of them by what it is folded
to. -/
theorem evaluate_footprint (hrange : ∀ x, s.has x → ∀ y ∈ s.references x, s.has y)
    (he : s.has (.expr e)) {result : Except FoldError ExprId}
    (hrun : (evaluate e).run.run s = (result, s')) :
    s.Footprint e s' ∧ ∀ r, result = .ok r → s.FoldedForm s' e r := by
  have hleaves := leaves_evaluateWithin hrange s.foldingDepth e s (by simpa [has] using he) .refl
    (.refl s e)
  change Leaves s e s _ ((evaluate e).run.run s) at hleaves
  rw [hrun] at hleaves
  cases result with
  | error err =>
      refine ⟨hleaves, fun r hr => ?_⟩
      cases hr
  | ok r =>
      refine ⟨hleaves.1, ?_⟩
      rintro _ ⟨⟩
      exact hleaves.2.2

/-- `const ivec2 v = ivec2(1, -1);` and the items `{ v, 1 / 0 }`, the second of which cannot be
folded. -/
def failingItems : Shader where
  stage := .fragment
  exprs := #[.constant (.int 1), .constant (.int 0), .unary .minus ⟨0⟩,
    .construct (.builtin (.vector .int .two)) [⟨0⟩, ⟨2⟩], .var ⟨0⟩, .binary .div ⟨0⟩ ⟨1⟩,
    .aggregate [⟨4⟩, ⟨5⟩]]
  vars := #[{ name := "v", type := .builtin (.vector .int .two), flags := { constant := true },
              role := .localVar (some ⟨3⟩) }]

/-- The constructor has been folded before the error, and the items are left as they were. -/
theorem failingItems_footprint :
    ∃ s', (evaluate ⟨6⟩).run.run failingItems = (.error .divisionByZero, s') ∧
      s'.expr ⟨3⟩ = .construct (.builtin (.vector .int .two)) [⟨0⟩, ⟨7⟩] ∧
      s'.expr ⟨6⟩ = .aggregate [⟨4⟩, ⟨5⟩] ∧ s'.expr ⟨7⟩ = .constant (.int (-1)) ∧
      failingItems.Footprint ⟨6⟩ s' := by
  have hrange : ∀ x, failingItems.has x → ∀ y ∈ failingItems.references x, failingItems.has y := by
    intro x hx
    revert x
    simp only [has_eq_true_iff]
    decide
  exact ⟨_, rfl, rfl, rfl, rfl, (evaluate_footprint hrange (by decide) rfl).1⟩

end Folding

end ShaderBridge
