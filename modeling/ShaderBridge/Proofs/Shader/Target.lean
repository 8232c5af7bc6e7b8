import ShaderBridge.Parse.Expression
import ShaderBridge.Proofs.Shader.Binding

namespace ShaderBridge

/-- What the declaration of a variable itself says on whether the variable is read only. -/
def Variable.isReadOnly (v : Variable) : Bool :=
  v.isImmutable || v.storage? == some .input

namespace Expr

def isAssign : Expr → Bool
  | assign .. => true
  | _ => false

/-- A variable, or what selects a part of its operand. -/
def isSelection : Expr → Bool
  | var _ | member .. | subscript .. => true
  | _ => false

variable {e e' : Expr}

theorem Refolds.eq_of_isSelection (h : e.Refolds e') (he : e.isSelection) : e' = e := by
  cases h with
  | same => rfl
  | construct | aggregate => cases he

theorem Refolds.eq_of_isAssign (h : e.Refolds e') (he : e'.isAssign) : e = e' := by
  cases h with
  | same => rfl
  | construct | aggregate => cases he

theorem Rebinds.eq_of_isSelection (h : e.Rebinds e') (he : e.isSelection) : e' = e := by
  cases h with
  | same => rfl
  | call => cases he

theorem Rebinds.eq_of_isAssign (h : e.Rebinds e') (he : e'.isAssign) : e = e' := by
  cases h with
  | same => rfl
  | call => cases he

end Expr

namespace Shader

/-- An expression is a variable, or selects a part of what bottoms out in it. -/
inductive BottomsOut (s : Shader) : ExprId → VarId → Prop where
  | var {e : ExprId} {v : VarId} : s.expr e = .var v → s.BottomsOut e v
  | member {e operand : ExprId} {name : String} {field : Option VarId} {v : VarId} :
      s.expr e = .member operand name field → s.BottomsOut operand v → s.BottomsOut e v
  | subscript {e operand index : ExprId} {v : VarId} :
      s.expr e = .subscript operand index → s.BottomsOut operand v → s.BottomsOut e v

/-- What an expression assigns to bottoms out in a variable whose declaration lets it be written. -/
def GuardsTarget (s : Shader) (e : Expr) : Prop :=
  ∀ op left right, e = .assign op left right →
    ∃ v, s.BottomsOut left v ∧ (s.var v).isReadOnly = false

variable {s s' : Shader} {e : ExprId} {v w : VarId}

theorem BottomsOut.unique (hv : s.BottomsOut e v) (hw : s.BottomsOut e w) : v = w := by
  induction hv with
  | var hexpr => cases hw <;> simp_all
  | member hexpr _ ih => cases hw <;> simp_all
  | subscript hexpr _ ih => cases hw <;> simp_all

theorem BottomsOut.has (h : s.BottomsOut e v) (hlinked : s.Linked) : s.has (.var v) := by
  induction h with
  | @var e v hexpr => exact hlinked.expr e _ (by simp [hexpr, Expr.links])
  | member _ _ ih | subscript _ _ ih => exact ih

theorem bottomsOut_of_rootWithin {depth : Nat} (h : s.expr (s.rootWithin depth e) = .var v) :
    s.BottomsOut e v := by
  induction depth generalizing e with
  | zero => exact .var h
  | succ depth ih =>
      rw [rootWithin] at h
      split at h
      · next hexpr => exact .member hexpr (ih h)
      · next hexpr => exact .subscript hexpr (ih h)
      · exact .var h

theorem bottomsOut_of_targetVariable? (h : s.targetVariable? e = some v) : s.BottomsOut e v := by
  unfold targetVariable? at h
  split at h
  · next hexpr =>
      cases h
      exact bottomsOut_of_rootWithin hexpr
  · cases h

theorem BottomsOut.mono (h : s.BottomsOut e v)
    (hexpr : ∀ d, (s.expr d).isSelection → s'.expr d = s.expr d) : s'.BottomsOut e v := by
  have hkept {d : ExprId} {x : Expr} (hd : s.expr d = x) (hx : x.isSelection) : s'.expr d = x := by
    subst hd
    exact hexpr d hx
  induction h with
  | var hd => exact .var (hkept hd rfl)
  | member hd _ ih => exact .member (hkept hd rfl) ih
  | subscript hd _ ih => exact .subscript (hkept hd rfl) ih

theorem GuardsTarget.mono {x : Expr} (h : s.GuardsTarget x)
    (hexpr : ∀ d, (s.expr d).isSelection → s'.expr d = s.expr d)
    (hvar : ∀ left v, s.BottomsOut left v → (s'.var v).isReadOnly = (s.var v).isReadOnly) :
    s'.GuardsTarget x := by
  intro op left right hx
  obtain ⟨v, hv, hwritable⟩ := h op left right hx
  exact ⟨v, hv.mono hexpr, (hvar left v hv).trans hwritable⟩

theorem guardsTarget_of_not_isAssign {x : Expr} (h : x.isAssign = false) : s.GuardsTarget x := by
  rintro op left right rfl
  cases h

theorem Grows.expr_of_isSelection (h : s.Grows s') {d : ExprId} (hd : (s.expr d).isSelection) :
    s'.expr d = s.expr d := by
  have hindex : d.index < s.exprs.size := by
    by_contra hsize
    rw [expr_of_size_le (Nat.not_lt.1 hsize)] at hd
    cases hd
  exact (h.expr d hindex).eq_of_isSelection hd

theorem Grows.guardsTarget (h : s.Grows s') (hlinked : s.Linked)
    (hguards : ∀ d, s.GuardsTarget (s.expr d))
    (hadded : ∀ d : ExprId, s.exprs.size ≤ d.index → s'.GuardsTarget (s'.expr d)) (d : ExprId) :
    s'.GuardsTarget (s'.expr d) := by
  by_cases hd : d.index < s.exprs.size
  · by_cases hassign : (s'.expr d).isAssign
    · rw [← (h.expr d hd).eq_of_isAssign hassign]
      refine (hguards d).mono (fun d => h.expr_of_isSelection) fun left v hv => ?_
      rw [h.var v (by simpa [Shader.has] using hv.has hlinked)]
    · exact guardsTarget_of_not_isAssign (Bool.eq_false_of_not_eq_true hassign)
  · exact hadded d (Nat.not_lt.1 hd)

end Shader

/-- What an expression begins with. -/
inductive Expr.Start where
  | type
  | var (id : VarId)
  | operand (e : ExprId)
  | other

def Expr.start : Expr → Start
  | construct .. | aggregate _ => .type
  | var v => .var v
  | member e _ _ | subscript e _ | binary _ e _ | assign _ e _ | sequence e _ | choice e _ _
  | unary .postIncrement e | unary .postDecrement e => .operand e
  | constant _ | call .. | unary .. => .other

theorem Expr.Refolds.start {e e' : Expr} (h : e.Refolds e') : e'.start = e.start := by
  cases h <;> rfl

namespace Shader

/-- An expression begins with a constructor, with an array, or with a variable that has the name of
a structure. -/
inductive BeginsWithType (s : Shader) : ExprId → Prop where
  | type {e : ExprId} : (s.expr e).start = .type → BeginsWithType s e
  | var {e : ExprId} {v : VarId} :
      (s.expr e).start = .var v → (s.findStruct? (s.var v).name).isSome → BeginsWithType s e
  | operand {e o : ExprId} : (s.expr e).start = .operand o → BeginsWithType s o → BeginsWithType s e

/-- There is a statement that only turns out late to be an expression. -/
def Ambiguous (s : Shader) : Prop :=
  ∃ t e, s.stmt t = .expression e ∧ s.BeginsWithType e

variable {s s' : Shader}

theorem not_ambiguous_of_stmts (h : s.stmts = #[]) : ¬ s.Ambiguous := by
  rintro ⟨t, e, ht, _⟩
  rw [stmt, h] at ht
  cases ht

theorem lt_size_of_start {e : ExprId} (h : (s.expr e).start ≠ .other) :
    e.index < s.exprs.size := by
  refine index_lt_of_expr rfl fun hdefault => h ?_
  rw [hdefault]
  rfl

theorem BeginsWithType.mono (hs : s.Linked)
    (hstart : ∀ e : ExprId, e.index < s.exprs.size → (s'.expr e).start = (s.expr e).start)
    (hname : ∀ v : VarId, v.index < s.vars.size → (s'.var v).name = (s.var v).name)
    (hstruct : ∀ name, (s.findStruct? name).isSome → (s'.findStruct? name).isSome) {e : ExprId}
    (h : s.BeginsWithType e) : s'.BeginsWithType e := by
  induction h with
  | type h => exact .type (by rw [hstart _ (lt_size_of_start (by simp [h])), h])
  | @var e v h hv =>
      have hlt : v.index < s.vars.size := by
        have hlinks : .var v ∈ (s.expr e).links := by
          unfold Expr.start at h
          split at h <;> cases h
          next heq => rw [heq]; exact List.mem_singleton_self _
        simpa [has] using hs.expr e _ hlinks
      refine .var (v := v) (by rw [hstart _ (lt_size_of_start (by simp [h])), h]) ?_
      rw [hname v hlt]
      exact hstruct _ hv
  | operand h _ ih => exact .operand (by rw [hstart _ (lt_size_of_start (by simp [h])), h]) ih

theorem Ambiguous.mono (h : s.Ambiguous) (hs : s.Linked)
    (hstmt : ∀ t e, s.stmt t = .expression e → s'.stmt t = .expression e)
    (hstart : ∀ e : ExprId, e.index < s.exprs.size → (s'.expr e).start = (s.expr e).start)
    (hname : ∀ v : VarId, v.index < s.vars.size → (s'.var v).name = (s.var v).name)
    (hstruct : ∀ name, (s.findStruct? name).isSome → (s'.findStruct? name).isSome) :
    s'.Ambiguous := by
  obtain ⟨t, e, ht, he⟩ := h
  exact ⟨t, e, hstmt t e ht, he.mono hs hstart hname hstruct⟩

theorem Grows.beginsWithType (hg : s.Grows s') (hs : s.Linked) {e : ExprId}
    (h : s.BeginsWithType e) : s'.BeginsWithType e :=
  h.mono hs (fun e he => (hg.expr e he).start) (fun v hv => by rw [hg.var v hv]) fun name h => by
    rw [hg.rest]
    exact h

theorem Grows.ambiguous (hg : s.Grows s') (hs : s.Linked) (h : s.Ambiguous) : s'.Ambiguous := by
  obtain ⟨t, e, ht, he⟩ := h
  refine ⟨t, e, ?_, hg.beginsWithType hs he⟩
  rw [hg.rest]
  exact ht

end Shader

end ShaderBridge
