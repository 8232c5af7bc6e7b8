import Mathlib.Data.List.Find
import ShaderBridge.Hlsl.ByteBuffer
import ShaderBridge.Hlsl.Lowering.Atomic
import ShaderBridge.Proofs.Lowering.Reading
import ShaderBridge.Proofs.Shader.References
import ShaderBridge.Shader.Folding

namespace ShaderBridge

theorem mapM_congr {m : Type → Type} [Monad m] [LawfulMonad m] {α β : Type} {f g : α → m β}
    {l : List α} (h : ∀ a ∈ l, f a = g a) : l.mapM f = l.mapM g := by
  induction l with
  | nil => rfl
  | cons a rest ih =>
      rw [List.mapM_cons, List.mapM_cons, h a List.mem_cons_self,
        ih fun b hb => h b (List.mem_cons_of_mem _ hb)]

theorem all_congr_mem {α : Type} {f g : α → Bool} {l : List α} (h : ∀ a ∈ l, f a = g a) :
    l.all f = l.all g := by
  induction l with
  | nil => rfl
  | cons a rest ih =>
      rw [List.all_cons, List.all_cons, h a List.mem_cons_self,
        ih fun b hb => h b (List.mem_cons_of_mem _ hb)]

/-- The expressions whose types make up the type of an expression. -/
def Expr.typedBy : Expr → List ExprId
  | .constant _ | .var _ | .member _ _ (some _) | .construct .. => []
  | .member e _ none | .subscript e _ | .unary _ e | .assign _ e _ | .sequence _ e => [e]
  | .binary _ a b => [a, b]
  | .choice _ onTrue _ => [onTrue]
  | .call _ args _ => args
  | .aggregate items => items.head?.toList

theorem Expr.typedBy_subset (e : Expr) : e.typedBy ⊆ e.operands := by
  cases e with
  | member operand name field => cases field <;> simp [typedBy, operands]
  | aggregate items => cases items <;> simp [typedBy, operands]
  | _ => simp [typedBy, operands]

namespace Shader

/-- An expression is the same in two shaders as far as its type goes, and what it refers to has the
same types in both. -/
structure TypedAlike (s s' : Shader) (e : ExprId) : Prop where
  expr : s'.expr e = s.expr e ∨ ∃ type args args',
    s.expr e = .construct type args ∧ s'.expr e = .construct type args'
  vars : ∀ v, .var v ∈ (s.expr e).links → s'.varType v = s.varType v
  target : ∀ name args f, s.expr e = .call name args (some f) →
    (s'.func f).returnType = (s.func f).returnType
  overloads : ∀ name args, s.expr e = .call name args none →
    s'.overloads name = s.overloads name ∧ ∀ f ∈ s.overloads name,
      s'.paramTypes f = s.paramTypes f ∧ (s'.func f).returnType = (s.func f).returnType

namespace TypedAlike

variable {s s' : Shader} {e : ExprId} {n m : Nat}

theorem refl (s : Shader) (e : ExprId) : s.TypedAlike s e :=
  ⟨.inl rfl, fun _ _ => rfl, fun _ _ _ _ => rfl, fun _ _ _ => ⟨rfl, fun _ _ => ⟨rfl, rfl⟩⟩⟩

theorem of_expr (hexpr : s'.expr e = s.expr e) (hvar : ∀ v, s'.varType v = s.varType v)
    (hparams : ∀ f, s'.paramTypes f = s.paramTypes f)
    (hreturn : ∀ f, (s'.func f).returnType = (s.func f).returnType)
    (hoverloads : ∀ name args, s.expr e = .call name args none →
      s'.overloads name = s.overloads name) : s.TypedAlike s' e :=
  ⟨.inl hexpr, fun v _ => hvar v, fun _ _ f _ => hreturn f,
    fun name args hcall => ⟨hoverloads name args hcall, fun f _ => ⟨hparams f, hreturn f⟩⟩⟩

theorem typeWithin?_succ (h : s.TypedAlike s' e)
    (hparts : ∀ d ∈ (s.expr e).typedBy, s'.typeWithin? m d = s.typeWithin? n d) :
    s'.typeWithin? (m + 1) e = s.typeWithin? (n + 1) e := by
  unfold typeWithin?
  rcases h.expr with hsame | ⟨type, args, args', hold, hnew⟩
  · rw [hsame]
    cases hexpr : s.expr e with
    | call name args target =>
        rw [hexpr] at hparts
        have htypes : (args.mapM fun arg => ExprType.type <$> s'.typeWithin? m arg) =
            args.mapM fun arg => ExprType.type <$> s.typeWithin? n arg :=
          mapM_congr fun arg harg => by rw [hparts arg harg]
        dsimp only
        rw [htypes]
        cases target with
        | some f => simp only [h.target name args f hexpr]
        | none =>
            obtain ⟨hoverloads, hfuncs⟩ := h.overloads name args hexpr
            have hfind (types : List TypeRef) :
                (do
                  let f ← (s.overloads name).find? fun f => s'.paramTypes f == types
                  return (⟨(s'.func f).returnType, 0⟩ : ExprType) : Option ExprType) = do
                  let f ← (s.overloads name).find? fun f => s.paramTypes f == types
                  return ⟨(s.func f).returnType, 0⟩ := by
              rw [List.find?_congr fun f hf => by rw [(hfuncs f hf).1]]
              cases hfound : (s.overloads name).find? fun f => s.paramTypes f == types with
              | none => rfl
              | some f => simp [(hfuncs f (List.mem_of_find?_eq_some hfound)).2]
            simp only [hoverloads, hfind]
    | aggregate items =>
        rw [hexpr] at hparts
        cases items with
        | nil => rfl
        | cons first rest => simp [hparts first (by simp [Expr.typedBy])]
    | member operand name field =>
        rw [hexpr] at hparts
        cases field with
        | some field => simp only [h.vars field (by simp [hexpr, Expr.links])]
        | none => simp [hparts operand (by simp [Expr.typedBy])]
    | var v => simp only [h.vars v (by simp [hexpr, Expr.links])]
    | constant | construct => rfl
    | _ =>
        rw [hexpr] at hparts
        simp_all [Expr.typedBy]
  · rw [hold, hnew]

end TypedAlike

end Shader

namespace Shader

open Relation

variable {s : Shader}

/-- Expressions lead to lower ones. -/
def Descends (s : Shader) (height : ExprId → Nat) : Prop :=
  ∀ e d, s.LeadsTo e d → height d < height e

theorem LeadsTo.index_lt {e d : ExprId} (h : s.LeadsTo e d) : e.index < s.exprs.size := by
  refine index_lt_of_expr rfl fun hdefault => ?_
  cases h with
  | operand ho => rw [hdefault] at ho; cases ho
  | initial hexpr => rw [hdefault] at hexpr; cases hexpr

theorem LeadsTo.has {e d : ExprId} (hd : s.LeadsTo e d)
    (h : ∀ x, s.has x → ∀ y ∈ s.references x, s.has y) : s.has (.expr d) := by
  have he : s.has (.expr e) := by simpa [Shader.has] using hd.index_lt
  cases hd with
  | operand ho =>
      refine h _ he _ ?_
      rcases Expr.mem_operands_iff.1 ho with hlink | hitem
      · exact List.mem_append_left _ hlink
      · exact List.mem_append_right _ (List.mem_map_of_mem hitem)
  | @initial v hexpr hinitial =>
      refine h (.var v) (h _ he (.var v) ?_) _ ?_
      · rw [Shader.references, hexpr]
        exact List.mem_append_left _ (List.mem_singleton_self _)
      · simp [Shader.references, Variable.references, hinitial]

theorem WellFormed.has_of_leadsTo (h : s.WellFormed) {e d : ExprId} (hd : s.LeadsTo e d) :
    s.has (.expr d) :=
  hd.has h.references

theorem WellFormed.exists_height (h : s.WellFormed) :
    ∃ height, s.Descends height ∧ (∀ e, height e ≤ s.exprs.size) ∧
      ∀ e : ExprId, s.exprs.size ≤ e.index → height e = 0 := by
  obtain ⟨height, hdescends, hle, hzero⟩ := ShaderBridge.exists_height ExprId.index
    (fun a b hab => by cases a; cases b; simp_all)
    (fun e d hd => by simpa [has] using h.has_of_leadsTo hd) h.exprs
  exact ⟨height, hdescends, hle, fun e he => hzero e fun d hd => absurd hd.index_lt (by omega)⟩

variable {height : ExprId → Nat}

theorem Descends.operand (h : s.Descends height) {e o : ExprId} (ho : o ∈ (s.expr e).operands) :
    height o < height e :=
  h e o (.operand ho)

variable {n m : Nat} {e : ExprId}

theorem Descends.isConstantWithin_eq (h : s.Descends height) (hn : height e < n)
    (hm : height e < m) : s.isConstantWithin n e = s.isConstantWithin m e := by
  refine eq_of_height h (fun n m e hbelow => ?_) hn hm
  have hoperand {y : Expr} (hexpr : s.expr e = y) (o : ExprId) (ho : o ∈ y.operands) :=
    hbelow o (.operand (hexpr ▸ ho))
  unfold isConstantWithin
  cases hexpr : s.expr e with
  | var v =>
      dsimp only
      cases hinitial : (s.var v).initial? with
      | none => rfl
      | some initial => simp [hbelow initial (.initial hexpr hinitial)]
  | construct type args | aggregate args => exact all_congr_mem (hoperand hexpr)
  | _ =>
      have hbelow := hoperand hexpr
      simp_all [Expr.operands]

theorem Descends.typeWithin?_eq (h : s.Descends height) (hn : height e < n) (hm : height e < m) :
    s.typeWithin? n e = s.typeWithin? m e :=
  eq_of_height h (fun _ _ _ hbelow => (TypedAlike.refl s _).typeWithin?_succ fun d hd =>
    hbelow d (.operand (Expr.typedBy_subset _ hd))) hn hm

theorem Descends.atomicCallsWithin_eq (h : s.Descends height) (hn : height e < n)
    (hm : height e < m) : s.atomicCallsWithin n e = s.atomicCallsWithin m e := by
  refine eq_of_height h (fun n m e hbelow => ?_) hn hm
  have hoperand {y : Expr} (hexpr : s.expr e = y) (o : ExprId) (ho : o ∈ y.operands) :=
    hbelow o (.operand (hexpr ▸ ho))
  unfold atomicCallsWithin
  cases hexpr : s.expr e with
  | call name args _ | construct _ args | aggregate args =>
      have hcalls : args.flatMap (s.atomicCallsWithin n) = args.flatMap (s.atomicCallsWithin m) :=
        List.flatMap_congr (hoperand hexpr)
      simp only [hcalls]
  | _ =>
      have hbelow := hoperand hexpr
      simp_all [Expr.operands]

theorem Descends.accessWithin?_eq (h : s.Descends height) (buffers : List Hlsl.ByteBuffer)
    (hn : height e < n) (hm : height e < m) :
    s.accessWithin? buffers n e = s.accessWithin? buffers m e := by
  refine eq_of_height h (fun n m e hbelow => ?_) hn hm
  have hoperand {y : Expr} (hexpr : s.expr e = y) (o : ExprId) (ho : o ∈ y.operands) :=
    hbelow o (.operand (hexpr ▸ ho))
  unfold accessWithin?
  cases s.bufferOf? buffers e with
  | some buffer => rfl
  | none =>
      cases hexpr : s.expr e with
      | subscript operand index | member operand name field =>
          simp only [hoperand hexpr operand (List.mem_cons_self ..)]
      | _ => rfl

theorem Descends.subscripted_eq (h : s.Descends height) (hn : height e ≤ n) (hm : height e ≤ m) :
    s.subscripted n e = s.subscripted m e := by
  induction n generalizing m e with
  | zero =>
      cases m with
      | zero => rfl
      | succ m =>
          unfold subscripted
          split
          · next operand index hexpr =>
              have := h.operand (e := e) (o := operand) (by simp [hexpr, Expr.operands])
              omega
          · rfl
  | succ n ih =>
      unfold subscripted
      cases hexpr : s.expr e with
      | subscript operand index =>
          have hlt := h.operand (e := e) (o := operand) (by simp [hexpr, Expr.operands])
          cases m with
          | zero => omega
          | succ m => simp only [hexpr, ih (m := m) (e := operand) (by omega) (by omega)]
      | _ => cases m <;> simp [hexpr]

end Shader

end ShaderBridge

namespace ShaderBridge

open Hlsl

namespace Shader

open Relation

variable {s : Shader} {e o w : ExprId}

theorem Holds.leadsTo {level : Nat} (h : s.Holds level e w) : ReflTransGen s.LeadsTo e w := by
  induction h with
  | here => exact .refl
  | operand ho _ ih => exact .head (.operand ho) ih

theorem Descends.lowerWithin_eq {height : ExprId → Nat} (h : s.Descends height)
    (buffers : List ByteBuffer) {n m : Nat} {e : ExprId} (hn : height e < n) (hm : height e < m) :
    s.lowerWithin buffers n e = s.lowerWithin buffers m e := by
  refine eq_of_height (r := TransGen s.LeadsTo) (fun _ _ => lt_of_transGen h)
    (fun n m e hbelow => ?_) hn hm
  rw [lowerWithin_succ, lowerWithin_succ, mapM_congr fun o ho => ?_]
  obtain ⟨p, hp, level, hholds⟩ := exists_operand_of_mem_lowered ho
  exact hbelow o (.head' (.operand hp) hholds.leadsTo)

section Congruence

variable {lower lower' : StmtId → LowerM Hlsl.Stmt} {t : StmtId}

theorem lowerBody_congr (ht : lower t = lower' t) : s.lowerBody lower t = s.lowerBody lower' t := by
  unfold lowerBody
  rw [ht]

theorem lowerGuarded_congr (ht : lower t = lower' t)
    (hbody : ∀ u, .stmt u ∈ (s.stmt t).references → lower u = lower' u)
    (buffers : List ByteBuffer) (condition : ExprId) :
    s.lowerGuarded buffers lower condition t = s.lowerGuarded buffers lower' condition t := by
  have hmapM : (s.blockBody t).mapM lower = (s.blockBody t).mapM lower' := by
    refine mapM_congr fun u hu => ?_
    unfold blockBody at hu
    split at hu
    · next body hstmt =>
        refine hbody u ?_
        rw [hstmt]
        exact List.mem_map_of_mem hu
    · rwa [List.mem_singleton.1 hu]
  unfold lowerGuarded
  rw [hmapM]

end Congruence

theorem lowerStmtWithin_eq {height : StmtId → Nat}
    (h : ∀ t u, .stmt u ∈ (s.stmt t).references → height u < height t) (buffers : List ByteBuffer)
    {n m : Nat} {t : StmtId} (hn : height t < n) (hm : height t < m) :
    s.lowerStmtWithin buffers n t = s.lowerStmtWithin buffers m t := by
  refine eq_of_height (r := TransGen fun t u => .stmt u ∈ (s.stmt t).references)
    (fun _ _ => lt_of_transGen h) (fun n m t hbelow => ?_) hn hm
  have hpart {y : Stmt} (hstmt : s.stmt t = y) (u : StmtId) (hu : .stmt u ∈ y.references) :
      s.lowerStmtWithin buffers n u = s.lowerStmtWithin buffers m u :=
    hbelow u (.single (hstmt ▸ hu))
  have hguarded {y : Stmt} (hstmt : s.stmt t = y) (u : StmtId) (hu : .stmt u ∈ y.references)
      (e : ExprId) : s.lowerGuarded buffers (s.lowerStmtWithin buffers n) e u =
        s.lowerGuarded buffers (s.lowerStmtWithin buffers m) e u :=
    lowerGuarded_congr (hpart hstmt u hu) (fun w hw => hbelow w (.tail (.single (hstmt ▸ hu)) hw))
      buffers e
  have hbody {y : Stmt} (hstmt : s.stmt t = y) (u : StmtId) (hu : .stmt u ∈ y.references) :
      s.lowerBody (s.lowerStmtWithin buffers n) u = s.lowerBody (s.lowerStmtWithin buffers m) u :=
    lowerBody_congr (hpart hstmt u hu)
  unfold lowerStmtWithin
  cases hstmt : s.stmt t with
  | block body | switch _ _ body =>
      have hmapM : body.mapM (s.lowerStmtWithin buffers n) =
          body.mapM (s.lowerStmtWithin buffers m) :=
        mapM_congr fun u hu => hpart hstmt u (by simp [Stmt.references, hu])
      simp only [hmapM]
  | branch hints condition onTrue onFalse =>
      have hfirst := hbody hstmt onTrue (by simp [Stmt.references])
      cases onFalse with
      | none => simp only [hfirst, Option.mapM_none]
      | some onFalse =>
          have hsecond := hbody hstmt onFalse (by simp [Stmt.references])
          simp only [hfirst, Option.mapM_some, hsecond]
  | whileLoop hints condition body =>
      have hmem : .stmt body ∈ (Stmt.whileLoop hints condition body).references := by
        simp [Stmt.references]
      cases hguard : s.guard? condition with
      | none => simp only [hguard, hbody hstmt body hmem]
      | some e => simp only [hguard, hguarded hstmt body hmem e]
  | doLoop hints body condition =>
      simp only [hbody hstmt body (by simp [Stmt.references])]
  | forLoop hints start condition step body =>
      have hmem : .stmt body ∈ (Stmt.forLoop hints start condition step body).references := by
        simp [Stmt.references]
      cases hcondition : condition.filter s.hasAtomics with
      | none => simp only [hcondition, hbody hstmt body hmem]
      | some e => simp only [hcondition, hguarded hstmt body hmem e]
  | returnValue value => cases value <;> rfl
  | _ => rfl

end Shader

end ShaderBridge
