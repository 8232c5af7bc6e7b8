import ShaderBridge.Proofs.Lowering.Meeting

/-!
What the calls, the assignments and the steps of a lowered expression are written for. They are
listed on both sides in the order in which they are written: in the target language each in front of
those inside of it, in the source as the expressions that they come from. Expressions that nothing
is written for are left out, and those that are lowered twice are listed twice.
-/

namespace ShaderBridge

open Hlsl

/-! ### The target language -/

namespace Hlsl

mutual

/-- The calls, stores, assignments and steps in an expression. -/
def Expr.acts : Expr → List Expr
  | .literal _ | .bytes _ | .name _ | .temp _ => []
  | .member e _ | .group e | .load _ e => e.acts
  | .index a b | .binary _ a b | .sequence a b => a.acts ++ b.acts
  | .call function args => .call function args :: actsAll args
  | .cast _ args | .list args | .aggregate args => actsAll args
  | .unary op e => if op.isStep then .unary op e :: e.acts else e.acts
  | .assign op a b => .assign op a b :: (a.acts ++ b.acts)
  | .choice c a b => c.acts ++ (a.acts ++ b.acts)
  | .store k t v a r leaves => .store k t v a r leaves :: (v.acts ++ a.acts)

def Expr.actsAll : List Expr → List Expr
  | [] => []
  | e :: rest => e.acts ++ Expr.actsAll rest

end

/-- What is written in an event, atomic functions among it. -/
def Event.acts : Event → List Event
  | .carry temp type function args =>
    .carry temp type function args :: (args.flatMap Expr.acts).map .evaluate
  | .evaluate e => e.acts.map .evaluate
  | .enter | .leave => []

def Stmt.acts (t : Stmt) : List Event :=
  t.events.flatMap Event.acts

/-- Whether an expression is one operand of an operator that is written next to it. No operator
stands in it outside of brackets but signs, steps and selections, which bind more tightly. -/
def Expr.standsAlone : Expr → Bool
  | .binary .. | .assign .. | .sequence .. | .choice .. | .store .. => false
  | .member e _ | .index e _ | .unary _ e | .list [e] => e.standsAlone
  | .list _ => false
  | .literal _ | .bytes _ | .name _ | .temp _ | .call .. | .cast .. | .aggregate _ | .group _
  | .load .. => true

theorem actsAll_eq_flatMap (es : List Expr) : Expr.actsAll es = es.flatMap Expr.acts := by
  induction es with
  | nil => rfl
  | cons e es ih => rw [Expr.actsAll, ih, List.flatMap_cons]

theorem acts_asOperand (e : Expr) : e.asOperand.acts = e.acts := by
  cases e <;> rfl

theorem acts_atomicAddress (terms : List Expr) (offset : Nat) :
    (Shader.atomicAddress terms offset).acts = terms.flatMap Expr.acts :=
  collect_atomicAddress (fun _ => rfl) (fun _ _ _ => rfl) terms offset

end Hlsl

/-! ### The source -/

namespace Shader

open Relation

variable {s : Shader} {α : Type}

/-- What a rule gives for an expression, from what it gives for those that stand in it, to a depth
that is enough. -/
def followed (s : Shader) (rule : (ExprId → α) → ExprId → α) (start : α) : ExprId → α :=
  rule^[s.exprs.size + 1] fun _ => start

/-- A rule only looks at what an expression leads to. -/
def LooksInside (s : Shader) (rule : (ExprId → α) → ExprId → α) : Prop :=
  ∀ f g e, (∀ o, TransGen s.LeadsTo e o → f o = g o) → rule f e = rule g e

theorem WellFormed.followed_eq (h : s.WellFormed) {rule : (ExprId → α) → ExprId → α} {start : α}
    (hrule : s.LooksInside rule) (e : ExprId) :
    s.followed rule start e = rule (s.followed rule start) e := by
  obtain ⟨height, hdescends, hle, -⟩ := h.exists_height
  have hlt := Nat.lt_succ_of_le (hle e)
  have heq := eq_of_height (r := TransGen s.LeadsTo) (fun _ _ => lt_of_transGen hdescends)
    (f := fun n => rule^[n] fun _ => start) (fun n m e hbelow => ?_) hlt
    (hlt.trans (Nat.lt_succ_self _))
  · rw [followed, heq, Function.iterate_succ_apply']
  · rw [Function.iterate_succ_apply', Function.iterate_succ_apply']
    exact hrule _ _ e hbelow

theorem WellFormed.induction (h : s.WellFormed) {P : ExprId → Prop}
    (hstep : ∀ e, (∀ o, TransGen s.LeadsTo e o → P o) → P e) (e : ExprId) : P e := by
  obtain ⟨height, hdescends, -, -⟩ := h.exists_height
  induction hheight : height e using Nat.strong_induction_on generalizing e with
  | _ n ih =>
      subst hheight
      exact hstep e fun o ho => ih _ (lt_of_transGen hdescends ho) o rfl

theorem WellFormed.lowerExpr_eq (h : s.WellFormed) (buffers : List ByteBuffer) (e : ExprId) :
    s.lowerExpr buffers e = s.lowerWithin buffers (s.exprs.size + 1 + 1) e := by
  obtain ⟨height, hdescends, hle, -⟩ := h.exists_height
  have hlt := Nat.lt_succ_of_le (hle e)
  exact hdescends.lowerWithin_eq buffers hlt (hlt.trans (Nat.lt_succ_self _))

theorem Holds.transGen {level : Nat} {e o : ExprId} (h : s.Holds (level + 1) e o) :
    TransGen s.LeadsTo e o := by
  cases h with
  | operand ho h => exact .head' (.operand ho) h.leadsTo

/-- For what an expression leads to, one step less is enough. -/
theorem WellFormed.lowerWithin_eq (h : s.WellFormed) (buffers : List ByteBuffer) {e o : ExprId}
    (ho : TransGen s.LeadsTo e o) :
    s.lowerWithin buffers s.exprs.size o = s.lowerExpr buffers o := by
  obtain ⟨height, hdescends, hle, -⟩ := h.exists_height
  exact hdescends.lowerWithin_eq buffers ((lt_of_transGen hdescends ho).trans_le (hle e))
    (Nat.lt_succ_of_le (hle o))

theorem WellFormed.nodes_eq (h : s.WellFormed) (e : ExprId) :
    s.nodes e = e :: (s.expr e).operands.flatMap s.nodes := by
  obtain ⟨height, hdescends, hle, -⟩ := h.exists_height
  have hlt := Nat.lt_succ_of_le (hle e)
  refine eq_of_height (f := s.nodesWithin) hdescends (fun n m e hbelow => ?_) hlt
    (hlt.trans (Nat.lt_succ_self _))
  rw [nodesWithin, nodesWithin, List.flatMap_congr fun o ho => hbelow o (.operand ho)]

theorem WellFormed.atomicCalls_eq (h : s.WellFormed) (e : ExprId) :
    s.atomicCalls e =
      (s.expr e).operands.flatMap s.atomicCalls ++ if s.isAtomicCall e then [e] else [] := by
  obtain ⟨height, hdescends, hle, -⟩ := h.exists_height
  have hlt := Nat.lt_succ_of_le (hle e)
  rw [atomicCalls, hdescends.atomicCallsWithin_eq hlt (hlt.trans (Nat.lt_succ_self _)),
    atomicCallsWithin_succ, isAtomicCall]
  congr 1
  cases s.expr e <;> rfl

/-- A call, an assignment or a step. -/
def isAction (s : Shader) (e : ExprId) : Bool :=
  match s.expr e with
  | .call .. | .assign .. => true
  | .unary op _ => op.isStep
  | _ => false

/-- Whether a constructor becomes a call, and neither a conversion nor the parts of a sampler. -/
def isCalled : TypeRef → Bool
  | .declared _ => false
  | .builtin t => !t.isCombinedSampler

/-- The expressions that the calls, stores, assignments and steps of a lowered expression come from,
given those of what stands in it, where atomic calls have been carried out before. What a field of a
block is selected from is not written at all, the index of an element of a combined sampler is
written for the texture and for its state, and the target of a store for its address and, where its
old value is needed, for that as well. -/
def emittedFrom (s : Shader) (emitted : ExprId → List ExprId) (e : ExprId) : List ExprId :=
  if s.isAtomicCall e then []
  else
    match s.expr e with
    | .constant _ | .var _ => []
    | .member o _ _ => if (s.bufferOf? s.storageFields e).isSome then [] else emitted o
    | .subscript o i => emitted o ++ emitted i
    | .call _ args _ =>
      e :: args.flatMap fun arg => emitted arg ++ (s.samplerIndex? arg).toList.flatMap emitted
    | .construct type args => (if isCalled type then [e] else []) ++ args.flatMap emitted
    | .aggregate items => items.flatMap emitted
    | .unary op o => (if op.isStep then [e] else []) ++ emitted o
    | .binary op l r =>
      if s.isMatrixTimesVector op l r then e :: (emitted r ++ emitted l)
      else emitted l ++ emitted r
    | .assign op l r =>
      e :: if (s.access? s.storageFields l).isSome then
        (if op.binary?.isSome then emitted l else []) ++ emitted r ++ emitted l
      else emitted l ++ emitted r
    | .sequence l r => emitted l ++ emitted r
    | .choice c a b => emitted c ++ (emitted a ++ emitted b)

def emitted (s : Shader) : ExprId → List ExprId :=
  s.followed s.emittedFrom []

/-- Whether what an expression is lowered to stands alone, given which of those in it do. -/
def standsAloneFrom (s : Shader) (alone : ExprId → Bool) (e : ExprId) : Bool :=
  s.isAtomicCall e ||
    match s.expr e with
    | .assign .. => false
    | .member o _ _ => (s.bufferOf? s.storageFields e).isSome || alone o
    | .subscript o _ => alone o
    | .unary op o => op == .minus || alone o
    | .construct (.builtin t) args => !t.isCombinedSampler || args.map alone == [true]
    | _ => true

def standsAlone (s : Shader) : ExprId → Bool :=
  s.followed s.standsAloneFrom true

theorem looksInside_emittedFrom (s : Shader) : s.LooksInside s.emittedFrom := by
  intro f g e hfg
  have hoperand {y : Expr} (hexpr : s.expr e = y) (o : ExprId) (ho : o ∈ y.operands) : f o = g o :=
    hfg o (.single (.operand (hexpr ▸ ho)))
  unfold emittedFrom
  split
  · rfl
  cases hexpr : s.expr e with
  | call name args target =>
      refine congrArg (e :: ·) (List.flatMap_congr fun arg harg => ?_)
      rw [hoperand hexpr arg harg]
      cases hsampler : s.samplerIndex? arg with
      | none => rfl
      | some i =>
          have hi := hfg i (.tail (.single (.operand (hexpr ▸ harg)))
            (.operand (operand_of_samplerIndex? hsampler)))
          simp [hi]
  | construct type args | aggregate args =>
      have hargs : args.flatMap f = args.flatMap g := List.flatMap_congr (hoperand hexpr)
      simp only [hargs]
  | _ =>
      have hbelow := hoperand hexpr
      simp_all [Expr.operands]

theorem looksInside_standsAloneFrom (s : Shader) : s.LooksInside s.standsAloneFrom := by
  intro f g e hfg
  have hoperand {y : Expr} (hexpr : s.expr e = y) (o : ExprId) (ho : o ∈ y.operands) : f o = g o :=
    hfg o (.single (.operand (hexpr ▸ ho)))
  unfold standsAloneFrom
  refine congrArg (_ || ·) ?_
  cases hexpr : s.expr e with
  | construct type args =>
      cases type with
      | declared => rfl
      | builtin t =>
          have hargs : args.map f = args.map g := List.map_congr_left (hoperand hexpr)
          simp only [hargs]
  | _ =>
      have hbelow := hoperand hexpr
      simp_all [Expr.operands]

theorem WellFormed.emitted_eq (h : s.WellFormed) (e : ExprId) :
    s.emitted e = s.emittedFrom s.emitted e :=
  h.followed_eq s.looksInside_emittedFrom e

theorem WellFormed.standsAlone_eq (h : s.WellFormed) (e : ExprId) :
    s.standsAlone e = s.standsAloneFrom s.standsAlone e :=
  h.followed_eq s.looksInside_standsAloneFrom e

end Shader

/-! ### Expressions -/

namespace Shader

/-- What an expression is lowered to in some state. -/
def LowersTo (s : Shader) (e : ExprId) (x : Hlsl.Expr) : Prop :=
  ∃ state, x = ((s.lowerExpr s.storageFields e).run state).1

/-- Of what stands in an expression, the atomic calls have been carried out and nothing else. -/
def CallsDone (s : Shader) (done : List ExprId) (e : ExprId) : Prop :=
  ∀ level w, s.Holds level e w → (w ∈ done ↔ s.isAtomicCall w)

/-- What is written for an expression comes from where it should, and stands alone if it should. -/
structure Emits (s : Shader) (e : ExprId) (x : Hlsl.Expr) : Prop where
  acts : List.Forall₂ s.LowersTo (s.emitted e) x.acts
  alone : x.standsAlone = s.standsAlone e

variable {s : Shader} {done : List ExprId} {e o : ExprId}

theorem CallsDone.of_holds (h : s.CallsDone done e) {level : Nat} (ho : s.Holds level e o) :
    s.CallsDone done o :=
  fun _ w hw => h _ w (ho.trans hw)

theorem CallsDone.operand (h : s.CallsDone done e) (ho : o ∈ (s.expr e).operands) :
    s.CallsDone done o :=
  h.of_holds (.operand ho (.here o))

theorem WellFormed.emitted_of_field (h : s.WellFormed)
    (he : (s.bufferOf? s.storageFields e).isSome) : s.emitted e = [] := by
  rw [h.emitted_eq, emittedFrom, isAtomicCall]
  cases hexpr : s.expr e <;> simp_all [bufferOf?, namedVar?]

theorem WellFormed.standsAlone_of_field (h : s.WellFormed)
    (he : (s.bufferOf? s.storageFields e).isSome) : s.standsAlone e := by
  rw [h.standsAlone_eq, standsAloneFrom, isAtomicCall]
  cases hexpr : s.expr e <;> simp_all [bufferOf?, namedVar?]

theorem WellFormed.emitted_of_access (h : s.WellFormed) {depth : Nat} {a : Access}
    (ha : s.accessWithin? s.storageFields depth e = some a) :
    s.emitted e = a.terms.flatMap fun term => s.emitted term.1 := by
  induction depth generalizing e a with
  | zero => cases ha
  | succ depth ih =>
      cases accessStep_of_accessWithin? ha with
      | field hsome => exact h.emitted_of_field (Option.isSome_of_eq_some hsome)
      | subscript _ _ he hwhole =>
          rw [h.emitted_eq, emittedFrom, isAtomicCall, he]
          simp [ih hwhole]
      | member _ hnone he hwhole =>
          rw [h.emitted_eq, emittedFrom, isAtomicCall, he]
          simp [hnone, ih hwhole]

theorem Emits.asOperand {x : Hlsl.Expr} (h : s.Emits e x) :
    List.Forall₂ s.LowersTo (s.emitted e) x.asOperand.acts := by
  rw [acts_asOperand]
  exact h.acts

end Shader

namespace Hlsl

open Shader

variable {s : Shader} {done : List ExprId} {lower : ExprId → LowerM Expr} {args : List ExprId}

theorem forall₂_acts {es : List Expr} (h : List.Forall₂ s.Emits args es) :
    List.Forall₂ s.LowersTo (args.flatMap s.emitted) (es.flatMap Expr.acts) :=
  forall₂_flatMap h fun _ _ he => he.acts

theorem forall₂_acts_passed {os : List ExprId} {xs ys : List Expr} (h : s.Passes args os xs ys)
    (hxs : List.Forall₂ s.Emits os xs) : List.Forall₂ s.LowersTo
      (args.flatMap fun arg => s.emitted arg ++ (s.samplerIndex? arg).toList.flatMap s.emitted)
      (ys.flatMap Expr.acts) := by
  induction h with
  | nil => exact .nil
  | plain hsampler _ ih =>
      obtain _ | ⟨hx, hxs⟩ := hxs
      simpa [samplerIndex?, hsampler] using List.rel_append hx.acts (ih hxs)
  | whole hsampler _ ih =>
      obtain _ | ⟨hx, hxs⟩ := hxs
      simpa [samplerIndex?, hsampler, Expr.acts] using List.rel_append hx.acts (ih hxs)
  | element hsampler _ ih =>
      obtain _ | ⟨hx, _ | ⟨hy, hxs⟩⟩ := hxs
      simpa [samplerIndex?, hsampler, Expr.acts] using
        List.rel_append hx.acts (List.rel_append hy.acts (ih hxs))

theorem emits_nothing {e : ExprId} {x : Expr} (hemitted : s.emitted e = []) (hacts : x.acts = [])
    (halone : x.standsAlone = s.standsAlone e) : s.Emits e x := by
  refine ⟨?_, halone⟩
  rw [hemitted, hacts]
  exact .nil

theorem emits_of_forms {e : ExprId} {temp : Nat} {os : List ExprId} {xs : List Expr} {x : Expr}
    (h : s.WellFormed) (hforms : s.Forms s.storageFields e temp os xs x)
    (hcall : s.isAtomicCall e = false) (hself : s.LowersTo e x)
    (hxs : List.Forall₂ s.Emits os xs) : s.Emits e x := by
  have hemitted := h.emitted_eq e
  have halone := h.standsAlone_eq e
  rw [emittedFrom, hcall, if_neg Bool.false_ne_true] at hemitted
  rw [standsAloneFrom, hcall, Bool.false_or] at halone
  -- An address is written from the indices of the access, which hold all that the left side emits.
  have haddress {left : ExprId} {access : Access} {indices : List Expr}
      (haccess : s.access? s.storageFields left = some access)
      (hindices : List.Forall₂ s.Emits (access.terms.map Prod.fst) indices)
      (hlength : indices.length = access.terms.length) :
      List.Forall₂ s.LowersTo (s.emitted left) (access.expr indices).acts := by
    rw [h.emitted_of_access haccess,
      Access.collect_expr (f := Expr.acts) (fun _ => rfl) (fun _ _ _ => rfl) hlength]
    exact forall₂_flatMap (List.forall₂_map_left_iff.1 hindices) fun _ _ hi => hi.acts
  cases hforms with
  | literal hexpr | name hexpr | whole hexpr =>
      rw [hexpr] at hemitted halone
      exact emits_nothing hemitted rfl halone.symm
  | field hexpr hbuffer =>
      simp only [hexpr, hbuffer] at hemitted halone
      exact emits_nothing hemitted rfl halone.symm
  | member x hexpr hbuffer =>
      obtain _ | ⟨hx, _⟩ := hxs
      simp only [hexpr, hbuffer] at hemitted halone
      exact ⟨hemitted ▸ hx.acts, hx.alone.trans halone.symm⟩
  | element x hexpr hbuffer =>
      obtain _ | ⟨hx, _⟩ := hxs
      have hfield := Option.isSome_of_eq_some hbuffer
      simp only [hexpr, h.emitted_of_field hfield, h.standsAlone_of_field hfield] at hemitted halone
      exact ⟨hemitted ▸ hx.acts, halone.symm⟩
  | subscript x y hexpr =>
      obtain _ | ⟨hx, _ | ⟨hy, _⟩⟩ := hxs
      rw [hexpr] at hemitted halone
      exact ⟨hemitted ▸ List.rel_append hx.acts hy.acts, hx.alone.trans halone.symm⟩
  | call hexpr hpasses =>
      rw [hexpr] at hemitted halone
      refine ⟨?_, halone.symm⟩
      rw [hemitted, Expr.acts, actsAll_eq_flatMap]
      exact .cons hself (forall₂_acts_passed hpasses hxs)
  | cast xs hexpr =>
      rw [hexpr] at hemitted halone
      refine ⟨?_, halone.symm⟩
      rw [hemitted, Expr.acts, actsAll_eq_flatMap]
      exact forall₂_acts hxs
  | sampler xs hexpr hsampler =>
      simp only [hexpr, isCalled, hsampler] at hemitted halone
      refine ⟨?_, ?_⟩
      · rw [hemitted, Expr.acts, actsAll_eq_flatMap]
        exact forall₂_acts hxs
      · rw [halone]
        rcases hxs with _ | ⟨hx, _ | _⟩
        · rfl
        · simp [Expr.standsAlone, hx.alone]
        · simp [Expr.standsAlone]
  | splat x hexpr hsampler =>
      obtain _ | ⟨hx, _⟩ := hxs
      simp only [hexpr, isCalled, hsampler] at hemitted halone
      refine ⟨?_, halone.symm⟩
      rw [hemitted, Expr.acts, actsAll_eq_flatMap]
      refine .cons hself ?_
      split <;> simpa [Expr.acts] using hx.acts
  | construct xs hexpr hsampler =>
      simp only [hexpr, isCalled, hsampler] at hemitted halone
      refine ⟨?_, halone.symm⟩
      rw [hemitted, Expr.acts, actsAll_eq_flatMap]
      exact .cons hself (forall₂_acts hxs)
  | minus x hexpr =>
      obtain _ | ⟨hx, _⟩ := hxs
      rw [hexpr] at hemitted halone
      exact ⟨hemitted ▸ hx.acts, halone.symm⟩
  | @unary op _ x hexpr hop =>
      obtain _ | ⟨hx, _⟩ := hxs
      simp only [hexpr, beq_eq_false_iff_ne.2 hop, Bool.false_or] at hemitted halone
      refine ⟨?_, hx.alone.trans halone.symm⟩
      rw [hemitted, Expr.acts]
      cases op.isStep with
      | true => exact .cons hself hx.acts
      | false => exact hx.acts
  | product x y hexpr hproduct =>
      obtain _ | ⟨hx, _ | ⟨hy, _⟩⟩ := hxs
      simp only [hexpr, hproduct, if_true] at hemitted halone
      refine ⟨?_, halone.symm⟩
      rw [hemitted, Expr.acts, actsAll_eq_flatMap]
      refine .cons hself ?_
      simpa using List.rel_append hx.acts hy.acts
  | binary x y hexpr hproduct =>
      obtain _ | ⟨hx, _ | ⟨hy, _⟩⟩ := hxs
      simp only [hexpr, hproduct, Bool.false_eq_true, if_false] at hemitted halone
      exact ⟨hemitted ▸ List.rel_append hx.asOperand hy.asOperand, halone.symm⟩
  | assign x y hexpr haccess =>
      obtain _ | ⟨hx, _ | ⟨hy, _⟩⟩ := hxs
      simp only [hexpr, haccess] at hemitted halone
      exact ⟨hemitted ▸ .cons hself (List.rel_append hx.acts hy.acts), halone.symm⟩
  | store x indices hexpr haccess hop hlength =>
      obtain _ | ⟨hx, hindices⟩ := hxs
      simp only [hexpr, haccess, hop] at hemitted halone
      refine ⟨hemitted ▸ .cons hself ?_, halone.symm⟩
      exact List.rel_append hx.acts (haddress haccess hindices hlength)
  | update x y indices hexpr haccess hop hlength =>
      obtain _ | ⟨hx, _ | ⟨hy, hindices⟩⟩ := hxs
      simp only [hexpr, haccess, hop] at hemitted halone
      refine ⟨hemitted ▸ .cons hself ?_, halone.symm⟩
      exact List.rel_append (List.rel_append hx.acts hy.acts) (haddress haccess hindices hlength)
  | sequence x y hexpr =>
      obtain _ | ⟨hx, _ | ⟨hy, _⟩⟩ := hxs
      rw [hexpr] at hemitted halone
      exact ⟨hemitted ▸ List.rel_append hx.acts hy.acts, halone.symm⟩
  | choice x y z hexpr =>
      obtain _ | ⟨hx, _ | ⟨hy, _ | ⟨hz, _⟩⟩⟩ := hxs
      rw [hexpr] at hemitted halone
      exact ⟨hemitted ▸ List.rel_append hx.asOperand (List.rel_append hy.asOperand hz.asOperand),
        halone.symm⟩
  | aggregate xs hexpr =>
      rw [hexpr] at hemitted halone
      refine ⟨?_, halone.symm⟩
      rw [hemitted, Expr.acts, actsAll_eq_flatMap]
      exact forall₂_acts hxs

/-- Where the atomic calls in an expression have been carried out and nothing else in it, what is
written for the expression comes from where it should. -/
theorem gives_emits (h : s.WellFormed) (e : ExprId) (hdone : s.CallsDone done e) :
    Gives (s.lowerExpr s.storageFields e) done done (s.Emits e) := by
  induction e using h.induction with
  | _ e ih =>
  have hinside (o : ExprId) (ho : o ∈ s.lowered s.storageFields e) :
      Gives (s.lowerExpr s.storageFields o) done done (s.Emits o) := by
    obtain ⟨p, hp, level, hholds⟩ := exists_operand_of_mem_lowered ho
    exact ih o (.head' (.operand hp) hholds.leadsTo) ((hdone.operand hp).of_holds hholds)
  have hcall : done.contains e = s.isAtomicCall e := by
    rw [Bool.eq_iff_iff, List.contains_iff_mem]
    exact hdone 0 e (.here e)
  have hforms : Gives (s.lowerExpr s.storageFields e) done done
      fun x => s.LowersTo e x → s.Emits e x := by
    rw [h.lowerExpr_eq]
    refine gives_of_forms hinside (fun hdone temp _ => ?_) fun hdone _ _ _ _ hxs hforms hself =>
      emits_of_forms h hforms (hcall ▸ hdone) hself hxs
    have hatomic : s.isAtomicCall e = true := hcall ▸ hdone
    have hemitted := h.emitted_eq e
    have halone := h.standsAlone_eq e
    rw [emittedFrom, if_pos hatomic] at hemitted
    rw [standsAloneFrom, hatomic, Bool.true_or] at halone
    exact emits_nothing hemitted rfl halone.symm
  exact (hforms.and fun state _ => ⟨state, rfl⟩).imp fun x hx => hx.2 hx.1

end Hlsl

end ShaderBridge
