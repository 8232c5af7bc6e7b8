import ShaderBridge.Proofs.Lowering.Run

namespace ShaderBridge

namespace Hlsl.Expr

mutual

/-- Whether an expression holds a store, or an assignment or a step whose target is of a sort. -/
def writes (target : Expr → Bool) : Expr → Bool
  | .literal _ | .bytes _ | .name _ | .temp _ => false
  | .member e _ | .group e | .load _ e => e.writes target
  | .index e i => e.writes target || i.writes target
  | .call _ args | .cast _ args | .list args | .aggregate args => writesAny target args
  | .unary op e => op.isStep && target e || e.writes target
  | .binary _ a b | .sequence a b => a.writes target || b.writes target
  | .assign _ a b => target a || a.writes target || b.writes target
  | .choice c a b => c.writes target || a.writes target || b.writes target
  | .store .. => true

def writesAny (target : Expr → Bool) : List Expr → Bool
  | [] => false
  | e :: es => e.writes target || writesAny target es

end

variable (target : Expr → Bool)

theorem writesAny_eq_any (es : List Expr) : writesAny target es = es.any (writes target) := by
  induction es with
  | nil => rfl
  | cons e es ih => rw [writesAny, List.any_cons, ih]

theorem writes_asOperand (e : Expr) : e.asOperand.writes target = e.writes target := by
  cases e <;> rfl

end Hlsl.Expr

namespace Shader

open Hlsl

variable (s : Shader) (buffers : List ByteBuffer) (target : Nat → ExprId → Bool)
  (done : List ExprId)

/-- Whether an expression is lowered to a write. `target` tells whether what an expression is
lowered to, followed to a depth, is a target of the sort that is looked for. -/
def writesWithin : Nat → ExprId → Bool
  | 0, _ => false
  | depth + 1, id =>
    let writes := writesWithin depth
    if done.contains id then false
    else
      match s.expr id with
      | .constant _ | .var _ => false
      | .member e _ _ => (s.bufferOf? buffers id).isNone && writes e
      | .subscript e i => (s.bufferOf? buffers e).isNone && writes e || writes i
      | .call _ args _ => args.any fun arg => writes arg || (s.samplerIndex? arg).any writes
      | .construct _ args | .aggregate args => args.any writes
      | .unary op e => op.isStep && target depth e || writes e
      | .binary _ a b | .sequence a b => writes a || writes b
      | .assign _ a b =>
        (s.access? buffers a).isSome || (target depth a || writes a || writes b)
      | .choice c a b => writes c || writes a || writes b

end Shader

namespace Hlsl

variable {s : Shader} {buffers : List ByteBuffer} {target : Expr → Bool}
  {sourceTarget : Nat → ExprId → Bool} {done : List ExprId}

theorem any_writes_of_passes {writes : ExprId → Bool} {args os : List ExprId} {xs ys : List Expr}
    (h : s.Passes args os xs ys)
    (hxs : List.Forall₂ (fun o x => x.writes target = writes o) os xs) :
    ys.any (Expr.writes target) =
      args.any fun arg => writes arg || (s.samplerIndex? arg).any writes := by
  induction h with
  | nil => rfl
  | plain hsampler _ ih =>
      obtain _ | ⟨hx, hxs⟩ := hxs
      simp [hx, ih hxs, Shader.samplerIndex?, hsampler]
  | whole hsampler _ ih =>
      obtain _ | ⟨hx, hxs⟩ := hxs
      simp [hx, ih hxs, Shader.samplerIndex?, hsampler, Expr.writes]
  | element hsampler _ ih =>
      obtain _ | ⟨hx, _ | ⟨hy, hxs⟩⟩ := hxs
      simp [hx, hy, ih hxs, Shader.samplerIndex?, hsampler, Expr.writes, Bool.or_assoc]

theorem any_writes_of_forall₂ {writes : ExprId → Bool} {os : List ExprId} {xs : List Expr}
    (h : List.Forall₂ (fun o x => x.writes target = writes o) os xs) :
    Expr.writesAny target xs = os.any writes := by
  induction h with
  | nil => rfl
  | cons hx _ ih => rw [Expr.writesAny, hx, ih, List.any_cons]

theorem writes_of_forms {depth temp : Nat} {e : ExprId} {os : List ExprId} {xs : List Expr}
    {x : Expr} (h : s.Forms buffers e temp os xs x) (hdone : done.contains e = false)
    (hxs : List.Forall₂ (fun o x =>
      x.writes target = s.writesWithin buffers sourceTarget done depth o) os xs)
    (htarget : List.Forall₂ (fun o x => target x = sourceTarget depth o) os xs) :
    x.writes target = s.writesWithin buffers sourceTarget done (depth + 1) e := by
  unfold Shader.writesWithin
  rw [hdone, if_neg Bool.false_ne_true]
  cases h with
  | literal hexpr => rw [hexpr, Expr.writes]
  | name hexpr => rw [hexpr, Expr.writes]
  | whole hexpr | field hexpr => simp [*, Expr.writes, Shader.loadExpr]
  | member => simp_all [Expr.writes]
  | element => simp_all [Expr.writes, Shader.loadExpr]
  | subscript => simp_all [Expr.writes]
  | call hexpr hpasses =>
      rw [hexpr, Expr.writes, Expr.writesAny_eq_any, any_writes_of_passes hpasses hxs]
  | cast xs hexpr => rw [hexpr, Expr.writes, any_writes_of_forall₂ hxs]
  | sampler xs hexpr => rw [hexpr, Expr.writes, any_writes_of_forall₂ hxs]
  | splat x hexpr =>
      obtain _ | ⟨hx, _⟩ := hxs
      rw [hexpr]
      split <;> simp [Expr.writes, Expr.writesAny, hx]
  | construct xs hexpr => rw [hexpr, Expr.writes, any_writes_of_forall₂ hxs]
  | minus => simp_all [Expr.writes, UnaryOp.isStep]
  | unary => simp_all [Expr.writes]
  | product => simp_all [Expr.writes, Expr.writesAny, Bool.or_comm]
  | binary => simp_all [Expr.writes, Expr.writes_asOperand]
  | assign => simp_all [Expr.writes]
  | store => simp_all [Expr.writes, Shader.stored]
  | update => simp_all [Expr.writes, Shader.stored]
  | sequence => simp_all [Expr.writes]
  | choice => simp_all [Expr.writes, Expr.writes_asOperand]
  | aggregate xs hexpr => rw [hexpr, Expr.writes, any_writes_of_forall₂ hxs]

theorem gives_lowerWithin
    (htarget : ∀ depth id (state : LoweringState), state.done = done →
      target ((s.lowerWithin buffers depth id).run state).1 = sourceTarget depth id)
    (depth : Nat) (id : ExprId) :
    Gives (s.lowerWithin buffers depth id) done done fun e =>
      e.writes target = s.writesWithin buffers sourceTarget done depth id := by
  induction depth generalizing id with
  | zero => exact gives_pure rfl
  | succ depth ih =>
      have hpart (o : ExprId) :=
        (ih o).and (P := fun x => target x = sourceTarget depth o) (htarget depth o)
      refine gives_of_forms (fun o _ => hpart o) (fun hdone temp => ?_)
        fun hdone _ _ _ _ hxs hforms => ?_
      · rw [Shader.writesWithin, if_pos hdone, Expr.writes]
      · exact writes_of_forms hforms hdone (hxs.imp fun _ _ h => h.2) (hxs.imp fun _ _ h => h.1)

end Hlsl

end ShaderBridge
