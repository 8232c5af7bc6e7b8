import ShaderBridge.Hlsl.Program
import ShaderBridge.Proofs.Lowering.Run

namespace ShaderBridge

namespace Hlsl

variable {α β : Type} {s : Shader} {buffers : List ByteBuffer}

/-- Temporaries have been taken and calls been carried out since a state. -/
structure LoweringState.Before (σ σ' : LoweringState) : Prop where
  temps : σ.temps ≤ σ'.temps
  hoisted : σ.hoisted <:+ σ'.hoisted

def Grows (m : LowerM α) : Prop :=
  ∀ σ : LoweringState, σ.Before (m.run σ).2

theorem LoweringState.Before.trans {σ σ' σ'' : LoweringState} (h : σ.Before σ')
    (h' : σ'.Before σ'') : σ.Before σ'' :=
  ⟨Nat.le_trans h.temps h'.temps, h.hoisted.trans h'.hoisted⟩

theorem grows_pure (a : α) : Grows (pure a) :=
  fun _ => ⟨Nat.le_refl _, List.suffix_refl _⟩

theorem grows_bind {m : LowerM α} {f : α → LowerM β} (hm : Grows m) (hf : ∀ a, Grows (f a)) :
    Grows (m >>= f) :=
  fun σ => (hm σ).trans (hf _ _)

theorem grows_map {m : LowerM α} (hm : Grows m) (f : α → β) : Grows (f <$> m) :=
  fun σ => hm σ

theorem grows_get {f : LoweringState → LowerM α} (hf : ∀ σ, Grows (f σ)) : Grows (get >>= f) :=
  fun σ => hf σ σ

theorem grows_freshTemp : Grows freshTemp :=
  fun _ => ⟨Nat.le_succ _, List.suffix_refl _⟩

theorem grows_mapM {f : α → LowerM β} (hf : ∀ a, Grows (f a)) (l : List α) : Grows (l.mapM f) := by
  induction l with
  | nil => exact grows_pure []
  | cons a l ih =>
      rw [List.mapM_cons]
      exact grows_bind (hf a) fun b => grows_bind ih fun bs => grows_pure _

theorem grows_option {f : α → LowerM β} (hf : ∀ a, Grows (f a)) (o : Option α) :
    Grows (o.mapM f) := by
  cases o with
  | none => exact grows_pure none
  | some a => exact grows_map (hf a) some

theorem grows_tempFor (e : ExprId) : Grows (s.tempFor buffers e) := by
  unfold Shader.tempFor
  split
  · exact grows_freshTemp
  · exact grows_pure 0

theorem grows_lowerWithin (depth : Nat) (id : ExprId) :
    Grows (s.lowerWithin buffers depth id) := by
  induction depth generalizing id with
  | zero => exact grows_pure _
  | succ depth ih =>
      rw [Shader.lowerWithin_succ]
      refine grows_get fun σ => ?_
      split
      · exact grows_pure _
      · exact grows_bind (grows_tempFor id) fun temp =>
          grows_bind (grows_mapM ih _) fun xs => grows_pure _

theorem grows_lowerExpr (e : ExprId) : Grows (s.lowerExpr buffers e) :=
  grows_lowerWithin _ e

theorem grows_lowerDims (dims : List (Option ExprId)) : Grows (s.lowerDims buffers dims) :=
  grows_mapM (grows_option grows_lowerExpr) dims

section

variable {lower : StmtId → LowerM Stmt}

end

theorem grows_lowerParam (v : VarId) : Grows (s.lowerParam buffers v) :=
  grows_bind (grows_lowerDims _) fun _ => grows_pure _

end Hlsl

end ShaderBridge
