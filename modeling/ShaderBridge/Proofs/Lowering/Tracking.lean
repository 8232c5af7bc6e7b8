import ShaderBridge.Proofs.Lowering.Growing
import ShaderBridge.Proofs.Lowering.Reading
import ShaderBridge.Proofs.Lowering.Renumbering
import ShaderBridge.Proofs.Shader.Pruning

namespace ShaderBridge

namespace Hlsl

open Shader

variable {α β : Type} {s : Shader} {buffers : List ByteBuffer} {ρ : Nat → Nat} {limit : Nat}

/-- The temporaries of the second run up to a limit are renumbered to those of the first, and the
calls that can be reached have been carried out in both or in neither. -/
structure InStep (s : Shader) (ρ : Nat → Nat) (limit : Nat) (σ τ : LoweringState) : Prop where
  fresh : ∀ k, τ.temps ≤ k → k < limit → ρ k + τ.temps = σ.temps + k
  hoisted : ∀ e, s.Reachable (.expr e) → σ.hoisted.lookup e = (τ.hoisted.lookup e).map ρ

/-- One run follows another, as long as that stays below the limit. -/
structure Tracks (s : Shader) (ρ : Nat → Nat) (limit : Nat) (m n : LowerM α) (view : α → α) :
    Prop where
  grows : Grows n
  inStep : ∀ σ τ : LoweringState, InStep s ρ limit σ τ → (n.run τ).2.temps ≤ limit →
    (m.run σ).1 = view (n.run τ).1 ∧ InStep s ρ limit (m.run σ).2 (n.run τ).2

end Hlsl

end ShaderBridge
