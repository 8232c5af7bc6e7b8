import ShaderBridge.Proofs.Lowering.Program
import ShaderBridge.Proofs.Lowering.Reading
import ShaderBridge.Proofs.Shader.Pruned
import ShaderBridge.Proofs.Lowering.Tracking

/-! ## Accesses and expressions -/

namespace ShaderBridge

namespace Shader

open Hlsl

variable {s : Shader} {buffers : List ByteBuffer}

/-! ### Layouts -/

end Shader

end ShaderBridge

/-! ## Statements and declarations -/

namespace ShaderBridge

namespace Shader

open Hlsl

variable {s : Shader} {buffers : List ByteBuffer}

/-! ### Atomic calls -/

end Shader

namespace Hlsl

open Shader

variable {s : Shader} {buffers : List ByteBuffer} {ρ : Nat → Nat} {limit : Nat}

/-! ### Expressions -/

section

variable {lower lower' : StmtId → LowerM Stmt}

end

section

variable {depth : Nat} {t : StmtId}
  (ih : ∀ {t}, s.Reachable (.stmt t) → Tracks s ρ limit (s.lowerStmtWithin buffers depth t)
    (s.keepReachable.lowerStmtWithin buffers depth t) (Stmt.renumber ρ))
  (ht : s.Reachable (.stmt t))
include ih ht

end

end Hlsl

end ShaderBridge
