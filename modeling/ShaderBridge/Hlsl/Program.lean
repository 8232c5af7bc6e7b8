import ShaderBridge.Hlsl.Lowering.Declaration
import ShaderBridge.Hlsl.Preamble
import ShaderBridge.Hlsl.Render

namespace ShaderBridge

namespace Hlsl

structure Options where
  /-- Whether variables are declared that the language itself provides. -/
  writeHidden : Bool := false
  /-- Whether a program with an entry point begins with helper functions. -/
  emitHelpers : Bool := true
  /-- The blanks that a pair of braces indents by. -/
  indent : Nat := 4
deriving DecidableEq, Repr

end Hlsl

namespace Shader

open Hlsl

def helperDecls (s : Shader) (options : Options) : Program :=
  if s.main?.isSome && options.emitHelpers then [.fixed (Preamble.functions s.stage)] else []

def inputDecls (s : Shader) : Program :=
  if s.main?.isSome && s.stage == .compute then computeDecls else []

def isWritten (s : Shader) (options : Options) (id : VarId) : Bool :=
  !(s.var id).flags.hidden || options.writeHidden

/-- Variables whose types the language brings along. -/
def plainGlobals (s : Shader) (options : Options) : List VarId :=
  s.globals.toList.filter fun id =>
    s.isWritten options id && (s.var id).type.builtin?.isSome

/-- Variables whose types are structures, and not interface blocks. -/
def recordGlobals (s : Shader) (options : Options) : List VarId :=
  s.globals.toList.filter fun id =>
    s.isWritten options id &&
      match (s.var id).type with
      | .declared decl => (s.struct decl).block.isNone
      | .builtin _ => false

def lower (s : Shader) (options : Options) : LowerM Program := do
  let plain ← (s.plainGlobals options).mapM (s.lowerGlobal [])
  let records ← s.structures.toList.mapM (s.lowerRecord [])
  let (blocks, buffers) ← s.lowerBlocks [] s.blocks.toList
  let others ← (s.recordGlobals options).mapM (s.lowerGlobal buffers)
  let functions ← s.functions.toList.mapM (s.lowerFunction buffers)
  return s.helperDecls options ++ plain.flatten ++ records ++ s.inputDecls ++ blocks ++
    others.flatten ++ functions.flatten

def toProgram (s : Shader) (options : Options) : Program :=
  ((s.lower options).run {}).1

def toHlsl (s : Shader) (options : Options) : String :=
  (s.toProgram options).render options.indent

end Shader

end ShaderBridge
