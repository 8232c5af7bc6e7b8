import ShaderBridge.Hlsl.Lowering.Expression

/-!
Atomic calls. In the target language they are statements that leave their result in a variable, so
every atomic call inside an expression is carried out ahead of the statement that holds it, and the
expression reads the result. Calls nested in the arguments of another come first, otherwise the
calls keep their order from left to right.
-/

namespace ShaderBridge

namespace Shader

open Hlsl

/-- The atomic calls inside an expression in the order of their evaluation, followed to the given
depth. -/
def atomicCallsWithin (s : Shader) : Nat → ExprId → List ExprId
  | 0, _ => []
  | depth + 1, id =>
    let calls := s.atomicCallsWithin depth
    match s.expr id with
    | .constant _ | .var _ => []
    | .call name args _ => args.flatMap calls ++ if Intrinsic.isAtomic name then [id] else []
    | .construct _ args | .aggregate args => args.flatMap calls
    | .member operand _ _ | .unary _ operand => calls operand
    | .subscript operand index => calls operand ++ calls index
    | .binary _ left right | .assign _ left right | .sequence left right =>
      calls left ++ calls right
    | .choice condition onTrue onFalse => calls condition ++ calls onTrue ++ calls onFalse

def atomicCalls (s : Shader) (id : ExprId) : List ExprId :=
  s.atomicCallsWithin (s.exprs.size + 1) id

def hasAtomics (s : Shader) (id : ExprId) : Bool :=
  !(s.atomicCalls id).isEmpty

/-- Whether atomic calls are carried out ahead of a statement. -/
def needsAtomics (s : Shader) (id : StmtId) : Bool :=
  match s.stmt id with
  | .expression e | .returnValue (some e) | .branch _ e _ _ | .switch _ e _ => s.hasAtomics e
  | .declaration vars => (vars.filterMap fun v => (s.var v).initial?).any s.hasAtomics
  | _ => false

/-- The function that carries out an atomic call on a target of the given type. -/
def atomicFunction (name : String) (target : TypeRef) : String :=
  let function := functionName name
  let wide := target == .builtin (.scalar .int64) || target == .builtin (.scalar .uint64)
  if wide && function == "InterlockedCompareExchange" then "InterlockedCompareExchange64"
  else function

/-- The address of an atomic target. An offset of zero is left out, unless it is all there is. -/
def atomicAddress (terms : List Hlsl.Expr) (offset : Nat) : Hlsl.Expr :=
  .sum (if offset = 0 && !terms.isEmpty then terms else terms ++ [.bytes offset])

/-- Carries out one atomic call, whose result is from then on in a temporary. A target in a buffer
is named by its address. -/
def hoistCall (s : Shader) (buffers : List ByteBuffer) (id : ExprId) (name : String)
    (args : List ExprId) : LowerM Hlsl.Stmt := do
  let lower := s.lowerExpr buffers
  let target := (args.head?.bind s.baseTypeOf?).getD (.builtin (.scalar .uint))
  let function := atomicFunction name target
  let temp ← freshTemp
  let type := s.hlslDeclaredType target
  let call ← match args.head?.bind (s.access? buffers) with
    | some access => do
      let terms ← access.terms.mapM fun (index, bytes) => do
        return .binary .mul (.bytes bytes) (← lower index)
      let values ← args.tail.mapM lower
      pure (.atomic temp type (access.buffer.resource ++ "." ++ function)
        (atomicAddress terms access.offset :: values))
    | none => do
      pure (.atomic temp type function (← args.mapM lower))
  modify fun state => { state with hoisted := (id, temp) :: state.hoisted }
  return call

def hoistAtomics (s : Shader) (buffers : List ByteBuffer) (id : ExprId) :
    LowerM (List Hlsl.Stmt) := do
  let calls ← (s.atomicCalls id).mapM fun call => do
    match s.expr call with
    | .call name args _ => return [← s.hoistCall buffers call name args]
    | _ => return []
  return calls.flatten

end Shader

end ShaderBridge
