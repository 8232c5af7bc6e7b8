import ShaderBridge.Hlsl.Lowering.Atomic

/-!
Statements in the target language. A statement whose expressions hold atomic calls becomes several
lines, and gets braces where it is the body of a branch or a loop. A loop whose condition holds such
calls tests it at the top of its body instead, since the calls belong to every round.
-/

namespace ShaderBridge

namespace FlowHints

/-- What stands in front of a branch. -/
def selection? (h : FlowHints) : Option Hlsl.Hint :=
  if h.flatten then some .flatten
  else if h.dontFlatten || h.branch then some .branch
  else none

/-- What stands in front of a loop. -/
def iteration? (h : FlowHints) : Option Hlsl.Hint :=
  if h.unroll then some .unroll
  else if h.dontUnroll || h.loop then some .loop
  else none

end FlowHints

namespace Shader

open Hlsl

/-- A statement behind the atomic calls that it needs. -/
def behind (calls : List Hlsl.Stmt) (stmt : Hlsl.Stmt) : Hlsl.Stmt :=
  if calls.isEmpty then stmt else .lines (calls ++ [stmt])

def lowerDeclarator (s : Shader) (buffers : List ByteBuffer) (id : VarId) : LowerM Declarator := do
  let v := s.var id
  let dims ← s.lowerDims buffers v.dims
  return { name := v.name, dims, initial := ← v.initial?.mapM (s.lowerExpr buffers) }

def lowerLocal (s : Shader) (buffers : List ByteBuffer) (id : VarId) : LowerM Hlsl.Stmt := do
  let v := s.var id
  let calls ← match v.initial? with
    | some e => s.hoistAtomics buffers e
    | none => pure []
  let declarator ← s.lowerDeclarator buffers id
  return behind calls (.declaration v.flags.constant (s.hlslDeclaredType v.type) declarator)

/-- What stands in the header of a loop. Atomic calls there stay where they are. -/
def lowerHeader (s : Shader) (buffers : List ByteBuffer) (id : StmtId) : LowerM Header := do
  match s.stmt id with
  | .declaration vars =>
    let type := (vars.head?.map fun v => s.hlslDeclaredType (s.var v).type).getD ""
    return .declaration type (← vars.mapM (s.lowerDeclarator buffers))
  | .expression e => return .expression (← s.lowerExpr buffers e)
  | _ => return .nothing

def lowerStart (s : Shader) (buffers : List ByteBuffer) : Option StmtId → LowerM Header
  | some id => s.lowerHeader buffers id
  | none => return .nothing

/-- The statements of a block, or a statement that is none. -/
def blockBody (s : Shader) (id : StmtId) : List StmtId :=
  match s.stmt id with
  | .block body => body
  | _ => [id]

def lowerBody (s : Shader) (lower : StmtId → LowerM Hlsl.Stmt) (id : StmtId) :
    LowerM Hlsl.Stmt := do
  let body ← lower id
  return if s.needsAtomics id then .block [body] else body

/-- Lowers the body of a loop that begins with the test of its condition. -/
def lowerGuarded (s : Shader) (buffers : List ByteBuffer) (lower : StmtId → LowerM Hlsl.Stmt)
    (condition : ExprId) (body : StmtId) : LowerM Hlsl.Stmt := do
  let calls ← s.hoistAtomics buffers condition
  let test ← s.lowerExpr buffers condition
  let body ← (s.blockBody body).mapM lower
  return .block (behind calls (.breakUnless test.asOperand) :: body)

/-- The condition of a loop, if it is an expression with atomic calls. -/
def guard? (s : Shader) (condition : StmtId) : Option ExprId :=
  match s.stmt condition with
  | .expression e => if s.hasAtomics e then some e else none
  | _ => none

/-- Lowers a statement, followed to the given depth. -/
def lowerStmtWithin (s : Shader) (buffers : List ByteBuffer) : Nat → StmtId → LowerM Hlsl.Stmt
  | 0, _ => return .empty
  | depth + 1, id => do
    let lower := s.lowerStmtWithin buffers depth
    let value := s.lowerExpr buffers
    match s.stmt id with
    | .block body => return .block (← body.mapM lower)
    | .empty => return .empty
    | .declaration vars => return .lines (← vars.mapM (s.lowerLocal buffers))
    | .expression e =>
      let calls ← s.hoistAtomics buffers e
      return behind calls (.expression (← value e))
    | .branch hints condition onTrue onFalse =>
      let calls ← s.hoistAtomics buffers condition
      let condition ← value condition
      let onTrue ← s.lowerBody lower onTrue
      let onFalse ← onFalse.mapM (s.lowerBody lower)
      return behind calls (.branch hints.selection? condition onTrue onFalse)
    | .switch hints subject body =>
      let calls ← s.hoistAtomics buffers subject
      let subject ← value subject
      return behind calls (.switch hints.selection? subject (← body.mapM lower))
    | .label e => return .label (← e.mapM value)
    | .whileLoop hints condition body =>
      match s.guard? condition with
      | some e =>
        let body ← s.lowerGuarded buffers lower e body
        return .whileLoop hints.iteration? (.expression (.literal (.bool true))) body
      | none =>
        let condition ← s.lowerHeader buffers condition
        return .whileLoop hints.iteration? condition (← s.lowerBody lower body)
    | .doLoop hints body condition =>
      let body ← s.lowerBody lower body
      return .doLoop hints.iteration? body (← value condition)
    | .forLoop hints start condition step body =>
      let start ← s.lowerStart buffers start
      match condition.filter s.hasAtomics with
      | some e =>
        let step ← step.mapM value
        let body ← s.lowerGuarded buffers lower e body
        return .forLoop hints.iteration? start none step body
      | none =>
        let condition ← condition.mapM value
        let step ← step.mapM value
        return .forLoop hints.iteration? start condition step (← s.lowerBody lower body)
    | .continueLoop => return .continueLoop
    | .breakLoop => return .breakLoop
    | .returnValue none => return .returnValue none
    | .returnValue (some e) =>
      let calls ← s.hoistAtomics buffers e
      return behind calls (.returnValue (some (← value e)))
    | .discard => return .discard
    | .rayJump j => return .expression (.call j.hlslName [])

/-- Lowers a statement. No statement is nested deeper than there are statements. -/
def lowerStmt (s : Shader) (buffers : List ByteBuffer) (id : StmtId) : LowerM Hlsl.Stmt :=
  s.lowerStmtWithin buffers (s.stmts.size + 1) id

end Shader

end ShaderBridge
