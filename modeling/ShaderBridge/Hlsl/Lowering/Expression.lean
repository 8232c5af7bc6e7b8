import ShaderBridge.Builtin.Intrinsic
import ShaderBridge.Hlsl.ByteBuffer
import ShaderBridge.Hlsl.Resource
import ShaderBridge.Hlsl.Syntax

namespace ShaderBridge

namespace Hlsl

structure LoweringState where
  temps : Nat := 0
  /-- The calls whose results are in temporaries, the latest first. -/
  hoisted : List (ExprId × Nat) := []
deriving Repr, Inhabited

abbrev LowerM := StateM LoweringState

def freshTemp : LowerM Nat :=
  modifyGet fun state => (state.temps, { state with temps := state.temps + 1 })

/-- An assignment needs parentheses where its value is used. -/
def Expr.asOperand : Expr → Expr
  | .assign op left right => .group (.assign op left right)
  | e => e

def Expr.sum : List Expr → Expr
  | [] => .bytes 0
  | e :: es => es.foldl (.binary .add) e

/-- The operator that an operator of the source becomes. There is no logical exclusive or: truth
values differ instead. -/
def lowerBinaryOp : BinaryOp → BinaryOp
  | .logicalXor => .ne
  | op => op

/-- The name that a function is called by. -/
def functionName (name : String) : String :=
  (Intrinsic.targetName? name).getD name

end Hlsl

namespace Shader

open Hlsl

def isMatrixTimesVector (s : Shader) (op : BinaryOp) (left right : ExprId) : Bool :=
  op == .mul &&
    (((s.baseTypeOf? left).bind TypeRef.builtin?).any BuiltinType.isMatrix &&
      ((s.baseTypeOf? right).bind TypeRef.builtin?).any BuiltinType.isVector)

def hasScalarType (s : Shader) (id : ExprId) : Bool :=
  ((s.baseTypeOf? id).bind TypeRef.builtin?).any BuiltinType.isScalar

/-- The scalar that a constructor of a vector repeats, if it does. -/
def splat? (s : Shader) (t : BuiltinType) (args : List ExprId) : Option ExprId :=
  match args with
  | [only] => if t.isVector && s.hasScalarType only then some only else none
  | _ => none

/-- The combined sampler that an expression is, with the index where it is an element of one. -/
def combinedSampler? (s : Shader) (id : ExprId) : Option (String × Option ExprId) :=
  let sampler? (v : VarId) : Option String :=
    (samplerStateType? (s.var v).type).map fun _ => samplerName (s.var v).name
  match s.expr id with
  | .var v => (sampler? v).map fun name => (name, none)
  | .subscript operand index =>
    match s.expr operand with
    | .var v => (sampler? v).map fun name => (name, some index)
    | _ => none
  | _ => none

/-- Lowers the arguments of a call. A combined sampler takes the place of two. -/
def lowerArgs (s : Shader) (lower : ExprId → LowerM Hlsl.Expr) (args : List ExprId) :
    LowerM (List Hlsl.Expr) := do
  let lowered ← args.mapM fun arg => do
    let texture ← lower arg
    match s.combinedSampler? arg with
    | none => return [texture]
    | some (name, none) => return [texture, .name name]
    | some (name, some index) => return [texture, .index (.name name) (← lower index)]
  return lowered.flatten

def lowerConstruct (s : Shader) (lower : ExprId → LowerM Hlsl.Expr) (type : TypeRef)
    (args : List ExprId) : LowerM Hlsl.Expr := do
  match type with
  | .declared _ => return .cast (s.hlslTypeName type) (← args.mapM lower)
  | .builtin t =>
    if t.isCombinedSampler then
      return .list (← args.mapM lower)
    else
      match s.splat? t args with
      | some e =>
        let scalar ← lower e
        let scalar := if (s.constant? e).isSome then .group scalar else scalar
        return .call t.hlslName [.member scalar ("".pushn 'x' t.vectorSize)]
      | none => return .call t.hlslName (← args.mapM lower)

/-- The value that an assignment leaves in its target. -/
def lowerStoredValue (lower : ExprId → LowerM Hlsl.Expr) (op : AssignOp) (left right : ExprId) :
    LowerM Hlsl.Expr := do
  match op.binary? with
  | none => lower right
  | some binary => return .group (.binary binary (← lower left) (← lower right))

def lowerStore (s : Shader) (lower : ExprId → LowerM Hlsl.Expr) (access : Access) (op : AssignOp)
    (left right : ExprId) : LowerM Hlsl.Expr := do
  let temp ← freshTemp
  let type := (s.baseTypeOf? left).getD (.builtin (.scalar .uint))
  let value ← lowerStoredValue lower op left right
  let terms ← access.terms.mapM fun (index, bytes) => do
    return .binary .mul (← lower index) (.bytes bytes)
  return .store temp (s.hlslDeclaredType type) value (.sum (terms ++ [.bytes access.offset]))
    access.buffer.resource (s.leaves type [] (tempName temp) 0).leaves

/-- The call that reads a field of a buffer. -/
def loadExpr (s : Shader) (buffer : ByteBuffer) (index : Hlsl.Expr) : Hlsl.Expr :=
  .load (s.var buffer.field).name index

/-- Lowers an expression, followed to the given depth. -/
def lowerWithin (s : Shader) (buffers : List ByteBuffer) : Nat → ExprId → LowerM Hlsl.Expr
  | 0, _ => return .name ""
  | depth + 1, id => do
    let lower := s.lowerWithin buffers depth
    let operand (e : ExprId) : LowerM Hlsl.Expr := Hlsl.Expr.asOperand <$> lower e
    match (← get).hoisted.lookup id with
    | some temp => return .temp temp
    | none =>
      match s.expr id with
      | .constant c => return .literal c
      | .var v =>
        match s.bufferOf? buffers id with
        | some buffer => return s.loadExpr buffer (.bytes 0)
        | none => return .name (s.var v).name
      | .member e name _ =>
        match s.bufferOf? buffers id with
        | some buffer => return s.loadExpr buffer (.bytes 0)
        | none => return .member (← lower e) name
      | .subscript e index =>
        match s.bufferOf? buffers e with
        | some buffer => return s.loadExpr buffer (← lower index)
        | none => return .index (← lower e) (← lower index)
      | .call name args _ => return .call (functionName name) (← s.lowerArgs lower args)
      | .construct type args => s.lowerConstruct lower type args
      | .unary .minus e => return .group (.unary .minus (← lower e))
      | .unary op e => return .unary op (← lower e)
      | .binary op left right =>
        if s.isMatrixTimesVector op left right then
          let right ← lower right
          return .call "mul" [right, ← lower left]
        else
          return .group (.binary (lowerBinaryOp op) (← operand left) (← operand right))
      | .assign op left right =>
        match s.access? buffers left with
        | none => return .assign op (← lower left) (← lower right)
        | some access => s.lowerStore lower access op left right
      | .sequence left right => return .group (.sequence (← lower left) (← lower right))
      | .choice condition onTrue onFalse =>
        return .group (.choice (← operand condition) (← operand onTrue) (← operand onFalse))
      | .aggregate items => return .aggregate (← items.mapM lower)

/-- Lowers an expression. No expression is nested deeper than there are expressions. -/
def lowerExpr (s : Shader) (buffers : List ByteBuffer) (id : ExprId) : LowerM Hlsl.Expr :=
  s.lowerWithin buffers (s.exprs.size + 1) id

def lowerDims (s : Shader) (buffers : List ByteBuffer) (dims : List (Option ExprId)) :
    LowerM (List (Option Hlsl.Expr)) :=
  dims.mapM fun dim => dim.mapM (s.lowerExpr buffers)

end Shader

end ShaderBridge
