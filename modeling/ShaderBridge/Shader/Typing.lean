import ShaderBridge.Builtin.Intrinsic
import ShaderBridge.Shader.Basic
import ShaderBridge.Type.Conversion

namespace ShaderBridge

/-- Whether an argument of one type may be passed where the other is expected. -/
def TypeRef.isCompatible : TypeRef → TypeRef → Bool
  | .builtin a, .builtin b => a.isCompatible b
  | a, b => a == b

structure ExprType where
  type : TypeRef
  dims : Nat := 0
deriving DecidableEq, Repr

namespace BuiltinType

/-- The type of a product that involves a matrix: the inner dimensions vanish. -/
def matrixProduct? (a b : BuiltinType) : Option (Option BuiltinType) :=
  match a.matrixDims?, b.matrixDims? with
  | some (_, rows), none => if b.isVector then some (a.component.vectorOf? rows) else none
  | none, some (columns, _) => if a.isVector then some (b.component.vectorOf? columns) else none
  | some (innerA, rows), some (columns, innerB) =>
    some (if innerA = innerB then a.component.matrixOf? columns rows else none)
  | none, none => none

/-- The type of an operation component by component. The wider operand decides, then the one that
is floating-point, then the one that is unsigned. -/
def componentwise? (a b : BuiltinType) : Option BuiltinType :=
  let sa := a.component
  let sb := b.component
  if a.isMatrix && b.isScalar then some a
  else if b.isMatrix && a.isScalar then some b
  else if sa.isInteger && sb.isInteger then
    if a.vectorSize > b.vectorSize then some a
    else if b.vectorSize > a.vectorSize then some b
    else if sa.isUnsigned && !sb.isUnsigned then some a
    else some b
  else if sa.isInteger && sb.isFloat then some b
  else if sa.isFloat && sb.isInteger then some a
  else if sa = sb then some (if a.vectorSize ≥ b.vectorSize then a else b)
  else none

end BuiltinType

def BinaryOp.resultType? (op : BinaryOp) (a b : TypeRef) : Option TypeRef :=
  if op.isComparison || op.isLogical then some (.builtin (.scalar .bool))
  else if a = b then some a
  else
    match a, b with
    | .builtin x, .builtin y =>
      match if op = .mul then x.matrixProduct? y else none with
      | some product => product.map .builtin
      | none => (x.componentwise? y).map .builtin
    | _, _ => none

namespace Shader

def varType (s : Shader) (id : VarId) : ExprType :=
  ⟨(s.var id).type, (s.var id).dims.length⟩

def paramTypes (s : Shader) (id : FuncId) : List TypeRef :=
  (s.func id).params.map fun p => (s.var p).type

/-- The type of an element of what has the given type. -/
def elementType? (t : ExprType) : Option ExprType :=
  match t.dims with
  | n + 1 => some ⟨t.type, n⟩
  | 0 =>
    match t.type with
    | .builtin b =>
      if b.isVector then some ⟨.builtin b.component, 0⟩
      else if b.isMatrix then b.matrixColumn?.map fun column => ⟨.builtin column, 0⟩
      else some ⟨.builtin b, 0⟩
    | type => some ⟨type, 0⟩

/-- The type of an expression, followed to the given depth. -/
def typeWithin? (s : Shader) : Nat → ExprId → Option ExprType
  | 0, _ => none
  | depth + 1, id =>
    match s.expr id with
    | .constant c => some ⟨.builtin c.type, 0⟩
    | .var v => some (s.varType v)
    | .member _ _ (some field) => some (s.varType field)
    | .member operand name none => do
      let operand ← s.typeWithin? depth operand
      let vector ← (← operand.type.builtin?).component.vectorOf? name.length
      return ⟨.builtin vector, 0⟩
    | .subscript operand _ => s.typeWithin? depth operand >>= elementType?
    | .call name args target => do
      let types ← args.mapM fun arg => ExprType.type <$> s.typeWithin? depth arg
      if Intrinsic.isAtomic name then
        return ⟨← types.head?, 0⟩
      match target with
      | some f => return ⟨(s.func f).returnType, 0⟩
      | none =>
        let f ← (s.overloads name).find? fun f => s.paramTypes f == types
        return ⟨(s.func f).returnType, 0⟩
    | .construct type _ => some ⟨type, 0⟩
    | .unary _ operand => s.typeWithin? depth operand
    | .assign _ left _ => s.typeWithin? depth left
    | .sequence _ right => s.typeWithin? depth right
    | .binary op left right => do
      let left ← s.typeWithin? depth left
      let right ← s.typeWithin? depth right
      return ⟨← op.resultType? left.type right.type, 0⟩
    | .choice _ onTrue _ => s.typeWithin? depth onTrue
    | .aggregate items => do
      let first ← s.typeWithin? depth (← items.head?)
      return ⟨first.type, first.dims + 1⟩

/-- The type of an expression. No expression is nested deeper than there are expressions. -/
def typeOf? (s : Shader) (id : ExprId) : Option ExprType :=
  s.typeWithin? (s.exprs.size + 1) id

def baseTypeOf? (s : Shader) (id : ExprId) : Option TypeRef :=
  (s.typeOf? id).map ExprType.type

end Shader

end ShaderBridge
