import ShaderBridge.Constant.Arithmetic
import ShaderBridge.Shader.Basic

/-!
Constant expressions. `isConstant` says which expressions are built from literals and from variables
that keep a constant first value; `evaluate` replaces such an expression by a literal. The items of
a constructor or an array are replaced where they stand, and the node itself stays.
-/

namespace ShaderBridge

namespace Shader

/-- No chain of expressions and first values is longer than this, unless it runs in a circle. -/
def foldingDepth (s : Shader) : Nat :=
  s.exprs.size + s.vars.size + 1

/-- Whether an expression is constant, followed to the given depth. -/
def isConstantWithin (s : Shader) : Nat → ExprId → Bool
  | 0, _ => false
  | depth + 1, id =>
    match s.expr id with
    | .constant _ => true
    | .var v =>
      let v := s.var v
      v.isImmutable && v.initial?.any (s.isConstantWithin depth)
    | .unary op operand => !op.isStep && s.isConstantWithin depth operand
    | .binary _ left right => s.isConstantWithin depth left && s.isConstantWithin depth right
    | .sequence left right => s.isConstantWithin depth left && s.isConstantWithin depth right
    | .choice condition onTrue onFalse =>
      s.isConstantWithin depth condition && s.isConstantWithin depth onTrue &&
        s.isConstantWithin depth onFalse
    | .construct _ args => args.all (s.isConstantWithin depth)
    | .aggregate items => items.all (s.isConstantWithin depth)
    | .member .. | .subscript .. | .call .. | .assign .. => false

def isConstant (s : Shader) (id : ExprId) : Bool :=
  s.isConstantWithin s.foldingDepth id

end Shader

/-- Computations that fold expressions of a shader. What was folded before an error stays folded. -/
abbrev FoldM := ExceptT FoldError (StateM Shader)

namespace Folding

def addConstant (value : Constant) : FoldM ExprId :=
  modifyGet (Shader.addExpr (.constant value))

/-- The literal that a folded expression has to be. -/
def literal (id : ExprId) : FoldM Constant := do
  match (← get).constant? id with
  | some c => return c
  | none => throw .invalidOperation

/-- Folds an expression, followed to the given depth. -/
def evaluateWithin : Nat → ExprId → FoldM ExprId
  | 0, _ => throw .notConstant
  | depth + 1, id => do
    match (← get).expr id with
    | .constant _ | .sequence .. => return id
    | .var v =>
      match ((← get).var v).initial? with
      | some initial => evaluateWithin depth initial
      | none => throw .notConstant
    | .unary op operand =>
      let operand ← evaluateWithin depth operand
      addConstant (← liftExcept (Constant.unary op (← literal operand)))
    | .binary op left right =>
      let left ← evaluateWithin depth left
      let right ← evaluateWithin depth right
      let left ← literal left
      let right ← literal right
      addConstant (← liftExcept (Constant.binary op left right))
    | .choice condition onTrue onFalse =>
      let condition ← evaluateWithin depth condition
      match ← literal condition with
      | .bool true => evaluateWithin depth onTrue
      | .bool false => evaluateWithin depth onFalse
      | _ => throw .invalidOperation
    | .construct type args =>
      let args ← args.mapM (evaluateWithin depth)
      modify (Shader.setExpr id (.construct type args))
      return id
    | .aggregate items =>
      let items ← items.mapM (evaluateWithin depth)
      modify (Shader.setExpr id (.aggregate items))
      return id
    | .member .. | .subscript .. | .call .. | .assign .. => throw .notConstant
where
  liftExcept (r : Except FoldError Constant) : FoldM Constant :=
    match r with
    | .ok c => pure c
    | .error e => throw e

/-- Folds an expression to a literal, or to an aggregate of folded items. -/
def evaluate (id : ExprId) : FoldM ExprId := do
  evaluateWithin (← get).foldingDepth id

end Folding

end ShaderBridge
