import ShaderBridge.Parse.State

/-!
Expressions. Operands are prefix operators around a primary, with members, subscripts and steps
behind it; between operands stand infix operators, each with a binding strength.

Which marks end an expression depends on where it stands: a comma, for one, separates arguments but
is an operator between parentheses. The marks are passed along as `ends`.
-/

namespace ShaderBridge

inductive InfixOp where
  | binary (op : BinaryOp)
  | assign (op : AssignOp)
  | choice
  | sequence
deriving DecidableEq, Repr

/-- The operator that a mark stands for between operands, and how strongly it binds. -/
def InfixOp.ofPunct? : Punct → Option (InfixOp × Nat)
  | .star => some (.binary .mul, 14)
  | .slash => some (.binary .div, 14)
  | .percent => some (.binary .mod, 14)
  | .plus => some (.binary .add, 13)
  | .minus => some (.binary .sub, 13)
  | .shl => some (.binary .shl, 12)
  | .shr => some (.binary .shr, 12)
  | .lt => some (.binary .lt, 11)
  | .gt => some (.binary .gt, 11)
  | .ltEq => some (.binary .le, 11)
  | .gtEq => some (.binary .ge, 11)
  | .eqEq => some (.binary .eq, 10)
  | .bangEq => some (.binary .ne, 10)
  | .amp => some (.binary .bitAnd, 9)
  | .caret => some (.binary .bitXor, 8)
  | .pipe => some (.binary .bitOr, 7)
  | .ampAmp => some (.binary .logicalAnd, 6)
  | .caretCaret => some (.binary .logicalXor, 5)
  | .pipePipe => some (.binary .logicalOr, 4)
  | .question => some (.choice, 3)
  | .eq => some (.assign .assign, 2)
  | .plusEq => some (.assign .add, 2)
  | .minusEq => some (.assign .sub, 2)
  | .starEq => some (.assign .mul, 2)
  | .slashEq => some (.assign .div, 2)
  | .percentEq => some (.assign .mod, 2)
  | .shlEq => some (.assign .shl, 2)
  | .shrEq => some (.assign .shr, 2)
  | .ampEq => some (.assign .bitAnd, 2)
  | .caretEq => some (.assign .bitXor, 2)
  | .pipeEq => some (.assign .bitOr, 2)
  | .comma => some (.sequence, 1)
  | _ => none

def UnaryOp.ofPunct? : Punct → Option UnaryOp
  | .bang => some .logicalNot
  | .tilde => some .bitNot
  | .plus => some .plus
  | .minus => some .minus
  | .plusPlus => some .preIncrement
  | .minusMinus => some .preDecrement
  | _ => none

namespace Shader

/-- The expression that members and subscripts select from, followed to the given depth. -/
def rootWithin (s : Shader) : Nat → ExprId → ExprId
  | 0, id => id
  | depth + 1, id =>
    match s.expr id with
    | .member operand _ _ | .subscript operand _ => s.rootWithin depth operand
    | _ => id

def targetVariable? (s : Shader) (id : ExprId) : Option VarId :=
  match s.expr (s.rootWithin s.exprs.size id) with
  | .var v => some v
  | _ => none

/-- Whether an expression may be subscripted: a variable, a call, a member of a structure, or what a
subscript or a swizzle selects from one of them. -/
def isSubscriptableWithin (s : Shader) : Nat → ExprId → Bool
  | 0, _ => false
  | depth + 1, id =>
    match s.expr id with
    | .var _ | .call .. | .member _ _ (some _) => true
    | .member operand _ none | .subscript operand _ => s.isSubscriptableWithin depth operand
    | _ => false

def isSubscriptable (s : Shader) (id : ExprId) : Bool :=
  s.isSubscriptableWithin (s.exprs.size + 1) id

end Shader

namespace Parse

/-- The infix operator that comes next, unless its mark ends the expression. -/
def nextInfix? (ends : List Punct) : ParseM (Option (InfixOp × Nat)) := do
  match ← peek with
  | .punct p => return if ends.contains p then none else InfixOp.ofPunct? p
  | _ => return none

/-- Only a variable that is neither an input nor constant may be written to. -/
def checkTarget (left : ExprId) : ParseM Unit := do
  let s ← shader
  match s.targetVariable? left with
  | none => fail .notAssignable
  | some v =>
    let v := s.var v
    if v.storage? = some .input then fail .writeToInput
    if v.isImmutable then fail .writeToConstant

def combine (op : InfixOp) (left right : ExprId) : ParseM ExprId := do
  match op with
  | .binary op => addExpr (.binary op left right)
  | .assign op =>
    checkTarget left
    addExpr (.assign op left right)
  | _ => addExpr (.sequence left right)

def literal (value : Constant) : ParseM ExprId := do
  advance
  addExpr (.constant value)

def variableNamed (name : String) : ParseM ExprId := do
  match ← findVariable? name with
  | none => fail (.undeclared name)
  | some v =>
    advance
    addExpr (.var v)

/-- What follows a dot: a field where the operand is a structure, a swizzle otherwise. -/
def memberOf (operand : ExprId) : ParseM ExprId := do
  match ← name? with
  | none => fail (.expected .memberName)
  | some name =>
    let s ← shader
    let field ←
      match s.baseTypeOf? operand with
      | some (.declared id) =>
        match (s.struct id).fields.find? fun f => (s.var f).name == name with
        | some field => pure (some field)
        | none => fail (.noSuchField name (s.typeName (.declared id)))
      | _ => pure none
    advance
    addExpr (.member operand name field)

mutual

def expressionWithin : Nat → List Punct → ParseM ExprId
  | 0, _ => do failAt (← span) .unfinished
  | fuel + 1, ends => do
    let left ← operand fuel ends
    operations fuel ends 0 left

/-- Applies the operators behind a left operand that bind at least as strongly as `level`. -/
def operations : Nat → List Punct → Nat → ExprId → ParseM ExprId
  | 0, _, _, _ => do failAt (← span) .unfinished
  | fuel + 1, ends, level, left => do
    match ← nextInfix? ends with
    | none => return left
    | some (op, binding) =>
      if binding < level then return left
      advance
      if op = .choice then
        let onTrue ← expressionWithin fuel [.colon]
        expect .colon .choiceColon
        let onFalse ← expressionWithin fuel ends
        operations fuel ends level (← addExpr (.choice left onTrue onFalse))
      else
        let right ← operand fuel ends
        let right ← rightOperand fuel ends (op matches .assign _) binding right
        operations fuel ends level (← combine op left right)

/-- Extends a right operand by what binds more strongly than the operator in front of it, or as
strongly where operators group to the right. -/
def rightOperand : Nat → List Punct → Bool → Nat → ExprId → ParseM ExprId
  | 0, _, _, _, _ => do failAt (← span) .unfinished
  | fuel + 1, ends, toRight, binding, right => do
    match ← nextInfix? ends with
    | none => return right
    | some (_, next) =>
      if binding < next then
        let right ← operations fuel ends (binding + 1) right
        rightOperand fuel ends toRight binding right
      else if toRight ∧ next = binding then
        let right ← operations fuel ends binding right
        rightOperand fuel ends toRight binding right
      else return right

/-- A primary with the operators around it. -/
def operand : Nat → List Punct → ParseM ExprId
  | 0, _ => do failAt (← span) .unfinished
  | fuel + 1, ends => do
    let base ← primary fuel ends
    selections fuel base

/-- The members, subscripts and steps behind an operand. -/
def selections : Nat → ExprId → ParseM ExprId
  | 0, _ => do failAt (← span) .unfinished
  | fuel + 1, base => do
    match ← peek with
    | .punct .dot =>
      advance
      selections fuel (← memberOf base)
    | .punct .leftBracket => selections fuel (← subscriptOf fuel base)
    | .punct .plusPlus =>
      advance
      addExpr (.unary .postIncrement base)
    | .punct .minusMinus =>
      advance
      addExpr (.unary .postDecrement base)
    | _ => return base

/-- A subscript, which is folded if it is constant. -/
def subscriptOf : Nat → ExprId → ParseM ExprId
  | 0, _ => do failAt (← span) .unfinished
  | fuel + 1, base => do
    unless (← shader).isSubscriptable base do fail .notSubscriptable
    advance
    let index ← expressionWithin fuel [.rightBracket]
    let index ← if ← isConstant index then evaluate index else pure index
    expect .rightBracket .subscriptClose
    addExpr (.subscript base index)

/-- A literal, a name, a call, a constructor, a parenthesised expression, or an operator in front of
an operand. -/
def primary : Nat → List Punct → ParseM ExprId
  | 0, _ => do failAt (← span) .unfinished
  | fuel + 1, ends => do
    match ← peek with
    | .punct p =>
      match UnaryOp.ofPunct? p with
      | some op =>
        advance
        let base ← operand fuel ends
        addExpr (.unary op base)
      | none =>
        if p = .leftParen then
          advance
          let inner ← expressionWithin fuel [.rightParen]
          expect .rightParen .closingParen
          return inner
        else fail .syntaxError
    | .keyword (.word .trueLiteral) => literal (.bool true)
    | .keyword (.word .falseLiteral) => literal (.bool false)
    | .keyword k =>
      match k.concreteType? with
      | some t => construction fuel (.builtin t)
      | none => fail .syntaxError
    | .number value => literal value
    | .ident name =>
      if (← peekSecond) == .punct .leftParen then
        match ← findType? name with
        | some t => construction fuel t
        | none =>
          advance
          let args ← arguments fuel .callOpen
          let call ← addExpr (.call name args none)
          modify fun st => { st with calls := call :: st.calls }
          return call
      else variableNamed name
    | _ => fail .syntaxError

/-- A constructor of the type whose name comes next, or of an array of that type. -/
def construction : Nat → TypeRef → ParseM ExprId
  | 0, _ => do failAt (← span) .unfinished
  | fuel + 1, type => do
    advance
    if ← take? .leftBracket then
      arrayTypeEnd fuel
      let items ← arguments fuel .arrayOpen
      addExpr (.aggregate items)
    else
      let args ← arguments fuel .constructorOpen
      addExpr (.construct type args)

/-- The rest of an array type behind its opening bracket. The size, if any, is read and
forgotten. -/
def arrayTypeEnd : Nat → ParseM Unit
  | 0 => do failAt (← span) .unfinished
  | fuel + 1 => do
    unless ← at? .rightBracket do
      let _ ← expressionWithin fuel [.rightBracket]
    expect .rightBracket .arrayTypeClose

def arguments : Nat → Expected → ParseM (List ExprId)
  | 0, _ => do failAt (← span) .unfinished
  | fuel + 1, opening => do
    expect .leftParen opening
    commaSeparated [.rightParen] (.expected .argumentSeparator)
      (expressionWithin fuel [.comma, .rightParen])

/-- The first value of an array or a vector: items in braces, an array constructor, or an
expression. An array constructor may name its type again, and then uses parentheses. -/
def itemsWithin : Nat → List Punct → ParseM ExprId
  | 0, _ => do failAt (← span) .unfinished
  | fuel + 1, ends => do
    let typed := match ← peek with
      | .keyword k => k.concreteType?.isSome
      | _ => false
    let parens ←
      if typed && (← peekSecond) == .punct .leftBracket then do
        advance
        advance
        arrayTypeEnd fuel
        unless ← at? .leftParen do fail (.expected .arrayOpen)
        pure true
      else pure false
    if (← at? .leftBrace) || (parens && (← at? .leftParen)) then
      advance
      let items ← commaSeparated [.rightBrace, .rightParen] (.expected .itemSeparator)
        (itemsWithin fuel (ends ++ [.rightParen, .comma]))
      addExpr (.aggregate items)
    else expressionWithin fuel ends

end

/-- An expression that ends at one of the given marks. -/
def expression (ends : List Punct) : ParseM ExprId := do
  expressionWithin (← fuel) ends

def initialValue (type : Option TypeRef) (isArray : Bool) (ends : List Punct) : ParseM ExprId := do
  if isArray || type.any TypeRef.isVector then itemsWithin (← fuel) ends
  else expression ends

/-- A dimension in brackets, with or without a size. -/
def dimension : ParseM (Option ExprId) := do
  advance
  if ← take? .rightBracket then return none
  let size ← expression [.rightBracket]
  unless ← isConstant size do fail .dimensionNotConstant
  let size ← evaluate size
  expect .rightBracket .dimensionClose
  return some size

/-- All dimensions that come next, in the order in which they are written. -/
def dimensions : ParseM (List (Option ExprId)) :=
  repeatSteps (fun found => do
    if ← at? .leftBracket then return .inl ((← dimension) :: found)
    return .inr found.reverse) []

end Parse

end ShaderBridge
