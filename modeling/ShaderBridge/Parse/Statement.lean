import ShaderBridge.Parse.Declaration

/-!
Statements, and the declarations inside functions. Whether tokens are a declaration or an expression
shows only behind the first name, so a declaration is attempted first.
-/

namespace ShaderBridge

/-- The hints with the one of the given name, which takes no value. -/
def FlowHints.mark? (h : FlowHints) : String → Option FlowHints
  | "unroll" => some { h with unroll := true }
  | "dont_unroll" => some { h with dontUnroll := true }
  | "loop" => some { h with loop := true }
  | "dependency_infinite" => some { h with dependencyInfinite := true }
  | "flatten" => some { h with flatten := true }
  | "dont_flatten" => some { h with dontFlatten := true }
  | "branch" => some { h with branch := true }
  | _ => none

/-- How to add the hint of the given name, which takes a value. -/
def FlowHints.put? (h : FlowHints) : String → Option (Int → FlowHints)
  | "dependency_length" => some fun n => { h with dependencyLength := some n }
  | "min_iterations" => some fun n => { h with minIterations := some n }
  | "max_iterations" => some fun n => { h with maxIterations := some n }
  | "iteration_multiple" => some fun n => { h with iterationMultiple := some n }
  | "peel_count" => some fun n => { h with peelCount := some n }
  | "partial_count" => some fun n => { h with partialCount := some n }
  | _ => none

namespace Parse

def atDoubleBracket? : ParseM Bool := do
  return (← at? .leftBracket) && (← peekSecond) == .punct .leftBracket

def hintValue : ParseM Int := do
  expect .leftParen .openingParen
  match ← peek with
  | .number (.integer .int bits) =>
    advance
    expect .rightParen .closingParen
    return bits.toInt
  | _ => fail (.expected .hintInteger)

def hint (h : FlowHints) : ParseM FlowHints := do
  let place ← span
  match ← name? with
  | none => fail .unknownHint
  | some name =>
    advance
    match h.mark? name, h.put? name with
    | some h, _ => return h
    | none, some put => return put (← hintValue)
    | none, none => failAt place .unknownHint

/-- The hints in front of a statement. Commas between them may be missing. -/
def hints : ParseM FlowHints := do
  unless ← atDoubleBracket? do return {}
  advance
  advance
  let h ← repeatSteps (fun h => do
    if ← at? .rightBracket then return .inr h
    let h ← hint h
    let _ ← take? .comma
    return .inl h) ({} : FlowHints)
  expect .rightBracket .hintsClose
  expect .rightBracket .hintsClose
  return h

/-- A name in any number of parentheses. -/
def parenthesizedName? : ParseM (Option String) := do
  let opened ← repeatSteps (fun n => do
    if ← take? .leftParen then return .inl (n + 1)
    return .inr n) 0
  match ← name? with
  | none => return none
  | some name =>
    advance
    let isClosed ← repeatSteps (fun n => do
      if n = 0 then return .inr true
      if ← take? .rightParen then return .inl (n - 1)
      return .inr false) opened
    return if isClosed then some name else none

/-- The variables of a local declaration that have a type in common. -/
structure LocalType where
  constant : Bool
  precision : Option Precision
  type : TypeRef
  typeDims : List (Option ExprId)

/-- One variable of a local declaration; `none` where the first name is not followed as in one. -/
def localVariable? (t : LocalType) (isFirst : Bool) (ends : List Punct) :
    ParseM (Option VarId) := do
  match ← parenthesizedName? with
  | none => return none
  | some name =>
    let dims := t.typeDims ++ (← dimensions)
    if isFirst && !(← atAny? (.eq :: .comma :: ends)) then return none
    let initial ←
      if ← take? .eq then
        some <$> initialValue (some t.type) (!dims.isEmpty) (ends ++ [.comma])
      else pure none
    if t.constant && initial.isNone then fail .constWithoutValue
    let flags : VarFlags := { array := !dims.isEmpty, constant := t.constant }
    let var ← addVar
      { name, type := t.type, dims, flags, precision := t.precision, role := .localVar initial }
    declare var
    return some var

/-- The variables of a local declaration up to one of the marks, which is left. -/
def localVariables? (t : LocalType) (ends : List Punct) : ParseM (Option (List VarId)) :=
  repeatSteps (fun found => do
    match ← localVariable? t found.isEmpty ends with
    | none => return .inr none
    | some var =>
      let found := var :: found
      if ← atAny? ends then return .inr (some found.reverse)
      unless ← take? .comma do fail .declarationSyntax
      return .inl found) []

def qualifiedDeclaration? (ends : List Punct) : ParseM (Option StmtId) := do
  let constant ← atKeyword? (.storage .constant)
  if constant then advance
  let precision ← match ← peek with
    | .keyword (.precision p) => do
      advance
      pure (some p)
    | _ => pure none
  match ← typeName? Keyword.concreteType? with
  | none => return none
  | some type =>
    advance
    let typeDims := (← dimensions).reverse
    match ← localVariables? { constant, precision, type, typeDims } ends with
    | none => return none
    | some vars => return some (← addStmt (.declaration vars))

def localDeclaration? (ends : List Punct) : ParseM (Option StmtId) :=
  attempt (qualifiedDeclaration? ends)

/-- A declaration if the tokens are one, an expression otherwise. The mark at its end is left. -/
def declarationOrExpression (ends : List Punct) : ParseM StmtId := do
  match ← localDeclaration? ends with
  | some id => return id
  | none => addStmt (.expression (← expression ends))

/-- An expression, unless the mark that would end it comes at once. -/
def optionalExpression (ending : Punct) : ParseM (Option ExprId) := do
  if ← at? ending then return none
  return some (← expression [ending])

def jump (t : Stmt) (name : String) : ParseM StmtId := do
  advance
  expect .semicolon (.jumpEnd name)
  addStmt t

def returnStatement : ParseM StmtId := do
  advance
  let value ← optionalExpression .semicolon
  expect .semicolon .returnEnd
  addStmt (.returnValue value)

def defaultLabel : ParseM StmtId := do
  advance
  expect .colon .defaultColon
  addStmt (.label none)

def caseLabel : ParseM StmtId := do
  advance
  let value ← expression [.colon]
  expect .colon .caseColon
  addStmt (.label (some value))

def condition (opening closing : Expected) : ParseM ExprId := do
  expect .leftParen opening
  let value ← expression [.rightParen]
  expect .rightParen closing
  return value

structure Labels where
  values : List Int := []
  hasDefault : Bool := false

/-- The integer that a label has to be. -/
def labelValue? : Option Constant → Option Int
  | some (.integer .int bits) => some bits.toInt
  | some (.integer .uint bits) => some bits.toNat
  | _ => none

/-- Checks a statement directly inside a `switch` if it is a label, and folds its value. Errors are
reported where the label begins. -/
def checkLabel (place : Span) (id : StmtId) (labels : Labels) : ParseM Labels := do
  match (← shader).stmt id with
  | .label (some value) =>
    unless ← isConstant value do failAt place .labelNotConstant
    let value ← evaluate value
    match labelValue? ((← shader).constant? value) with
    | none => failAt place .labelNotInteger
    | some n =>
      if labels.values.contains n then failAt place (.repeatedLabel n)
      modifyShader fun s => ((), s.setStmt id (.label (some value)))
      return { labels with values := n :: labels.values }
  | .label none =>
    if labels.hasDefault then failAt place .repeatedDefault
    return { labels with hasDefault := true }
  | _ => return labels

mutual

def statementWithin : Nat → ParseM StmtId
  | 0 => do failAt (← span) .unfinished
  | fuel + 1 => do
    let h ← hints
    match ← peek with
    | .punct .leftBrace =>
      openScope
      let body ← bodyWithin fuel
      closeScope
      addStmt (.block body)
    | .punct .semicolon =>
      advance
      addStmt .empty
    | .keyword (.word .ifBranch) => branchWithin fuel h
    | .keyword (.word .switch) => switchWithin fuel h
    | .keyword (.word .caseLabel) => caseLabel
    | .keyword (.word .defaultLabel) => defaultLabel
    | .keyword (.word .forLoop) =>
      openScope
      let loop ← forWithin fuel h
      closeScope
      addStmt loop
    | .keyword (.word .doLoop) => doWithin fuel h
    | .keyword (.word .whileLoop) => whileWithin fuel h
    | .keyword (.word .continueLoop) => jump .continueLoop "continue"
    | .keyword (.word .breakLoop) => jump .breakLoop "break"
    | .keyword (.word .discard) => jump .discard "discard"
    | .keyword (.rayJump j) => jump (.rayJump j) j.spelling
    | .keyword (.word .returnValue) => returnStatement
    | _ =>
      let id ← declarationOrExpression [.semicolon]
      expect .semicolon .statementEnd
      return id

/-- Statements in braces, of which the opening one comes next. The scope is the caller's. -/
def bodyWithin : Nat → ParseM (List StmtId)
  | 0 => do failAt (← span) .unfinished
  | fuel + 1 => do
    advance
    repeatSteps (fun found => do
      if ← take? .rightBrace then return .inr found.reverse
      if ← atEnd then fail .endOfFile
      return .inl ((← statementWithin fuel) :: found)) []

def branchWithin : Nat → FlowHints → ParseM StmtId
  | 0, _ => do failAt (← span) .unfinished
  | fuel + 1, h => do
    advance
    let condition ← condition .ifOpen .ifClose
    let onTrue ← statementWithin fuel
    let onFalse ←
      if ← atKeyword? (.word .elseBranch) then
        advance
        some <$> statementWithin fuel
      else pure none
    addStmt (.branch h condition onTrue onFalse)

def switchWithin : Nat → FlowHints → ParseM StmtId
  | 0, _ => do failAt (← span) .unfinished
  | fuel + 1, h => do
    advance
    let subject ← condition .switchOpen .switchClose
    expect .leftBrace .switchBody
    openScope
    let body ← repeatSteps (fun (found, labels) => do
      if ← take? .rightBrace then return .inr found.reverse
      if ← atEnd then fail .endOfFile
      let place ← span
      let id ← statementWithin fuel
      return .inl (id :: found, ← checkLabel place id labels)) (([] : List StmtId), ({} : Labels))
    closeScope
    addStmt (.switch h subject body)

def forWithin : Nat → FlowHints → ParseM Stmt
  | 0, _ => do failAt (← span) .unfinished
  | fuel + 1, h => do
    advance
    expect .leftParen .forOpen
    let start ←
      if ← at? .semicolon then pure none
      else some <$> declarationOrExpression [.semicolon]
    expect .semicolon .forStart
    let condition ← optionalExpression .semicolon
    expect .semicolon .forCondition
    let step ← optionalExpression .rightParen
    expect .rightParen .forClose
    return .forLoop h start condition step (← statementWithin fuel)

def doWithin : Nat → FlowHints → ParseM StmtId
  | 0, _ => do failAt (← span) .unfinished
  | fuel + 1, h => do
    advance
    let body ← statementWithin fuel
    unless ← atKeyword? (.word .whileLoop) do fail (.expected .doWhile)
    advance
    let condition ← condition .whileOpen .whileClose
    expect .semicolon .doEnd
    addStmt (.doLoop h body condition)

def whileWithin : Nat → FlowHints → ParseM StmtId
  | 0, _ => do failAt (← span) .unfinished
  | fuel + 1, h => do
    advance
    expect .leftParen .whileOpen
    let condition ← declarationOrExpression [.rightParen]
    expect .rightParen .whileClose
    let body ← statementWithin fuel
    addStmt (.whileLoop h condition body)

end

end Parse

end ShaderBridge
