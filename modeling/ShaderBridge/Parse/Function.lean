import ShaderBridge.Parse.Statement

namespace ShaderBridge

namespace Parse

structure Parameter where
  qualifiers : ParamQualifiers := {}
  precision : Option Precision := none
  type : Option TypeRef := none
  name : Option String := none
  dims : List (Option ExprId) := []

/-- The parameter with the word that comes next, or with all dimensions that come next. -/
def parameterPart (p : Parameter) : ParseM Parameter := do
  match ← peek with
  | .keyword (.storage .constant) =>
    advance
    return { p with qualifiers := { p.qualifiers with constant := true } }
  | .keyword (.storage .input) =>
    advance
    return { p with qualifiers := { p.qualifiers with input := true } }
  | .keyword (.storage .output) =>
    advance
    return { p with qualifiers := { p.qualifiers with output := true } }
  | .keyword (.word .inout) =>
    advance
    return { p with qualifiers := { p.qualifiers with inout := true } }
  | .keyword (.precision q) =>
    advance
    return { p with precision := some q }
  | .punct .leftBracket => return { p with dims := p.dims ++ (← dimensions) }
  | .keyword (.type t) =>
    if p.type.isSome then fail .parameterSyntax
    advance
    return { p with type := some (.builtin t) }
  | .ident name =>
    if p.type.isNone then
      match ← findType? name with
      | none => fail (.expected .typeOfParameter)
      | some type =>
        advance
        return { p with type := some type }
    if p.name.isSome then fail .parameterSyntax
    if p.type = some (.builtin .void) then fail .namedVoid
    advance
    return { p with name := some name }
  | _ => fail .parameterSyntax

/-- A parameter, whose words may come in any order that puts the type before the name. -/
def parameter : ParseM VarId := do
  let p ← repeatSteps (fun p => do
    if ← atAny? [.comma, .rightParen] then return .inr p
    return .inl (← parameterPart p)) ({} : Parameter)
  match p.type with
  | none => fail (.expected .typeOfParameter)
  | some type =>
    addVar
      { name := p.name.getD ""
        type
        dims := p.dims
        flags := { array := !p.dims.isEmpty, constant := p.qualifiers.constant }
        precision := p.precision
        role := .parameter p.qualifiers }

/-- The attribute that marks a function as belonging to the language. -/
def builtinAttribute : ParseM Bool := do
  unless ← atDoubleBracket? do return false
  advance
  advance
  unless (← name?) == some "builtin" do fail .functionAttribute
  advance
  expect .rightBracket .functionAttributeClose
  expect .rightBracket .functionAttributeClose
  return true

def familiesOf (returnType : TypeRef) (params : List TypeRef) : List Family :=
  (returnType :: params).filterMap fun
    | .builtin (.family f) => some f
    | _ => none

/-- The type that takes the place of a family in an instance. -/
def instanceOf (column : Nat) : TypeRef → TypeRef
  | .builtin (.family f) => .builtin (f.instances.getD column (.family f))
  | type => type

/-- Adds a function, or the instances of one that ranges over families. -/
def addFunction (f : Function) : ParseM Unit := do
  let s ← shader
  match familiesOf f.returnType (f.params.map fun p => (s.var p).type) with
  | [] => modifyShader fun s => ((), s.addFunc f)
  | families =>
    (List.range Family.maxInstances).forM fun column => do
      if families.all fun g => column < g.instances.length then
        let params ← f.params.mapM fun p => do
          let v := (← shader).var p
          addVar { v with type := instanceOf column v.type }
        let returnType := instanceOf column f.returnType
        modifyShader fun s => ((), s.addFunc { f with returnType, params, instantiated := true })

def functionBody (params : List VarId) : ParseM (Option (List StmtId)) := do
  if ← at? .leftBrace then
    openScope
    params.forM declare
    let body ← bodyWithin (← fuel)
    closeScope
    return some body
  unless ← take? .semicolon do fail (.expected .functionEnd)
  return none

/-- What follows the return type and the name of a function. -/
def function (returnType : TypeRef) (name : String) : ParseM Unit := do
  expect .leftParen .openingParen
  let params ← commaSeparated [.rightParen] .parameterSyntax parameter
  let builtin ← builtinAttribute
  let s ← shader
  let families := familiesOf returnType (params.map fun p => (s.var p).type)
  unless families.isEmpty || (builtin && (← at? .semicolon)) do fail .familyOutsidePrototype
  let params := match params with
    | [p] => if (s.var p).type = .builtin .void then [] else [p]
    | params => params
  if name = "main" then
    unless params.isEmpty do fail .mainParameters
    unless returnType = .builtin .void do fail .mainResult
  let body ← functionBody params
  addFunction { name, returnType, params, body, builtin }

/-- Declares a global variable. A constant first value is folded. -/
def declareGlobal (d : Declarator) : ParseM Unit := do
  if d.type.isFamily then fail .familyOutsidePrototype
  let initial ← match d.initial with
    | some value => if ← isConstant value then some <$> evaluate value else pure (some value)
    | none => pure none
  let var ← addVar (d.toGlobal initial)
  modifyShader fun s => ((), { s with globals := s.globals.push var })
  declare var

def externalDeclaration : ParseM Unit := do
  if ← take? .semicolon then return
  let names ← declarationWithin (← fuel)
  match ← peek, names with
  | .punct .semicolon, names =>
    advance
    names.forM declareGlobal
  | .punct .leftParen, [d] => function d.type d.name
  | _, _ => fail .syntaxError

end Parse

end ShaderBridge
