import ShaderBridge.Parse.Error
import ShaderBridge.Shader.Folding
import ShaderBridge.Shader.Typing
import ShaderBridge.Token.Basic

/-!
The state of a parse and the small steps that all of its rules are made of: looking at tokens,
taking them, opening scopes, and adding to the shader.

The tokens that are left always end with the one for the end of file, which is never taken.
-/

namespace ShaderBridge

structure ParserState where
  tokens : List Token := []
  shader : Shader
  /-- The open scopes, innermost first, each with its latest variable first. -/
  scopes : List (List VarId) := [[]]
  /-- The calls seen so far, latest first. -/
  calls : List ExprId := []

abbrev ParseM := StateT ParserState (Except (ParseError × Span))

namespace Parse

def kindAt (tokens : List Token) : TokenKind :=
  match tokens with
  | [] => .endOfFile
  | t :: _ => t.kind

def peek : ParseM TokenKind := do
  return kindAt (← get).tokens

def peekSecond : ParseM TokenKind := do
  return kindAt (← get).tokens.tail

/-- The bytes of the next token. -/
def span : ParseM Span := do
  return ((← get).tokens.head?.map Token.span).getD {}

def atEnd : ParseM Bool := do
  return (← peek) == .endOfFile

def at? (p : Punct) : ParseM Bool := do
  return (← peek) == .punct p

def atAny? (ps : List Punct) : ParseM Bool := do
  match ← peek with
  | .punct p => return ps.contains p
  | _ => return false

def atKeyword? (k : Keyword) : ParseM Bool := do
  return (← peek) == .keyword k

def name? : ParseM (Option String) := do
  match ← peek with
  | .ident name => return some name
  | _ => return none

/-- Takes the next token, unless it is the end of file. -/
def advance : ParseM Unit :=
  modify fun st =>
    match st.tokens with
    | t :: rest => if t.kind = .endOfFile then st else { st with tokens := rest }
    | [] => st

/-- Takes the given mark if it comes next. -/
def take? (p : Punct) : ParseM Bool := do
  if ← at? p then
    advance
    return true
  return false

def failAt {α : Type} (span : Span) (e : ParseError) : ParseM α :=
  throw (e, span)

/-- Gives up at the next token. At the end of file that is the error, whatever was asked for. -/
def fail {α : Type} (e : ParseError) : ParseM α := do
  failAt (← span) (if ← atEnd then .endOfFile else e)

/-- Takes a mark that has to come next. -/
def expect (p : Punct) (what : Expected) : ParseM Unit := do
  unless ← take? p do fail (.expected what)

def repeatWithin {α β : Type} (step : α → ParseM (α ⊕ β)) : Nat → α → ParseM β
  | 0, _ => do failAt (← span) .unfinished
  | n + 1, a => do
    match ← step a with
    | .inl a => repeatWithin step n a
    | .inr b => return b

/-- Repeats a step until it gives a result. Each step but the last takes a token, so there is one
step more than there are tokens at most. -/
def repeatSteps {α β : Type} (step : α → ParseM (α ⊕ β)) (a : α) : ParseM β := do
  repeatWithin step ((← get).tokens.length + 1) a

/-- The fuel that rules calling one another may use up on the tokens that are left. Between two
tokens no more than eight of them are entered. -/
def fuel : ParseM Nat := do
  return 8 * (← get).tokens.length + 16

/-- Items up to one of the closing marks, which is taken. A comma follows every item but the last,
behind which it may be missing. -/
def commaSeparated {α : Type} (closing : List Punct) (separator : ParseError) (item : ParseM α) :
    ParseM (List α) :=
  repeatSteps (fun found => do
    if ← atAny? closing then
      advance
      return .inr found.reverse
    let a ← item
    unless ← take? .comma do
      unless ← atAny? closing do fail separator
    return .inl (a :: found)) []

def shader : ParseM Shader := do
  return (← get).shader

def modifyShader {α : Type} (f : Shader → α × Shader) : ParseM α :=
  modifyGet fun ⟨tokens, shader, scopes, calls⟩ =>
    let (a, shader) := f shader
    (a, ⟨tokens, shader, scopes, calls⟩)

def addExpr (e : Expr) : ParseM ExprId :=
  modifyShader (Shader.addExpr e)

def addStmt (t : Stmt) : ParseM StmtId :=
  modifyShader (Shader.addStmt t)

def addVar (v : Variable) : ParseM VarId :=
  modifyShader (Shader.addVar v)

def isConstant (id : ExprId) : ParseM Bool := do
  return (← shader).isConstant id

/-- Folds an expression; an error is reported at the next token. -/
def evaluate (id : ExprId) : ParseM ExprId := do
  match ← modifyShader (Folding.evaluate id).run.run with
  | .ok id => return id
  | .error e => failAt (← span) (.folding e)

def openScope : ParseM Unit :=
  modify fun st => { st with scopes := [] :: st.scopes }

def closeScope : ParseM Unit :=
  modify fun st => { st with scopes := st.scopes.tail }

def declare (id : VarId) : ParseM Unit :=
  modify fun st =>
    match st.scopes with
    | [] => st
    | scope :: outer => { st with scopes := (id :: scope) :: outer }

/-- The variable that a name stands for: the latest of the innermost scope that has one. -/
def findVariable? (name : String) : ParseM (Option VarId) := do
  let st ← get
  return st.scopes.flatten.find? fun id => (st.shader.var id).name == name

def findType? (name : String) : ParseM (Option TypeRef) := do
  return ((← shader).findStruct? name).map .declared

/-- A point of a parse: the tokens that are left there, and how many variables the innermost scope
has, how many calls have been seen, and how many expressions and variables have been added. -/
structure Mark where
  tokens : List Token
  inScope : Nat
  calls : Nat
  exprs : Nat
  vars : Nat

def mark : ParseM Mark := do
  let st ← get
  return { tokens := st.tokens, inScope := (st.scopes.headD []).length, calls := st.calls.length,
           exprs := st.shader.exprs.size, vars := st.shader.vars.size }

/-- The given number of entries of a list, those that were added to its front first. -/
def earliest {α : Type} (n : Nat) (entries : List α) : List α :=
  entries.drop (entries.length - n)

/-- Goes back to a mark: what has been added since is dropped. -/
def rewind (m : Mark) : ParseM Unit :=
  modify fun st =>
    { tokens := m.tokens
      shader := st.shader.truncate m.exprs m.vars
      scopes := st.scopes.modifyHead (earliest m.inScope)
      calls := earliest m.calls st.calls }

/-- Runs a rule that may find that it does not apply, and goes back if it does not. -/
def attempt {α : Type} (rule : ParseM (Option α)) : ParseM (Option α) := do
  let m ← mark
  match ← rule with
  | some a => return some a
  | none =>
    rewind m
    return none

end Parse

end ShaderBridge
