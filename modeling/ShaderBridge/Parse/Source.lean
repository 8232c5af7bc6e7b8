import ShaderBridge.Builtin.Hidden
import ShaderBridge.Builtin.Prototypes
import ShaderBridge.Parse.Function
import ShaderBridge.Shader.Binding
import ShaderBridge.Token.Lexer

/-!
From a source text to a shader. What the language declares comes first: the variables of the stage,
then the intrinsic functions. The text itself follows, and at the end its calls are bound.
-/

namespace ShaderBridge

inductive SourceError where
  | lexical (e : LexError)
  | grammatical (e : ParseError)
deriving DecidableEq, Repr

def SourceError.message : SourceError → String
  | lexical e => e.message
  | grammatical e => e.message

namespace Parse

/-- Records what a directive says of the whole shader. -/
def record (d : Directive) (place : Span) (s : Shader) : Except (ParseError × Span) Shader :=
  match d with
  | .version number profile =>
    if s.version.isSome then .error (.repeatedVersion, place)
    else .ok { s with version := some ⟨number, profile⟩ }
  | .extension name behavior => .ok { s with extensions := s.extensions.push (name, behavior) }
  | .line | .pragma _ | .null => .ok s

/-- The tokens without the directives, which are recorded in the shader. -/
def withoutDirectives (s : Shader) : List Token → Except (ParseError × Span) (List Token × Shader)
  | [] => .ok ([], s)
  | t :: rest =>
    match t.kind with
    | .directive d => do
      let s ← record d t.span s
      withoutDirectives s rest
    | _ => do
      let (tokens, s) ← withoutDirectives s rest
      return (t :: tokens, s)

def declareHidden (g : HiddenGlobal) : ParseM Unit := do
  let initial ← g.value.mapM fun n => addExpr (.constant (.uint n))
  let var ← addVar
    { name := g.name
      type := .builtin g.type
      flags := { array := g.array, hidden := true }
      precision := g.precision
      role := .global { storage := g.storage, initial } }
  modifyShader fun s => ((), { s with globals := s.globals.push var })
  declare var

/-- All declarations up to the end of the tokens. -/
def declarations : ParseM Unit :=
  repeatSteps (fun () => do
    if ← atEnd then return .inr ()
    externalDeclaration
    return .inl ()) ()

/-- The declarations of a text behind those parsed before. -/
def source (tokens : List Token) : ParseM Unit := do
  match withoutDirectives (← shader) tokens with
  | .error e => throw e
  | .ok (tokens, s) =>
    modify fun st => { st with tokens, shader := s }
    declarations

def prototypeTokens : List Token :=
  (tokenize Prototypes.source).toOption.getD []

/-- What the language declares for a stage, its functions announced by the given tokens. -/
def prelude (stage : Stage) (prototypes : List Token) : ParseM Unit := do
  stage.hiddenGlobals.forM declareHidden
  source prototypes

/-- The shader that tokens make in a stage behind the given prototypes. -/
def shaderWith (prototypes : List Token) (stage : Stage) (tokens : List Token) :
    Except (ParseError × Span) Shader := do
  let whole : ParseM Unit := do
    prelude stage prototypes
    source tokens
  let ((), st) ← whole.run { shader := { stage } }
  return st.shader.linkPrototypes.bindCalls st.calls.reverse

def shaderOf (stage : Stage) (tokens : List Token) : Except (ParseError × Span) Shader :=
  shaderWith prototypeTokens stage tokens

end Parse

/-- Parses a preprocessed source text. -/
def parse (text : String) (stage : Stage) : Except (SourceError × Span) Shader := do
  let tokens ← (tokenize text).mapError fun (e, place) => (.lexical e, place)
  (Parse.shaderOf stage tokens).mapError fun (e, place) => (.grammatical e, place)

end ShaderBridge
