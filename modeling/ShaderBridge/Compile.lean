import ShaderBridge.Hlsl.Program
import ShaderBridge.Parse.Source
import ShaderBridge.Preprocess.Source
import ShaderBridge.Shader.Reachability

/-!
Compilation: the source text is preprocessed, the result is parsed for a stage, what is not needed
is dropped, and the rest is written in the target language. The first error ends it. There is no
text where what is needed cannot be followed to its end.
-/

namespace ShaderBridge

/-- What a compilation can be told apart from its source text. -/
structure Config where
  /-- Whether declarations that are not needed are dropped. -/
  prune : Bool := true
  /-- Macros that are defined from the start, each as a name or as `name=value`. -/
  defines : List String := []
  /-- The directories that are searched for included texts. -/
  includeDirs : List String := []
  writer : Hlsl.Options := {}
deriving DecidableEq, Repr

/-- The macros that are defined from the start. -/
def Config.macros (c : Config) : Except DefinitionError MacroTable :=
  c.defines.foldlM (fun macros definition => macros.defineText definition.toList) {}

inductive CompileError where
  | definition (e : DefinitionError)
  /-- An error at a place of the source text. -/
  | preprocessing (e : PreprocessError) (place : Span)
  /-- An error at a place of the preprocessed text. -/
  | source (e : SourceError) (place : Span)
deriving DecidableEq, Repr

/-- The text that is left when the directives of a source text have been carried out. -/
def preprocessed (config : Config) (resolve : IncludeResolver) (source : String) :
    Except CompileError String := do
  let macros ← config.macros.mapError .definition
  (preprocess resolve macros source).1.mapError fun (e, place) => .preprocessing e place

def parsed (stage : Stage) (text : String) : Except CompileError Shader :=
  (parse text stage).mapError fun (e, place) => .source e place

def written (config : Config) (s : Shader) : Option String :=
  (if config.prune then s.prune? else some s).map (·.toHlsl config.writer)

def compile (config : Config) (resolve : IncludeResolver) (stage : Stage) (source : String) :
    Except CompileError (Option String) := do
  let text ← preprocessed config resolve source
  let s ← parsed stage text
  return written config s

end ShaderBridge
