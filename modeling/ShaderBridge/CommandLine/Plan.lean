import ShaderBridge.CommandLine.Command
import ShaderBridge.ConfigFile
import ShaderBridge.Diagnostic
import ShaderBridge.File.Tree

/-!
What a command does, as a list of effects in order. Files are only read to find out what they are,
so that everything is decided from the texts they hold; an effect that fails ends the command.
-/

namespace ShaderBridge

structure Files where
  read : String → Except FileError String
  isPresent : String → Bool

def FileTree.toFiles (t : FileTree) : Files :=
  ⟨t.read, t.isPresent⟩

inductive Effect where
  | write (path text : String)
  | output (text : String)
  | complaint (text : String)
deriving DecidableEq, Repr

/-- A computation that lists its effects, the latest first, and may give up. -/
abbrev PlanM := ExceptT Unit (StateM (List Effect))

namespace PlanM

def perform (e : Effect) : PlanM Unit :=
  modify (e :: ·)

def giveUp {α : Type} (text : String) : PlanM α := do
  perform (.complaint (text ++ "\n"))
  throw ()

/-- The value of a computation, or the end of the command. -/
def orGiveUp {α ε : Type} (text : ε → String) (r : Except ε α) : PlanM α :=
  match r with
  | .ok a => return a
  | .error e => giveUp (text e)

/-- The value, or the end of the command where there is none. -/
def orEnd {α : Type} : Option α → PlanM α
  | some a => return a
  | none => throw ()

end PlanM

/-- The name of the configuration that is looked for beside the input. -/
def configFileName : String := "glslx.toml"

/-- The configuration in a file. One that is not there says nothing. -/
def loadConfig (files : Files) (path : String) : Except String Config :=
  if files.isPresent path then
    match files.read path with
    | .error e => .error e.message
    | .ok text =>
      match Config.ofText? text with
      | some config => .ok config
      | none => .error (path ++ ": Failed to parse config")
  else .ok {}

namespace Command

def configPath (c : Command) : String :=
  let beside := Path.join (Path.directory c.input) configFileName
  match c.action with
  | .compile _ config _ _ _ _ => config.getD beside
  | .check => beside

/-- The configuration under which a command works. What the command says itself goes first. -/
def adjust (c : Command) (config : Config) : Config :=
  let config := { config with
    defines := config.defines ++ c.defines
    includeDirs := config.includeDirs ++ c.includeDirs }
  match c.action with
  | .compile _ _ _ writeHidden noHelpers noPrune =>
    { config with
      prune := config.prune && !noPrune
      writer := { config.writer with
        writeHidden := config.writer.writeHidden || writeHidden
        emitHelpers := config.writer.emitHelpers && !noHelpers } }
  | .check => config

/-- The paths at which an included text is looked for, in order: beside the input unless it is a
text of the system, in the include directories, and for a text of the system under its own path. -/
def includePaths (c : Command) (config : Config) (target : IncludeTarget) : List String :=
  let dirs := config.includeDirs.map fun directory => Path.join directory target.path
  if target.system then dirs ++ [target.path]
  else Path.join (Path.directory c.input) target.path :: dirs

def resolver (c : Command) (config : Config) (files : Files) : IncludeResolver := fun target =>
  (c.includePaths config target).findSome? fun path => (files.read path).toOption

/-- The stage that is asked for, or else the one that the name of the input implies. -/
def stageOfInput? (c : Command) : Option Stage :=
  c.stage <|> (Path.extension? c.input).bind Stage.ofFileExtension?

/-- What is said of an error in a text. -/
def errorText (file : String) (text : String) : CompileError → String
  | .definition e => "error: " ++ e.message
  | e => e.diagnostic.context file text.toList

/-- Where the preprocessed text is to be written. -/
def preprocessedPath? (c : Command) : Option String :=
  match c.action with
  | .compile _ _ preprocessed _ _ _ => preprocessed
  | .check => none

open PlanM

def readShader (c : Command) (files : Files) (config : Config) : PlanM Shader := do
  match c.stageOfInput? with
  | none => giveUp ("error: cannot infer the shader stage of " ++ c.input ++ ", pass --stage")
  | some stage =>
    let source ← orGiveUp
      (fun e : FileError => "error: failed to read " ++ c.input ++ ": " ++ e.message)
      (files.read c.input)
    let text ← orGiveUp (errorText c.input source)
      (preprocessed config (c.resolver config files) source)
    match c.preprocessedPath? with
    | some path => perform (.write path text)
    | none => pure ()
    orGiveUp (errorText c.input text) (parsed stage text)

/-- The variables that the program declares itself. -/
def declaredGlobals (s : Shader) : List VarId :=
  s.globals.toList.filter fun id => !(s.var id).flags.hidden

/-- The numbers of what a shader declares. -/
def summary (file : String) (s : Shader) : String :=
  String.join <| [file ++ ": ok (" ++ s.stage.name ++ " stage)",
    "  globals:          " ++ decimal (declaredGlobals s).length,
    "  structures:       " ++ decimal s.structures.size,
    "  interface blocks: " ++ decimal s.blocks.size,
    "  functions:        " ++ decimal s.userFunctions.length].map (· ++ "\n")

def run (c : Command) (files : Files) : PlanM Unit := do
  let config ← orGiveUp ("error: " ++ ·) (loadConfig files c.configPath)
  let config := c.adjust config
  let s ← c.readShader files config
  match c.action with
  | .compile none _ _ _ _ _ => perform (.output (← orEnd (written config s)))
  | .compile (some path) _ _ _ _ _ => perform (.write path (← orEnd (written config s)))
  | .check => perform (.output (summary c.input s))

/-- The effects of a command, and whether it succeeds if all of them do. -/
def plan (c : Command) (files : Files) : List Effect × Bool :=
  let (result, effects) := (c.run files).run.run []
  (effects.reverse, result.isOk)

end Command

/-- What is said of a file that could not be written. -/
def writeComplaint (path : String) (e : FileError) : String :=
  "error: failed to write " ++ path ++ ": " ++ e.message ++ "\n"

def usage : String :=
  "usage: glslx (compile | check) [options] <input>\n"

structure Outcome where
  exitCode : Nat := 0
  output : String := ""
  complaints : String := ""
  files : FileTree
deriving DecidableEq, Repr

namespace Outcome

/-- Carries out effects up to the first that fails, which makes the exit code one. -/
def carryOut : List Effect → Outcome → Outcome
  | [], o => o
  | .output text :: rest, o => carryOut rest { o with output := o.output ++ text }
  | .complaint text :: rest, o => carryOut rest { o with complaints := o.complaints ++ text }
  | .write path text :: rest, o =>
    match o.files.write path text with
    | .ok files => carryOut rest { o with files }
    | .error e =>
      { o with exitCode := 1, complaints := o.complaints ++ writeComplaint path e }

/-- What comes of a list of words, given the files there are. -/
def ofWords (words : List String) (files : FileTree) : Outcome :=
  match Command.ofWords? words with
  | none => { exitCode := 2, complaints := usage, files }
  | some c =>
    let (effects, succeeded) := c.plan files.toFiles
    carryOut effects { exitCode := if succeeded then 0 else 1, files }

end Outcome

end ShaderBridge
