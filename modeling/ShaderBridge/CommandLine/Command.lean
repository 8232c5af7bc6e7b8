import ShaderBridge.Stage
import ShaderBridge.Text.Chars

namespace ShaderBridge

inductive CommandOption where
  | stage | output | config | preprocessed | define | includeDir
  | writeHidden | noHelpers | noPrune | verbose
deriving DecidableEq, Repr

namespace CommandOption

def all : List CommandOption :=
  [stage, output, config, preprocessed, define, includeDir, writeHidden, noHelpers, noPrune,
    verbose]

def name : CommandOption → String
  | stage => "stage"
  | output => "output"
  | config => "config"
  | preprocessed => "preprocessed"
  | define => "define"
  | includeDir => "include-dir"
  | writeHidden => "write-hidden"
  | noHelpers => "no-helpers"
  | noPrune => "noprune"
  | verbose => "verbose"

def letter? : CommandOption → Option Char
  | stage => some 's'
  | output => some 'o'
  | preprocessed => some 'p'
  | define => some 'D'
  | includeDir => some 'I'
  | verbose => some 'v'
  | config | writeHidden | noHelpers | noPrune => none

def takesValue : CommandOption → Bool
  | stage | output | config | preprocessed | define | includeDir => true
  | writeHidden | noHelpers | noPrune | verbose => false

def isRepeatable : CommandOption → Bool
  | define | includeDir => true
  | _ => false

/-- Whether the option is one of a check too. -/
def isForCheck : CommandOption → Bool
  | stage | define | includeDir | verbose => true
  | _ => false

def ofName? (s : String) : Option CommandOption :=
  all.find? fun o => o.name == s

def ofLetter? (c : Char) : Option CommandOption :=
  all.find? fun o => o.letter? == some c

end CommandOption

/-- One word or two of a command. -/
inductive CommandArgument where
  | given (option : CommandOption) (value : String)
  | path (path : String)
deriving DecidableEq, Repr

namespace CommandArgument

/-- Whether a word cannot be the value of an option because it looks like an option itself. -/
def looksLikeOption (word : String) : Bool :=
  word.toList.head? == some '-' && word != "-"

/-- An option whose value is the next word. -/
def withNextWord? (option : CommandOption) :
    List String → Option (List CommandArgument × List String)
  | value :: rest => if looksLikeOption value then none else some ([given option value], rest)
  | [] => none

def ofLetters? : List Char → List String → Option (List CommandArgument × List String)
  | [], rest => some ([], rest)
  | c :: cs, rest => do
    let option ← CommandOption.ofLetter? c
    if option.takesValue then
      match cs with
      | [] => withNextWord? option rest
      | '=' :: value => return ([given option (String.ofList value)], rest)
      | value => return ([given option (String.ofList value)], rest)
    else
      let (others, rest) ← ofLetters? cs rest
      return (given option "" :: others, rest)

/-- The option that a word names behind two hyphens. -/
def ofLongName? (word : List Char) (rest : List String) :
    Option (List CommandArgument × List String) := do
  match cutAt? ['='] word with
  | some (name, value) =>
    let option ← CommandOption.ofName? (String.ofList name)
    if option.takesValue then return ([given option (String.ofList value)], rest) else none
  | none =>
    let option ← CommandOption.ofName? (String.ofList word)
    if option.takesValue then withNextWord? option rest else return ([given option ""], rest)

/-- The arguments at the front of some words. -/
def next? (word : String) (rest : List String) : Option (List CommandArgument × List String) :=
  match word.toList with
  | ['-', '-'] => some (rest.map path, [])
  | '-' :: '-' :: long => ofLongName? long rest
  | '-' :: c :: letters => ofLetters? (c :: letters) rest
  | _ => some ([path word], rest)

/-- All arguments in a list of words, of which at most the given number is looked at. -/
def ofWords? : Nat → List String → Option (List CommandArgument)
  | _, [] => some []
  | 0, _ :: _ => none
  | n + 1, word :: words => do
    let (first, rest) ← next? word words
    return first ++ (← ofWords? n rest)

def values (option : CommandOption) (arguments : List CommandArgument) : List String :=
  arguments.filterMap fun
    | given o value => if o = option then some value else none
    | path _ => none

def has (option : CommandOption) (arguments : List CommandArgument) : Bool :=
  !(values option arguments).isEmpty

/-- The value of an option that is given at most once. -/
def value? (option : CommandOption) (arguments : List CommandArgument) : Option String :=
  (values option arguments).head?

def paths (arguments : List CommandArgument) : List String :=
  arguments.filterMap fun
    | path p => some p
    | given .. => none

/-- Whether no option is given too often. -/
def areSingle (arguments : List CommandArgument) : Bool :=
  CommandOption.all.all fun o => o.isRepeatable || (values o arguments).length ≤ 1

end CommandArgument

inductive Action where
  /-- Writes it in the target language. -/
  | compile (output config preprocessed : Option String) (writeHidden noHelpers noPrune : Bool)
  /-- Counts what it declares. -/
  | check
deriving DecidableEq, Repr

structure Command where
  action : Action
  input : String
  stage : Option Stage
  defines : List String
  includeDirs : List String
deriving DecidableEq, Repr

namespace Command

open CommandArgument

/-- The stage that is asked for, if any; nothing where it is no stage. -/
def stage? (arguments : List CommandArgument) : Option (Option Stage) :=
  match value? .stage arguments with
  | none => some none
  | some name => (Stage.ofName? name).map some

def ofArguments? (action : Action) (arguments : List CommandArgument) : Option Command := do
  let stage ← stage? arguments
  match paths arguments with
  | [input] =>
    if areSingle arguments then
      return { action, input, stage, defines := values .define arguments,
               includeDirs := values .includeDir arguments }
    else none
  | _ => none

def isForCheck : CommandArgument → Bool
  | given option _ => option.isForCheck
  | path _ => true

def ofWords? : List String → Option Command
  | [] => none
  | word :: words => do
    if word == "-v" || word == "--verbose" then
      ofWords? words
    else
      let arguments ← CommandArgument.ofWords? words.length words
      match word with
      | "compile" =>
        let action := .compile (value? .output arguments) (value? .config arguments)
          (value? .preprocessed arguments) (has .writeHidden arguments) (has .noHelpers arguments)
          (has .noPrune arguments)
        ofArguments? action arguments
      | "check" => if arguments.all isForCheck then ofArguments? .check arguments else none
      | _ => none

end Command

end ShaderBridge
