import ShaderBridge.Compile
import ShaderBridge.Text.Span

/-!
Errors as they are shown to a person. An error at a place is shown with the line that holds the
first byte of the place, and a mark below the bytes it covers. Lines and columns are counted from
one, columns in bytes.
-/

namespace ShaderBridge

/-- The parts of a compilation that can find fault with a text. -/
inductive Phase where
  | lexical | preprocessing | grammatical
deriving DecidableEq, Repr

/-- An error, ready to be shown. -/
inductive Diagnostic where
  | located (phase : Phase) (message : String) (place : Span)
  | config (message : String)
deriving DecidableEq, Repr

/-- The error that ends a compilation. -/
def CompileError.diagnostic : CompileError → Diagnostic
  | definition e => .config e.message
  | preprocessing e place => .located .preprocessing e.message place
  | source (.lexical e) place => .located .lexical e.message place
  | source (.grammatical e) place => .located .grammatical e.message place

/-- A text in two parts, of which the first takes the given number of bytes. A character that would
be cut in two goes to the first. -/
def splitAtByte (offset : Nat) : List Char → List Char × List Char
  | [] => ([], [])
  | c :: cs =>
    if offset = 0 then ([], c :: cs)
    else
      let (before, after) := splitAtByte (offset - c.utf8Size) cs
      (c :: before, after)

/-- A byte of a source text, found in its line. -/
structure Location where
  line : Nat
  column : Nat
  content : List Char
deriving DecidableEq, Repr

/-- What follows the last line feed of a text. -/
def lastLine (cs : List Char) : List Char :=
  (cs.reverse.takeWhile (· != '\n')).reverse

/-- The line that holds the byte at an offset. An offset behind the text is at its end. -/
def Location.ofByte (source : List Char) (offset : Nat) : Location :=
  let (before, after) := splitAtByte offset source
  let start := lastLine before
  { line := lineFeeds before + 1
    column := byteLength start + 1
    content := start ++ after.takeWhile (· != '\n') }

namespace Phase

def name : Phase → String
  | lexical => "Lexer"
  | preprocessing => "Preprocessor"
  | grammatical => "Parser"

/-- How the phase is named where the source line is shown. -/
def title : Phase → String
  | grammatical => "Parse Error"
  | phase => phase.name ++ " Error"

end Phase

namespace Diagnostic

def message : Diagnostic → String
  | located _ message _ => message
  | config message => message

/-- The error by itself, with the bytes of its place. -/
def display : Diagnostic → String
  | located phase message place =>
    phase.name ++ " error at Span \x7b start: " ++ decimal place.start ++ ", end: " ++
      decimal place.stop ++ " \x7d: " ++ message
  | config message => "Config error: " ++ message

def locationText (file : String) (loc : Location) : String :=
  file ++ ":" ++ decimal loc.line ++ ":" ++ decimal loc.column

def line (file : String) (source : List Char) : Diagnostic → String
  | located _ message place =>
    locationText file (.ofByte source place.start) ++ ": error: " ++ message
  | config message => file ++ ": error: " ++ message

def red (text : String) : String :=
  "\x1b[1;31m" ++ text ++ "\x1b[0m"

def blue (text : String) : String :=
  "\x1b[1;34m" ++ text ++ "\x1b[0m"

def padded (n : Nat) : String :=
  let digits := decimal n
  "".pushn ' ' (3 - digits.length) ++ digits

/-- The number of bytes that are marked: those of the place that are in the line, at least one. -/
def markedBytes (place : Span) (loc : Location) : Nat :=
  max 1 (min place.length (byteLength loc.content - (loc.column - 1)))

def mark (place : Span) (loc : Location) : String :=
  "".pushn ' ' (loc.column - 1) ++ red ("".pushn '^' (markedBytes place loc))

def context (file : String) (source : List Char) : Diagnostic → String
  | located phase message place =>
    let loc := Location.ofByte source place.start
    let margin := "   " ++ blue "|"
    String.join <| ["", red ("error[" ++ phase.title ++ "]") ++ ": " ++ message,
      "  " ++ blue "-->" ++ " " ++ locationText file loc, margin,
      blue (padded loc.line ++ " |") ++ " " ++ String.ofList loc.content,
      margin ++ " " ++ mark place loc, margin].map (· ++ "\n")
  | config message => "\n" ++ red "error" ++ ": " ++ message ++ "\n"

end Diagnostic

end ShaderBridge
