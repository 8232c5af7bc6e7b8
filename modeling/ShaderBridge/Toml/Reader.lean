import ShaderBridge.Text.Chars

namespace ShaderBridge.Toml

abbrev Reader := StateT (List Char) Option

namespace Reader

/-- The next character, which satisfies `p`. -/
def char (p : Char → Bool) : Reader Char := fun cs =>
  match cs with
  | c :: rest => if p c then some (c, rest) else none
  | [] => none

def literal (s : String) : Reader Unit := fun cs =>
  (after? s.toList cs).map ((), ·)

/-- All characters up to the first that does not satisfy `p`. -/
def takeWhile (p : Char → Bool) : Reader (List Char) := fun cs =>
  some (cs.takeWhile p, cs.dropWhile p)

def optional {α : Type} (r : Reader α) : Reader (Option α) :=
  (some <$> r) <|> pure none

/-- Nothing, at the end of the text. -/
def atEnd : Reader Unit := fun cs =>
  if cs.isEmpty then some ((), []) else none

/-- Reads as long as `step` goes on, at most the given number of times. -/
def collect {α : Type} (step : Reader (Option α)) : Nat → Reader (List α)
  | 0 => failure
  | n + 1 => do
    match ← step with
    | none => return []
    | some a => return a :: (← collect step n)

/-- Reads as long as `step` goes on. A step that goes on takes a character at least. -/
def all {α : Type} (step : Reader (Option α)) : Reader (List α) := do
  collect step ((← get).length + 1)

end Reader

def isSpace (c : Char) : Bool :=
  c == ' ' || c == '\t'

/-- A character that may stand in comments, and in strings unless it ends them. -/
def isPlain (c : Char) : Bool :=
  c == '\t' || (0x20 ≤ c.val && c.val != 0x7F)

def spaces : Reader Unit := do
  let _ ← Reader.takeWhile isSpace

def newline : Reader Unit :=
  Reader.literal "\n" <|> Reader.literal "\r\n"

def comment : Reader Unit := do
  Reader.literal "#"
  let _ ← Reader.takeWhile isPlain

/-- The end of a line, with a comment if there is one. -/
def lineEnd : Reader Unit := do
  spaces
  let _ ← Reader.optional comment
  newline <|> Reader.atEnd

/-- One character or comment between the items of an array. -/
def blank : Reader Unit :=
  (do let _ ← Reader.char isSpace) <|> newline <|> comment

/-- Spaces, comments and ends of lines. -/
def blanks : Reader Unit := do
  let _ ← Reader.all (Reader.optional blank)

end ShaderBridge.Toml
