import ShaderBridge.Toml.Scalar

/-!
Configuration texts. A text is a sequence of lines, of which each opens a table or gives a key a
value; what the lines say together is one table. A text is refused where a line is malformed or
speaks of a table that an earlier line has completed.
-/

namespace ShaderBridge.Toml

/-- The parts of a key are fewer than this, and so are the levels of a value. -/
def depthLimit : Nat := 80

def isBareKeyChar (c : Char) : Bool :=
  isWordChar c || c == '-'

def bareKey : Reader (List Char) := do
  let first ← Reader.char isBareKeyChar
  return first :: (← Reader.takeWhile isBareKeyChar)

def keyPart : Reader String := do
  spaces
  let part ← bareKey <|> lineString
  spaces
  return String.ofList part

def key : Reader (List String) := do
  let first ← keyPart
  let others ← Reader.all (Reader.optional do Reader.literal "."; keyPart)
  let parts := first :: others
  if parts.length < depthLimit then return parts else failure

/-- The last part of a key, behind the others. -/
def splitKey (parts : List String) : List String × String :=
  (parts.dropLast, parts.getLast?.getD "")

/-- A key, and the value that `value` reads behind it. -/
def pair (value : Reader Value) : Reader (List String × Value) := do
  let parts ← key
  Reader.literal "="
  spaces
  return (parts, ← value)

/-- The pairs of a table in braces as its entries. -/
def inlineEntries? (pairs : List (List String × Value)) : Option Entries :=
  pairs.foldlM (fun entries (parts, value) =>
    let (path, last) := splitKey parts
    addPair? path last value entries) []

/-- The next item of an array, with the comma behind it. The last item may have one. -/
def arrayItem (value : Reader Value) : Reader (Option Value) := do
  blanks
  if (← get).head? = some ']' then return none
  let item ← value
  blanks
  if (← get).head? != some ']' then Reader.literal ","
  return some item

def arrayTail (value : Reader Value) : Reader (List Value) := do
  let items ← Reader.all (arrayItem value)
  Reader.literal "]"
  return items

/-- The rest of a table in braces. No comma follows its last pair. -/
def inlineTail (value : Reader Value) : Reader Entries := do
  let pairs ← Reader.optional do
    let first ← pair value
    let others ← Reader.all (Reader.optional do
      spaces
      Reader.literal ","
      pair value)
    return first :: others
  spaces
  Reader.literal "\x7d"
  match inlineEntries? (pairs.getD []) with
  | some entries => return entries
  | none => failure

/-- A value that is no array and no table. -/
def scalar : Reader Value :=
  (do return .string (String.ofList (← string))) <|> (do datetime; return .datetime) <|>
    (do float; return .float) <|> (do return .integer (← integer)) <|>
    (do return .boolean (← boolean))

/-- A value with fewer than the given number of levels. -/
def valueWithin : Nat → Reader Value
  | 0 => scalar
  | levels + 1 =>
    (do Reader.literal "["; return .array (← arrayTail (valueWithin levels))) <|>
      (do Reader.literal "\x7b"; return .table .inline (← inlineTail (valueWithin levels))) <|>
      scalar

def value : Reader Value :=
  valueWithin (depthLimit - 1)

inductive Line where
  /-- The header of a table. -/
  | table (parts : List String)
  /-- The header of one more table of its name. -/
  | element (parts : List String)
  | pair (parts : List String) (value : Value)
deriving Repr

def tableLine : Reader Line := do
  Reader.literal "["
  let parts ← key
  Reader.literal "]"
  lineEnd
  return .table parts

def elementLine : Reader Line := do
  Reader.literal "[["
  let parts ← key
  Reader.literal "]]"
  lineEnd
  return .element parts

def pairLine : Reader Line := do
  let (parts, value) ← pair value
  lineEnd
  return .pair parts value

/-- A line that says something. -/
def line : Reader Line := do
  match (← get) with
  | '[' :: '[' :: _ => elementLine
  | '[' :: _ => tableLine
  | _ => pairLine

/-- Lines that say nothing. -/
def emptyLines : Reader Unit := do
  let _ ← Reader.all (Reader.optional do
    spaces
    let _ ← Reader.optional comment
    newline)
  spaces
  let _ ← Reader.optional comment

def lines : Reader (List Line) := do
  let _ ← Reader.optional (Reader.literal "\ufeff")
  let lines ← Reader.all do
    emptyLines
    if (← get).isEmpty then return none
    return some (← line)
  return lines

/-- What the lines so far say. -/
structure Document where
  root : Entries := []
  /-- The header that the next pairs belong to. -/
  current : List String := []

namespace Document

def addLine? (d : Document) : Line → Option Document
  | .table parts => do
    let (path, last) := splitKey parts
    return { root := ← updateAt? (openTable? last) path d.root, current := parts }
  | .element parts => do
    let (path, last) := splitKey parts
    return { root := ← updateAt? (openElement? last) path d.root, current := parts }
  | .pair parts value => do
    let (path, last) := splitKey parts
    return { d with root := ← updateAt? (addPair? path last value) d.current d.root }

end Document

def parse? (text : String) : Option Entries := do
  let (lines, _) ← lines.run text.toList
  let d ← lines.foldlM Document.addLine? {}
  return d.root

end ShaderBridge.Toml
