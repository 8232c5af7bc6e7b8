import ShaderBridge.Preprocess.Comment
import ShaderBridge.Preprocess.Directive
import ShaderBridge.Preprocess.Error
import ShaderBridge.Preprocess.Group
import ShaderBridge.Preprocess.LogicalLine

/-!
Preprocessing of a whole source text. The logical lines are cut into sections, each a run of plain
lines with the directive line that ends it. Plain lines are expanded together, so that the use of a
macro may run over several of them; every directive and every skipped line leaves its line feeds
behind.

Macros outlive a text: they stay defined for the next one, also where the text has an error.
-/

namespace ShaderBridge

open scoped PlainNumbers

/-- Where included texts come from. -/
abbrev IncludeResolver := IncludeTarget → Option String

def IncludeResolver.none : IncludeResolver := fun _ => .none

abbrev PreprocessM := ExceptT (PreprocessError × Span) (StateM MacroTable)

/-- How many texts may be open inside one another, not counting the outermost. -/
def maxIncludeDepth : Nat := 32

/-- Plain lines, and the directive line that ends them. -/
structure Section where
  plain : List LogicalLine
  line : LogicalLine
  directive : List Char

/-- The sections of a text, and the plain lines behind the last directive. -/
def sections : List LogicalLine → List Section × List LogicalLine
  | [] => ([], [])
  | l :: ls =>
    let (rest, last) := sections ls
    match l.directive? with
    | some directive => (⟨[], l, directive⟩ :: rest, last)
    | none =>
      match rest with
      | [] => ([], l :: last)
      | s :: rest => ({ s with plain := l :: s.plain } :: rest, last)

def newlinesOf (ls : List LogicalLine) : Nat :=
  (ls.map LogicalLine.newlines).sum

namespace Preprocess

/-- Makes an error of an `Except` one of the directive with the given span. -/
def located {ε α : Type} (span : Span) (cause : ε → PreprocessError) (r : Except ε α) :
    PreprocessM α :=
  match r with
  | .ok value => pure value
  | .error e => throw (cause e, span)

def holds (line : Nat) (span : Span) (condition : List Char) : PreprocessM Bool := do
  let value ← located span .condition (Condition.evaluate (← get) line condition)
  return value != 0

/-- The text that takes the place of plain lines, the first of which has the given number. -/
def plainLines (text : List Char) (groups : List Group) (line : Nat) (ls : List LogicalLine) :
    PreprocessM (List Char) := do
  if Group.allActive groups then
    match expandSource (← get) line (ls.flatMap LogicalLine.source) with
    | .ok expanded => return expanded
    | .error (e, line) => throw (.expansion e, lineSpan text line)
  else return List.replicate (newlinesOf ls) '\n'

/-- Opens, switches or closes a group. `none` for a directive that is not about groups. -/
def regroup? (groups : List Group) (line : Nat) (span : Span) :
    Directed → Option (PreprocessM (List Group))
  | .openIf condition => some do
    let active := Group.allActive groups
    let condition ← if active then holds line span condition else pure false
    return .opened active condition span :: groups
  | .openDefined wanted name => some do
    let active := Group.allActive groups
    if active && !isWord name then
      throw (.invalidMacroName (Directed.definedSpelling wanted), span)
    let condition := active && (← get).isDefined (String.ofList name) == wanted
    return .opened active condition span :: groups
  | .elseIf condition => some do
    match groups with
    | [] => throw (.elifWithoutIf, span)
    | g :: outer =>
      if g.seenElse then throw (.elifAfterElse, span)
      if g.isUndecided then return g.enterBranch (← holds line span condition) :: outer
      return g.skipBranch :: outer
  | .otherwise => some do
    match groups with
    | [] => throw (.elseWithoutIf, span)
    | g :: outer =>
      if g.seenElse then throw (.repeatedElse, span)
      return g.enterElse :: outer
  | .close => some do
    match groups with
    | [] => throw (.unbalancedEndif, span)
    | _ :: outer => return outer
  | _ => none

/-- An included text takes the place of its line, and of one line feed if it is not empty. -/
def spliced (newlines : Nat) (text : List Char) : List Char :=
  let lineEnd := if 0 < newlines && !text.isEmpty && text.getLast? != some '\n' then ['\n'] else []
  text ++ lineEnd ++ List.replicate (newlines - 1) '\n'

/-- Carries out a directive on a line that is taken, and gives the text in the place of the line. -/
def carryOut (includeText : Span → IncludeTarget → PreprocessM (List Char)) (l : LogicalLine) :
    Directed → PreprocessM (List Char)
  | .define rest => do
    match MacroDefinition.ofText? rest with
    | none => throw (.definition .malformed, l.span)
    | some (name, definition) =>
      set (← located l.span .definition ((← get).insert name definition))
      return List.replicate l.newlines '\n'
  | .undefine name => do
    if !isWord name then throw (.invalidMacroName "undef", l.span)
    modify fun t => t.erase (String.ofList name)
    return List.replicate l.newlines '\n'
  | .includeText rest => do
    match IncludeTarget.ofText? rest with
    | none => throw (.invalidInclude, l.span)
    | some target => return spliced l.newlines (← includeText l.span target)
  | _ => return l.source

/-- The groups after a directive line, and the text in its place. -/
def directiveLine (includeText : Span → IncludeTarget → PreprocessM (List Char))
    (groups : List Group) (line : Nat) (l : LogicalLine) (directive : List Char) :
    PreprocessM (List Group × List Char) := do
  let directed := Directed.ofText directive
  match regroup? groups line l.span directed with
  | some regrouped => return (← regrouped, List.replicate l.newlines '\n')
  | none =>
    if Group.allActive groups then return (groups, ← carryOut includeText l directed)
    return (groups, List.replicate l.newlines '\n')

/-- The text that takes the place of sections, with the groups open behind them and the number of
the next line. -/
def sectionLines (includeText : Span → IncludeTarget → PreprocessM (List Char)) (text : List Char)
    (groups : List Group) (line : Nat) : List Section → PreprocessM (List Char × List Group × Nat)
  | [] => return ([], groups, line)
  | s :: rest => do
    let before ← plainLines text groups line s.plain
    let line := line + newlinesOf s.plain
    let (groups, here) ← directiveLine includeText groups line s.line s.directive
    let (after, groups, line) ←
      sectionLines includeText text groups (line + s.line.newlines) rest
    return (before ++ here ++ after, groups, line)

/-- Preprocesses a text, given how to include another. -/
def textWith (includeText : Span → IncludeTarget → PreprocessM (List Char)) (source : List Char) :
    PreprocessM (List Char) := do
  match stripComments 0 source with
  | .error span => throw (.unterminatedComment, span)
  | .ok text =>
    let (parts, last) := sections (logicalLines text)
    let (out, groups, line) ← sectionLines includeText text [] 1 parts
    let tail ← plainLines text groups line last
    match groups with
    | [] => return out ++ tail
    | g :: _ => throw (.unterminatedGroup, g.span)

/-- An error inside an included text, seen from the including line. -/
def seenFrom (span : Span) (path : String) (text : List Char) :
    PreprocessError × Span → PreprocessError × Span
  | (inner, within) => (.included path (lineOfByte within.start text) inner, span)

/-- Preprocesses a text in which includes may go as deep as the given number. -/
def text (resolve : IncludeResolver) : Nat → List Char → PreprocessM (List Char)
  | 0, source => textWith (fun span target => throw (.includeTooDeep target.path, span)) source
  | depth + 1, source =>
    let includeText (span : Span) (target : IncludeTarget) : PreprocessM (List Char) := do
      match resolve target with
      | none => throw (.includeNotFound target.path, span)
      | some found =>
        ExceptT.adapt (seenFrom span target.path found.toList) (text resolve depth found.toList)
    textWith includeText source

end Preprocess

/-- Preprocesses a source text under the macros of a table. The result comes with the macros that
are defined at its end, or at its first error. -/
def preprocess (resolve : IncludeResolver) (macros : MacroTable) (source : String) :
    Except (PreprocessError × Span) String × MacroTable :=
  let (result, macros) := (Preprocess.text resolve maxIncludeDepth source.toList).run.run macros
  (result.map String.ofList, macros)

end ShaderBridge
