import ShaderBridge.Number.Plain
import ShaderBridge.Text.Chars
import ShaderBridge.Text.Span

/-!
Logical lines: lines of a text, where a backslash at the end of one joins it to the next. A logical
line remembers how many line feeds it takes, so that the text that replaces it can take as many.
-/

namespace ShaderBridge

open scoped PlainNumbers

structure LogicalLine where
  text : List Char
  /-- The bytes of the line, from its first one to the end of its last physical line. -/
  span : Span
  newlines : Nat
deriving DecidableEq, Repr

namespace LogicalLine

/-- A physical line without the carriage return at its end. -/
def bodyOf (raw : List Char) : List Char :=
  (withoutFinal? '\r' raw).getD raw

/-- Joins physical lines, given without their line feeds. `start` and `offset` are the offsets of
the logical and of the physical line, `joined` and `newlines` what the logical line has so far. -/
def join (start offset : Nat) (joined : List Char) (newlines : Nat) :
    List (List Char) → List LogicalLine
  | [] => []
  | [last] =>
    let body := bodyOf last
    if last = [] ∧ newlines = 0 ∧ joined = [] then []
    else [⟨joined ++ body, ⟨start, offset + byteLength body⟩, newlines⟩]
  | raw :: next :: rest =>
    let body := bodyOf raw
    let following := offset + byteLength raw + 1
    match withoutFinal? '\\' body with
    | some continued =>
      join start following (joined ++ continued) (newlines + 1) (next :: rest)
    | none =>
      ⟨joined ++ body, ⟨start, offset + byteLength body⟩, newlines + 1⟩ ::
        join following following [] 0 (next :: rest)

/-- The text of the line with the line feeds that it takes. -/
def source (l : LogicalLine) : List Char :=
  l.text ++ List.replicate l.newlines '\n'

/-- What follows the `#` of a directive line. -/
def directive? (l : LogicalLine) : Option (List Char) :=
  after? ['#'] (trimStart l.text)

end LogicalLine

def logicalLines (cs : List Char) : List LogicalLine :=
  LogicalLine.join 0 0 [] 0 (splitAtChar '\n' cs)

/-- The bytes of a physical line, counted from one; of the last one if there is no such line. -/
def lineSpan (cs : List Char) (line : Nat) : Span :=
  let lines := splitAtChar '\n' cs
  let index := min (line - 1) (lines.length - 1)
  let start := ((lines.take index).map fun l => byteLength l + 1).sum
  ⟨start, start + byteLength (lines.getD index [])⟩

end ShaderBridge
