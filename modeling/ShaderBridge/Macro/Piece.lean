import ShaderBridge.Text.Chars

/-!
Pieces: how macro expansion reads a text. Unlike the tokens of the language, pieces keep blanks, so
that the texts of the pieces put together give the text back.
-/

namespace ShaderBridge

inductive PieceKind where
  | word | number | space | mark
deriving DecidableEq, Repr

/-- A word, a number, a run of blanks, or a mark, as it stands in the text. -/
structure Piece where
  kind : PieceKind
  text : List Char
deriving DecidableEq, Repr

namespace Piece

/-- Whether the piece is the mark `c`. -/
def isChar (p : Piece) (c : Char) : Bool :=
  p.text == [c]

def isSpace (p : Piece) : Bool :=
  p.kind == .space

/-- The operator that pastes two operands together. -/
def isPaste (p : Piece) : Bool :=
  p.text == ['#', '#']

/-- The name that a word spells. -/
def name (p : Piece) : String :=
  String.ofList p.text

/-- The rest of a number after the character `last`. A sign belongs to it only behind an exponent
mark. -/
def numberTail (hexadecimal : Bool) (last : Char) : List Char → List Char
  | [] => []
  | c :: cs =>
    let sign := (c == '+' || c == '-') && (last == 'e' || last == 'E') && !hexadecimal
    if isWordChar c || c == '.' || sign then c :: numberTail hexadecimal c cs else []

/-- The kind of the piece that opens with `c`, and its text after `c`. -/
def first (c : Char) (cs : List Char) : PieceKind × List Char :=
  if isWordStart c then (.word, cs.takeWhile isWordChar)
  else if isDigit c || (c == '.' && cs.head?.any isDigit) then
    let hexadecimal := c == '0' && cs.head?.any fun x => x == 'x' || x == 'X'
    (.number, numberTail hexadecimal c cs)
  else if isAsciiBlank c then (.space, cs.takeWhile isAsciiBlank)
  else if c == '#' && cs.head? == some '#' then (.mark, ['#'])
  else (.mark, [])

/-- The first piece that is not blank, and what follows it. -/
def next? (ps : List Piece) : Option (Piece × List Piece) :=
  match ps.dropWhile isSpace with
  | [] => none
  | p :: rest => some (p, rest)

theorem next?_suffix {ps rest : List Piece} {p : Piece} (h : next? ps = some (p, rest)) :
    p :: rest <:+ ps := by
  unfold next? at h
  split at h
  · simp at h
  · rename_i heq
    simp only [Option.some.injEq, Prod.mk.injEq] at h
    obtain ⟨rfl, rfl⟩ := h
    exact heq ▸ List.dropWhile_suffix _

theorem length_of_next? {ps rest : List Piece} {p : Piece} (h : next? ps = some (p, rest)) :
    rest.length < ps.length := by
  have := (next?_suffix h).length_le
  simp at this
  omega

/-- The text that pieces were read from. -/
def textOf (ps : List Piece) : List Char :=
  ps.flatMap Piece.text

/-- The number of line feeds in the text of pieces. -/
def feeds (ps : List Piece) : Nat :=
  lineFeeds (textOf ps)

theorem numberTail_prefix (hexadecimal : Bool) (last : Char) (cs : List Char) :
    numberTail hexadecimal last cs <+: cs := by
  induction cs generalizing last with
  | nil => simp [numberTail]
  | cons c cs ih =>
    simp only [numberTail]
    split
    · exact (List.cons_prefix_cons).mpr ⟨rfl, ih c⟩
    · exact List.nil_prefix

theorem first_prefix (c : Char) (cs : List Char) : (first c cs).2 <+: cs := by
  unfold first
  split
  · exact List.takeWhile_prefix _
  · split
    · exact numberTail_prefix _ _ _
    · split
      · exact List.takeWhile_prefix _
      · split
        · rename_i h
          cases cs with
          | nil => simp at h
          | cons d ds => simp_all
        · exact List.nil_prefix

end Piece

/-- The pieces of a text. -/
def pieces : List Char → List Piece
  | [] => []
  | c :: cs =>
    let (kind, tail) := Piece.first c cs
    ⟨kind, c :: tail⟩ :: pieces (cs.drop tail.length)
termination_by cs => cs.length
decreasing_by
  simp only [List.length_drop, List.length_cons]
  omega

namespace Piece

@[simp]
theorem textOf_nil : textOf [] = [] := rfl

@[simp]
theorem textOf_cons (p : Piece) (ps : List Piece) : textOf (p :: ps) = p.text ++ textOf ps := rfl

theorem textOf_append (a b : List Piece) : textOf (a ++ b) = textOf a ++ textOf b := by
  simp [textOf]

theorem textOf_pieces (cs : List Char) : textOf (pieces cs) = cs := by
  fun_induction pieces cs with
  | case1 => rfl
  | case2 c cs kind tail h ih =>
    have hp : tail <+: cs := by simpa [h] using first_prefix c cs
    obtain ⟨rest, rfl⟩ := hp
    simp_all

end Piece

end ShaderBridge
