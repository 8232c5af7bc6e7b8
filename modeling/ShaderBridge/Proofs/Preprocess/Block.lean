import ShaderBridge.Proofs.Preprocess.Regrouping

/-!
The block structure of a text with groups, and what the preprocessor makes of it. A group is an
opening line with its lines, followed by further branches up to the line that closes it. The
preprocessor, which only keeps a stack of the groups that are open, takes the lines of the first
branch whose condition holds and leaves blank lines for all others.
-/

namespace ShaderBridge

structure PlainLines where
  lines : List LogicalLine
  isPlain : ∀ l ∈ lines, l.IsPlain

structure DirectiveLine (kind : DirectedKind) where
  line : LogicalLine
  text : List Char
  reads : line.directive? = some text
  ofKind : (Directed.ofText text).kind = kind

mutual

/-- Lines whose groups are all closed within them. -/
inductive Block where
  | plain (ls : PlainLines)
  | directive (before : PlainLines) (l : DirectiveLine .ordinary) (rest : Block)
  | group (before : PlainLines) (opening : DirectiveLine .opens) (first : Block) (more : Branches)
      (rest : Block)

/-- The lines behind the first branch of a group, with the one that closes it. -/
inductive Branches where
  | close (l : DirectiveLine .close)
  | elseIf (l : DirectiveLine .elseIf) (body : Block) (more : Branches)
  | otherwise (l : DirectiveLine .otherwise) (body : Block) (last : DirectiveLine .close)

end

mutual

def Block.lines : Block → List LogicalLine
  | .plain ls => ls.lines
  | .directive before l rest => before.lines ++ l.line :: rest.lines
  | .group before opening first more rest =>
    before.lines ++ opening.line :: (first.lines ++ (more.lines ++ rest.lines))

def Branches.lines : Branches → List LogicalLine
  | .close l => [l.line]
  | .elseIf l body more => l.line :: (body.lines ++ more.lines)
  | .otherwise l body last => l.line :: (body.lines ++ [last.line])

end

namespace Preprocess

/-- What is left of lines that are not taken, and of the directives about groups. -/
def blankLines (ls : List LogicalLine) : List Char :=
  List.replicate (newlinesOf ls) '\n'

@[simp]
theorem blankLines_nil : blankLines [] = [] := rfl

theorem blankLines_append (a b : List LogicalLine) :
    blankLines (a ++ b) = blankLines a ++ blankLines b := by
  simp [blankLines]

theorem blankLines_cons (l : LogicalLine) (ls : List LogicalLine) :
    blankLines (l :: ls) = List.replicate l.newlines '\n' ++ blankLines ls := by
  simp [blankLines]

/-- Whether the branch behind a directive is taken, if no earlier one of its group was. -/
def conditionOf (line : Nat) (span : Span) : Directed → PreprocessM Bool
  | .openIf condition => holds line span condition
  | .openDefined wanted name => do
    if !isWord name then throw (.invalidMacroName (Directed.definedSpelling wanted), span)
    return (← get).isDefined (String.ofList name) == wanted
  | .elseIf condition => holds line span condition
  | _ => return true

variable (includeText : Span → IncludeTarget → PreprocessM (List Char)) (text : List Char)

/-- A branch with its line and those behind it: where the condition holds its own lines are taken,
where not one of the branches behind it may be. -/
def chosen {kind : DirectedKind} (line : Nat) (l : DirectiveLine kind)
    (body more : List LogicalLine)
    (onTrue onFalse : PreprocessM (List Char)) : PreprocessM (List Char) := do
  let condition ← conditionOf line l.line.span (Directed.ofText l.text)
  if condition then return blankLines [l.line] ++ (← onTrue) ++ blankLines more
  else return blankLines [l.line] ++ blankLines body ++ (← onFalse)

end Preprocess

open Preprocess in
mutual

/-- What takes the place of a block whose lines are taken, the first of which has the given
number. -/
def Block.emit (includeText : Span → IncludeTarget → PreprocessM (List Char)) (text : List Char)
    (line : Nat) : Block → PreprocessM (List Char)
  | .plain ls => plainLines text [] line ls.lines
  | .directive before l rest => do
    let out ← plainLines text [] line before.lines
    let here ← carryOut includeText l.line (Directed.ofText l.text)
    let after ← rest.emit includeText text (line + newlinesOf before.lines + l.line.newlines)
    return out ++ (here ++ after)
  | .group before opening first more rest => do
    let out ← plainLines text [] line before.lines
    let line := line + newlinesOf before.lines
    let body := line + opening.line.newlines
    let behind := body + newlinesOf first.lines
    let here ← chosen line opening first.lines more.lines
      (first.emit includeText text body) (more.emit includeText text behind)
    let after ← rest.emit includeText text (behind + newlinesOf more.lines)
    return out ++ (here ++ after)

/-- What takes the place of the branches of a group of which no earlier one was taken, in lines that
are taken. -/
def Branches.emit (includeText : Span → IncludeTarget → PreprocessM (List Char)) (text : List Char)
    (line : Nat) : Branches → PreprocessM (List Char)
  | .close l => return blankLines [l.line]
  | .elseIf l body more =>
    let inside := line + l.line.newlines
    chosen line l body.lines more.lines (body.emit includeText text inside)
      (more.emit includeText text (inside + newlinesOf body.lines))
  | .otherwise l body last =>
    chosen line l body.lines [last.line] (body.emit includeText text (line + l.line.newlines))
      (return blankLines [last.line])

end

theorem DirectiveLine.startsApart {kind : DirectedKind} (l : DirectiveLine kind)
    (rest : List LogicalLine) : Preprocess.StartsApart (l.line :: rest) :=
  Preprocess.startsApart_directive l.reads rest

theorem Branches.startsApart (m : Branches) (rest : List LogicalLine) :
    Preprocess.StartsApart (m.lines ++ rest) := by
  cases m <;> simpa [Branches.lines] using DirectiveLine.startsApart _ _

namespace Preprocess

variable {includeText : Span → IncludeTarget → PreprocessM (List Char)} {text : List Char}
  {groups : List Group} {line : Nat}

section

attribute [local simp] Directed.kind directiveLine regroup?

theorem lines_ordinary (hg : Group.allActive groups = true) (l : DirectiveLine .ordinary)
    (rest : List LogicalLine) :
    lines includeText text groups line (l.line :: rest) =
      carryOut includeText l.line (Directed.ofText l.text) >>= fun here =>
        behind here (lines includeText text groups (line + l.line.newlines) rest) := by
  have hk := l.ofKind
  rw [lines_cons_directive _ _ _ _ l.reads]
  cases hd : Directed.ofText l.text <;> simp_all

theorem lines_ordinary_skipped (hg : Group.allActive groups = false) (l : DirectiveLine .ordinary)
    (rest : List LogicalLine) :
    lines includeText text groups line (l.line :: rest) =
      behind (blankLines [l.line])
        (lines includeText text groups (line + l.line.newlines) rest) := by
  have hk := l.ofKind
  rw [lines_cons_directive _ _ _ _ l.reads]
  cases hd : Directed.ofText l.text <;>
    simp_all [blankLines]

theorem lines_opens (hg : Group.allActive groups = true) (l : DirectiveLine .opens)
    (rest : List LogicalLine) :
    lines includeText text groups line (l.line :: rest) =
      conditionOf line l.line.span (Directed.ofText l.text) >>= fun condition =>
        behind (blankLines [l.line]) (lines includeText text
          (.opened true condition l.line.span :: groups) (line + l.line.newlines) rest) := by
  have hk := l.ofKind
  rw [lines_cons_directive _ _ _ _ l.reads]
  cases hd : Directed.ofText l.text with
  | openIf condition => simp [hd, hg, blankLines, conditionOf]
  | openDefined wanted name =>
      cases hw : isWord name <;> simp [hd, hg, blankLines, conditionOf, hw]
  | _ => simp [hd] at hk

theorem lines_opens_skipped (hg : Group.allActive groups = false) (l : DirectiveLine .opens)
    (rest : List LogicalLine) :
    lines includeText text groups line (l.line :: rest) =
      behind (blankLines [l.line]) (lines includeText text
        (.opened false false l.line.span :: groups) (line + l.line.newlines) rest) := by
  have hk := l.ofKind
  rw [lines_cons_directive _ _ _ _ l.reads]
  cases hd : Directed.ofText l.text <;>
    simp_all [blankLines, get_bind_const]

theorem lines_close (g : Group) (l : DirectiveLine .close) (rest : List LogicalLine) :
    lines includeText text (g :: groups) line (l.line :: rest) =
      behind (blankLines [l.line])
        (lines includeText text groups (line + l.line.newlines) rest) := by
  have hk := l.ofKind
  rw [lines_cons_directive _ _ _ _ l.reads]
  cases hd : Directed.ofText l.text <;>
    simp_all [blankLines]

theorem lines_elseIf {g : Group} (hs : g.seenElse = false) (hu : g.isUndecided = true)
    (l : DirectiveLine .elseIf) (rest : List LogicalLine) :
    lines includeText text (g :: groups) line (l.line :: rest) =
      conditionOf line l.line.span (Directed.ofText l.text) >>= fun condition =>
        behind (blankLines [l.line]) (lines includeText text
          (g.enterBranch condition :: groups) (line + l.line.newlines) rest) := by
  have hk := l.ofKind
  rw [lines_cons_directive _ _ _ _ l.reads]
  cases hd : Directed.ofText l.text <;>
    simp_all [blankLines, conditionOf]

theorem lines_elseIf_skipped {g : Group} (hs : g.seenElse = false) (hu : g.isUndecided = false)
    (l : DirectiveLine .elseIf) (rest : List LogicalLine) :
    lines includeText text (g :: groups) line (l.line :: rest) =
      behind (blankLines [l.line]) (lines includeText text
        (g.skipBranch :: groups) (line + l.line.newlines) rest) := by
  have hk := l.ofKind
  rw [lines_cons_directive _ _ _ _ l.reads]
  cases hd : Directed.ofText l.text <;>
    simp_all [blankLines]

theorem lines_otherwise {g : Group} (hs : g.seenElse = false) (l : DirectiveLine .otherwise)
    (rest : List LogicalLine) :
    lines includeText text (g :: groups) line (l.line :: rest) =
      behind (blankLines [l.line]) (lines includeText text
        (g.enterElse :: groups) (line + l.line.newlines) rest) := by
  have hk := l.ofKind
  rw [lines_cons_directive _ _ _ _ l.reads]
  cases hd : Directed.ofText l.text <;>
    simp_all [blankLines]

end

theorem plainLines_of_active (hg : Group.allActive groups = true) (ls : List LogicalLine) :
    plainLines text groups line ls = plainLines text [] line ls := by
  simp only [plainLines, hg]
  rfl

theorem lines_plain_skipped (hg : Group.allActive groups = false) (ls : PlainLines)
    (rest : List LogicalLine) :
    lines includeText text groups line (ls.lines ++ rest) =
      behind (blankLines ls.lines)
        (lines includeText text groups (line + newlinesOf ls.lines) rest) :=
  lines_append_skipped _ _ _ _ hg ls.isPlain rest

-- What is behind a block must not go on with the plain lines at its end.
mutual

theorem lines_block_skipped (b : Block) {groups : List Group} {line : Nat}
    (hg : Group.allActive groups = false) {rest : List LogicalLine} (hr : StartsApart rest) :
    lines includeText text groups line (b.lines ++ rest) =
      behind (blankLines b.lines)
        (lines includeText text groups (line + newlinesOf b.lines) rest) := by
  match b with
  | .plain ls => exact lines_plain_skipped hg ls rest
  | .directive before l more =>
      simp only [Block.lines, List.append_assoc, List.cons_append]
      rw [lines_plain_skipped hg before, lines_ordinary_skipped hg,
        lines_block_skipped more hg hr]
      simp [blankLines_append, blankLines_cons, Nat.add_assoc]
  | .group before opening first branches more =>
      simp only [Block.lines, List.append_assoc, List.cons_append]
      rw [lines_plain_skipped hg before, lines_opens_skipped hg,
        lines_block_skipped first (by rfl) (branches.startsApart _),
        lines_branches_skipped branches (by rfl) (by rfl), lines_block_skipped more hg hr]
      simp [blankLines_append, blankLines_cons, Nat.add_assoc]

theorem lines_branches_skipped (m : Branches) {g : Group} {groups : List Group} {line : Nat}
    (hs : g.seenElse = false) (hu : g.isUndecided = false) (rest : List LogicalLine) :
    lines includeText text (g :: groups) line (m.lines ++ rest) =
      behind (blankLines m.lines)
        (lines includeText text groups (line + newlinesOf m.lines) rest) := by
  match m with
  | .close l =>
      simp only [Branches.lines, List.cons_append, List.nil_append]
      rw [lines_close]
      simp
  | .elseIf l body more =>
      simp only [Branches.lines, List.append_assoc, List.cons_append]
      rw [lines_elseIf_skipped hs hu, lines_block_skipped body (by rfl) (more.startsApart _),
        lines_branches_skipped more (g := g.skipBranch) hs hu rest]
      simp [blankLines_append, blankLines_cons, Nat.add_assoc]
  | .otherwise l body last =>
      simp only [Branches.lines, List.append_assoc, List.cons_append, List.nil_append]
      have he : Group.allActive (g.enterElse :: groups) = false := hu
      rw [lines_otherwise hs, lines_block_skipped body he (last.startsApart _), lines_close]
      simp [blankLines_append, blankLines_cons, Nat.add_assoc]

end

mutual

theorem lines_block (b : Block) {groups : List Group} {line : Nat}
    (hg : Group.allActive groups = true) {rest : List LogicalLine} (hr : StartsApart rest) :
    lines includeText text groups line (b.lines ++ rest) =
      b.emit includeText text line >>= fun out =>
        behind out (lines includeText text groups (line + newlinesOf b.lines) rest) := by
  match b with
  | .plain ls =>
      simp only [Block.lines, Block.emit]
      rw [lines_append _ _ _ _ ls.isPlain hr, plainLines_of_active hg]
  | .directive before l more =>
      simp only [Block.lines, Block.emit, List.append_assoc, List.cons_append]
      rw [lines_append _ _ _ _ before.isPlain (l.startsApart _), plainLines_of_active hg,
        lines_ordinary hg, lines_block more hg hr]
      simp [behind_bind, Nat.add_assoc]
  | .group before opening first branches more =>
      simp only [Block.lines, Block.emit, List.append_assoc, List.cons_append]
      rw [lines_append _ _ _ _ before.isPlain (opening.startsApart _), plainLines_of_active hg,
        lines_opens hg]
      simp only [chosen, behind_bind, bind_assoc]
      congr 1
      funext out
      congr 1
      funext condition
      cases condition with
      | true =>
          rw [lines_block first (by rfl) (branches.startsApart _)]
          simp [lines_branches_skipped branches, Group.opened, Group.isUndecided,
            lines_block more hg hr, behind_bind, Nat.add_assoc]
      | false =>
          rw [lines_block_skipped first (by rfl) (branches.startsApart _),
            lines_branches branches (by rfl) (by rfl)]
          simp [lines_block more hg hr, behind_bind, Nat.add_assoc]

/-- Where no branch of a group was taken so far, the first of the others whose condition holds is
taken. -/
theorem lines_branches (m : Branches) {g : Group} {groups : List Group} {line : Nat}
    (hs : g.seenElse = false) (hu : g.isUndecided = true) (rest : List LogicalLine) :
    lines includeText text (g :: groups) line (m.lines ++ rest) =
      m.emit includeText text line >>= fun out =>
        behind out (lines includeText text groups (line + newlinesOf m.lines) rest) := by
  match m with
  | .close l =>
      simp only [Branches.lines, Branches.emit, List.cons_append, List.nil_append]
      rw [lines_close]
      simp
  | .elseIf l body more =>
      simp only [Branches.lines, Branches.emit, chosen, List.append_assoc, List.cons_append]
      rw [lines_elseIf hs hu, bind_assoc]
      congr 1
      funext condition
      cases condition with
      | true =>
          rw [lines_block body (by rfl) (more.startsApart _)]
          have hn : (g.enterBranch true).isUndecided = false := by
            simp [Group.isUndecided, Group.enterBranch]
          simp [lines_branches_skipped more (g := g.enterBranch true) hs hn, behind_bind,
            Nat.add_assoc]
      | false =>
          have hn : (g.enterBranch false).isUndecided = true := by
            have hp : g.parent = true := by simp_all [Group.isUndecided]
            simp [Group.isUndecided, Group.enterBranch, hp]
          rw [lines_block_skipped body (by rfl) (more.startsApart _),
            lines_branches more (g := g.enterBranch false) hs hn]
          simp [behind_bind, blankLines_cons, Nat.add_assoc]
  | .otherwise l body last =>
      simp only [Branches.lines, List.append_assoc, List.cons_append, List.nil_append]
      have he : Group.allActive (g.enterElse :: groups) = true := hu
      rw [lines_otherwise hs, lines_block body he (last.startsApart _)]
      have hc : conditionOf line l.line.span (Directed.ofText l.text) = pure true := by
        have hk := l.ofKind
        cases hd : Directed.ofText l.text <;> simp_all [Directed.kind, conditionOf]
      simp [lines_close, Branches.emit, chosen, hc, behind_bind, Nat.add_assoc]

end

end Preprocess

end ShaderBridge
