import ShaderBridge.Proofs.Preprocess.Block
import ShaderBridge.Proofs.Preprocess.Including

/-!
Lines whose groups nest. Whether they do shows in a walk over the lines that only keeps, for each
open group, whether its `#else` has come; and exactly then the lines are those of a block.

Where the groups of a whole source nest, preprocessing does what the block structure says, and no
error is about groups; where they do not, preprocessing ends with an error.
-/

namespace ShaderBridge

def LogicalLine.kind? (l : LogicalLine) : Option DirectedKind :=
  l.directive?.map fun d => (Directed.ofText d).kind

theorem LogicalLine.kind?_of_isPlain {l : LogicalLine} (h : l.IsPlain) : l.kind? = none := by
  rw [LogicalLine.kind?, h]
  rfl

@[simp]
theorem DirectiveLine.kind?_line {kind : DirectedKind} (l : DirectiveLine kind) :
    l.line.kind? = some kind := by
  simp [LogicalLine.kind?, l.reads, l.ofKind]

/-- One line of the walk. `none` where the line has no place in the groups that are open. -/
def nestLine (stack : List Bool) (l : LogicalLine) : Option (List Bool) :=
  match l.kind?, stack with
  | some .opens, outer => some (false :: outer)
  | some .elseIf, false :: outer => some (false :: outer)
  | some .otherwise, false :: outer => some (true :: outer)
  | some .close, _ :: outer => some outer
  | some .ordinary, outer => some outer
  | none, outer => some outer
  | _, _ => none

/-- The groups that are open behind lines, innermost first, each with whether its `#else` has
come. -/
def nesting (stack : List Bool) (ls : List LogicalLine) : Option (List Bool) :=
  ls.foldlM nestLine stack

/-- The lines of some block. -/
def Nested (ls : List LogicalLine) : Prop :=
  ∃ b : Block, b.lines = ls

@[simp]
theorem nesting_nil (stack : List Bool) : nesting stack [] = some stack := rfl

@[simp]
theorem nesting_cons (stack : List Bool) (l : LogicalLine) (ls : List LogicalLine) :
    nesting stack (l :: ls) = (nestLine stack l).bind (nesting · ls) := rfl

theorem nesting_append (stack : List Bool) (a b : List LogicalLine) :
    nesting stack (a ++ b) = (nesting stack a).bind (nesting · b) := by
  simp [nesting, List.foldlM_append]

theorem nesting_of_isPlain (stack : List Bool) {ls : List LogicalLine} (h : ∀ l ∈ ls, l.IsPlain) :
    nesting stack ls = some stack := by
  induction ls with
  | nil => rfl
  | cons l ls ih =>
      have hl := LogicalLine.kind?_of_isPlain (h l List.mem_cons_self)
      simp [nestLine, hl, ih fun x hx => h x (List.mem_cons_of_mem _ hx)]

mutual

theorem nesting_block (b : Block) (stack : List Bool) : nesting stack b.lines = some stack := by
  match b with
  | .plain ls => exact nesting_of_isPlain stack ls.isPlain
  | .directive before l rest =>
      simp [Block.lines, nesting_append, nesting_of_isPlain stack before.isPlain, nestLine,
        nesting_block rest]
  | .group before opening first more rest =>
      simp [Block.lines, nesting_append, nesting_of_isPlain stack before.isPlain, nestLine,
        nesting_block first, nesting_branches more, nesting_block rest]

theorem nesting_branches (m : Branches) (stack : List Bool) :
    nesting (false :: stack) m.lines = some stack := by
  match m with
  | .close l => simp [Branches.lines, nestLine]
  | .elseIf l body more =>
      simp [Branches.lines, nesting_append, nestLine, nesting_block body, nesting_branches more]
  | .otherwise l body last =>
      simp [Branches.lines, nesting_append, nestLine, nesting_block body]

end

/-- What is left of a group, given whether its `#else` has come, behind a block inside it. -/
inductive GroupRest : Bool → List LogicalLine → Prop where
  | branches (m : Branches) : GroupRest false m.lines
  | close (l : DirectiveLine .close) : GroupRest true [l.line]

/-- Lines that close the open groups one after the other, with blocks in front and in between. -/
def Closes : List Bool → List LogicalLine → Prop
  | [], ls => Nested ls
  | seenElse :: outer, ls => ∃ (b : Block) (inside behind : List LogicalLine),
      ls = b.lines ++ (inside ++ behind) ∧ GroupRest seenElse inside ∧ Closes outer behind

/-- Lines that close the open groups, behind the block at their front. -/
def ClosesAtOnce : List Bool → List LogicalLine → Prop
  | [], ls => ls = []
  | seenElse :: outer, ls => ∃ inside behind : List LogicalLine,
      ls = inside ++ behind ∧ GroupRest seenElse inside ∧ Closes outer behind

theorem closes_iff {stack : List Bool} {ls : List LogicalLine} :
    Closes stack ls ↔ ∃ (b : Block) (behind : List LogicalLine),
      ls = b.lines ++ behind ∧ ClosesAtOnce stack behind := by
  cases stack with
  | nil => simp [Closes, Nested, ClosesAtOnce, eq_comm]
  | cons seenElse outer =>
      simp only [Closes, ClosesAtOnce]
      constructor
      · rintro ⟨b, inside, behind, rfl, hi, hb⟩
        exact ⟨b, _, rfl, inside, behind, rfl, hi, hb⟩
      · rintro ⟨b, _, rfl, inside, behind, rfl, hi, hb⟩
        exact ⟨b, inside, behind, rfl, hi, hb⟩

/-- The block with a plain line in front of it. -/
def Block.consPlain (l : LogicalLine) (h : l.IsPlain) : Block → Block
  | .plain ls => .plain ⟨l :: ls.lines, by simpa [h] using ls.isPlain⟩
  | .directive before d rest =>
    .directive ⟨l :: before.lines, by simpa [h] using before.isPlain⟩ d rest
  | .group before opening first more rest =>
    .group ⟨l :: before.lines, by simpa [h] using before.isPlain⟩ opening first more rest

theorem Block.lines_consPlain {l : LogicalLine} (h : l.IsPlain) (b : Block) :
    (b.consPlain l h).lines = l :: b.lines := by
  cases b <;> simp [Block.consPlain, Block.lines]

def PlainLines.none : PlainLines := ⟨[], by simp⟩

theorem exists_directiveLine {l : LogicalLine} {kind : DirectedKind} (h : l.kind? = some kind) :
    ∃ d : DirectiveLine kind, d.line = l := by
  obtain ⟨text, ht, hk⟩ := Option.map_eq_some_iff.mp h
  exact ⟨⟨l, text, ht, hk⟩, rfl⟩

theorem closes_cons {stack stack' : List Bool} {l : LogicalLine} {ls : List LogicalLine}
    (hl : nestLine stack l = some stack') (h : Closes stack' ls) : Closes stack (l :: ls) := by
  obtain ⟨b, behind, rfl, hb⟩ := closes_iff.mp h
  rw [closes_iff]
  cases hk : l.kind? with
  | none =>
      have hp : l.IsPlain := by
        simpa [LogicalLine.kind?, LogicalLine.IsPlain] using hk
      simp only [nestLine, hk, Option.some.injEq] at hl
      subst hl
      exact ⟨b.consPlain l hp, behind, by simp [Block.lines_consPlain], hb⟩
  | some kind =>
      obtain ⟨d, rfl⟩ := exists_directiveLine hk
      cases kind with
      | opens =>
          simp only [nestLine, hk, Option.some.injEq] at hl
          subst hl
          obtain ⟨inside, outer, rfl, hi, ho⟩ := hb
          cases hi with
          | branches m =>
              obtain ⟨b', behind, rfl, hb⟩ := closes_iff.mp ho
              exact ⟨.group .none d b m b', behind, by simp [Block.lines, PlainLines.none], hb⟩
      | elseIf =>
          rcases stack with _ | ⟨_ | _, outer⟩ <;> simp [nestLine] at hl
          subst hl
          obtain ⟨inside, behind, rfl, hi, ho⟩ := hb
          cases hi with
          | branches m =>
              exact ⟨.plain .none, _, rfl, (Branches.elseIf d b m).lines, behind,
                by simp [Branches.lines], .branches _, ho⟩
      | otherwise =>
          rcases stack with _ | ⟨_ | _, outer⟩ <;> simp [nestLine] at hl
          subst hl
          obtain ⟨inside, behind, rfl, hi, ho⟩ := hb
          cases hi with
          | close last =>
              exact ⟨.plain .none, _, rfl, (Branches.otherwise d b last).lines, behind,
                by simp [Branches.lines], .branches _, ho⟩
      | close =>
          rcases stack with _ | ⟨seenElse, outer⟩ <;> simp [nestLine] at hl
          subst hl
          refine ⟨.plain .none, _, rfl, [d.line], _, rfl, ?_, h⟩
          cases seenElse with
          | false => exact .branches (.close d)
          | true => exact .close d
      | ordinary =>
          simp only [nestLine, hk, Option.some.injEq] at hl
          subst hl
          exact ⟨.directive .none d b, behind, by simp [Block.lines, PlainLines.none], hb⟩

theorem closes_of_nesting {stack : List Bool} {ls : List LogicalLine}
    (h : nesting stack ls = some []) : Closes stack ls := by
  induction ls generalizing stack with
  | nil =>
      cases h
      exact ⟨.plain .none, rfl⟩
  | cons l ls ih =>
      rw [nesting_cons, Option.bind_eq_some_iff] at h
      obtain ⟨stack', hl, h⟩ := h
      exact closes_cons hl (ih h)

theorem nested_iff {ls : List LogicalLine} : Nested ls ↔ nesting [] ls = some [] := by
  constructor
  · rintro ⟨b, rfl⟩
    exact nesting_block b []
  · exact closes_of_nesting

instance (ls : List LogicalLine) : Decidable (Nested ls) :=
  decidable_of_iff _ nested_iff.symm

namespace Preprocess

variable {includeText : Span → IncludeTarget → PreprocessM (List Char)} {text : List Char}
  {groups groups' : List Group} {line line' : Nat} {t t' : MacroTable} {out : List Char}

theorem nestLine_of_gives {l : LogicalLine} {d : List Char} (hl : l.directive? = some d)
    (h : Gives (directiveLine includeText groups line l d) t (groups', out) t') :
    nestLine (groups.map Group.seenElse) l = some (groups'.map Group.seenElse) := by
  have hk : l.kind? = some (Directed.ofText d).kind := by simp [LogicalLine.kind?, hl]
  rcases gives_directiveLine.mp h with ⟨hg, _, _⟩ | ⟨ho, rfl, _⟩
  · cases hd : Directed.ofText d <;> rw [hd] at hg hk <;> cases hg <;>
      simp_all [nestLine, Directed.kind, Group.opened, Group.enterBranch, Group.skipBranch,
        Group.enterElse]
  · simp [nestLine, hk, ho]

theorem nesting_of_gives (ls : List LogicalLine) {groups : List Group} {line : Nat}
    {t : MacroTable} {out : List Char}
    (h : Gives (lines includeText text groups line ls) t (out, groups', line') t') :
    nesting (groups.map Group.seenElse) ls = some (groups'.map Group.seenElse) := by
  induction ls using logicalLines_induction generalizing groups line t out with
  | plain ls hp =>
      obtain ⟨_, rfl, _⟩ := (gives_lines_of_isPlain hp).mp h
      exact nesting_of_isPlain _ hp
  | directive before l d rest hp hl ih =>
      obtain ⟨_, _, gs, _, _, _, _, hd, hr, _⟩ := (gives_lines_append_directive hp hl).mp h
      rw [nesting_append, nesting_of_isPlain _ hp, Option.bind_some, nesting_cons,
        nestLine_of_gives hl hd, Option.bind_some]
      exact ih hr

end Preprocess

/-- Errors about directives that have no place in the groups that are open, or about a group that
is left open. -/
def PreprocessError.isStructural : PreprocessError → Bool
  | elifWithoutIf | elifAfterElse | elseWithoutIf | repeatedElse | unbalancedEndif
  | unterminatedGroup => true
  | _ => false

namespace Preprocess

/-- No error of the step is about groups. -/
def KeepsGroups {α : Type} (m : PreprocessM α) : Prop :=
  FailsOnly (fun e => e.isStructural = false) m

theorem keepsGroups_plainLines (text : List Char) (groups : List Group) (line : Nat)
    (ls : List LogicalLine) : KeepsGroups (plainLines text groups line ls) := by
  unfold plainLines
  split
  · refine failsOnly_get.bind fun t => ?_
    split
    · exact failsOnly_pure _
    · exact failsOnly_throw rfl
  · exact failsOnly_pure _

theorem keepsGroups_conditionOf (line : Nat) (span : Span) (d : Directed) :
    KeepsGroups (conditionOf line span d) := by
  unfold conditionOf
  split
  · exact failsOnly_holds (fun _ => rfl) _
  · split
    · exact failsOnly_throw rfl
    · exact failsOnly_get.bind fun _ => failsOnly_pure _
  · exact failsOnly_holds (fun _ => rfl) _
  · exact failsOnly_pure _

variable {includeText : Span → IncludeTarget → PreprocessM (List Char)} {text : List Char}

theorem keepsGroups_carryOut (hi : ∀ span target, KeepsGroups (includeText span target))
    (l : LogicalLine) (d : Directed) : KeepsGroups (carryOut includeText l d) := by
  refine failsOnly_carryOut (fun _ => ?_) (fun _ => ?_) ?_ hi l d <;> rfl

theorem keepsGroups_chosen {kind : DirectedKind} {line : Nat} {l : DirectiveLine kind}
    {body more : List LogicalLine} {onTrue onFalse : PreprocessM (List Char)}
    (ht : KeepsGroups onTrue) (hf : KeepsGroups onFalse) :
    KeepsGroups (chosen line l body more onTrue onFalse) := by
  refine (keepsGroups_conditionOf _ _ _).bind fun condition => ?_
  split
  · exact ht.bind fun _ => failsOnly_pure _
  · exact hf.bind fun _ => failsOnly_pure _

mutual

theorem keepsGroups_block (hi : ∀ span target, KeepsGroups (includeText span target)) (b : Block)
    (line : Nat) : KeepsGroups (b.emit includeText text line) := by
  match b with
  | .plain ls => exact keepsGroups_plainLines _ _ _ _
  | .directive before l rest =>
      exact (keepsGroups_plainLines _ _ _ _).bind fun _ => (keepsGroups_carryOut hi _ _).bind
        fun _ => (keepsGroups_block hi rest _).bind fun _ => failsOnly_pure _
  | .group before opening first more rest =>
      exact (keepsGroups_plainLines _ _ _ _).bind fun _ =>
        (keepsGroups_chosen (keepsGroups_block hi first _) (keepsGroups_branches hi more _)).bind
          fun _ => (keepsGroups_block hi rest _).bind fun _ => failsOnly_pure _

theorem keepsGroups_branches (hi : ∀ span target, KeepsGroups (includeText span target))
    (m : Branches) (line : Nat) : KeepsGroups (m.emit includeText text line) := by
  match m with
  | .close l => exact failsOnly_pure _
  | .elseIf l body more =>
      exact keepsGroups_chosen (keepsGroups_block hi body _) (keepsGroups_branches hi more _)
  | .otherwise l body last =>
      exact keepsGroups_chosen (keepsGroups_block hi body _) (failsOnly_pure _)

end

theorem keepsGroups_including (resolve : IncludeResolver) (depth : Nat) (span : Span)
    (target : IncludeTarget) : KeepsGroups (including resolve depth span target) :=
  failsOnly_including (fun _ => rfl) (fun _ => rfl) (fun _ _ _ => rfl) resolve depth span target

theorem lines_closed (b : Block) :
    lines includeText text [] 1 b.lines >>= closed = b.emit includeText text 1 := by
  rw [← List.append_nil b.lines, lines_block b rfl (by simp [StartsApart])]
  simp [behind, closed]

theorem nested_of_gives {ls : List LogicalLine} {t t' : MacroTable} {out : List Char}
    (h : Gives (lines includeText text [] 1 ls >>= closed) t out t') : Nested ls := by
  obtain ⟨⟨_, groups, _⟩, t₁, hl, hc⟩ := gives_bind.mp h
  cases groups with
  | nil => exact nested_iff.mpr (nesting_of_gives ls hl)
  | cons g outer => exact absurd hc not_gives_throw

end Preprocess

open Preprocess

/-- Unless preprocessing ends with an error of another kind, it ends with one about groups exactly
where the groups of the source do not nest. Where they do, each group takes the lines of the first
branch whose condition holds, whatever the other branches are. -/
theorem preprocess_groups (resolve : IncludeResolver) (macros : MacroTable) (source : String)
    {text : List Char} (h : stripComments 0 source.toList = .ok text) :
    ((∀ e, (preprocess resolve macros source).1 = .error e → e.1.isStructural = true) →
      ((∃ e, (preprocess resolve macros source).1 = .error e) ↔ ¬ Nested (logicalLines text))) ∧
    ∀ b : Block, b.lines = logicalLines text →
      preprocess resolve macros source =
        outcome macros (b.emit (including resolve maxIncludeDepth) text 1) := by
  have hsource : preprocess resolve macros source = outcome macros
      (lines (including resolve maxIncludeDepth) text [] 1 (logicalLines text) >>= closed) := by
    rw [preprocess_eq, textWith_eq, h]
  have hblock : ∀ b : Block, b.lines = logicalLines text → preprocess resolve macros source =
      outcome macros (b.emit (including resolve maxIncludeDepth) text 1) := by
    intro b hb
    rw [hsource, ← hb, lines_closed]
  refine ⟨fun hs => ⟨?_, ?_⟩, hblock⟩
  · rintro ⟨e, he⟩ ⟨b, hb⟩
    have hstructural := hs e he
    rw [hblock b hb] at he
    rcases gives_or_fails (b.emit (including resolve maxIncludeDepth) text 1) macros with
      ⟨out, t, hg⟩ | ⟨e', t, hf⟩
    · rw [outcome_of_gives hg] at he
      cases he
    · rw [outcome_of_fails hf] at he
      cases he
      have hk := keepsGroups_block (keepsGroups_including resolve maxIncludeDepth) b 1 _ _ _ hf
      exact absurd hstructural (by simp [hk])
  · intro hn
    rcases gives_or_fails
      (lines (including resolve maxIncludeDepth) text [] 1 (logicalLines text) >>= closed) macros
      with ⟨out, t, hg⟩ | ⟨e, t, hf⟩
    · exact absurd (nested_of_gives hg) hn
    · exact ⟨e, by rw [hsource, outcome_of_fails hf]⟩

/-- The second `#else` counts though the lines around its group are not taken. -/
theorem preprocess_groups_repeatedElse :
    stripComments 0 "#ifdef A\n#if B\n#else\n#else\n#endif\n#endif\n".toList =
        .ok "#ifdef A\n#if B\n#else\n#else\n#endif\n#endif\n".toList ∧
      ((∃ e, (preprocess .none {} "#ifdef A\n#if B\n#else\n#else\n#endif\n#endif\n").1 = .error e) ↔
        ¬ Nested (logicalLines "#ifdef A\n#if B\n#else\n#else\n#endif\n#endif\n".toList)) := by
  have h : stripComments 0 "#ifdef A\n#if B\n#else\n#else\n#endif\n#endif\n".toList =
      .ok "#ifdef A\n#if B\n#else\n#else\n#endif\n#endif\n".toList := by
    decide +kernel
  have hresult : (preprocess .none {} "#ifdef A\n#if B\n#else\n#else\n#endif\n#endif\n").1 =
      .error (.repeatedElse, ⟨21, 26⟩) := by
    decide +kernel
  refine ⟨h, (preprocess_groups .none {} _ h).1 fun e he => ?_⟩
  rw [hresult] at he
  cases he
  rfl

end ShaderBridge
