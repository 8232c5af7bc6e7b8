import ShaderBridge.Proofs.Macro.Feeds
import ShaderBridge.Proofs.Preprocess.PhysicalLines
import ShaderBridge.Proofs.Preprocess.Regrouping

namespace ShaderBridge

namespace Preprocess

variable {includeText : Span → IncludeTarget → PreprocessM (List Char)} {text : List Char}
  {macros t t' : MacroTable} {gs gs' : List Group} {n n' : Nat} {out : List Char}

/-! ### Places -/

/-- A place that expansion comes to in a text: a piece of plain lines that are taken, outside of the
arguments of uses. In front of it are the lines up to the last directive, and the pieces of its own
run of lines that expansion has gone over. -/
structure TextPlace (includeText : Span → IncludeTarget → PreprocessM (List Char))
    (text : List Char) (macros : MacroTable) where
  before : List LogicalLine
  chunk : List LogicalLine
  after : List LogicalLine
  lines_eq : logicalLines text = before ++ (chunk ++ after)
  before_ended : before = [] ∨ ∃ l ∈ before.getLast?, ¬ l.IsPlain
  chunk_plain : ∀ l ∈ chunk, l.IsPlain
  after_apart : StartsApart after
  /-- What the lines in front come to, and the number of the line behind them. -/
  out : List Char
  groups : List Group
  next : Nat
  table : MacroTable
  gives_before : Gives (lines includeText text [] 1 before) macros (out, groups, next) table
  active : Group.allActive groups = true
  passed : List Piece
  piece : Piece
  rest : List Piece
  goesOver : GoesOver table (pieces (chunk.flatMap LogicalLine.source)) passed (piece :: rest)
  visible : piece.isSpace = false

namespace TextPlace

variable (place : TextPlace includeText text macros)

/-- The number that the preprocessor has for the current line. -/
def number : Nat :=
  place.next + Piece.feeds place.passed

/-- The line of the source from which the line of the piece was read. The lines in front of it are
those that the preprocessor has gone over. -/
def StandsIn {source : List Char} (line : PhysicalLine source) : Prop :=
  ∃ above l below left right front raw, place.chunk = above ++ l :: below ∧
    Piece.textOf place.passed = above.flatMap LogicalLine.source ++ left ∧
    l.text = left ++ (place.piece.text ++ right) ∧
    Blanks (terminated line.above) front ∧ logicalLines front = place.before ++ above ∧
    Blanks line.raw raw ∧ LogicalLine.bodyOf raw = l.text

end TextPlace

theorem number_of_lines {ls : List LogicalLine}
    (h : Gives (lines includeText text gs n ls) t (out, gs', n') t') : n' = n + newlinesOf ls := by
  induction ls using logicalLines_induction generalizing gs n t out with
  | plain ls hp => exact ((gives_lines_of_isPlain hp).mp h).2.2
  | directive before l d rest hp hl ih =>
      obtain ⟨_, _, _, _, _, _, _, _, hrest, _⟩ := (gives_lines_append_directive hp hl).mp h
      rw [ih hrest, newlinesOf_append, newlinesOf_cons]
      omega

theorem lineFeeds_terminated {raws : List (List Char)} (h : ∀ raw ∈ raws, '\n' ∉ raw) :
    lineFeeds (terminated raws) = raws.length := by
  have hlength := lineFeeds_eq_length_splitAtChar (terminated raws)
  have hsplit := splitAtChar_terminated h []
  rw [List.append_nil] at hsplit
  rw [hsplit] at hlength
  simpa [splitAtChar] using hlength

theorem ne_nil_of_mem_pieces {cs : List Char} : ∀ p ∈ pieces cs, p.text ≠ [] := by
  fun_induction pieces cs with
  | case1 => simp
  | case2 c cs kind tail h ih => simpa using ih

namespace TextPlace

variable {source : List Char}

theorem exists_line (hs : stripComments 0 source = .ok text) (hc : ContinuationFree source)
    (place : TextPlace includeText text macros) :
    ∃ line : PhysicalLine source, place.StandsIn line ∧ line.number = place.number ∧
      lineSpan text place.number = line.span := by
  have hblanks := blanks_of_stripComments hs
  have hpieces : Piece.textOf place.passed ++ (place.piece.text ++ Piece.textOf place.rest) =
      place.chunk.flatMap LogicalLine.source := by
    rw [← Piece.textOf_cons, ← Piece.textOf_append, ← place.goesOver.eq_append,
      Piece.textOf_pieces]
  have hmem : place.piece ∈ pieces (place.chunk.flatMap LogicalLine.source) := by
    rw [place.goesOver.eq_append]
    simp
  have hfeeds : FeedsBetween place.chunk := by
    have h : FeedsBetween (logicalLines text) := feedsBetween_join 0 0 0 [] _
    rw [place.lines_eq] at h
    exact h.of_append
  obtain ⟨above, l, below, left, right, hchunk, hpassed, htext⟩ :=
    exists_line_of_word hfeeds hpieces.symm (ne_nil_of_mem_pieces _ hmem)
      (lineFeeds_eq_zero.mp (Piece.feedsInSpace_pieces _ _ hmem place.visible))
  have hlines : logicalLines text = (place.before ++ above) ++ l :: (below ++ place.after) := by
    rw [place.lines_eq, hchunk]
    simp
  obtain ⟨line, hbody, habove⟩ := exists_physicalLine_of_join (hc.blanks hblanks) hlines
  obtain ⟨line', hnumber, hfront, hraw, _⟩ := hblanks.exists_physicalLine line
  refine ⟨line', ⟨above, l, below, left, right, _, _, hchunk, hpassed, htext, hfront, habove, hraw,
    hbody⟩, ?_⟩
  have hspan : line'.span = line.span := by
    rw [PhysicalLine.span, PhysicalLine.span, hfront.byteLength_eq, hraw.byteLength_eq]
  have hnext := number_of_lines place.gives_before
  have hmemLine : l ∈ logicalLines text := by rw [hlines]; simp
  have hcounts : CountsFeeds above := by
    intro k hk
    have hmem : k ∈ logicalLines text := by
      rw [hlines]
      simp [hk]
    exact lineFeeds_source_of_mem_logicalLines hmem
  have hleft : lineFeeds left = 0 := by
    have hfree : '\n' ∉ l.text := LogicalLine.not_mem_text_of_mem_join 0 0 0 (by simp)
      (not_mem_of_mem_splitAtChar text) l hmemLine
    rw [htext, List.mem_append, not_or] at hfree
    exact lineFeeds_eq_zero.mpr hfree.1
  have habove' : line.above.length = newlinesOf place.before + newlinesOf above := by
    rw [← lineFeeds_terminated line.above_free, ← newlinesOf_logicalLines, ← newlinesOf_append]
    exact congrArg newlinesOf habove
  have hnumber' : line.number = place.number := by
    rw [PhysicalLine.number, TextPlace.number, Piece.feeds, hpassed, lineFeeds_append,
      lineFeeds_sources hcounts, hleft, hnext, habove']
    omega
  exact ⟨hnumber.trans hnumber', by rw [← hnumber', line.lineSpan_number, hspan]⟩

/-! ### What is put out -/

theorem exists_of_gives (hs : stripComments 0 source = .ok text)
    (place : TextPlace includeText text macros)
    (h : Gives (textWith includeText source) macros out t) :
    ∃ front owed value behind back, out = place.out ++ (front ++ (value ++ back)) ∧
      expandLines place.table place.next 0 place.passed = .ok (front ++ List.replicate owed '\n') ∧
      place.piece.replaced place.table place.number place.rest = .ok (value, behind) := by
  obtain ⟨text', n, hs', hrun⟩ := exists_lines_of_gives h
  cases hs.symm.trans hs'
  rw [place.lines_eq, lines_append_lines _ _ _ _ _ _ (place.before_ended.imp_right .inr)] at hrun
  obtain ⟨_, _, hbefore, hbehind⟩ := gives_bind.mp hrun
  obtain ⟨rfl, rfl⟩ := hbefore.unique place.gives_before
  obtain ⟨out₂, rfl, hrest⟩ := gives_behind.mp hbehind
  rw [lines_append _ _ _ _ place.chunk_plain place.after_apart] at hrest
  obtain ⟨out₃, _, hchunk, hbehind⟩ := gives_bind.mp hrest
  obtain ⟨out₄, rfl, _⟩ := gives_behind.mp hbehind
  obtain ⟨hexpand, rfl⟩ := (gives_plainLines place.active).mp hchunk
  rw [expandSource_eq] at hexpand
  obtain ⟨front, owed, value, behind, back, rfl, hpassed, hvalue⟩ :=
    place.goesOver.exists_of_expandLines_eq_ok (Piece.feedsInSpace_pieces _) place.visible hexpand
  exact ⟨front, owed, value, behind, back ++ out₄, by simp, hpassed, hvalue⟩

end TextPlace

/-! ### Errors -/

/-- An error that does not come from expanding text. -/
def NotOfExpansion (e : PreprocessError) : Prop :=
  ∀ cause, e ≠ .expansion cause

theorem failsOnly_regroup? {line : Nat} {span : Span} {d : Directed}
    {regrouped : PreprocessM (List Group)} (h : regroup? gs line span d = some regrouped) :
    FailsOnly NotOfExpansion regrouped := by
  have hholds (condition : List Char) : FailsOnly NotOfExpansion (holds line span condition) :=
    failsOnly_holds (fun _ _ => nofun) condition
  cases d with
  | openIf condition =>
      cases h
      dsimp only
      split
      · exact (hholds condition).bind fun _ => failsOnly_pure _
      · exact (failsOnly_pure _).bind fun _ => failsOnly_pure _
  | openDefined wanted name =>
      cases h
      dsimp only
      split
      · exact (failsOnly_throw fun _ => nofun).bind fun _ =>
          failsOnly_get.bind fun _ => failsOnly_pure _
      · exact failsOnly_get.bind fun _ => failsOnly_pure _
  | elseIf condition =>
      cases h
      cases gs with
      | nil => exact failsOnly_throw fun _ => nofun
      | cons g outer =>
          have hbranch : FailsOnly NotOfExpansion (if g.isUndecided then
              holds line span condition >>= fun value => pure (g.enterBranch value :: outer)
              else pure (g.skipBranch :: outer)) := by
            split
            · exact (hholds condition).bind fun _ => failsOnly_pure _
            · exact failsOnly_pure _
          dsimp only
          split
          · exact (failsOnly_throw fun _ => nofun).bind fun _ => hbranch
          · exact hbranch
  | otherwise =>
      cases h
      cases gs with
      | nil => exact failsOnly_throw fun _ => nofun
      | cons g outer =>
          dsimp only
          split
          · exact (failsOnly_throw fun _ => nofun).bind fun _ => failsOnly_pure _
          · exact failsOnly_pure _
  | close =>
      cases h
      cases gs with
      | nil => exact failsOnly_throw fun _ => nofun
      | cons g outer => exact failsOnly_pure _
  | define => cases h
  | undefine => cases h
  | includeText => cases h
  | foreign => cases h

theorem failsOnly_directiveLine
    (hi : ∀ span target, FailsOnly NotOfExpansion (includeText span target)) (gs : List Group)
    (line : Nat) (l : LogicalLine) (d : List Char) :
    FailsOnly NotOfExpansion (directiveLine includeText gs line l d) := by
  unfold directiveLine
  dsimp only
  split
  · next regrouped hr => exact (failsOnly_regroup? hr).bind fun _ => failsOnly_pure _
  · split
    · exact (failsOnly_carryOut (fun _ _ => nofun) (fun _ _ => nofun) (fun _ => nofun) hi l _).bind
        fun _ => failsOnly_pure _
    · exact failsOnly_pure _

variable {e : ExpansionError} {span : Span}

theorem fails_plainLines {ls : List LogicalLine} :
    Fails (plainLines text gs n ls) t (.expansion e, span) t' ↔
      Group.allActive gs = true ∧ t' = t ∧ ∃ line,
        expandSource t n (ls.flatMap LogicalLine.source) = .error (e, line) ∧
          span = lineSpan text line := by
  unfold plainLines
  cases Group.allActive gs with
  | false => exact ⟨nofun, nofun⟩
  | true =>
      rw [if_pos rfl, fails_bind]
      constructor
      · rintro (h | ⟨_, _, hget, h⟩)
        · have hnever : FailsOnly (fun _ => False) get := failsOnly_get
          exact (hnever _ _ _ h).elim
        · obtain ⟨rfl, rfl⟩ := gives_get.mp hget
          split at h
          · cases h
          · next hexpand =>
              cases h
              exact ⟨rfl, rfl, _, hexpand, rfl⟩
      · rintro ⟨_, rfl, line, hexpand, rfl⟩
        refine .inr ⟨_, _, gives_get.mpr ⟨rfl, rfl⟩, ?_⟩
        rw [hexpand]
        rfl

theorem fails_behind {m : PreprocessM (List Char × List Group × Nat)} {a : List Char}
    {e : PreprocessError × Span} : Fails (behind a m) t e t' ↔ Fails m t e t' := by
  rw [behind, map_eq_pure_bind, fails_bind]
  constructor
  · rintro (h | ⟨_, _, _, h⟩)
    · exact h
    · cases h
  · exact .inl

theorem fails_lines_append {before chunk after : List LogicalLine} {e : PreprocessError × Span}
    {t₁ : MacroTable} (hended : before = [] ∨ ∃ l ∈ before.getLast?, ¬ l.IsPlain)
    (hplain : ∀ l ∈ chunk, l.IsPlain) (hapart : StartsApart after)
    (hbefore : Gives (lines includeText text gs n before) t (out, gs', n') t₁)
    (hchunk : Fails (plainLines text gs' n' chunk) t₁ e t') :
    Fails (lines includeText text gs n (before ++ (chunk ++ after))) t e t' := by
  rw [lines_append_lines _ _ _ _ _ _ (hended.imp_right .inr), fails_bind]
  refine .inr ⟨_, _, hbefore, fails_behind.mpr ?_⟩
  rw [lines_append _ _ _ _ hplain hapart, fails_bind]
  exact .inl hchunk

theorem exists_of_fails_lines
    (hi : ∀ span target, FailsOnly NotOfExpansion (includeText span target))
    {ls : List LogicalLine}
    (h : Fails (lines includeText text gs n ls) t (.expansion e, span) t') :
    ∃ before chunk after out gs' n', ls = before ++ (chunk ++ after) ∧
      (before = [] ∨ ∃ l ∈ before.getLast?, ¬ l.IsPlain) ∧ (∀ l ∈ chunk, l.IsPlain) ∧
      StartsApart after ∧ Gives (lines includeText text gs n before) t (out, gs', n') t' ∧
      Fails (plainLines text gs' n' chunk) t' (.expansion e, span) t' := by
  induction ls using logicalLines_induction generalizing gs n t with
  | plain ls hp =>
      have hapart : StartsApart [] := by simp [StartsApart]
      rw [← List.append_nil ls, lines_append _ _ _ _ hp hapart, fails_bind, lines_nil] at h
      rcases h with h | ⟨_, _, _, h⟩
      · obtain ⟨_, rfl, _⟩ := fails_plainLines.mp h
        exact ⟨[], ls, [], [], gs, n, by simp, .inl rfl, hp, hapart, by simp, h⟩
      · cases h
  | directive before l d rest hp hl ih =>
      have hapart := startsApart_directive hl rest
      rw [lines_append _ _ _ _ hp hapart, fails_bind] at h
      rcases h with h | ⟨front, t₁, hfront, h⟩
      · obtain ⟨_, rfl, _⟩ := fails_plainLines.mp h
        exact ⟨[], before, l :: rest, [], gs, n, rfl, .inl rfl, hp, hapart, by simp, h⟩
      · rw [fails_behind, lines_cons_directive _ _ _ _ hl, fails_bind] at h
        rcases h with h | ⟨⟨gs₁, here⟩, t₂, hdirective, h⟩
        · exact absurd rfl (failsOnly_directiveLine hi _ _ _ _ _ _ _ h e)
        · obtain ⟨before', chunk, after, out, gs', n', rfl, hended, hplain, hapart', hbefore,
            hfails⟩ := ih (fails_behind.mp h)
          refine ⟨before ++ l :: before', chunk, after, _, gs', n', by simp, .inr ?_, hplain,
            hapart', (gives_lines_append_directive hp hl).mpr
              ⟨front, t₁, gs₁, here, t₂, out, hfront, hdirective, hbefore, rfl⟩, hfails⟩
          rcases hended with rfl | ⟨k, hk, hkp⟩
          · exact ⟨l, by simp, fun hlp => by simp [LogicalLine.IsPlain, hl] at hlp⟩
          · exact ⟨k, by simp [List.getLast?_append, List.getLast?_cons, Option.mem_def.mp hk], hkp⟩

theorem fails_textWith {source : List Char} (hs : stripComments 0 source = .ok text) :
    Fails (textWith includeText source) macros (.expansion e, span) t ↔
      Fails (lines includeText text [] 1 (logicalLines text)) macros (.expansion e, span) t := by
  rw [textWith_eq, hs, fails_bind]
  constructor
  · rintro (h | ⟨⟨_, groups, _⟩, _, _, h⟩)
    · exact h
    · cases groups <;> cases h
  · exact .inl

/-- A text fails for an error of expansion exactly where it comes to a piece that nothing can stand
for. -/
theorem fails_textWith_iff {source : List Char} (hs : stripComments 0 source = .ok text)
    (hi : ∀ span target, FailsOnly NotOfExpansion (includeText span target)) :
    Fails (textWith includeText source) macros (.expansion e, span) t ↔
      ∃ place : TextPlace includeText text macros, span = lineSpan text place.number ∧
        t = place.table ∧
        (∃ front, expandLines place.table place.next 0 place.passed = .ok front) ∧
        place.piece.replaced place.table place.number place.rest = .error e := by
  rw [fails_textWith hs]
  constructor
  · intro h
    obtain ⟨before, chunk, after, out, gs, n, hlines, hended, hplain, hapart, hbefore, hchunk⟩ :=
      exists_of_fails_lines hi h
    obtain ⟨hactive, _, line, hexpand, rfl⟩ := fails_plainLines.mp hchunk
    rw [expandSource_eq, expandLines_eq_error_iff (Piece.feedsInSpace_pieces _)] at hexpand
    obtain ⟨passed, piece, rest, hover, hs, hpassed, rfl, hreplaced⟩ := hexpand
    exact ⟨⟨before, chunk, after, hlines, hended, hplain, hapart, out, gs, n, t, hbefore, hactive,
      passed, piece, rest, hover, hs⟩, rfl, rfl, hpassed, hreplaced⟩
  · rintro ⟨place, rfl, rfl, hpassed, hreplaced⟩
    rw [place.lines_eq]
    refine fails_lines_append place.before_ended place.chunk_plain place.after_apart
      place.gives_before (fails_plainLines.mpr ⟨place.active, rfl, place.number, ?_, rfl⟩)
    rw [expandSource_eq, expandLines_eq_error_iff (Piece.feedsInSpace_pieces _)]
    exact ⟨_, _, _, place.goesOver, place.visible, hpassed, rfl, hreplaced⟩

end Preprocess

open Preprocess

/-- In a source without continued lines, `__LINE__` and every use of a macro outside of the
arguments of uses stand for what they come to in the physical line that they stand in. Expansion of
such a source fails exactly where it comes to a piece that nothing can stand for, and the error is
that of its physical line. All of this holds at any depth of includes. -/
theorem text_expands_in_physical_lines {resolve : IncludeResolver} {depth : Nat}
    {macros : MacroTable} {source text : List Char} (hs : stripComments 0 source = .ok text)
    (hc : ContinuationFree source) :
    (∀ place : TextPlace (including resolve depth) text macros, ∃ line : PhysicalLine source,
      place.StandsIn line ∧ line.number = place.number ∧
      ∀ out t, Gives (Preprocess.text resolve depth source) macros out t →
        ∃ front owed value behind back, out = place.out ++ (front ++ (value ++ back)) ∧
          expandLines place.table place.next 0 place.passed =
            .ok (front ++ List.replicate owed '\n') ∧
          place.piece.replaced place.table line.number place.rest = .ok (value, behind) ∧
          (place.piece.isLineName = true → value = (decimal line.number).toList)) ∧
    ∀ e span t, Fails (Preprocess.text resolve depth source) macros (.expansion e, span) t ↔
      ∃ (place : TextPlace (including resolve depth) text macros) (line : PhysicalLine source),
        place.StandsIn line ∧ line.number = place.number ∧ span = line.span ∧ t = place.table ∧
        (∃ front, expandLines place.table place.next 0 place.passed = .ok front) ∧
        place.piece.replaced place.table line.number place.rest = .error e := by
  rw [text_eq]
  constructor
  · intro place
    obtain ⟨line, hstands, hnumber, _⟩ := place.exists_line hs hc
    refine ⟨line, hstands, hnumber, fun out t h => ?_⟩
    obtain ⟨front, owed, value, behind, back, hout, hpassed, hvalue⟩ := place.exists_of_gives hs h
    rw [← hnumber] at hvalue
    refine ⟨front, owed, value, behind, back, hout, hpassed, hvalue, fun hl => ?_⟩
    rw [Piece.replaced, if_pos hl] at hvalue
    cases hvalue
    rfl
  · intro e span t
    have hincluding :
        ∀ span target, FailsOnly NotOfExpansion (including resolve depth span target) :=
      failsOnly_including (fun _ _ => nofun) (fun _ _ => nofun) (fun _ _ _ _ => nofun) resolve depth
    rw [fails_textWith_iff hs hincluding]
    constructor
    · rintro ⟨place, rfl, rfl, hpassed, hreplaced⟩
      obtain ⟨line, hstands, hnumber, hspan⟩ := place.exists_line hs hc
      exact ⟨place, line, hstands, hnumber, hspan, rfl, hpassed, hnumber ▸ hreplaced⟩
    · rintro ⟨place, line, _, hnumber, rfl, rfl, hpassed, hreplaced⟩
      obtain ⟨line', _, hnumber', hspan⟩ := place.exists_line hs hc
      refine ⟨place, ?_, rfl, hpassed, hnumber ▸ hreplaced⟩
      rw [hspan, ← line.lineSpan_number, ← line'.lineSpan_number, hnumber, hnumber']

theorem Group.allActive_nil : Group.allActive [] = true := rfl

/-- The name of the line number behind a use over two lines. -/
def numberedSource : String := "#define F(x) x\nF(a\nb) __LINE__\n"

def numberedTable : MacroTable := ⟨[("F", ⟨some ["x"], ['x']⟩)]⟩

def numberedUse : MacroUse :=
  ⟨"F", ⟨some ["x"], ['x']⟩, ["a\nb".toList],
    [⟨.space, [' ']⟩, ⟨.word, "__LINE__".toList⟩, ⟨.space, ['\n']⟩]⟩

def numberedPlace :
    TextPlace (including .none maxIncludeDepth) numberedSource.toList {} where
  before := [⟨"#define F(x) x".toList, ⟨0, 14⟩, 1⟩]
  chunk := [⟨"F(a".toList, ⟨15, 18⟩, 1⟩, ⟨"b) __LINE__".toList, ⟨19, 30⟩, 1⟩]
  after := []
  lines_eq := by decide +kernel
  before_ended := .inr ⟨_, rfl, by decide⟩
  chunk_plain := by decide
  after_apart := by simp [StartsApart]
  out := ['\n']
  groups := []
  next := 2
  table := numberedTable
  gives_before := by
    have hdirective : Gives (directiveLine (including .none maxIncludeDepth) [] 1
        ⟨"#define F(x) x".toList, ⟨0, 14⟩, 1⟩ "define F(x) x".toList) {} ([], ['\n'])
        numberedTable := rfl
    rw [lines_cons_directive _ _ _ _ rfl, gives_bind]
    exact ⟨_, _, hdirective, gives_behind.mpr ⟨[], rfl, by simp⟩⟩
  active := Group.allActive_nil
  passed := [⟨.word, ['F']⟩, ⟨.mark, ['(']⟩, ⟨.word, ['a']⟩, ⟨.space, ['\n']⟩, ⟨.word, ['b']⟩,
    ⟨.mark, [')']⟩, ⟨.space, [' ']⟩]
  piece := ⟨.word, "__LINE__".toList⟩
  rest := [⟨.space, ['\n']⟩]
  goesOver := by
    have hpieces : pieces ("F(a\nb) __LINE__\n".toList) = ⟨.word, ['F']⟩ ::
        ([⟨.mark, ['(']⟩, ⟨.word, ['a']⟩, ⟨.space, ['\n']⟩, ⟨.word, ['b']⟩, ⟨.mark, [')']⟩] ++
          numberedUse.rest) := by
      decide +kernel
    show GoesOver numberedTable (pieces ("F(a\nb) __LINE__\n".toList)) _ _
    rw [hpieces]
    exact .use rfl rfl (.kept (.inr rfl) (.start _))
  visible := rfl

theorem text_expands_in_line_three :
    stripComments 0 numberedSource.toList = .ok numberedSource.toList ∧
      ContinuationFree numberedSource.toList ∧
      ∃ line : PhysicalLine numberedSource.toList,
        numberedPlace.StandsIn line ∧ line.number = 3 := by
  have hs : stripComments 0 numberedSource.toList = .ok numberedSource.toList := by
    decide +kernel
  have hc : ContinuationFree numberedSource.toList :=
    continuationFree_of_not_mem (by decide)
  obtain ⟨line, hstands, hnumber, _⟩ :=
    (text_expands_in_physical_lines hs hc).1 numberedPlace
  exact ⟨hs, hc, line, hstands, hnumber⟩

end ShaderBridge
