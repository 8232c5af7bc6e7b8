import ShaderBridge.Proofs.Preprocess.Comments
import ShaderBridge.Proofs.Preprocess.Elsewhere

namespace ShaderBridge

namespace Preprocess

variable (includeText : Span → IncludeTarget → PreprocessM (List Char))

/-- The line feeds that uses of macros add to plain lines. -/
def plainSurplus (groups : List Group) (line : Nat) (t : MacroTable) (ls : List LogicalLine) :
    Nat :=
  if Group.allActive groups then surplus t line (pieces (ls.flatMap LogicalLine.source)) else 0

/-- The line feeds that uses of macros add to sections and the plain lines behind them. -/
def sectionsSurplus (groups : List Group) (line : Nat) (t : MacroTable) (last : List LogicalLine) :
    List Section → Nat
  | [] => plainSurplus groups line t last
  | s :: rest =>
    let directive := line + newlinesOf s.plain
    plainSurplus groups line t s.plain +
      match (directiveLine includeText groups directive s.line s.directive).run.run t with
      | (.ok (groups, _), t) =>
        sectionsSurplus groups (directive + s.line.newlines) t last rest
      | (.error _, _) => 0

/-- The line feeds that uses of macros add to lines. -/
def linesSurplus (groups : List Group) (line : Nat) (t : MacroTable) (ls : List LogicalLine) :
    Nat :=
  sectionsSurplus includeText groups line t (sections ls).2 (sections ls).1

variable {includeText} {text : List Char} {groups groups' : List Group} {line line' : Nat}
  {t t' : MacroTable} {out : List Char}

theorem linesSurplus_of_isPlain {ls : List LogicalLine} (h : ∀ l ∈ ls, l.IsPlain) :
    linesSurplus includeText groups line t ls = plainSurplus groups line t ls := by
  simp [linesSurplus, sections_of_isPlain h, sectionsSurplus]

theorem linesSurplus_append_directive {before rest : List LogicalLine} {l : LogicalLine}
    {d : List Char} {here : List Char} (h : ∀ l ∈ before, l.IsPlain) (hl : l.directive? = some d)
    (hd : Gives (directiveLine includeText groups (line + newlinesOf before) l d) t (groups', here)
      t') :
    linesSurplus includeText groups line t (before ++ l :: rest) =
      plainSurplus groups line t before +
        linesSurplus includeText groups' (line + newlinesOf before + l.newlines) t' rest := by
  simp only [linesSurplus, sections_append_directive h hl, sectionsSurplus]
  rw [show (directiveLine includeText groups (line + newlinesOf before) l d).run.run t = _ from hd]

theorem lineFeeds_plainLines {ls : List LogicalLine} (h : CountsFeeds ls)
    (hg : Gives (plainLines text groups line ls) t out t') :
    lineFeeds out = newlinesOf ls + plainSurplus groups line t ls ∧ t' = t := by
  unfold plainSurplus
  cases ha : Group.allActive groups with
  | true =>
      obtain ⟨he, rfl⟩ := (gives_plainLines ha).mp hg
      exact ⟨by simp [lineFeeds_expandSource he, lineFeeds_sources h], rfl⟩
  | false =>
      obtain ⟨rfl, rfl⟩ := (gives_plainLines_skipped ha).mp hg
      simp

/-- Nothing can be included. -/
def IncludesNothing (includeText : Span → IncludeTarget → PreprocessM (List Char)) : Prop :=
  ∀ span target t a t', ¬ Gives (includeText span target) t a t'

theorem lineFeeds_carryOut (hi : IncludesNothing includeText) {l : LogicalLine}
    (hl : lineFeeds l.source = l.newlines) {d : Directed}
    (h : Gives (carryOut includeText l d) t out t') : lineFeeds out = l.newlines := by
  unfold carryOut at h
  split at h
  · split at h
    · exact absurd h not_gives_throw
    · simp only [gives_bind, gives_pure] at h
      obtain ⟨_, _, _, _, _, _, _, _, _, rfl, _⟩ := h
      exact lineFeeds_replicate _
  · split at h
    · simp at h
    · simp only [gives_bind, gives_pure] at h
      obtain ⟨_, _, _, rfl, _⟩ := h
      exact lineFeeds_replicate _
  · split at h
    · exact absurd h not_gives_throw
    · obtain ⟨_, _, h, _⟩ := gives_bind.mp h
      exact absurd h (hi _ _ _ _ _)
  · obtain ⟨rfl, _⟩ := gives_pure.mp h
    exact hl

theorem lineFeeds_directiveLine (hi : IncludesNothing includeText) {l : LogicalLine}
    (hl : lineFeeds l.source = l.newlines) {d : List Char}
    (h : Gives (directiveLine includeText groups line l d) t (groups', out) t') :
    lineFeeds out = l.newlines := by
  unfold directiveLine at h
  dsimp only at h
  split at h
  · simp only [gives_bind, gives_pure, Prod.mk.injEq] at h
    obtain ⟨_, _, _, ⟨_, rfl⟩, _⟩ := h
    exact lineFeeds_replicate _
  · split at h
    · simp only [gives_bind, gives_pure, Prod.mk.injEq] at h
      obtain ⟨_, _, h, ⟨_, rfl⟩, _⟩ := h
      exact lineFeeds_carryOut hi hl h
    · simp only [gives_pure, Prod.mk.injEq] at h
      rw [h.1.2, lineFeeds_replicate]

theorem lineFeeds_lines (hi : IncludesNothing includeText) (ls : List LogicalLine)
    (h : CountsFeeds ls)
    (hg : Gives (lines includeText text groups line ls) t (out, groups', line') t') :
    lineFeeds out = newlinesOf ls + linesSurplus includeText groups line t ls ∧
      line' = line + newlinesOf ls := by
  induction ls using logicalLines_induction generalizing groups line t out with
  | plain ls hp =>
      obtain ⟨hout, rfl, rfl⟩ := (gives_lines_of_isPlain hp).mp hg
      rw [linesSurplus_of_isPlain hp]
      exact ⟨(lineFeeds_plainLines h hout).1, rfl⟩
  | directive before l d rest hp hl ih =>
      obtain ⟨front, t₁, gs, here, t₂, after, hout, hd, hr, rfl⟩ :=
        (gives_lines_append_directive hp hl).mp hg
      obtain ⟨hbefore, rfl⟩ :=
        lineFeeds_plainLines (fun x hx => h x (List.mem_append_left _ hx)) hout
      have hhere := lineFeeds_directiveLine hi (h l (by simp)) hd
      have hafter := ih (fun x hx => h x (by simp [hx])) hr
      rw [linesSurplus_append_directive hp hl hd]
      simp only [lineFeeds_append, newlinesOf_append, newlinesOf_cons]
      omega

/-- The lines behind the given ones are not taken. -/
def SkipsBehind (includeText : Span → IncludeTarget → PreprocessM (List Char)) (text : List Char)
    (t : MacroTable) (ls : List LogicalLine) : Prop :=
  ∃ out gs n t', Gives (lines includeText text [] 1 ls) t (out, gs, n) t' ∧
    Group.allActive gs = false

theorem exists_of_lines_append {before after : List LogicalLine} {l : LogicalLine}
    (h : Gives (lines includeText text [] 1 (before ++ l :: after)) t (out, groups', line') t')
    (hl : ¬ l.IsPlain ∨ SkipsBehind includeText text t before) :
    ∃ out₁ gs n t₁ out₂, out = out₁ ++ out₂ ∧
      Gives (lines includeText text [] 1 (before ++ [l])) t (out₁, gs, n) t₁ ∧
      Gives (lines includeText text gs n after) t₁ (out₂, groups', line') t' := by
  by_cases hp : l.IsPlain
  · have hall : ∀ k ∈ [l], k.IsPlain := by simpa using hp
    obtain ⟨out₀, gs, n, t₀, hb, hs⟩ := hl.resolve_left (not_not_intro hp)
    obtain ⟨out', rfl, hrest⟩ := (gives_lines_append_skipped hb hs).mp h
    rw [← List.singleton_append, lines_append_skipped _ _ _ _ hs hall, gives_behind] at hrest
    obtain ⟨out₂, rfl, hrest⟩ := hrest
    have hone : Gives (lines includeText text [] 1 (before ++ [l])) t
        (out₀ ++ List.replicate (newlinesOf [l]) '\n', gs, n + newlinesOf [l]) t₀ := by
      rw [gives_lines_append_skipped hb hs]
      exact ⟨_, rfl, (gives_lines_of_isPlain hall).mpr
        ⟨(gives_plainLines_skipped hs).mpr ⟨rfl, rfl⟩, rfl, rfl⟩⟩
    exact ⟨_, gs, _, t₀, out₂, by simp, hone, hrest⟩
  · rw [← List.singleton_append, ← List.append_assoc,
      lines_append_lines _ _ _ _ _ _ (.inr (.inr ⟨l, by simp, hp⟩))] at h
    obtain ⟨⟨out₁, gs, n⟩, t₁, hone, hbehind⟩ := gives_bind.mp h
    obtain ⟨out₂, rfl, hrest⟩ := gives_behind.mp hbehind
    exact ⟨out₁, gs, n, t₁, out₂, rfl, hone, hrest⟩

/-- The line feeds up to such a place. -/
theorem exists_lineFeeds_upTo (hi : IncludesNothing includeText) {before after : List LogicalLine}
    {l : LogicalLine} (hc : CountsFeeds (before ++ l :: after))
    (h : Gives (lines includeText text [] 1 (before ++ l :: after)) t (out, groups', line') t')
    (hl : ¬ l.IsPlain ∨ SkipsBehind includeText text t before) :
    ∃ out₁ gs t₁ out₂, out = out₁ ++ out₂ ∧
      Gives (lines includeText text [] 1 (before ++ [l])) t
        (out₁, gs, 1 + newlinesOf (before ++ [l])) t₁ ∧
      lineFeeds out₁ =
        newlinesOf (before ++ [l]) + linesSurplus includeText [] 1 t (before ++ [l]) ∧
      linesSurplus includeText [] 1 t (before ++ [l]) ≤
        linesSurplus includeText [] 1 t (before ++ l :: after) := by
  obtain ⟨out₁, gs, n, t₁, out₂, rfl, hone, hrest⟩ := exists_of_lines_append h hl
  have hall := (lineFeeds_lines hi _ hc h).1
  have he : before ++ l :: after = (before ++ [l]) ++ after := by simp
  rw [he] at hc hall ⊢
  obtain ⟨hfirst, rfl⟩ := lineFeeds_lines hi _ (fun k hk => hc k (List.mem_append_left _ hk)) hone
  have hlast := (lineFeeds_lines hi _ (fun k hk => hc k (List.mem_append_right _ hk)) hrest).1
  refine ⟨out₁, gs, t₁, out₂, rfl, hone, hfirst, ?_⟩
  rw [newlinesOf_append, lineFeeds_append] at hall
  omega

theorem includesNothing_including_none : IncludesNothing (including .none maxIncludeDepth) := by
  intro span target t a t'
  exact not_gives_throw

theorem includes_of_includesNothing {f g : Span → IncludeTarget → PreprocessM (List Char)}
    (h : IncludesNothing f) : Includes f g :=
  fun span _ target t a t' hf => absurd hf (h span target t a t')

end Preprocess

open Preprocess

/-- The line feeds that uses of macros add to lines of a text in which nothing is included. -/
def MacroTable.surplus (macros : MacroTable) (ls : List LogicalLine) : Nat :=
  linesSurplus (including .none maxIncludeDepth) [] 1 macros ls

/-- A text that can be preprocessed with nothing to include comes out the same for any resolver. It
has as many line feeds as its source, and those that uses of macros add: as many as their
replacements have more than they have themselves. The same holds up to the end of every directive
and of every line that is not taken; so all line numbers are kept if and only if no use of a macro
adds any. -/
theorem lineFeeds_preprocess {macros t : MacroTable} {source out : String}
    (h : preprocess .none macros source = (.ok out, t)) :
    (∀ resolve, preprocess resolve macros source = (.ok out, t)) ∧
    ∃ text, stripComments 0 source.toList = .ok text ∧
      lineFeeds out.toList = lineFeeds source.toList + macros.surplus (logicalLines text) ∧
      ∀ before l after, logicalLines text = before ++ l :: after →
        ¬ l.IsPlain ∨ SkipsBehind (including .none maxIncludeDepth) text macros before →
        ∃ front back out₁ out₂ gs t₁, source.toList = front ++ back ∧
          (after = [] → back = []) ∧ (∀ next ∈ after.head?, next.span.start = byteLength front) ∧
          out.toList = out₁ ++ out₂ ∧
          Gives (lines (including .none maxIncludeDepth) text [] 1 (before ++ [l])) macros
            (out₁, gs, 1 + lineFeeds front) t₁ ∧
          lineFeeds out₁ = lineFeeds front + macros.surplus (before ++ [l]) ∧
          macros.surplus (before ++ [l]) ≤ macros.surplus (logicalLines text) := by
  rw [preprocess_eq] at h
  have hrun := gives_of_outcome h
  refine ⟨fun resolve => ?_, ?_⟩
  · rw [preprocess_eq, outcome_of_gives
      ((includes_of_includesNothing includesNothing_including_none).textWith hrun)]
    simp
  obtain ⟨text, n, hs, hlines⟩ := exists_lines_of_gives hrun
  have hblanks := blanks_of_stripComments hs
  have hcounts : CountsFeeds (logicalLines text) :=
    fun l hl => lineFeeds_source_of_mem_logicalLines hl
  refine ⟨text, hs, ?_, fun before l after he hl => ?_⟩
  · rw [← hblanks.lineFeeds_eq, ← newlinesOf_logicalLines text]
    exact (lineFeeds_lines includesNothing_including_none _ hcounts hlines).1
  · obtain ⟨front, back, rfl, hf, hcut, hend, hnext⟩ := exists_text_upTo he
    obtain ⟨front', back', hsource, hfront, hback⟩ := hblanks.exists_append rfl
      (hcut.elim (fun h => .inr (.inl h)) fun h => .inr (.inr h))
    rw [he] at hlines hcounts
    obtain ⟨out₁, gs, t₁, out₂, hout, hone, hfeeds, hle⟩ :=
      exists_lineFeeds_upTo includesNothing_including_none hcounts hlines hl
    have hn : newlinesOf (before ++ [l]) = lineFeeds front' := by
      rw [← hf, newlinesOf_logicalLines, hfront.lineFeeds_eq]
    rw [hn] at hone hfeeds
    refine ⟨front', back', out₁, out₂, gs, t₁, hsource, fun ha => ?_, fun next hm => ?_, hout,
      hone, hfeeds, he ▸ hle⟩
    · obtain rfl := hend ha
      exact hback.eq_nil
    · rw [hnext next hm, hfront.byteLength_eq]

/-- A macro that has its argument twice, used over two lines. -/
def repeatingSource : String := "#define F(x) x x\nF(a\nb)\n"

def repeatingTable : MacroTable := ⟨[("F", ⟨some ["x"], "x x".toList⟩)]⟩

def repeatingUse : MacroUse :=
  ⟨"F", ⟨some ["x"], "x x".toList⟩, ["a\nb".toList], [⟨.space, ['\n']⟩]⟩

theorem replacement_repeatingUse :
    repeatingUse.replacement repeatingTable 2 [] = .ok "a\nb a\nb".toList := by
  have hargument : expand repeatingTable 2 [] (pieces "a\nb".toList) = .ok "a\nb".toList := by
    rw [expand_of_find? _ _ _ (by decide +kernel), Piece.textOf_pieces]
  have hbody : repeatingUse.body [.ok "a\nb".toList] = .ok "a\nb a\nb".toList := by
    decide +kernel
  have hagain : expand repeatingTable 2 ["F"] (pieces "a\nb a\nb".toList) =
      .ok "a\nb a\nb".toList := by
    rw [expand_of_find? _ _ _ (by decide +kernel), Piece.textOf_pieces]
  calc
    _ = (repeatingUse.body [expand repeatingTable 2 [] (pieces "a\nb".toList)]) >>=
        fun body => expand repeatingTable 2 ["F"] (pieces body) := rfl
    _ = _ := by
      rw [hargument, hbody]
      exact hagain

theorem expandSource_repeating :
    expandSource repeatingTable 2 "F(a\nb)\n".toList = .ok "a\nb a\nb\n".toList := by
  have hempty : (repeatingTable.isEmpty && (cutAt? "__LINE__".toList "F(a\nb)\n".toList).isNone) =
      false := by decide +kernel
  have hpieces : pieces "F(a\nb)\n".toList = ⟨.word, ['F']⟩ :: ⟨.mark, ['(']⟩ :: ⟨.word, ['a']⟩ ::
      ⟨.space, ['\n']⟩ :: ⟨.word, ['b']⟩ :: ⟨.mark, [')']⟩ :: repeatingUse.rest := by
    decide +kernel
  have huse : macroUse? repeatingTable [] ⟨.word, ['F']⟩ (⟨.mark, ['(']⟩ :: ⟨.word, ['a']⟩ ::
      ⟨.space, ['\n']⟩ :: ⟨.word, ['b']⟩ :: ⟨.mark, [')']⟩ :: repeatingUse.rest) =
        .ok (some repeatingUse) := rfl
  rw [expandSource, hempty, if_neg (by simp), hpieces,
    expandLines_use _ _ _ rfl rfl huse replacement_repeatingUse, repeatingUse,
    expandLines_feeds _ _ _ rfl rfl, expandLines_nil]
  rfl

theorem preprocess_repeatingSource :
    preprocess .none {} repeatingSource = (.ok "\na\nb a\nb\n", repeatingTable) := by
  have hs : stripComments 0 repeatingSource.toList = .ok repeatingSource.toList := by
    decide +kernel
  have hl : logicalLines repeatingSource.toList = [] ++ ⟨"#define F(x) x x".toList, ⟨0, 16⟩, 1⟩ ::
      [⟨"F(a".toList, ⟨17, 20⟩, 1⟩, ⟨"b)".toList, ⟨21, 23⟩, 1⟩] := by
    decide +kernel
  have hdirective : Gives (directiveLine (including .none maxIncludeDepth) [] (1 + newlinesOf [])
      ⟨"#define F(x) x x".toList, ⟨0, 16⟩, 1⟩ "define F(x) x x".toList) {} ([], ['\n'])
      repeatingTable := rfl
  have hrun : Gives (lines (including .none maxIncludeDepth) repeatingSource.toList [] 1
      (logicalLines repeatingSource.toList)) {} ("\na\nb a\nb\n".toList, [], 4) repeatingTable := by
    rw [hl, gives_lines_append_directive (by simp) rfl]
    refine ⟨[], {}, [], ['\n'], repeatingTable, "a\nb a\nb\n".toList,
      (gives_plainLines rfl).mpr ⟨rfl, rfl⟩, hdirective, ?_, rfl⟩
    rw [gives_lines_of_isPlain (by decide), gives_plainLines rfl]
    exact ⟨⟨expandSource_repeating, rfl⟩, rfl, rfl⟩
  rw [preprocess_eq, outcome_of_gives (gives_textWith hs hrun)]
  simp

theorem lineFeeds_preprocess_repeating :
    ∃ out t, preprocess .none {} repeatingSource = (.ok out, t) ∧
      ∃ text, lineFeeds out.toList = lineFeeds repeatingSource.toList +
        ({} : MacroTable).surplus (logicalLines text) := by
  obtain ⟨_, text, _, h, _⟩ := lineFeeds_preprocess preprocess_repeatingSource
  exact ⟨_, _, preprocess_repeatingSource, text, h⟩

/-- A line feed in an argument that the macro repeats is there twice. -/
theorem exists_lineFeeds_added :
    ∃ source out t, preprocess .none {} source = (.ok out, t) ∧
      (∀ entry ∈ t.entries, '\n' ∉ entry.2.body) ∧
      lineFeeds out.toList ≠ lineFeeds source.toList :=
  ⟨_, _, _, preprocess_repeatingSource, by decide, by decide⟩

end ShaderBridge
