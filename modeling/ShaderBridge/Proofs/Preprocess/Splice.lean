import ShaderBridge.Proofs.Preprocess.Comments
import ShaderBridge.Proofs.Preprocess.Elsewhere
import ShaderBridge.Proofs.Preprocess.Splitting

namespace ShaderBridge

open Preprocess

/-- The text that the line asks for. -/
def LogicalLine.includeTarget? (l : LogicalLine) : Option IncludeTarget :=
  match l.directive?.map Directed.ofText with
  | some (.includeText path) => IncludeTarget.ofText? path
  | _ => none

theorem LogicalLine.exists_of_includeTarget? {l : LogicalLine} {target : IncludeTarget}
    (h : l.includeTarget? = some target) :
    ∃ d path, l.directive? = some d ∧ Directed.ofText d = .includeText path ∧
      IncludeTarget.ofText? path = some target := by
  unfold includeTarget? at h
  cases hd : l.directive? with
  | none => simp [hd] at h
  | some d =>
      rw [hd, Option.map_some] at h
      split at h
      · rename_i path hp
        exact ⟨d, path, rfl, Option.some.inj hp, h⟩
      · cases h

/-- A text whose comments are closed, with what is left of it without them. -/
structure ClosedText (source : String) where
  text : List Char
  strip : stripComments 0 source.toList = .ok text

/-- A text of whole lines: it does not end inside one, or inside a comment. -/
structure WholeLines (source : String) extends ClosedText source where
  complete : CompleteLines text

/-- A line that includes a text, between what is in front of it and what is behind. The line is
taken, and its text is one of whole lines. Neither the lines in front of it nor those of its text
end with the name of a macro that takes arguments, so no use of a macro goes on behind them. -/
structure IncludeSite (resolve : IncludeResolver) (macros : MacroTable)
    (front line found rest : String) where
  before : WholeLines front
  here : ClosedText line
  included : WholeLines found
  behind : ClosedText rest
  directive : LogicalLine
  logicalLines_here : logicalLines here.text = [directive]
  newlines_le : directive.newlines ≤ 1
  ends : CompleteLines here.text ∨ rest = ""
  target : IncludeTarget
  includes : directive.includeTarget? = some target
  resolves : resolve target = some found
  /-- What the lines in front come to, with the groups and macros at the line. -/
  beforeOut : List Char
  groups : List Group
  number : Nat
  atLine : MacroTable
  runs_before : Gives (lines (including resolve maxIncludeDepth) before.text [] 1
    (logicalLines before.text)) macros (beforeOut, groups, number) atLine
  active : Group.allActive groups = true
  settled_before : SettledLines atLine (logicalLines before.text)
  /-- What the text comes to, with the macros behind it. -/
  includedOut : List Char
  behindText : MacroTable
  runs_included : Gives (textWith (including resolve (maxIncludeDepth - 1)) found.toList) atLine
    includedOut behindText
  settled_included : SettledLines behindText (logicalLines included.text)

namespace WholeLines

variable {source : String}

theorem endsLine (w : WholeLines source) : EndsLine source.toList := by
  have hb := blanks_of_stripComments w.strip
  rcases w.complete.ended with h | h
  · rw [h] at hb
    exact .inl hb.eq_nil
  · exact .inr (hb.ended h)

theorem strip_append (w : WholeLines source) {behind text : List Char}
    (h : stripComments 0 behind = .ok text) :
    stripComments 0 (source.toList ++ behind) = .ok (w.text ++ text) := by
  rw [stripComments_append w.strip w.endsLine, stripComments_ok h]
  rfl

theorem countsFeeds (w : WholeLines source) : CountsFeeds (logicalLines w.text) :=
  fun _ hl => lineFeeds_source_of_mem_logicalLines hl

theorem takesFeeds (w : WholeLines source) : TakesFeeds (logicalLines w.text) :=
  w.complete.newlines_pos

end WholeLines

namespace IncludeSite

variable {resolve : IncludeResolver} {macros t : MacroTable} {front line found rest : String}

theorem strip_including (site : IncludeSite resolve macros front line found rest) :
    ∃ text, stripComments 0 (front ++ line ++ rest).toList = .ok text ∧
      SameLines (logicalLines text)
        (logicalLines site.before.text ++ site.directive :: logicalLines site.behind.text) := by
  rw [String.toList_append, String.toList_append, List.append_assoc]
  have hlines (tail : List LogicalLine) :
      site.directive :: tail = logicalLines site.here.text ++ tail := by
    rw [site.logicalLines_here, List.singleton_append]
  rw [hlines]
  rcases site.ends with hc | hr
  · refine ⟨_, site.before.strip_append
      (WholeLines.strip_append ⟨site.here, hc⟩ site.behind.strip), ?_⟩
    exact (sameLines_append site.before.complete _).trans
      ((sameLines_refl _).append (sameLines_append hc _))
  · subst hr
    have hempty : site.behind.text = [] := by
      have hs : (Except.ok [] : Except Span (List Char)) = .ok site.behind.text := by
        rw [← site.behind.strip]
        exact (stripComments.eq_1 0).symm
      exact (Except.ok.inj hs).symm
    have hnone : logicalLines [] = [] := rfl
    refine ⟨_, site.before.strip_append (by simpa using site.here.strip), ?_⟩
    rw [hempty, hnone, List.append_nil]
    exact sameLines_append site.before.complete site.here.text

theorem strip_spliced (site : IncludeSite resolve macros front line found rest) :
    ∃ text, stripComments 0 (front ++ found ++ rest).toList = .ok text ∧
      SameLines (logicalLines text) (logicalLines site.before.text ++
        (logicalLines site.included.text ++ logicalLines site.behind.text)) := by
  rw [String.toList_append, String.toList_append, List.append_assoc]
  exact ⟨_, site.before.strip_append (site.included.strip_append site.behind.strip),
    (sameLines_append site.before.complete _).trans
      ((sameLines_refl _).append (sameLines_append site.included.complete _))⟩

theorem gives_directive (site : IncludeSite resolve macros front line found rest) {d : List Char}
    (hd : site.directive.directive? = some d) :
    Gives (directiveLine (including resolve maxIncludeDepth) site.groups site.number
      site.directive d) site.atLine (site.groups, site.includedOut) site.behindText := by
  obtain ⟨d', path, hd', hp, htarget⟩ := LogicalLine.exists_of_includeTarget? site.includes
  cases hd.symm.trans hd'
  have hincluding : Gives (including resolve maxIncludeDepth site.directive.span site.target)
      site.atLine site.includedOut site.behindText :=
    gives_including.mpr ⟨found, site.resolves, site.runs_included⟩
  obtain ⟨text, n, hs, hl⟩ := exists_lines_of_gives site.runs_included
  cases hs.symm.trans site.included.strip
  have hspliced : spliced site.directive.newlines site.includedOut = site.includedOut :=
    spliced_of_endsLine (endsLine_lines site.included.takesFeeds hl) site.newlines_le
  refine gives_directiveLine.mpr (.inr ⟨by rw [hp]; rfl, rfl, ?_⟩)
  rw [if_pos site.active, hp]
  exact gives_carryOut_include.mpr ⟨site.target, _, htarget, hincluding, hspliced.symm⟩

theorem gives_including_iff (site : IncludeSite resolve macros front line found rest)
    {out : List Char} :
    Gives (textWith (including resolve maxIncludeDepth) (front ++ line ++ rest).toList) macros
      out t ↔
    ∃ behindOut n, out = site.beforeOut ++ (site.includedOut ++ behindOut) ∧
      Gives (lines (including resolve maxIncludeDepth) site.before.text site.groups
        (site.number + site.directive.newlines) (logicalLines site.behind.text)) site.behindText
        (behindOut, [], n) t := by
  have hself := includes_including_self resolve maxIncludeDepth
  obtain ⟨d, path, hd, -, -⟩ := LogicalLine.exists_of_includeTarget? site.includes
  obtain ⟨text, hs, hsame⟩ := site.strip_including
  have hsplit := lines_append_lines (including resolve maxIncludeDepth) site.before.text [] 1
    (logicalLines site.before.text) (site.directive :: logicalLines site.behind.text)
    (.inr (.inl (startsApart_directive hd _)))
  constructor
  · intro h
    obtain ⟨text', n, hs', hl⟩ := exists_lines_of_gives h
    cases hs.symm.trans hs'
    obtain ⟨gs, m, hl, hw, -⟩ := hself.lines site.before.text hsame.symm (within_self []) rfl
      (.inl rfl) hl
    obtain rfl := hw.eq_nil
    rw [hsplit, gives_bind] at hl
    obtain ⟨⟨out₁, gs₁, n₁⟩, t₁, hbefore, hrest⟩ := hl
    obtain ⟨he, rfl⟩ := hbefore.unique site.runs_before
    cases he
    obtain ⟨out₂, rfl, hline⟩ := gives_behind.mp hrest
    rw [lines_cons_directive _ _ _ _ hd, gives_bind] at hline
    obtain ⟨⟨gs₂, here⟩, t₂, hdirective, hrest⟩ := hline
    obtain ⟨he, rfl⟩ := hdirective.unique (site.gives_directive hd)
    cases he
    obtain ⟨behindOut, rfl, hbehind⟩ := gives_behind.mp hrest
    exact ⟨behindOut, m, rfl, hbehind⟩
  · rintro ⟨behindOut, n, rfl, hbehind⟩
    have hline : Gives (lines (including resolve maxIncludeDepth) site.before.text site.groups
        site.number (site.directive :: logicalLines site.behind.text)) site.atLine
        (site.includedOut ++ behindOut, [], n) t := by
      rw [lines_cons_directive _ _ _ _ hd, gives_bind]
      exact ⟨_, _, site.gives_directive hd, gives_behind.mpr ⟨_, rfl, hbehind⟩⟩
    have hrun : Gives (lines (including resolve maxIncludeDepth) site.before.text [] 1
        (logicalLines site.before.text ++ site.directive :: logicalLines site.behind.text)) macros
        (site.beforeOut ++ (site.includedOut ++ behindOut), [], n) t := by
      rw [hsplit, gives_bind]
      exact ⟨_, _, site.runs_before, gives_behind.mpr ⟨_, rfl, hline⟩⟩
    obtain ⟨gs, m, hl, hw, -⟩ := hself.lines text hsame (within_self []) rfl (.inl rfl) hrun
    obtain rfl := hw.eq_nil
    exact gives_textWith hs hl

theorem gives_spliced (site : IncludeSite resolve macros front line found rest)
    {out : List Char} {n : Nat}
    (h : Gives (lines (including resolve maxIncludeDepth) site.before.text site.groups site.number
      (logicalLines site.included.text ++ logicalLines site.behind.text)) site.atLine
      (out, [], n) t) :
    Gives (textWith (including resolve maxIncludeDepth) (front ++ found ++ rest).toList) macros
      (site.beforeOut ++ out) t := by
  have hrun := gives_lines_append site.before.countsFeeds site.before.takesFeeds site.settled_before
    site.runs_before h
  obtain ⟨text, hs, hsame⟩ := site.strip_spliced
  obtain ⟨gs, k, hrun, hgs, -⟩ := (includes_including_self resolve maxIncludeDepth).lines
    text hsame (within_self []) rfl (.inl rfl) hrun
  obtain rfl := hgs.eq_nil
  exact gives_textWith hs hrun

/-- The name `__LINE__` does not come up where the lines of the text and those behind it are
expanded, nor in their conditions. These lines have other numbers with the text in place. -/
structure LineFree (site : IncludeSite resolve macros front line found rest) : Prop where
  included : LinesLineFree (including resolve (maxIncludeDepth - 1)) [] 1 site.atLine
    (logicalLines site.included.text)
  behind : LinesLineFree (including resolve maxIncludeDepth) site.groups
    (site.number + site.directive.newlines) site.behindText (logicalLines site.behind.text)

theorem LineFree.gives_in_place {site : IncludeSite resolve macros front line found rest}
    (hsite : site.LineFree) {behindOut : List Char} {n : Nat}
    (h : Gives (lines (including resolve maxIncludeDepth) site.before.text site.groups
      (site.number + site.directive.newlines) (logicalLines site.behind.text)) site.behindText
      (behindOut, [], n) t) :
    ∃ m, Gives (lines (including resolve maxIncludeDepth) site.before.text site.groups site.number
      (logicalLines site.included.text ++ logicalLines site.behind.text)) site.atLine
      (site.includedOut ++ behindOut, [], m) t := by
  obtain ⟨text, _, hs, hincluded⟩ := exists_lines_of_gives site.runs_included
  cases hs.symm.trans site.included.strip
  obtain ⟨gs, n₁, hincluded, hgs, -⟩ := (includes_including resolve (maxIncludeDepth - 1)).lines
    site.before.text (sameLines_refl _) (within_outer site.groups) site.active
    (.inr hsite.included) hincluded
  obtain ⟨gs₂, n₂, hbehind, hgs₂, -⟩ := (includes_including_self resolve maxIncludeDepth).lines
    site.before.text (sameLines_refl _) hgs.self rfl (.inr hsite.behind) h
  obtain rfl := hgs₂.eq_nil
  exact ⟨n₂, gives_lines_append site.included.countsFeeds site.included.takesFeeds
    site.settled_included hincluded hbehind⟩

end IncludeSite

/-- Where a text that includes another can be preprocessed, it comes out as it does with the other
text in the place of the line, and leaves the same macros. -/
theorem preprocess_spliced {resolve : IncludeResolver} {macros t : MacroTable}
    {front line found rest out : String} (site : IncludeSite resolve macros front line found rest)
    (hsite : site.LineFree)
    (h : preprocess resolve macros (front ++ line ++ rest) = (.ok out, t)) :
    preprocess resolve macros (front ++ found ++ rest) = (.ok out, t) := by
  rw [preprocess_eq] at h ⊢
  obtain ⟨behindOut, n, hout, hbehind⟩ := site.gives_including_iff.mp (gives_of_outcome h)
  obtain ⟨m, hplace⟩ := hsite.gives_in_place hbehind
  rw [outcome_of_gives (site.gives_spliced hplace), ← hout, String.ofList_toList]

/-! ### A text with a definition, and one that tells a line -/

namespace Preprocess

variable {f : Span → IncludeTarget → PreprocessM (List Char)} {text : List Char} {gs : List Group}
  {line : Nat} {t : MacroTable} {ls : List LogicalLine}

theorem gives_plainLines_of_find? (ha : Group.allActive gs = true)
    (h : ∀ p ∈ pieces (ls.flatMap LogicalLine.source), p.isLineName = false ∧
      t.find? p.name = none) :
    Gives (plainLines text gs line ls) t (ls.flatMap LogicalLine.source) t := by
  refine (gives_plainLines ha).mpr ⟨?_, rfl⟩
  rw [expandSource_eq, expandLines_of_find? h, Piece.textOf_pieces]

theorem gives_lines_singleton {l : LogicalLine} {d out : List Char} {gs' : List Group}
    {t' : MacroTable} (hd : l.directive? = some d)
    (h : Gives (directiveLine f gs line l d) t (gs', out) t') :
    Gives (lines f text gs line [l]) t (out, gs', line + l.newlines) t' := by
  rw [lines_cons_directive _ _ _ _ hd, gives_bind]
  exact ⟨_, _, h, gives_behind.mpr ⟨[], by simp, by simp⟩⟩

end Preprocess

def includeLine : LogicalLine :=
  ⟨"#include \"t\"".toList, ⟨0, 12⟩, 1⟩

def definitionLine : LogicalLine :=
  ⟨"#define N 2".toList, ⟨0, 11⟩, 1⟩

def definitionTable : MacroTable :=
  ⟨[("N", ⟨none, ['2']⟩)]⟩

theorem gives_definition : Gives (textWith (including (fun _ => some "#define N 2\n")
    (maxIncludeDepth - 1)) "#define N 2\n".toList) {} ['\n'] definitionTable := by
  have hline : Gives (directiveLine (including (fun _ => some "#define N 2\n")
      (maxIncludeDepth - 1)) [] 1 definitionLine "define N 2".toList) {} ([], ['\n'])
      definitionTable := rfl
  have hs : stripComments 0 "#define N 2\n".toList = .ok "#define N 2\n".toList := by
    decide +kernel
  refine gives_textWith (n := 2) hs ?_
  rw [show logicalLines "#define N 2\n".toList = [definitionLine] by decide]
  exact gives_lines_singleton rfl hline

/-- A text of two lines includes a definition between them. -/
def definitionSite : IncludeSite (fun _ => some "#define N 2\n") {} "a\n" "#include \"t\"\n"
    "#define N 2\n" "b\n" where
  before := ⟨⟨"a\n".toList, by decide +kernel⟩, .inr ⟨[], ['a'], by decide, by decide⟩⟩
  here := ⟨"#include \"t\"\n".toList, by decide +kernel⟩
  included := ⟨⟨"#define N 2\n".toList, by decide +kernel⟩,
    .inr ⟨[], "#define N 2".toList, by decide, by decide⟩⟩
  behind := ⟨"b\n".toList, by decide +kernel⟩
  directive := includeLine
  logicalLines_here := by decide
  newlines_le := by decide
  ends := .inl (.inr ⟨[], "#include \"t\"".toList, by decide, by decide⟩)
  target := ⟨"t", false⟩
  includes := by decide
  resolves := rfl
  beforeOut := "a\n".toList
  groups := []
  number := 2
  atLine := {}
  runs_before := (gives_lines_of_isPlain (by decide)).mpr
    ⟨gives_plainLines_of_find? rfl (by decide +kernel), rfl, rfl⟩
  active := rfl
  settled_before := by unfold SettledLines Settled; decide +kernel
  includedOut := ['\n']
  behindText := definitionTable
  runs_included := gives_definition
  settled_included := by unfold SettledLines Settled; decide +kernel

theorem lineFree_definitionSite : definitionSite.LineFree where
  included := by
    have hnone (gs : List Group) (t : MacroTable) : PlainLineFree t gs [] := by
      intro _
      rw [List.flatMap_nil, pieces_nil]
      exact .nil
    have hcondition : evaluated? [] (Directed.ofText "define N 2".toList) = none := by decide
    rw [show logicalLines definitionSite.included.text = [] ++ definitionLine :: [] by decide,
      linesLineFree_append_directive (by simp) (show _ = some "define N 2".toList by decide)]
    refine ⟨hnone _ _, fun c hc => ?_,
      fun _ _ _ _ => (linesLineFree_of_isPlain (by simp)).mpr (hnone _ _)⟩
    rw [hcondition] at hc
    cases hc
  behind := (linesLineFree_of_isPlain (by decide)).mpr
    fun _ => lineFree_of_find? (by decide +kernel)

theorem preprocess_definitionSite :
    preprocess (fun _ => some "#define N 2\n") {} ("a\n" ++ "#include \"t\"\n" ++ "b\n") =
      (.ok "a\n\nb\n", definitionTable) := by
  rw [preprocess_eq, outcome_of_gives (definitionSite.gives_including_iff.mpr
    ⟨"b\n".toList, 4, rfl, (gives_lines_of_isPlain (by decide)).mpr
      ⟨gives_plainLines_of_find? rfl (by decide +kernel), rfl, rfl⟩⟩)]
  rfl

theorem preprocess_spliced_definition :
    preprocess (fun _ => some "#define N 2\n") {} ("a\n" ++ "#define N 2\n" ++ "b\n") =
      (.ok "a\n\nb\n", definitionTable) :=
  preprocess_spliced definitionSite lineFree_definitionSite preprocess_definitionSite

/-- A macro that puts the name `__LINE__` together. -/
def hereTable : MacroTable :=
  ⟨[("HERE", ⟨none, "__LI##NE__".toList⟩)]⟩

def hereLine : LogicalLine :=
  ⟨"#define HERE __LI##NE__".toList, ⟨0, 23⟩, 1⟩

def hereUse : MacroUse :=
  ⟨"HERE", ⟨none, "__LI##NE__".toList⟩, [], [⟨.space, ['\n']⟩]⟩

theorem expandLines_here (line : Nat) :
    expandLines hereTable line 0 (pieces "HERE\n".toList) =
      .ok ((decimal line).toList ++ ['\n']) := by
  have hpieces : pieces "HERE\n".toList = ⟨.word, "HERE".toList⟩ :: hereUse.rest := by
    decide +kernel
  have hbody : hereUse.body [] = .ok "__LINE__".toList := by decide +kernel
  have hname : pieces "__LINE__".toList = [⟨.word, "__LINE__".toList⟩] := by decide +kernel
  have hreplacement : hereUse.replacement hereTable line [] = .ok (decimal line).toList := by
    calc
      _ = hereUse.body [] >>= fun body => expand hereTable line ["HERE"] (pieces body) := rfl
      _ = expand hereTable line ["HERE"] (pieces "__LINE__".toList) := by rw [hbody]; rfl
      _ = _ := by
        rw [hname, expand_lineName _ _ _ rfl, expand_nil]
        exact congrArg Except.ok (List.append_nil _)
  rw [hpieces, expandLines_use _ _ _ rfl (by decide) rfl hreplacement, Nat.sub_self, Nat.zero_sub,
    hereUse, expandLines_feeds _ _ _ rfl rfl, expandLines_nil]
  rfl

variable {f : Span → IncludeTarget → PreprocessM (List Char)} {text : List Char} {line : Nat}

theorem gives_here : Gives (lines f text [] line [⟨"HERE".toList, ⟨0, 4⟩, 1⟩]) hereTable
    ((decimal line).toList ++ ['\n'], [], line + 1) hereTable := by
  refine (gives_lines_of_isPlain (by decide)).mpr ⟨(gives_plainLines rfl).mpr ⟨?_, rfl⟩, rfl, rfl⟩
  rw [expandSource_eq]
  exact expandLines_here line

theorem gives_twoLines : Gives (lines f text [] line (logicalLines "x\ny\n".toList)) hereTable
    ("x\ny\n".toList, [], line + 2) hereTable :=
  (gives_lines_of_isPlain (by decide)).mpr
    ⟨gives_plainLines_of_find? rfl (by decide +kernel), rfl, rfl⟩

theorem gives_definition_here : Gives (lines f text [] 1 [hereLine]) {} (['\n'], [], 2)
    hereTable := by
  have hline : Gives (directiveLine f [] 1 hereLine "define HERE __LI##NE__".toList) {}
      ([], ['\n']) hereTable := rfl
  exact gives_lines_singleton rfl hline

/-- A text includes two lines, behind which it asks for the number of a line. -/
def hereSite : IncludeSite (fun _ => some "x\ny\n") {} "#define HERE __LI##NE__\n"
    "#include \"t\"\n" "x\ny\n" "HERE\n" where
  before := ⟨⟨"#define HERE __LI##NE__\n".toList, by decide +kernel⟩,
    .inr ⟨[], "#define HERE __LI##NE__".toList, by decide, by decide⟩⟩
  here := ⟨"#include \"t\"\n".toList, by decide +kernel⟩
  included := ⟨⟨"x\ny\n".toList, by decide +kernel⟩, .inr ⟨[['x']], ['y'], by decide, by decide⟩⟩
  behind := ⟨"HERE\n".toList, by decide +kernel⟩
  directive := includeLine
  logicalLines_here := by decide
  newlines_le := by decide
  ends := .inl (.inr ⟨[], "#include \"t\"".toList, by decide, by decide⟩)
  target := ⟨"t", false⟩
  includes := by decide
  resolves := rfl
  beforeOut := ['\n']
  groups := []
  number := 2
  atLine := hereTable
  runs_before := gives_definition_here
  active := rfl
  settled_before := by unfold SettledLines Settled; decide +kernel
  includedOut := "x\ny\n".toList
  behindText := hereTable
  runs_included := gives_textWith (by decide +kernel) gives_twoLines
  settled_included := by unfold SettledLines Settled; decide +kernel

/-- It is not enough that no text mentions the name `__LINE__`. -/
theorem exists_spliced_differs :
    ∃ (resolve : IncludeResolver) (front line found rest : String)
      (site : IncludeSite resolve {} front line found rest) (out out' : String) (t : MacroTable),
      (∀ text ∈ [front, line, found, rest], cutAt? "__LINE__".toList text.toList = none) ∧
      (∀ table ∈ [site.atLine, site.behindText, t], ∀ entry ∈ table.entries,
        cutAt? "__LINE__".toList entry.2.body = none) ∧
      preprocess resolve {} (front ++ line ++ rest) = (.ok out, t) ∧
      preprocess resolve {} (front ++ found ++ rest) = (.ok out', t) ∧ out ≠ out' := by
  refine ⟨_, _, _, _, _, hereSite, "\nx\ny\n3\n", "\nx\ny\n4\n", hereTable, by decide, by decide,
    ?_, ?_, by decide⟩
  · rw [preprocess_eq, outcome_of_gives (hereSite.gives_including_iff.mpr
      ⟨"3\n".toList, 4, rfl, gives_here⟩)]
    rfl
  · rw [preprocess_eq, outcome_of_gives (hereSite.gives_spliced
      (gives_lines_append hereSite.included.countsFeeds hereSite.included.takesFeeds
        hereSite.settled_included gives_twoLines gives_here))]
    rfl

end ShaderBridge
