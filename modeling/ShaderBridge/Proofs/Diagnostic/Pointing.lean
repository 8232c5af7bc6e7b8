import Mathlib.Data.List.TakeWhile
import ShaderBridge.Diagnostic
import ShaderBridge.Proofs.Preprocess.PhysicalLines
import ShaderBridge.Proofs.Token.Ending

namespace ShaderBridge

theorem splitAtByte_of_boundary {offset : Nat} {before after : List Char}
    (h : byteLength before = min offset (byteLength (before ++ after))) :
    splitAtByte offset (before ++ after) = (before, after) := by
  induction before generalizing offset with
  | nil =>
      cases after with
      | nil => rfl
      | cons c cs =>
          have := c.utf8Size_pos
          rw [byteLength_nil, List.nil_append, byteLength_cons] at h
          rw [List.nil_append, splitAtByte, if_pos (by omega)]
  | cons c before ih =>
      have := c.utf8Size_pos
      rw [List.cons_append, byteLength_cons, byteLength_cons] at h
      rw [List.cons_append, splitAtByte, if_neg (by omega), ih (by omega)]

theorem lastLine_of_not_mem {cs : List Char} (h : '\n' ∉ cs) : lastLine cs = cs := by
  have htake : cs.reverse.takeWhile (· != '\n') = cs.reverse := by
    refine List.takeWhile_eq_self_iff.2 fun c hc => ?_
    rw [bne_iff_ne]
    rintro rfl
    exact h (List.mem_reverse.1 hc)
  rw [lastLine, htake, List.reverse_reverse]

theorem lastLine_append_feed (raw rest : List Char) :
    lastLine (raw ++ '\n' :: rest) = lastLine rest := by
  rw [lastLine, List.reverse_append, List.reverse_cons, List.append_assoc, List.singleton_append,
    takeWhile_append_cons (by decide), lastLine]

theorem exists_above_lastLine (cs : List Char) :
    ∃ above, splitAtChar '\n' cs = above ++ [lastLine cs] ∧
      cs = terminated above ++ lastLine cs := by
  induction cs using splitAtChar_induction with
  | last raw h => exact ⟨[], by rw [lastLine_of_not_mem h]; exact ⟨rfl, rfl⟩⟩
  | cons raw rest h ih =>
      obtain ⟨above, hsplit, hrest⟩ := ih
      refine ⟨raw :: above, ?_, ?_⟩
      · rw [lastLine_append_feed, hsplit, List.cons_append]
      · rw [lastLine_append_feed, terminated_cons, List.append_assoc, List.cons_append, ← hrest]

theorem dropWhile_feed_ended (cs : List Char) :
    cs.dropWhile (· != '\n') = [] ∨ ∃ rest, cs.dropWhile (· != '\n') = '\n' :: rest := by
  cases h : cs.dropWhile (· != '\n') with
  | nil => exact .inl rfl
  | cons c rest =>
      have hc := List.head_dropWhile_not (· != '\n') (l := cs) (by simp [h])
      simp only [h, List.head_cons, bne_eq_false_iff_eq] at hc
      exact .inr ⟨rest, by rw [hc]⟩

theorem exists_line_at (before after : List Char) :
    ∃ l : PhysicalLine (before ++ after), l.number = lineFeeds before + 1 ∧
      l.raw = lastLine before ++ after.takeWhile (· != '\n') ∧
      l.span.start + byteLength (lastLine before) = byteLength before := by
  obtain ⟨above, hsplit, hbefore⟩ := exists_above_lastLine before
  have hfree := not_mem_of_mem_splitAtChar before
  rw [hsplit] at hfree
  let l : PhysicalLine (before ++ after) :=
    { above
      raw := lastLine before ++ after.takeWhile (· != '\n')
      back := after.dropWhile (· != '\n')
      eq_append := by
        conv_lhs => rw [hbefore]
        simp only [List.append_assoc, List.takeWhile_append_dropWhile]
      above_free := fun raw hraw => hfree raw (List.mem_append_left _ hraw)
      raw_free := by
        rw [List.mem_append, not_or]
        exact ⟨hfree _ (List.mem_append_right _ (List.mem_singleton_self _)),
          fun hmem => by simpa using List.mem_takeWhile_imp hmem⟩
      ended := dropWhile_feed_ended after }
  refine ⟨l, ?_, rfl, ?_⟩
  · have hlength := lineFeeds_eq_length_splitAtChar before
    rw [hsplit, List.length_append, List.length_singleton] at hlength
    exact hlength.symm
  · show byteLength (terminated above) + _ = _
    rw [← byteLength_append, ← hbefore]

theorem PhysicalLine.getElem?_splitAtChar {cs : List Char} (l : PhysicalLine cs) :
    (splitAtChar '\n' cs)[l.number - 1]? = some l.raw := by
  obtain ⟨below, hsplit⟩ := l.exists_splitAtChar_eq
  rw [hsplit, number, Nat.add_sub_cancel, List.getElem?_append_right (Nat.le_refl _), Nat.sub_self]
  rfl

namespace Diagnostic

theorem pushn_eq_ofList (c : Char) (n : Nat) :
    "".pushn c n = String.ofList (List.replicate n c) := by
  rw [String.pushn_eq_repeat_push]
  induction n with
  | zero => rfl
  | succ n ih =>
      rw [Nat.repeat, ih, ← String.toList_inj, String.toList_push, String.toList_ofList,
        String.toList_ofList, List.replicate_succ']

/-- What a terminal shows of a text. An escape sequence, which ends with the next `m`, sets a colour
and takes no room. -/
def shownFrom (escaped : Bool) : List Char → List Char
  | [] => []
  | c :: cs =>
    if escaped then shownFrom (c != 'm') cs
    else if c = '\x1b' then shownFrom true cs
    else c :: shownFrom false cs

def shown (text : String) : List Char :=
  shownFrom false text.toList

/-- What stands in front of a line that is quoted: its number, in three places at least. -/
def quotedMargin (line : Nat) : String :=
  blue (padded line ++ " |") ++ " "

def quotedRow (line : Nat) (content : List Char) : String :=
  quotedMargin line ++ String.ofList content

def caretMargin : String :=
  "   " ++ blue "|" ++ " "

/-- The row below it, in which carets stand behind blanks. -/
def caretRow (blanks carets : Nat) : String :=
  caretMargin ++ String.ofList (List.replicate blanks ' ') ++
    red (String.ofList (List.replicate carets '^'))

theorem shownFrom_append {text : List Char} (h : '\x1b' ∉ text) (rest : List Char) :
    shownFrom false (text ++ rest) = text ++ shownFrom false rest := by
  induction text with
  | nil => rfl
  | cons c text ih =>
      obtain ⟨hc, htext⟩ := not_or.1 (mt List.mem_cons.2 h)
      rw [List.cons_append, shownFrom, if_neg Bool.false_ne_true, if_neg (Ne.symm hc), ih htext,
        List.cons_append]

theorem shownFrom_blue {text : String} (h : '\x1b' ∉ text.toList) (rest : List Char) :
    shownFrom false ((blue text).toList ++ rest) = text.toList ++ shownFrom false rest := by
  have hstart (tail : List Char) : shownFrom false ("\x1b[1;34m".toList ++ tail) =
      shownFrom false tail := rfl
  have hend (tail : List Char) : shownFrom false ("\x1b[0m".toList ++ tail) =
      shownFrom false tail := rfl
  rw [blue, String.toList_append, String.toList_append, List.append_assoc, List.append_assoc,
    hstart, shownFrom_append h, hend]

theorem padded_toList (line : Nat) : (padded line).toList =
    List.replicate (3 - (decimal line).length) ' ' ++ (decimal line).toList := by
  unfold padded
  dsimp only
  rw [pushn_eq_ofList, String.toList_append, String.toList_ofList]

theorem not_mem_padded (line : Nat) : '\x1b' ∉ (padded line).toList := by
  rw [padded_toList, List.mem_append, not_or]
  refine ⟨fun h => absurd (List.eq_of_mem_replicate h) (by decide), fun h => ?_⟩
  have h : '\x1b' ∈ Nat.toDigits 10 line := by simpa [decimal] using h
  exact absurd (Nat.isDigit_of_mem_toDigits (by decide) (by decide) h) (by decide)

/-- The column of a terminal in which the carets start. -/
def caretColumn (blanks : Nat) : Nat :=
  (shown caretMargin).length + blanks

/-- The column of a terminal in which a byte of a quoted line stands. -/
def quotedColumn (line ahead : Nat) : Nat :=
  (shown (quotedMargin line)).length + ahead

theorem caretColumn_add (line ahead : Nat) :
    caretColumn ahead + (max 3 (decimal line).length - 2) = quotedColumn line ahead := by
  have hcaret : (shown caretMargin).length = 5 := by decide
  have hquoted : (shown (quotedMargin line)).length = max 3 (decimal line).length + 3 := by
    have hplain : '\x1b' ∉ (padded line ++ " |").toList := by
      rw [String.toList_append, List.mem_append, not_or]
      exact ⟨not_mem_padded line, by decide⟩
    have hblank : shownFrom false " ".toList = " ".toList := rfl
    rw [shown, quotedMargin, String.toList_append, shownFrom_blue hplain, hblank,
      String.toList_append, padded_toList]
    simp only [List.length_append, List.length_replicate, String.length_toList]
    change _ + 2 + 1 = _
    omega
  unfold caretColumn quotedColumn
  omega

/-- Behind the margins of the two rows, the carets start in the column of the location. -/
theorem exists_rows (file message : String) (source : List Char) (phase : Phase) (place : Span) :
    ∃ front back, context file source (.located phase message place) =
      front ++ quotedRow (Location.ofByte source place.start).line
          (Location.ofByte source place.start).content ++ "\n" ++
        caretRow ((Location.ofByte source place.start).column - 1)
          (markedBytes place (Location.ofByte source place.start)) ++ "\n" ++ back := by
  let loc := Location.ofByte source place.start
  let margin := "   " ++ blue "|"
  refine ⟨String.join (["", red ("error[" ++ phase.title ++ "]") ++ ": " ++ message,
    "  " ++ blue "-->" ++ " " ++ locationText file loc, margin].map (· ++ "\n")),
    margin ++ "\n", ?_⟩
  simp only [context, mark, pushn_eq_ofList, quotedRow, quotedMargin, caretRow, caretMargin,
    List.map, String.join, List.foldl, String.append_assoc, margin, loc]

/-- The place starts in a line of the source. That line is quoted and its number is reported, with
the column that is behind the bytes ahead of the place. There are as many carets as the place has
bytes as far as the line goes, one at least, and as many blanks in front of them as there are bytes
ahead; but they start left of that column, as the margin in front of them is narrower. -/
theorem points_at_line (file message : String) (phase : Phase) {source before after : List Char}
    {place : Span} (hsource : source = before ++ after)
    (hstart : byteLength before = min place.start (byteLength source)) :
    ∃ l : PhysicalLine source, ∃ ahead carets : Nat,
      l.number = lineFeeds before + 1 ∧ (splitAtChar '\n' source)[l.number - 1]? = some l.raw ∧
      l.span.start + ahead = byteLength before ∧ ahead ≤ byteLength l.raw ∧
      0 < carets ∧ (carets = 1 ∨ ahead + carets ≤ byteLength l.raw) ∧
      carets = max 1 (min place.length (byteLength l.raw - ahead)) ∧
      Location.ofByte source place.start = ⟨l.number, ahead + 1, l.raw⟩ ∧
      line file source (.located phase message place) =
        file ++ ":" ++ decimal l.number ++ ":" ++ decimal (ahead + 1 : Nat) ++ ": error: " ++
          message ∧
      (∃ front back, context file source (.located phase message place) =
        front ++ quotedRow l.number l.raw ++ "\n" ++ caretRow ahead carets ++ "\n" ++ back) ∧
      caretColumn ahead + (max 3 (decimal l.number).length - 2) = quotedColumn l.number ahead := by
  subst hsource
  obtain ⟨l, hnumber, hraw, hspan⟩ := exists_line_at before after
  have hahead : byteLength (lastLine before) ≤ byteLength l.raw := by
    rw [hraw, byteLength_append]
    omega
  have hloc : Location.ofByte (before ++ after) place.start =
      ⟨l.number, byteLength (lastLine before) + 1, l.raw⟩ := by
    unfold Location.ofByte
    rw [splitAtByte_of_boundary hstart, hnumber, hraw]
  have hrows := exists_rows file message (before ++ after) phase place
  rw [hloc] at hrows
  refine ⟨l, byteLength (lastLine before),
    max 1 (min place.length (byteLength l.raw - byteLength (lastLine before))), hnumber,
    l.getElem?_splitAtChar, hspan, hahead, by omega, by omega, rfl, hloc, ?_, hrows,
    caretColumn_add _ _⟩
  show locationText file (Location.ofByte (before ++ after) place.start) ++ _ ++ _ = _
  rw [hloc]
  rfl

/-- A place that starts in the second line and goes on behind it. -/
theorem points_at_line_second :
    byteLength "a;\né ".toList = min 6 (byteLength "a;\né + b;\nd".toList) ∧
      ∃ l : PhysicalLine "a;\né + b;\nd".toList,
        l.number = 2 ∧ l.raw = "é + b;".toList ∧ l.span.start = 3 ∧
        (∃ front back, context "t" "a;\né + b;\nd".toList (.located .lexical "m" ⟨6, 13⟩) =
          front ++ quotedRow 2 "é + b;".toList ++ "\n" ++ caretRow 3 4 ++ "\n" ++ back) ∧
        caretColumn 3 + 1 = quotedColumn 2 3 := by
  have hstart : byteLength "a;\né ".toList = min 6 (byteLength "a;\né + b;\nd".toList) := by decide
  have hloc : Location.ofByte "a;\né + b;\nd".toList 6 = ⟨2, 4, "é + b;".toList⟩ := by decide
  obtain ⟨l, ahead, carets, -, -, hspan, -, -, -, hcarets, hat, -, hrows, hcolumns⟩ :=
    @points_at_line "t" "m" .lexical "a;\né + b;\nd".toList "a;\né ".toList "+ b;\nd".toList ⟨6, 13⟩
      (by decide) hstart
  obtain ⟨hline, hahead, hcontent⟩ := Location.mk.inj (hloc.symm.trans hat)
  obtain rfl : ahead = 3 := by omega
  rw [← hcontent] at hcarets hrows
  rw [← hline] at hrows hcolumns
  obtain rfl : carets = 4 := hcarets.trans (by decide)
  have hbytes : byteLength "a;\né ".toList = 6 := by decide
  exact ⟨hstart, l, hline.symm, hcontent.symm, by omega, hrows, hcolumns⟩

/-- The caret that is meant for the name `c` stands below the blank in front of it. -/
theorem exists_caret_beside :
    (∃ front back, context "test.glsl" "float a;\nint b = c;\n".toList
        (.located .grammatical "'c' was not declared in this scope" ⟨17, 18⟩) =
      front ++ quotedRow 2 "int b = c;".toList ++ "\n" ++ caretRow 8 1 ++ "\n" ++ back) ∧
    shown (quotedRow 2 "int b = c;".toList) = "  2 | int b = c;".toList ∧
    shown (caretRow 8 1) = "   |         ^".toList := by
  refine ⟨?_, by decide, by decide⟩
  have hloc : Location.ofByte "float a;\nint b = c;\n".toList 17 = ⟨2, 9, "int b = c;".toList⟩ := by
    decide
  have hrows := exists_rows "test.glsl" "'c' was not declared in this scope"
    "float a;\nint b = c;\n".toList .grammatical ⟨17, 18⟩
  rwa [hloc] at hrows

end Diagnostic

end ShaderBridge
