import ShaderBridge.Proofs.Macro.Seams
import ShaderBridge.Proofs.Preprocess.Lines
import ShaderBridge.Proofs.Preprocess.Regrouping

/-!
How a text comes apart into logical lines. No line feed gets lost, and the text can be cut in two
behind every line whose line feed is not joined over. Lines put together that end their last line
come to a text that ends one too, and the lines behind them come out as if they stood alone, unless
a use of a macro goes on there.
-/

/-! ## Lines of a text -/

namespace ShaderBridge

/-! ### Physical lines -/

/-- The text of physical lines, each with its line feed. -/
def terminated (raws : List (List Char)) : List Char :=
  raws.flatMap (· ++ ['\n'])

@[simp]
theorem terminated_nil : terminated [] = [] := rfl

@[simp]
theorem terminated_cons (raw : List Char) (raws : List (List Char)) :
    terminated (raw :: raws) = raw ++ '\n' :: terminated raws := by
  simp [terminated]

theorem splitAtChar_ne_nil (c : Char) (cs : List Char) : splitAtChar c cs ≠ [] := by
  cases cs with
  | nil => simp [splitAtChar]
  | cons d ds =>
      simp only [splitAtChar]
      split
      · simp
      · split <;> simp

theorem splitAtChar_cons_self (c : Char) (cs : List Char) :
    splitAtChar c (c :: cs) = [] :: splitAtChar c cs := by
  cases h : splitAtChar c cs with
  | nil => exact absurd h (splitAtChar_ne_nil c cs)
  | cons raw raws => simp [splitAtChar, h]

theorem splitAtChar_of_not_mem {c : Char} {cs : List Char} (h : c ∉ cs) :
    splitAtChar c cs = [cs] := by
  induction cs with
  | nil => rfl
  | cons d ds ih =>
      simp only [List.mem_cons, not_or] at h
      simp [splitAtChar, ih h.2, Ne.symm h.1]

theorem splitAtChar_append_cons {c : Char} {cs : List Char} (h : c ∉ cs) (rest : List Char) :
    splitAtChar c (cs ++ c :: rest) = cs :: splitAtChar c rest := by
  induction cs with
  | nil => exact splitAtChar_cons_self c rest
  | cons d ds ih =>
      simp only [List.mem_cons, not_or] at h
      simp [splitAtChar, ih h.2, Ne.symm h.1]

theorem exists_first_line (cs : List Char) :
    '\n' ∉ cs ∨ ∃ raw rest, '\n' ∉ raw ∧ cs = raw ++ '\n' :: rest := by
  induction cs with
  | nil => exact .inl (by simp)
  | cons c cs ih =>
      by_cases hc : c = '\n'
      · exact .inr ⟨[], cs, by simp, by simp [hc]⟩
      · rcases ih with ih | ⟨raw, rest, hr, rfl⟩
        · exact .inl (by simp [Ne.symm hc, ih])
        · exact .inr ⟨c :: raw, rest, by simp [Ne.symm hc, hr], rfl⟩

theorem splitAtChar_induction {motive : List Char → List (List Char) → Prop}
    (last : ∀ raw : List Char, '\n' ∉ raw → motive raw [raw])
    (cons : ∀ raw rest : List Char, '\n' ∉ raw → motive rest (splitAtChar '\n' rest) →
      motive (raw ++ '\n' :: rest) (raw :: splitAtChar '\n' rest))
    (cs : List Char) : motive cs (splitAtChar '\n' cs) := by
  induction hn : cs.length using Nat.strongRecOn generalizing cs with
  | ind n ih =>
      rcases exists_first_line cs with h | ⟨raw, rest, hr, rfl⟩
      · rw [splitAtChar_of_not_mem h]
        exact last cs h
      · rw [splitAtChar_append_cons hr]
        exact cons raw rest hr (ih rest.length (by simp at hn; omega) rest rfl)

theorem not_mem_of_mem_splitAtChar (cs : List Char) : ∀ raw ∈ splitAtChar '\n' cs, '\n' ∉ raw := by
  induction cs using splitAtChar_induction with
  | last raw h => simpa using h
  | cons raw rest h ih => simpa [h] using ih

theorem lineFeeds_eq_length_splitAtChar (cs : List Char) :
    lineFeeds cs + 1 = (splitAtChar '\n' cs).length := by
  induction cs using splitAtChar_induction with
  | last raw h => simp [lineFeeds_eq_zero.mpr h]
  | cons raw rest h ih =>
      have : lineFeeds ('\n' :: rest) = lineFeeds rest + 1 := by simp [lineFeeds]
      simp [lineFeeds_eq_zero.mpr h, this, ih]

theorem exists_of_splitAtChar_eq_append {cs : List Char} {raws rest : List (List Char)}
    (h : splitAtChar '\n' cs = raws ++ rest) (hr : rest ≠ []) :
    ∃ back, cs = terminated raws ++ back ∧ splitAtChar '\n' back = rest := by
  induction raws generalizing cs with
  | nil => exact ⟨cs, rfl, h⟩
  | cons raw raws ih =>
      rcases exists_first_line cs with hc | ⟨raw', cs, hc, rfl⟩
      · rw [splitAtChar_of_not_mem hc] at h
        simp only [List.cons_append, List.cons.injEq, List.nil_eq, List.append_eq_nil_iff] at h
        exact absurd h.2.2 hr
      · rw [splitAtChar_append_cons hc, List.cons_append, List.cons.injEq] at h
        obtain ⟨rfl, h⟩ := h
        obtain ⟨back, rfl, hb⟩ := ih h
        exact ⟨back, by simp, hb⟩

theorem splitAtChar_terminated {raws : List (List Char)} (h : ∀ raw ∈ raws, '\n' ∉ raw)
    (back : List Char) :
    splitAtChar '\n' (terminated raws ++ back) = raws ++ splitAtChar '\n' back := by
  induction raws with
  | nil => rfl
  | cons raw raws ih =>
      simp only [List.forall_mem_cons] at h
      simp only [terminated_cons, List.append_assoc, List.cons_append]
      rw [splitAtChar_append_cons h.1, ih h.2]

/-! ### Logical lines -/

namespace LogicalLine

theorem mem_of_mem_bodyOf {raw : List Char} {c : Char} (h : c ∈ bodyOf raw) : c ∈ raw := by
  unfold bodyOf withoutFinal? at h
  split at h
  · exact List.dropLast_subset _ h
  · exact h

theorem mem_of_withoutFinal? {c d : Char} {cs rest : List Char} (h : withoutFinal? c cs = some rest)
    (hd : d ∈ rest) : d ∈ cs := by
  unfold withoutFinal? at h
  split at h
  · cases h
    exact List.dropLast_subset _ hd
  · cases h

theorem not_mem_text_of_mem_join (start offset newlines : Nat) {joined : List Char}
    {raws : List (List Char)} (hj : '\n' ∉ joined) (hr : ∀ raw ∈ raws, '\n' ∉ raw) :
    ∀ l ∈ join start offset joined newlines raws, '\n' ∉ l.text := by
  have hbody {joined raw : List Char} (hj : '\n' ∉ joined) (h : '\n' ∉ raw) :
      '\n' ∉ joined ++ bodyOf raw := by
    rw [List.mem_append, not_or]
    exact ⟨hj, fun hb => h (mem_of_mem_bodyOf hb)⟩
  fun_induction join start offset joined newlines raws with
  | case1 => simp
  | case2 => simp
  | case3 => simpa using hbody hj (hr _ List.mem_cons_self)
  | case4 start offset joined newlines raw next rest body following continued hc ih =>
      refine ih ?_ (fun x hx => hr x (List.mem_cons_of_mem _ hx))
      rw [List.mem_append, not_or]
      exact ⟨hj, fun hm =>
        hr raw List.mem_cons_self (mem_of_mem_bodyOf (mem_of_withoutFinal? hc hm))⟩
  | case5 start offset joined newlines raw next rest body following hc ih =>
      intro l hl
      rcases List.mem_cons.mp hl with rfl | hl
      · exact hbody hj (hr raw List.mem_cons_self)
      · exact ih (by simp) (fun x hx => hr x (List.mem_cons_of_mem _ hx)) l hl

theorem newlinesOf_join (start offset newlines : Nat) (joined : List Char)
    {raws : List (List Char)} (hr : raws ≠ []) :
    newlinesOf (join start offset joined newlines raws) + 1 = newlines + raws.length := by
  fun_induction join start offset joined newlines raws with
  | case1 => exact absurd rfl hr
  | case2 start offset joined newlines last h => simp [h.2.1]
  | case3 => simp
  | case4 start offset joined newlines raw next rest body following continued hc ih =>
      have := ih (by simp)
      simp only [List.length_cons] at this ⊢
      omega
  | case5 start offset joined newlines raw next rest body following hc ih =>
      have := ih (by simp)
      simp only [newlinesOf_cons, List.length_cons] at this ⊢
      omega

end LogicalLine

theorem newlinesOf_logicalLines (cs : List Char) : newlinesOf (logicalLines cs) = lineFeeds cs := by
  have h := LogicalLine.newlinesOf_join 0 0 0 [] (splitAtChar_ne_nil '\n' cs)
  have := lineFeeds_eq_length_splitAtChar cs
  unfold logicalLines
  omega

theorem lineFeeds_source_of_mem_logicalLines {cs : List Char} {l : LogicalLine}
    (h : l ∈ logicalLines cs) : lineFeeds l.source = l.newlines := by
  have ht : '\n' ∉ l.text := LogicalLine.not_mem_text_of_mem_join 0 0 0 (by simp)
    (not_mem_of_mem_splitAtChar cs) l h
  simp [LogicalLine.source, lineFeeds_eq_zero.mpr ht]

/-! ### Cuts -/

theorem byteLength_terminated_cons (raw : List Char) (raws : List (List Char)) :
    byteLength (terminated (raw :: raws)) = byteLength raw + 1 + byteLength (terminated raws) := by
  have : ('\n').utf8Size = 1 := by decide
  simp [byteLength_append, this]
  omega

namespace LogicalLine

section

variable (start offset newlines : Nat) (joined : List Char) {raw : List Char}
  {rest : List (List Char)}

theorem join_continued {continued : List Char}
    (h : withoutFinal? '\\' (bodyOf raw) = some continued)
    (hr : rest ≠ []) :
    join start offset joined newlines (raw :: rest) =
      join start (offset + byteLength raw + 1) (joined ++ continued) (newlines + 1) rest := by
  obtain ⟨next, rest, rfl⟩ := List.exists_cons_of_ne_nil hr
  simp [join, h]

theorem join_ended (h : withoutFinal? '\\' (bodyOf raw) = none) (hr : rest ≠ []) :
    join start offset joined newlines (raw :: rest) =
      ⟨joined ++ bodyOf raw, ⟨start, offset + byteLength (bodyOf raw)⟩, newlines + 1⟩ ::
        join (offset + byteLength raw + 1) (offset + byteLength raw + 1) [] 0 rest := by
  obtain ⟨next, rest, rfl⟩ := List.exists_cons_of_ne_nil hr
  simp [join, h]

end

theorem join_append (start offset newlines : Nat) (joined : List Char)
    {raws rest : List (List Char)} {raw : List Char}
    (h : withoutFinal? '\\' (bodyOf raw) = none) (hr : rest ≠ []) :
    join start offset joined newlines (raws ++ raw :: rest) =
      join start offset joined newlines (raws ++ [raw, []]) ++
        join (offset + byteLength (terminated (raws ++ [raw])))
          (offset + byteLength (terminated (raws ++ [raw]))) [] 0 rest := by
  induction raws generalizing start offset newlines joined with
  | nil =>
      simp only [List.nil_append, byteLength_terminated_cons, terminated_nil, byteLength_nil,
        Nat.add_zero, ← Nat.add_assoc]
      rw [join_ended _ _ _ _ h hr, join_ended _ _ _ _ h (by simp)]
      simp [join]
  | cons r raws ih =>
      have hne (rest : List (List Char)) : raws ++ raw :: rest ≠ [] := by simp
      simp only [List.cons_append, byteLength_terminated_cons, ← Nat.add_assoc]
      cases hc : withoutFinal? '\\' (bodyOf r) with
      | some continued =>
          rw [join_continued _ _ _ _ hc (hne _), join_continued _ _ _ _ hc (hne _), ih]
      | none =>
          rw [join_ended _ _ _ _ hc (hne _), join_ended _ _ _ _ hc (hne _), ih]
          rfl

theorem span_start_of_join {start offset newlines : Nat} {joined : List Char}
    {raws : List (List Char)} {l : LogicalLine} {after : List LogicalLine}
    (h : join start offset joined newlines raws = l :: after) : l.span.start = start := by
  fun_induction join start offset joined newlines raws with
  | case1 => cases h
  | case2 => cases h
  | case3 =>
      cases h
      rfl
  | case4 start offset joined newlines raw second rest body following continued hc =>
      rename_i ih
      exact ih h
  | case5 =>
      cases h
      rfl

theorem exists_of_join_eq_append {start offset newlines : Nat} {joined : List Char}
    {raws : List (List Char)} {before after : List LogicalLine} {l next : LogicalLine}
    (h : join start offset joined newlines raws = before ++ l :: next :: after) :
    ∃ front raw rest, raws = front ++ raw :: rest ∧ rest ≠ [] ∧
      withoutFinal? '\\' (bodyOf raw) = none ∧
      join start offset joined newlines (front ++ [raw, []]) = before ++ [l] ∧
      next.span.start = offset + byteLength (terminated (front ++ [raw])) := by
  fun_induction join start offset joined newlines raws generalizing before with
  | case1 => simp at h
  | case2 => simp at h
  | case3 =>
      have := congrArg List.length h
      simp at this
      omega
  | case4 start offset joined newlines raw second rest body following continued hc =>
      rename_i ih
      obtain ⟨front, r, tail, he, ht, hn, hj, hs⟩ := ih h
      refine ⟨raw :: front, r, tail, by simp [he], ht, hn, ?_, ?_⟩
      · rw [List.cons_append, join_continued _ _ _ _ hc (by simp)]
        exact hj
      · rw [hs, List.cons_append, byteLength_terminated_cons]
        omega
  | case5 start offset joined newlines raw second rest body following hc =>
      rename_i ih
      rcases before with _ | ⟨b, before⟩
      · rw [List.nil_append, List.cons.injEq] at h
        exact ⟨[], raw, second :: rest, rfl, by simp, hc, by simp [join, hc, h.1, body],
          by rw [span_start_of_join h.2, List.nil_append, byteLength_terminated_cons]; rfl⟩
      · rw [List.cons_append, List.cons.injEq] at h
        obtain ⟨front, r, tail, he, ht, hn, hj, hs⟩ := ih h.2
        refine ⟨raw :: front, r, tail, by simp [he], ht, hn, ?_, ?_⟩
        · rw [List.cons_append, join_ended _ _ _ _ hc (by simp), hj, ← h.1]
          rfl
        · rw [hs, List.cons_append, byteLength_terminated_cons]
          omega

end LogicalLine

theorem terminated_concat (raws : List (List Char)) (raw : List Char) :
    terminated (raws ++ [raw]) = terminated raws ++ (raw ++ ['\n']) := by
  simp [terminated]

theorem exists_text_upTo {text : List Char} {before after : List LogicalLine} {l : LogicalLine}
    (h : logicalLines text = before ++ l :: after) :
    ∃ front back, text = front ++ back ∧ logicalLines front = before ++ [l] ∧
      (back = [] ∨ front.getLast? = some '\n') ∧ (after = [] → back = []) ∧
      ∀ next ∈ after.head?, next.span.start = byteLength front := by
  cases after with
  | nil => exact ⟨text, [], by simp, h, .inl rfl, fun _ => rfl, by simp⟩
  | cons next after =>
      obtain ⟨raws, raw, rest, he, hr, _, hj, hs⟩ := LogicalLine.exists_of_join_eq_append h
      have hnot := not_mem_of_mem_splitAtChar text
      rw [he, ← List.singleton_append, ← List.append_assoc] at hnot
      obtain ⟨back, ht, _⟩ :=
        @exists_of_splitAtChar_eq_append text (raws ++ [raw]) rest (by simpa using he) hr
      refine ⟨terminated (raws ++ [raw]), back, ht, ?_, .inr ?_, by simp, ?_⟩
      · have hsplit := splitAtChar_terminated
          (fun x hx => hnot x (List.mem_append_left _ hx)) []
        rw [List.append_nil] at hsplit
        simpa [logicalLines, hsplit, splitAtChar] using hj
      · rw [terminated_concat, ← List.append_assoc]
        simp
      · simpa using hs

/-- The lines say how many line feeds they take. -/
def Preprocess.CountsFeeds (ls : List LogicalLine) : Prop :=
  ∀ l ∈ ls, lineFeeds l.source = l.newlines

theorem Preprocess.lineFeeds_sources {ls : List LogicalLine} (h : CountsFeeds ls) :
    lineFeeds (ls.flatMap LogicalLine.source) = newlinesOf ls := by
  induction ls with
  | nil => rfl
  | cons l ls ih =>
      rw [List.flatMap_cons, lineFeeds_append, h l List.mem_cons_self,
        ih fun x hx => h x (List.mem_cons_of_mem _ hx), newlinesOf_cons]

/-! ### Two texts put together -/

/-- The line without its place in the text. -/
def LogicalLine.bare (l : LogicalLine) : LogicalLine :=
  { l with span := ⟨0, 0⟩ }

theorem LogicalLine.map_bare_join (start offset start' offset' newlines : Nat) (joined : List Char)
    (raws : List (List Char)) :
    (join start offset joined newlines raws).map bare =
      (join start' offset' joined newlines raws).map bare := by
  fun_induction join start offset joined newlines raws generalizing start' offset' with
  | case1 => rfl
  | case2 start offset joined newlines last h => simp [join, h]
  | case3 start offset joined newlines last body h => simp [join, h, bare, body]
  | case4 start offset joined newlines raw next rest body following continued hc ih =>
      rw [join_continued _ _ _ _ hc (by simp)]
      exact ih _ _
  | case5 start offset joined newlines raw next rest body following hc ih =>
      rw [join_ended _ _ _ _ hc (by simp), List.map_cons, List.map_cons, ih]
      rfl

/-- The text is empty, or it ends with a line feed to which its last line is not joined over. -/
def CompleteLines (cs : List Char) : Prop :=
  cs = [] ∨ ∃ front raw, splitAtChar '\n' cs = front ++ [raw, []] ∧
    withoutFinal? '\\' (LogicalLine.bodyOf raw) = none

theorem eq_terminated_of_splitAtChar {cs : List Char} {raws : List (List Char)}
    (h : splitAtChar '\n' cs = raws ++ [[]]) : cs = terminated raws := by
  obtain ⟨back, rfl, hb⟩ := exists_of_splitAtChar_eq_append h (by simp)
  rcases exists_first_line back with hn | ⟨raw, rest, hn, rfl⟩
  · rw [splitAtChar_of_not_mem hn] at hb
    cases hb
    simp
  · rw [splitAtChar_append_cons hn, List.cons.injEq] at hb
    exact absurd hb.2 (splitAtChar_ne_nil _ _)

theorem CompleteLines.ended {cs : List Char} (h : CompleteLines cs) : cs = [] ∨ Ended cs := by
  rcases h with rfl | ⟨front, raw, hs, _⟩
  · exact .inl rfl
  · right
    rw [@eq_terminated_of_splitAtChar cs (front ++ [raw]) (by simpa using hs), terminated_concat,
      ← List.append_assoc]
    have hfeed : Ended ['\n'] := rfl
    exact hfeed.prepend _

theorem map_bare_logicalLines_append {a : List Char} (h : CompleteLines a) (b : List Char) :
    (logicalLines (a ++ b)).map LogicalLine.bare =
      (logicalLines a).map LogicalLine.bare ++ (logicalLines b).map LogicalLine.bare := by
  rcases h with rfl | ⟨front, raw, hs, hraw⟩
  · rfl
  · have ha := @eq_terminated_of_splitAtChar a (front ++ [raw]) (by simpa using hs)
    have hnot : ∀ x ∈ front ++ [raw], '\n' ∉ x := by
      intro x hx
      refine not_mem_of_mem_splitAtChar a x ?_
      rw [hs, ← List.singleton_append, ← List.append_assoc]
      exact List.mem_append_left _ hx
    have hsplit : splitAtChar '\n' (a ++ b) = front ++ raw :: splitAtChar '\n' b := by
      rw [ha, splitAtChar_terminated hnot]
      simp
    unfold logicalLines
    rw [hsplit, hs, LogicalLine.join_append _ _ _ _ hraw (splitAtChar_ne_nil _ _), List.map_append,
      LogicalLine.map_bare_join (0 + byteLength _) _ 0 0]

theorem CompleteLines.newlines_pos {cs : List Char} (h : CompleteLines cs) :
    ∀ l ∈ logicalLines cs, 0 < l.newlines := by
  rcases h with rfl | ⟨front, raw, hs, hraw⟩
  · simp [logicalLines, splitAtChar, LogicalLine.join]
  · unfold logicalLines
    rw [hs]
    clear hs
    suffices hjoin : ∀ (start offset newlines : Nat) (joined : List Char),
        ∀ l ∈ LogicalLine.join start offset joined newlines (front ++ [raw, []]),
          0 < l.newlines from
      hjoin 0 0 0 []
    induction front with
    | nil =>
        intro start offset newlines joined l hl
        rw [List.nil_append, LogicalLine.join_ended _ _ _ _ hraw (by simp)] at hl
        simp only [LogicalLine.join, and_self, if_true, List.mem_singleton] at hl
        subst hl
        exact Nat.succ_pos _
    | cons r front ih =>
        intro start offset newlines joined l hl
        rw [List.cons_append] at hl
        cases hc : withoutFinal? '\\' (LogicalLine.bodyOf r) with
        | some continued =>
            rw [LogicalLine.join_continued _ _ _ _ hc (by simp)] at hl
            exact ih _ _ _ _ l hl
        | none =>
            rw [LogicalLine.join_ended _ _ _ _ hc (by simp)] at hl
            rcases List.mem_cons.mp hl with rfl | hl
            · exact Nat.succ_pos _
            · exact ih _ _ _ _ l hl

end ShaderBridge

/-! ## Lines put together -/

namespace ShaderBridge

namespace Preprocess

variable {f : Span → IncludeTarget → PreprocessM (List Char)} {text out out₁ out₂ : List Char}
  {gs gs₁ gs₂ : List Group} {line n n₁ n₂ : Nat} {t t₁ t₂ : MacroTable}
    {ls xs ys : List LogicalLine}

/-! ### Texts that end a line -/

/-- The text is empty, or it ends a line. -/
def EndsLine (cs : List Char) : Prop :=
  cs = [] ∨ Ended cs

theorem EndsLine.append {a b : List Char} (ha : EndsLine a) (hb : EndsLine b) :
    EndsLine (a ++ b) := by
  rcases hb with rfl | hb
  · rwa [List.append_nil]
  · exact .inr (hb.prepend a)

theorem endsLine_replicate (n : Nat) : EndsLine (List.replicate n '\n') := by
  cases n with
  | zero => exact .inl rfl
  | succ n => exact .inr (by simp [Ended, List.replicate_succ'])

theorem endsLine_spliced (hn : 0 < n) (included : List Char) : EndsLine (spliced n included) := by
  unfold spliced
  refine EndsLine.append ?_ (endsLine_replicate _)
  by_cases hi : included = []
  · exact .inl (by simp [hi])
  · refine .inr ?_
    by_cases hl : included.getLast? = some '\n' <;> simp [hn, hi, hl, Ended]

theorem spliced_of_endsLine {included : List Char} (h : EndsLine included) (hn : n ≤ 1) :
    spliced n included = included := by
  have hn : n - 1 = 0 := by omega
  rcases h with rfl | h
  · simp [spliced, hn]
  · simp [spliced, hn, show included.getLast? = some '\n' from h]

/-- Every line takes a line feed. -/
def TakesFeeds (ls : List LogicalLine) : Prop :=
  ∀ l ∈ ls, 0 < l.newlines

theorem ended_source {l : LogicalLine} (h : 0 < l.newlines) : Ended l.source := by
  obtain ⟨n, hn⟩ := Nat.exists_eq_succ_of_ne_zero (Nat.ne_of_gt h)
  simp [Ended, LogicalLine.source, hn, List.replicate_succ']

theorem TakesFeeds.endsLine_sources (h : TakesFeeds ls) :
    EndsLine (ls.flatMap LogicalLine.source) := by
  induction ls with
  | nil => exact .inl rfl
  | cons l ls ih =>
      rw [List.flatMap_cons]
      exact EndsLine.append (.inr (ended_source (h l List.mem_cons_self)))
        (ih fun x hx => h x (List.mem_cons_of_mem _ hx))

theorem endsLine_plainLines (h : TakesFeeds ls) (hg : Gives (plainLines text gs line ls) t out t₁) :
    EndsLine out := by
  cases ha : Group.allActive gs with
  | true =>
      obtain ⟨he, -⟩ := (gives_plainLines ha).mp hg
      rw [expandSource_eq] at he
      rcases h.endsLine_sources with hs | hs
      · rw [hs, pieces_nil, expandLines_nil] at he
        cases he
        exact .inl rfl
      · exact .inr (ended_of_expandLines hs he)
  | false =>
      obtain ⟨rfl, -⟩ := (gives_plainLines_skipped ha).mp hg
      exact endsLine_replicate _

theorem endsLine_carryOut {l : LogicalLine} (hn : 0 < l.newlines) {d : Directed}
    (h : Gives (carryOut f l d) t out t₁) : EndsLine out := by
  cases d with
  | define rest =>
      simp only [carryOut] at h
      split at h
      · exact absurd h not_gives_throw
      · simp only [gives_bind, gives_pure] at h
        obtain ⟨_, _, _, _, _, _, _, _, _, rfl, _⟩ := h
        exact endsLine_replicate _
  | undefine name =>
      simp only [carryOut] at h
      split at h
      · simp at h
      · simp only [gives_bind, gives_pure] at h
        obtain ⟨_, _, _, rfl, _⟩ := h
        exact endsLine_replicate _
  | includeText rest =>
      obtain ⟨_, included, _, _, rfl⟩ := gives_carryOut_include.mp h
      exact endsLine_spliced hn included
  | _ =>
      obtain ⟨rfl, -⟩ := gives_pure.mp h
      exact .inr (ended_source hn)

theorem endsLine_directiveLine {l : LogicalLine} (hn : 0 < l.newlines) {d : List Char}
    (h : Gives (directiveLine f gs line l d) t (gs₁, out) t₁) : EndsLine out := by
  rcases gives_directiveLine.mp h with ⟨-, rfl, -⟩ | ⟨-, -, h⟩
  · exact endsLine_replicate _
  · split at h
    · exact endsLine_carryOut hn h
    · obtain ⟨rfl, -⟩ := h
      exact endsLine_replicate _

theorem endsLine_lines (hn : TakesFeeds ls)
    (h : Gives (lines f text gs line ls) t (out, gs₁, n) t₁) : EndsLine out := by
  induction ls using logicalLines_induction generalizing gs line t out with
  | plain ls hp => exact endsLine_plainLines hn ((gives_lines_of_isPlain hp).mp h).1
  | directive before l d rest hp hd ih =>
      obtain ⟨front, _, _, here, _, after, hf, hl, hr, rfl⟩ :=
        (gives_lines_append_directive hp hd).mp h
      have hfront := endsLine_plainLines (fun x hx => hn x (List.mem_append_left _ hx)) hf
      have hhere := endsLine_directiveLine (hn l (by simp)) hl
      have hafter := ih (fun x hx => hn x (by simp [hx])) hr
      exact (hfront.append hhere).append hafter

/-! ### Lines put together -/

/-- Plain lines that come last do not end with the name of a macro with parameters. -/
def SettledLines (t : MacroTable) (ls : List LogicalLine) : Prop :=
  Settled t (pieces ((sections ls).2.flatMap LogicalLine.source))

theorem gives_plainLines_append (hc : CountsFeeds xs) (hn : TakesFeeds xs)
    (hs : Settled t (pieces (xs.flatMap LogicalLine.source)))
    (hx : Gives (plainLines text gs line xs) t out₁ t₁)
    (hy : Gives (plainLines text gs (line + newlinesOf xs) ys) t₁ out₂ t₂) :
    Gives (plainLines text gs line (xs ++ ys)) t (out₁ ++ out₂) t₂ := by
  cases ha : Group.allActive gs with
  | true =>
      obtain ⟨hx, rfl⟩ := (gives_plainLines ha).mp hx
      obtain ⟨hy, rfl⟩ := (gives_plainLines ha).mp hy
      refine (gives_plainLines ha).mpr ⟨?_, rfl⟩
      rw [expandSource_eq] at hx hy ⊢
      rw [List.flatMap_append]
      rcases hn.endsLine_sources with he | he
      · have hz : newlinesOf xs = 0 := by rw [← lineFeeds_sources hc, he]; rfl
        rw [he, pieces_nil, expandLines_nil] at hx
        cases hx
        rw [he]
        simpa [hz] using hy
      · rw [expandLines_append he hs hx, lineFeeds_sources hc, hy]
        rfl
  | false =>
      rw [gives_plainLines_skipped ha] at hx hy ⊢
      obtain ⟨rfl, rfl⟩ := hx
      obtain ⟨rfl, rfl⟩ := hy
      exact ⟨by rw [newlinesOf_append, List.replicate_append_replicate], rfl⟩

theorem gives_lines_append (hc : CountsFeeds xs) (hn : TakesFeeds xs) (hs : SettledLines t₁ xs)
    (hx : Gives (lines f text gs line xs) t (out₁, gs₁, n₁) t₁)
    (hy : Gives (lines f text gs₁ n₁ ys) t₁ (out₂, gs₂, n₂) t₂) :
    Gives (lines f text gs line (xs ++ ys)) t (out₁ ++ out₂, gs₂, n₂) t₂ := by
  induction xs using logicalLines_induction generalizing gs line t out₁ with
  | plain xs hp =>
      obtain ⟨hplain, rfl, rfl⟩ := (gives_lines_of_isPlain hp).mp hx
      obtain rfl := table_of_plainLines hplain
      rw [SettledLines, sections_of_isPlain hp] at hs
      rcases isPlain_or_append_directive ys with hq | ⟨before, l, d, rest, rfl, hq, hd⟩
      · obtain ⟨hbehind, rfl, rfl⟩ := (gives_lines_of_isPlain hq).mp hy
        have hall : ∀ l ∈ xs ++ ys, l.IsPlain := fun l hl =>
          (List.mem_append.mp hl).elim (hp l) (hq l)
        exact (gives_lines_of_isPlain hall).mpr ⟨gives_plainLines_append hc hn hs hplain hbehind,
          rfl, by rw [newlinesOf_append, Nat.add_assoc]⟩
      · obtain ⟨front, t₃, gs₃, here, t₄, after, hf, hl, hr, rfl⟩ :=
          (gives_lines_append_directive hq hd).mp hy
        have hall : ∀ l ∈ xs ++ before, l.IsPlain := fun l hl =>
          (List.mem_append.mp hl).elim (hp l) (hq l)
        rw [Nat.add_assoc line, ← newlinesOf_append] at hl hr
        rw [← List.append_assoc]
        exact (gives_lines_append_directive hall hd).mpr ⟨_, t₃, gs₃, here, t₄, after,
          gives_plainLines_append hc hn hs hplain hf, hl, hr, by simp⟩
  | directive before l d rest hp hd ih =>
      obtain ⟨front, t₃, gs₃, here, t₄, after, hf, hl, hr, rfl⟩ :=
        (gives_lines_append_directive hp hd).mp hx
      have hs' : SettledLines t₁ rest := by
        rwa [SettledLines, sections_append_directive hp hd] at hs
      have hrest := ih (fun x hx => hc x (by simp [hx])) (fun x hx => hn x (by simp [hx])) hs' hr
      rw [List.append_assoc, List.cons_append]
      exact (gives_lines_append_directive hp hd).mpr
        ⟨front, t₃, gs₃, here, t₄, after ++ out₂, hf, hl, hrest, by simp⟩

end Preprocess

end ShaderBridge
