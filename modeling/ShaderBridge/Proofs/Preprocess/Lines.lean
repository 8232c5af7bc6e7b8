import ShaderBridge.Preprocess.Source

namespace ShaderBridge

namespace LogicalLine

/-- A line that is no directive. -/
def IsPlain (l : LogicalLine) : Prop :=
  l.directive? = none

instance (l : LogicalLine) : Decidable l.IsPlain :=
  inferInstanceAs (Decidable (l.directive? = none))

end LogicalLine

theorem sections_of_isPlain {ls : List LogicalLine} (h : ∀ l ∈ ls, l.IsPlain) :
    sections ls = ([], ls) := by
  induction ls with
  | nil => rfl
  | cons l ls ih =>
      have hl : l.directive? = none := h l List.mem_cons_self
      simp [sections, hl, ih fun x hx => h x (List.mem_cons_of_mem _ hx)]

theorem sections_append_directive {before rest : List LogicalLine} {l : LogicalLine} {d : List Char}
    (h : ∀ l ∈ before, l.IsPlain) (hl : l.directive? = some d) :
    sections (before ++ l :: rest) = (⟨before, l, d⟩ :: (sections rest).1, (sections rest).2) := by
  induction before with
  | nil => simp [sections, hl]
  | cons b before ih =>
      have hb : b.directive? = none := h b List.mem_cons_self
      simp [sections, hb, ih fun x hx => h x (List.mem_cons_of_mem _ hx)]

@[simp]
theorem newlinesOf_nil : newlinesOf [] = 0 := rfl

@[simp]
theorem newlinesOf_cons (l : LogicalLine) (ls : List LogicalLine) :
    newlinesOf (l :: ls) = l.newlines + newlinesOf ls := by
  simp [newlinesOf]

@[simp]
theorem newlinesOf_append (a b : List LogicalLine) :
    newlinesOf (a ++ b) = newlinesOf a + newlinesOf b := by
  simp [newlinesOf]

theorem isPlain_or_append_directive (ls : List LogicalLine) :
    (∀ l ∈ ls, l.IsPlain) ∨ ∃ before l d rest, ls = before ++ l :: rest ∧
      (∀ l ∈ before, l.IsPlain) ∧ l.directive? = some d := by
  induction ls with
  | nil => exact .inl (by simp)
  | cons l ls ih =>
      cases hl : l.directive? with
      | some d => exact .inr ⟨[], l, d, ls, rfl, by simp, hl⟩
      | none =>
          rcases ih with ih | ⟨before, k, d, rest, rfl, hp, hk⟩
          · exact .inl (by simpa [LogicalLine.IsPlain, hl] using ih)
          · exact .inr ⟨l :: before, k, d, rest,
              rfl, by simpa [LogicalLine.IsPlain, hl] using hp, hk⟩

theorem logicalLines_induction {motive : List LogicalLine → Prop}
    (plain : ∀ ls : List LogicalLine, (∀ l ∈ ls, l.IsPlain) → motive ls)
    (directive : ∀ (before : List LogicalLine) (l : LogicalLine) (d : List Char)
      (rest : List LogicalLine), (∀ l ∈ before, l.IsPlain) → l.directive? = some d →
        motive rest → motive (before ++ l :: rest))
    (ls : List LogicalLine) : motive ls := by
  induction hn : ls.length using Nat.strongRecOn generalizing ls with
  | ind n ih =>
      rcases isPlain_or_append_directive ls with h | ⟨before, l, d, rest, rfl, hp, hl⟩
      · exact plain ls h
      · exact directive before l d rest hp hl (ih rest.length (by simp at hn; omega) rest rfl)

namespace Preprocess

variable (includeText : Span → IncludeTarget → PreprocessM (List Char)) (text : List Char)
  (groups : List Group) (line : Nat)

/-- The text that takes the place of lines, with the groups open behind them and the number of the
next line. -/
def lines (ls : List LogicalLine) : PreprocessM (List Char × List Group × Nat) := do
  let (out, groups, line) ← sectionLines includeText text groups line (sections ls).1
  let tail ← plainLines text groups line (sections ls).2
  return (out ++ tail, groups, line + newlinesOf (sections ls).2)

/-- The text that takes the place of a whole text, in which no group may be left open. -/
def closed : List Char × List Group × Nat → PreprocessM (List Char)
  | (out, [], _) => return out
  | (_, g :: _, _) => throw (.unterminatedGroup, g.span)

theorem textWith_eq (source : List Char) :
    textWith includeText source =
      match stripComments 0 source with
      | .error span => throw (.unterminatedComment, span)
      | .ok text => lines includeText text [] 1 (logicalLines text) >>= closed := by
  unfold textWith
  cases stripComments 0 source with
  | error span => rfl
  | ok text =>
      simp only [lines, bind_assoc, pure_bind]
      congr 1
      funext ⟨out, groups, line⟩
      cases groups <;> simp [closed]

/-- A run of lines behind a text that is there already. -/
def behind (out : List Char) (m : PreprocessM (List Char × List Group × Nat)) :
    PreprocessM (List Char × List Group × Nat) :=
  (fun r => (out ++ r.1, r.2)) <$> m

@[simp]
theorem behind_nil (m : PreprocessM (List Char × List Group × Nat)) : behind [] m = m := by
  simp [behind]

@[simp]
theorem behind_behind (a b : List Char) (m : PreprocessM (List Char × List Group × Nat)) :
    behind a (behind b m) = behind (a ++ b) m := by
  simp [behind, Functor.map_map]

theorem behind_bind {α : Type} (a : List Char) (m : PreprocessM α)
    (f : α → PreprocessM (List Char × List Group × Nat)) :
    behind a (m >>= f) = m >>= fun x => behind a (f x) := by
  simp [behind]

/-- Lines that do not go on with the plain lines in front of them. -/
def StartsApart (ls : List LogicalLine) : Prop :=
  ∀ l ∈ ls.head?, ¬ l.IsPlain

theorem startsApart_directive {l : LogicalLine} {d : List Char} (hl : l.directive? = some d)
    (rest : List LogicalLine) : StartsApart (l :: rest) := by
  intro k hk hp
  cases hk
  simp [LogicalLine.IsPlain, hl] at hp

theorem get_bind_const {α : Type} (m : PreprocessM α) : (get >>= fun _ => m) = m :=
  rfl

theorem plainLines_nil : plainLines text groups line [] = pure [] := by
  unfold plainLines
  split
  · have h (t : MacroTable) : expandSource t line [] = .ok [] := by
      unfold expandSource
      split
      · rfl
      · simp [pieces, expandLines]
    simp only [List.flatMap_nil, h]
    exact get_bind_const _
  · rfl

@[simp]
theorem lines_nil : lines includeText text groups line [] = pure ([], groups, line) := by
  simp [lines, sections, sectionLines, plainLines_nil]

theorem lines_cons_directive {l : LogicalLine} {d : List Char} (hl : l.directive? = some d)
    (rest : List LogicalLine) :
    lines includeText text groups line (l :: rest) =
      directiveLine includeText groups line l d >>= fun (groups, here) =>
        behind here (lines includeText text groups (line + l.newlines) rest) := by
  simp [lines, sections, hl, sectionLines, plainLines_nil, behind]

theorem lines_append {before rest : List LogicalLine} (h : ∀ l ∈ before, l.IsPlain)
    (hr : StartsApart rest) :
    lines includeText text groups line (before ++ rest) =
      plainLines text groups line before >>= fun out =>
        behind out (lines includeText text groups (line + newlinesOf before) rest) := by
  cases rest with
  | nil =>
      simp only [List.append_nil, lines_nil]
      simp [lines, sections_of_isPlain h, sectionLines, behind]
  | cons l rest =>
      obtain ⟨d, hd⟩ : ∃ d, l.directive? = some d :=
        Option.ne_none_iff_exists'.mp (hr l rfl)
      rw [lines_cons_directive _ _ _ _ hd]
      simp [lines, sections_append_directive h hd, sectionLines, behind, Nat.add_assoc]

theorem lines_append_skipped (hg : Group.allActive groups = false) {before : List LogicalLine}
    (h : ∀ l ∈ before, l.IsPlain) (rest : List LogicalLine) :
    lines includeText text groups line (before ++ rest) =
      behind (List.replicate (newlinesOf before) '\n')
        (lines includeText text groups (line + newlinesOf before) rest) := by
  have hplain (line : Nat) (ls : List LogicalLine) :
      plainLines text groups line ls = pure (List.replicate (newlinesOf ls) '\n') := by
    simp [plainLines, hg]
  rcases isPlain_or_append_directive rest with hr | ⟨front, l, d, rest, rfl, hr, hl⟩
  · have hall : ∀ l ∈ before ++ rest, l.IsPlain := fun l hm =>
      (List.mem_append.mp hm).elim (h l) (hr l)
    rw [← List.append_nil rest, ← List.append_assoc,
      lines_append _ _ _ _ hall (by simp [StartsApart]),
      lines_append _ _ _ _ hr (by simp [StartsApart]), hplain, hplain]
    simp [Nat.add_assoc, List.replicate_append_replicate]
  · have hall : ∀ l ∈ before ++ front, l.IsPlain := fun l hm =>
      (List.mem_append.mp hm).elim (h l) (hr l)
    have ha := startsApart_directive hl rest
    rw [← List.append_assoc, lines_append _ _ _ _ hall ha, lines_append _ _ _ _ hr ha, hplain,
      hplain]
    simp [Nat.add_assoc, List.replicate_append_replicate]

theorem lines_append_lines (ls rest : List LogicalLine)
    (h : ls = [] ∨ StartsApart rest ∨ ∃ l ∈ ls.getLast?, ¬ l.IsPlain) :
    lines includeText text groups line (ls ++ rest) =
      lines includeText text groups line ls >>= fun (out, groups, line) =>
        behind out (lines includeText text groups line rest) := by
  induction ls using logicalLines_induction generalizing groups line with
  | plain ls hp =>
      have hr : ls = [] ∨ StartsApart rest := by
        rcases h with h | h | ⟨l, hm, hl⟩
        · exact .inl h
        · exact .inr h
        · exact absurd (hp l (List.mem_of_getLast? hm)) hl
      rcases hr with rfl | hr
      · simp
      · rw [lines_append _ _ _ _ hp hr, ← List.append_nil ls,
          lines_append _ _ _ _ hp (by simp [StartsApart])]
        simp [behind]
  | directive before l d tail hp hl ih =>
      have ht : tail = [] ∨ StartsApart rest ∨ ∃ l ∈ tail.getLast?, ¬ l.IsPlain := by
        cases tail with
        | nil => exact .inl rfl
        | cons k tail => exact .inr (by simpa using h)
      rw [List.append_assoc, List.cons_append, lines_append _ _ _ _ hp (startsApart_directive hl _),
        lines_append _ _ _ _ hp (startsApart_directive hl _), lines_cons_directive _ _ _ _ hl,
        lines_cons_directive _ _ _ _ hl]
      simp only [behind_bind, behind_behind, bind_assoc]
      congr 1
      funext out
      congr 1
      funext ⟨gs, here⟩
      rw [ih _ _ ht]
      simp only [behind, map_eq_pure_bind, bind_assoc, pure_bind, List.append_assoc]

end Preprocess

end ShaderBridge
