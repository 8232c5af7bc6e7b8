import ShaderBridge.Proofs.Preprocess.Comments
import ShaderBridge.Proofs.Preprocess.Splitting

namespace ShaderBridge

open scoped PlainNumbers

/-- A line of a text: the lines above it, the line without its line feed, and what is behind it. -/
structure PhysicalLine (cs : List Char) where
  above : List (List Char)
  raw : List Char
  back : List Char
  eq_append : cs = terminated above ++ (raw ++ back)
  above_free : ∀ r ∈ above, '\n' ∉ r
  raw_free : '\n' ∉ raw
  ended : back = [] ∨ ∃ rest, back = '\n' :: rest

namespace PhysicalLine

variable {cs : List Char}

/-- The number of the line, counted from one. -/
def number (l : PhysicalLine cs) : Nat :=
  l.above.length + 1

/-- The bytes of the line. -/
def span (l : PhysicalLine cs) : Span :=
  ⟨byteLength (terminated l.above), byteLength (terminated l.above) + byteLength l.raw⟩

theorem exists_splitAtChar_eq (l : PhysicalLine cs) :
    ∃ below, splitAtChar '\n' cs = l.above ++ l.raw :: below := by
  have hsplit := congrArg (splitAtChar '\n') l.eq_append
  rw [splitAtChar_terminated l.above_free] at hsplit
  rcases l.ended with h | ⟨rest, h⟩
  · rw [h, List.append_nil, splitAtChar_of_not_mem l.raw_free] at hsplit
    exact ⟨[], hsplit⟩
  · rw [h, splitAtChar_append_cons l.raw_free] at hsplit
    exact ⟨_, hsplit⟩

theorem byteLength_terminated (raws : List (List Char)) :
    byteLength (terminated raws) = (raws.map fun l => byteLength l + 1).sum := by
  induction raws with
  | nil => rfl
  | cons raw raws ih =>
      rw [byteLength_terminated_cons, ih, List.map_cons, List.sum_cons]

theorem lineSpan_number (l : PhysicalLine cs) : lineSpan cs l.number = l.span := by
  obtain ⟨below, hsplit⟩ := l.exists_splitAtChar_eq
  have hindex : min (l.number - 1) ((splitAtChar '\n' cs).length - 1) = l.above.length := by
    rw [hsplit, number, List.length_append, List.length_cons]
    omega
  unfold lineSpan
  dsimp only
  rw [hindex, hsplit, List.take_left, ← byteLength_terminated]
  simp [span]

end PhysicalLine

namespace Blanks

theorem exists_kept {c : Char} (hc : c ≠ ' ') {cs a b : List Char} (h : Blanks cs (a ++ c :: b)) :
    ∃ a' b', cs = a' ++ c :: b' ∧ Blanks a' a ∧ Blanks b' b := by
  generalize he : a ++ c :: b = ds at h
  induction h generalizing a with
  | nil => simp at he
  | @keep cs ds d h ih =>
      rcases a with _ | ⟨e, a⟩
      · cases he
        exact ⟨[], cs, rfl, .nil, h⟩
      · rw [List.cons_append, List.cons.injEq] at he
        obtain ⟨rfl, he⟩ := he
        obtain ⟨a', b', rfl, ha, hb⟩ := ih he
        exact ⟨e :: a', b', rfl, ha.keep e, hb⟩
  | @blank cs ds d hd h ih =>
      rcases List.append_eq_append_iff.mp he with ⟨rest, hr, hds⟩ | ⟨rest, rfl, hds⟩
      · rcases rest with _ | ⟨e, rest⟩
        · obtain ⟨a', b', rfl, ha, hb⟩ := ih (a := []) hds
          rw [List.append_nil] at hr
          exact ⟨d :: a', b', rfl, by simpa [hr] using ha.blank d hd, hb⟩
        · -- The blanks do not reach over the character.
          rw [List.cons_append, List.cons.injEq] at hds
          have hmem : c ∈ List.replicate d.utf8Size ' ' := by simp [hr, hds.1]
          exact absurd (List.eq_of_mem_replicate hmem) hc
      · obtain ⟨a', b', rfl, ha, hb⟩ := ih hds.symm
        exact ⟨d :: a', b', rfl, ha.blank d hd, hb⟩

theorem exists_kept_word {c : Char} {w : List Char} (hw : ' ' ∉ c :: w) {cs a b : List Char}
    (h : Blanks cs (a ++ (c :: w ++ b))) :
    ∃ a' b', cs = a' ++ (c :: w ++ b') ∧ Blanks a' a ∧ Blanks b' b := by
  induction w generalizing a c cs with
  | nil => exact h.exists_kept fun hc => hw (by simp [hc])
  | cons d w ih =>
      rw [List.mem_cons, not_or] at hw
      obtain ⟨a', rest, rfl, ha, hrest⟩ := h.exists_kept (Ne.symm hw.1)
      obtain ⟨a'', b', rfl, ha', hb⟩ := ih (a := []) hw.2 hrest
      obtain rfl := ha'.eq_nil
      exact ⟨a', b', rfl, ha, hb⟩

theorem not_mem {cs ds : List Char} (h : Blanks cs ds) (hd : '\n' ∉ ds) : '\n' ∉ cs := by
  rw [← lineFeeds_eq_zero, ← h.lineFeeds_eq]
  exact lineFeeds_eq_zero.mpr hd

theorem exists_terminated {cs ds : List Char} {raws : List (List Char)}
    (hr : ∀ raw ∈ raws, '\n' ∉ raw) (h : Blanks cs (terminated raws ++ ds)) :
    ∃ raws' back, cs = terminated raws' ++ back ∧ (∀ raw ∈ raws', '\n' ∉ raw) ∧
      raws'.length = raws.length ∧ Blanks (terminated raws') (terminated raws) ∧
        Blanks back ds := by
  induction raws generalizing cs with
  | nil => exact ⟨[], cs, rfl, by simp, rfl, .nil, h⟩
  | cons raw raws ih =>
      rw [terminated_cons, List.append_assoc, List.cons_append] at h
      obtain ⟨raw', rest, rfl, hraw, hrest⟩ := h.exists_kept (by decide)
      rw [List.forall_mem_cons] at hr
      obtain ⟨raws', back, rfl, hfree, hlength, habove, hback⟩ := ih hr.2 hrest
      refine ⟨raw' :: raws', back, by simp, ?_, by simp [hlength], ?_, hback⟩
      · exact List.forall_mem_cons.mpr ⟨hraw.not_mem hr.1, hfree⟩
      · rw [terminated_cons, terminated_cons]
        exact hraw.append (habove.keep '\n')

theorem exists_physicalLine {cs ds : List Char} (h : Blanks cs ds) (l : PhysicalLine ds) :
    ∃ l' : PhysicalLine cs, l'.number = l.number ∧
      Blanks (terminated l'.above) (terminated l.above) ∧ Blanks l'.raw l.raw ∧
        Blanks l'.back l.back := by
  obtain ⟨above, rest, rfl, hfree, hlength, habove, hrest⟩ :=
    exists_terminated l.above_free (l.eq_append ▸ h)
  rcases l.ended with he | ⟨below, he⟩
  · rw [he, List.append_nil] at hrest
    refine ⟨⟨above, rest, [], by simp, hfree, hrest.not_mem l.raw_free, .inl rfl⟩,
      congrArg (· + 1) hlength, habove, hrest, ?_⟩
    rw [he]
    exact .nil
  · rw [he] at hrest
    obtain ⟨raw, back, rfl, hraw, hback⟩ := hrest.exists_kept (by decide)
    refine ⟨⟨above, raw, '\n' :: back, rfl, hfree, hraw.not_mem l.raw_free, .inr ⟨_, rfl⟩⟩,
      congrArg (· + 1) hlength, habove, hraw, ?_⟩
    rw [he]
    exact hback.keep '\n'

end Blanks

/-- No line is continued by a backslash in front of its line feed. -/
def ContinuationFree (cs : List Char) : Prop :=
  ∀ a b, cs ≠ a ++ '\\' :: '\n' :: b ∧ cs ≠ a ++ '\\' :: '\r' :: '\n' :: b

theorem continuationFree_of_not_mem {cs : List Char} (h : '\\' ∉ cs) : ContinuationFree cs := by
  intro a b
  constructor <;> rintro rfl <;> simp at h

theorem LogicalLine.eq_bodyOf_or (raw : List Char) :
    raw = bodyOf raw ∨ raw = bodyOf raw ++ ['\r'] := by
  unfold bodyOf withoutFinal?
  split
  · next hlast =>
      obtain ⟨front, rfl⟩ := List.getLast?_eq_some_iff.mp hlast
      exact .inr (by simp)
  · exact .inl rfl

namespace ContinuationFree

theorem blanks {cs ds : List Char} (h : ContinuationFree cs) (hb : Blanks cs ds) :
    ContinuationFree ds := by
  intro a b
  constructor
  · rintro rfl
    obtain ⟨a', b', he, _, _⟩ := hb.exists_kept_word (c := '\\') (w := ['\n']) (by decide)
    exact (h a' b').1 he
  · rintro rfl
    obtain ⟨a', b', he, _, _⟩ := hb.exists_kept_word (c := '\\') (w := ['\r', '\n']) (by decide)
    exact (h a' b').2 he

theorem withoutFinal?_eq_none {raw rest : List Char} (h : ContinuationFree (raw ++ '\n' :: rest)) :
    withoutFinal? '\\' (LogicalLine.bodyOf raw) = none := by
  unfold withoutFinal?
  rw [if_neg]
  intro hlast
  obtain ⟨front, hbody⟩ := List.getLast?_eq_some_iff.mp hlast
  rcases LogicalLine.eq_bodyOf_or raw with hraw | hraw
  · exact (h front rest).1 (by rw [hraw, hbody]; simp)
  · exact (h front rest).2 (by rw [hraw, hbody]; simp)

theorem tail {raw rest : List Char} (h : ContinuationFree (raw ++ '\n' :: rest)) :
    ContinuationFree rest := by
  intro a b
  constructor
  · rintro rfl
    exact (h (raw ++ '\n' :: a) b).1 (by simp)
  · rintro rfl
    exact (h (raw ++ '\n' :: a) b).2 (by simp)

end ContinuationFree

theorem exists_physicalLine_of_join {text : List Char} (h : ContinuationFree text) {offset : Nat}
    {above below : List LogicalLine} {l : LogicalLine}
    (he : LogicalLine.join offset offset [] 0 (splitAtChar '\n' text) = above ++ l :: below) :
    ∃ line : PhysicalLine text, LogicalLine.bodyOf line.raw = l.text ∧
      LogicalLine.join offset offset [] 0 (splitAtChar '\n' (terminated line.above)) = above := by
  revert h he
  induction text using splitAtChar_induction generalizing offset above with
  | last raw hraw =>
      intro _ he
      rw [LogicalLine.join] at he
      split at he
      · simp at he
      · obtain ⟨rfl, hl⟩ | ⟨_, hl⟩ := List.append_eq_singleton_iff.mp he.symm
        · cases hl
          exact ⟨⟨[], raw, [], by simp, by simp, hraw, .inl rfl⟩, rfl, rfl⟩
        · simp at hl
  | cons raw rest hraw ih =>
      intro h he
      rw [LogicalLine.join_ended _ _ _ _ h.withoutFinal?_eq_none (splitAtChar_ne_nil _ _)] at he
      rcases above with _ | ⟨k, above⟩
      · rw [List.nil_append] at he
        cases he
        exact ⟨⟨[], raw, '\n' :: rest, rfl, by simp, hraw, .inr ⟨rest, rfl⟩⟩, rfl, rfl⟩
      · rw [List.cons_append, List.cons.injEq] at he
        obtain ⟨line, hbody, habove⟩ := ih h.tail he.2
        refine ⟨⟨raw :: line.above, line.raw, line.back, ?_, ?_, line.raw_free, line.ended⟩,
          hbody, ?_⟩
        · conv => lhs; rw [line.eq_append]
          simp
        · exact List.forall_mem_cons.mpr ⟨hraw, line.above_free⟩
        · rw [terminated_cons, splitAtChar_append_cons hraw, LogicalLine.join_ended _ _ _ _
            h.withoutFinal?_eq_none (splitAtChar_ne_nil _ _), habove, he.1]

/-- Every line that is followed by another takes a line feed. -/
def FeedsBetween (ls : List LogicalLine) : Prop :=
  ∀ front l next back, ls = front ++ l :: next :: back → 0 < l.newlines

theorem FeedsBetween.of_append {a ls b : List LogicalLine} (h : FeedsBetween (a ++ (ls ++ b))) :
    FeedsBetween ls := by
  rintro front l next back rfl
  exact h (a ++ front) l next (back ++ b) (by simp)

theorem FeedsBetween.tail {l : LogicalLine} {ls : List LogicalLine} (h : FeedsBetween (l :: ls)) :
    FeedsBetween ls := by
  rintro front k next back rfl
  exact h (l :: front) k next back rfl

theorem feedsBetween_join (start offset newlines : Nat) (joined : List Char)
    (raws : List (List Char)) :
    FeedsBetween (LogicalLine.join start offset joined newlines raws) := by
  fun_induction LogicalLine.join start offset joined newlines raws with
  | case1 => simp [FeedsBetween]
  | case2 => simp [FeedsBetween]
  | case3 =>
      intro front l next back h
      have := congrArg List.length h
      simp at this
      omega
  | case4 start offset joined newlines raw second rest body following continued hc ih => exact ih
  | case5 start offset joined newlines raw second rest body following hc ih =>
      intro front l next back h
      rcases front with _ | ⟨k, front⟩
      · rw [← (List.cons.inj h).1]
        exact Nat.succ_pos newlines
      · rw [List.cons_append, List.cons.injEq] at h
        exact ih front l next back h.2

theorem exists_line_of_word {ls : List LogicalLine} (hls : FeedsBetween ls) {x w y : List Char}
    (h : ls.flatMap LogicalLine.source = x ++ (w ++ y)) (hw : w ≠ []) (hfree : '\n' ∉ w) :
    ∃ above l below left right, ls = above ++ l :: below ∧
      x = above.flatMap LogicalLine.source ++ left ∧ l.text = left ++ (w ++ right) := by
  induction ls generalizing x with
  | nil =>
      have := List.append_eq_nil_iff.mp (List.append_eq_nil_iff.mp h.symm).2
      exact absurd this.1 hw
  | cons l ls ih =>
      obtain ⟨c, w, rfl⟩ := List.exists_cons_of_ne_nil hw
      rw [List.flatMap_cons, LogicalLine.source, List.append_assoc] at h
      rcases List.append_eq_append_iff.mp h with ⟨a, rfl, ha⟩ | ⟨b, hb, hwb⟩
      · -- The word is behind the text of the line, and so behind its line feeds.
        have hbehind : ∃ z, a = List.replicate l.newlines '\n' ++ z ∧
            ls.flatMap LogicalLine.source = z ++ (c :: w ++ y) := by
          rcases List.append_eq_append_iff.mp ha with ⟨z, rfl, hz⟩ | ⟨z, hz, hwz⟩
          · exact ⟨z, rfl, hz⟩
          · rcases z with _ | ⟨d, z⟩
            · exact ⟨[], by simpa using hz.symm, hwz.symm⟩
            · rw [List.cons_append, List.cons_append, List.cons.injEq] at hwz
              have hmem : d ∈ List.replicate l.newlines '\n' := by simp [hz]
              rw [hwz.1, List.eq_of_mem_replicate hmem] at hfree
              exact absurd List.mem_cons_self hfree
        obtain ⟨z, rfl, hz⟩ := hbehind
        obtain ⟨above, k, below, left, right, rfl, rfl, hk⟩ := ih hls.tail hz
        refine ⟨l :: above, k, below, left, right, rfl, ?_, hk⟩
        rw [List.flatMap_cons, LogicalLine.source]
        simp
      · -- The word opens in the text of the line, and so ends there.
        rcases List.append_eq_append_iff.mp hwb with ⟨z, rfl, hz⟩ | ⟨z, hz, hzy⟩
        · exact ⟨[], l, ls, x, z, rfl, rfl, hb⟩
        · rcases z with _ | ⟨d, z⟩
          · exact ⟨[], l, ls, x, [], rfl, rfl, by simpa [hz] using hb⟩
          · rcases hn : l.newlines with _ | n
            · rcases ls with _ | ⟨k, ls⟩
              · simp [hn] at hzy
              · exact absurd hn (Nat.ne_of_gt (hls [] l k ls rfl))
            · rw [hn, List.replicate_succ, List.cons_append, List.cons_append,
                List.cons.injEq] at hzy
              exact absurd (by simp [hz, ← hzy.1]) hfree

end ShaderBridge
