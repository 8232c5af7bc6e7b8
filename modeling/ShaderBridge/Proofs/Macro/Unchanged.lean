import ShaderBridge.Proofs.Macro.Bytes
import ShaderBridge.Proofs.Token.Ending

namespace ShaderBridge

variable {c : Char} {cs text : List Char} {p : Piece} {ps before after : List Piece}
  {t : MacroTable} {hidden : List String}

namespace Piece

theorem first_of_isWordStart (hc : isWordStart c) (cs : List Char) :
    first c cs = (.word, cs.takeWhile isWordChar) := by
  unfold first
  rw [if_pos hc]

theorem isWordStart_of_first (h : (first c cs).1 = .word) : isWordStart c := by
  by_contra hc
  unfold first at h
  rw [if_neg hc] at h
  split_ifs at h

theorem isWordChar_of_isAsciiBlank (hc : isAsciiBlank c) : isWordChar c = false := by
  simp only [isAsciiBlank, Bool.or_eq_true, beq_iff_eq] at hc
  rcases hc with (((rfl | rfl) | rfl) | rfl) | rfl <;> decide

theorem isWordChar_behind_numberTail (hexadecimal : Bool) (last : Char) (cs : List Char) :
    ∀ b ∈ (cs.drop (numberTail hexadecimal last cs).length).head?, isWordChar b = false := by
  induction cs generalizing last with
  | nil => exact nofun
  | cons c cs ih =>
      rw [numberTail]
      split
      · exact ih c
      · next hc =>
          rintro _ ⟨⟩
          simp only [Bool.or_eq_true, not_or, Bool.not_eq_true] at hc
          exact hc.1.1

theorem head?_dropWhile_eq_false {α : Type} (q : α → Bool) (l : List α) :
    ∀ b ∈ (l.dropWhile q).head?, q b = false := by
  intro b hb
  have := List.head?_dropWhile_not q l
  rw [hb] at this
  simpa using this

theorem apart_of_first (c : Char) (cs : List Char) :
    (∀ a ∈ (c :: (first c cs).2).getLast?, isWordChar a = false) ∨
      ∀ b ∈ (cs.drop (first c cs).2.length).head?, isWordChar b = false := by
  by_cases hblank : isAsciiBlank c
  · left
    rw [first_of_isAsciiBlank hblank]
    intro a ha
    rcases List.mem_cons.mp (List.mem_of_getLast? ha) with rfl | hmem
    · exact isWordChar_of_isAsciiBlank hblank
    · exact isWordChar_of_isAsciiBlank (List.mem_takeWhile_imp hmem)
  unfold first
  rw [if_neg hblank]
  split_ifs with hword hnumber hpaste
  · right
    rw [drop_length_takeWhile]
    exact head?_dropWhile_eq_false isWordChar cs
  · exact .inr (isWordChar_behind_numberTail _ _ _)
  · left
    rintro _ ⟨⟩
    rfl
  · left
    rintro _ ⟨⟩
    rw [Bool.or_eq_true, not_or] at hnumber
    exact Bool.or_eq_false_iff.mpr ⟨Bool.eq_false_iff.mpr hword, Bool.eq_false_iff.mpr hnumber.1⟩

end Piece

theorem exists_first_of_pieces (h : pieces text = before ++ p :: after) :
    ∃ c cs, p = ⟨(Piece.first c cs).1, c :: (Piece.first c cs).2⟩ ∧
      after = pieces (cs.drop (Piece.first c cs).2.length) := by
  induction before generalizing text with
  | nil =>
      cases text with
      | nil => cases pieces_nil.symm.trans h
      | cons c cs =>
          cases (pieces_cons c cs).symm.trans h
          exact ⟨c, cs, rfl, rfl⟩
  | cons q before ih =>
      cases text with
      | nil => cases pieces_nil.symm.trans h
      | cons c cs => exact ih (List.cons.inj ((pieces_cons c cs).symm.trans h)).2

theorem textOf_ne_nil (h : pieces text = before ++ p :: after) : p.text ≠ [] := by
  obtain ⟨c, cs, rfl, -⟩ := exists_first_of_pieces h
  exact List.cons_ne_nil _ _

theorem apart_of_pieces (h : pieces text = before ++ after) :
    (∀ a ∈ (Piece.textOf before).getLast?, isWordChar a = false) ∨
      ∀ b ∈ (Piece.textOf after).head?, isWordChar b = false := by
  rcases List.eq_nil_or_concat' before with rfl | ⟨front, p, rfl⟩
  · exact .inl nofun
  · rw [List.append_assoc, List.singleton_append] at h
    obtain ⟨c, cs, rfl, rfl⟩ := exists_first_of_pieces h
    rw [Piece.textOf_append, Piece.textOf_cons, Piece.textOf_nil, List.append_nil,
      List.getLast?_append_cons, Piece.textOf_pieces]
    exact Piece.apart_of_first c cs

/-- A word of a text is a name, and its neighbours do not belong to it. -/
theorem word_of_pieces (h : pieces text = before ++ p :: after) (hp : p.kind = .word) :
    isWord p.text ∧ (∀ a ∈ (Piece.textOf before).getLast?, isWordChar a = false) ∧
      ∀ b ∈ (Piece.textOf after).head?, isWordChar b = false := by
  obtain ⟨c, cs, rfl, -⟩ := exists_first_of_pieces h
  have hc : isWordStart c := Piece.isWordStart_of_first hp
  rw [Piece.first_of_isWordStart hc] at h ⊢
  have hchars : ∀ a ∈ c :: cs.takeWhile isWordChar, isWordChar a :=
    List.forall_mem_cons.mpr ⟨by simp [isWordChar, hc], fun a => List.mem_takeWhile_imp⟩
  refine ⟨?_, ?_, ?_⟩
  · simp [isWord, leadingWord, hc, List.takeWhile_takeWhile]
  · refine (apart_of_pieces h).resolve_right fun hnext => ?_
    cases (hnext c rfl).symm.trans (hchars c List.mem_cons_self)
  · rw [← List.singleton_append, ← List.append_assoc] at h
    refine (apart_of_pieces h).resolve_left fun hlast => ?_
    rw [Piece.textOf_append, Piece.textOf_cons, Piece.textOf_nil, List.append_nil,
      List.getLast?_append_cons] at hlast
    have hmem := List.getLast_mem (List.cons_ne_nil c (cs.takeWhile isWordChar))
    cases (hlast _ (List.getLast?_eq_some_getLast _)).symm.trans (hchars _ hmem)

/-- The word is not `__LINE__`, and if it is the name of a macro then of one with parameters, and no
parenthesis opens behind it. -/
def MacroTable.Keeps (t : MacroTable) (p : Piece) (after : List Piece) : Prop :=
  p.isLineName = false ∧ ∀ d, t.find? p.name = some d → d.params ≠ none ∧
    ∀ q rest, Piece.next? after = some (q, rest) → q.isChar '(' = false

theorem kind_of_isLineName (h : pieces text = before ++ p :: after) (hl : p.isLineName) :
    p.kind = .word := by
  obtain ⟨c, cs, rfl, -⟩ := exists_first_of_pieces h
  have htext : c :: (Piece.first c cs).2 = "__LINE__".toList := by
    simpa [Piece.isLineName, Piece.name, ← String.toList_inj] using hl
  obtain rfl : c = '_' := (List.cons.inj htext).1
  rfl

theorem MacroTable.Keeps.no_use (h : t.Keeps p after) (hidden : List String) :
    macroUse? t hidden p after = .ok none := by
  obtain ⟨-, hdefined⟩ := h
  unfold macroUse?
  split
  · rfl
  next d hd =>
    split at hd
    · obtain ⟨hparams, hnext⟩ := hdefined d hd
      split
      · next hnone => exact absurd hnone hparams
      · split
        · rfl
        · next q rest hq => rw [if_neg (by simp [hnext q rest hq])]
    · cases hd

/-- The pieces of a text give the text back. None of them is empty, they are cut between characters,
also where the text is read byte by byte, and words are cut where they end. Where every word stands
for itself, expanding the text changes nothing, whatever is hidden, and it makes no difference that
a text without macros is not expanded. -/
theorem text_without_macros_unchanged (text : List Char) :
    (Piece.textOf (pieces text) = text ∧ (∀ p ∈ pieces text, p.text ≠ []) ∧
      byteCuts (utf8 text) = (pieces text).map (fun p => (p.kind, byteLength p.text)) ∧
      ∀ before p after, pieces text = before ++ p :: after → p.kind = .word →
        isWord p.text ∧ (∀ a ∈ (Piece.textOf before).getLast?, isWordChar a = false) ∧
          ∀ b ∈ (Piece.textOf after).head?, isWordChar b = false) ∧
    ∀ t : MacroTable,
      ((∀ before p after, pieces text = before ++ p :: after → p.kind = .word → t.Keeps p after) →
        ∀ line, (∀ hidden, expand t line hidden (pieces text) = .ok text) ∧
          expandLines t line 0 (pieces text) = .ok text) ∧
      ∀ line, expandSource t line text = expandLines t line 0 (pieces text) := by
  refine ⟨⟨Piece.textOf_pieces text, fun p hp => ?_, byteCuts_utf8 text,
    fun _ _ _ => word_of_pieces⟩,
    fun t => ⟨fun hkeeps line => ?_, fun line => expandSource_eq t line text⟩⟩
  · obtain ⟨before, after, hsplit⟩ := List.append_of_mem hp
    exact textOf_ne_nil hsplit
  · have hkept (hidden : List String) (before after : List Piece) (p : Piece)
        (h : pieces text = before ++ p :: after) :
        p.isLineName = false ∧ macroUse? t hidden p after = .ok none := by
      by_cases hp : p.kind = .word
      · exact ⟨(hkeeps before p after h hp).1, (hkeeps before p after h hp).no_use hidden⟩
      · exact ⟨Bool.eq_false_iff.mpr (mt (kind_of_isLineName h) hp), by simp [macroUse?, hp]⟩
    constructor
    · intro hidden
      rw [expand_of_kept t line hidden fun before p after => hkept hidden before after p,
        Piece.textOf_pieces]
    · rw [expandLines_of_kept fun before p after => hkept [] before after p,
        Piece.textOf_pieces]

/-- The name of a macro with a parameter, without an argument. -/
theorem text_without_macros_unchanged_uncalled :
    expandSource ⟨[("f", ⟨some ["x"], []⟩)]⟩ 3 "f é".toList = .ok "f é".toList := by
  have hpieces : pieces "f é".toList = [⟨.word, ['f']⟩, ⟨.space, [' ']⟩, ⟨.mark, ['é']⟩] := by
    decide +kernel
  obtain ⟨hkept, hshort⟩ := (text_without_macros_unchanged "f é".toList).2
    ⟨[("f", ⟨some ["x"], []⟩)]⟩
  rw [hshort]
  refine (hkept (fun before p after h hp => ?_) 3).2
  rw [hpieces] at h
  rcases before with _ | ⟨_, _ | ⟨_, _ | ⟨_, before⟩⟩⟩
  · cases h
    refine ⟨by decide, ?_⟩
    rintro d ⟨⟩
    refine ⟨nofun, ?_⟩
    rintro q rest ⟨⟩
    rfl
  · cases h
    cases hp
  · cases h
    cases hp
  · simp at h

end ShaderBridge
