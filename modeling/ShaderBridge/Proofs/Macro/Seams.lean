import ShaderBridge.Proofs.Macro.Feeds

namespace ShaderBridge

/-- The text ends a line. -/
def Ended (cs : List Char) : Prop :=
  cs.getLast? = some '\n'

theorem Ended.ne_nil {cs : List Char} (h : Ended cs) : cs ≠ [] := by
  rintro rfl
  cases h

theorem Ended.mem {cs : List Char} (h : Ended cs) : '\n' ∈ cs :=
  List.mem_of_getLast? h

theorem Ended.suffix {a b : List Char} (h : Ended (a ++ b)) (hb : b ≠ []) : Ended b := by
  obtain ⟨c, cs, rfl⟩ := List.exists_cons_of_ne_nil hb
  simpa [Ended] using h

theorem Ended.prepend {b : List Char} (h : Ended b) (a : List Char) : Ended (a ++ b) := by
  obtain ⟨c, cs, rfl⟩ := List.exists_cons_of_ne_nil h.ne_nil
  simpa [Ended] using h

/-! ### The first piece -/

namespace Piece

theorem takeWhile_append_of_ne {p : Char → Bool} {cs : List Char} (h : cs.takeWhile p ≠ cs)
    (b : List Char) : (cs ++ b).takeWhile p = cs.takeWhile p := by
  rw [List.takeWhile_append, if_neg]
  intro hl
  exact h ((List.takeWhile_prefix p).eq_of_length hl)

theorem numberTail_append_of_ne {hexadecimal : Bool} {last : Char} {cs : List Char}
    (h : numberTail hexadecimal last cs ≠ cs) (b : List Char) :
    numberTail hexadecimal last (cs ++ b) = numberTail hexadecimal last cs := by
  induction cs generalizing last with
  | nil => exact absurd rfl h
  | cons c cs ih =>
      simp only [numberTail, List.cons_append] at h ⊢
      split
      · rename_i hc
        rw [if_pos hc] at h
        rw [ih (by simpa using h)]
      · rfl

theorem first_append {c : Char} {cs : List Char} (h : (first c cs).2 ≠ cs) (b : List Char) :
    first c (cs ++ b) = first c cs := by
  have hcs : cs ≠ [] := by
    rintro rfl
    exact h (List.prefix_nil.mp ( first_prefix c []))
  have hhead : (cs ++ b).head? = cs.head? := by
    obtain ⟨d, ds, rfl⟩ := List.exists_cons_of_ne_nil hcs
    rfl
  unfold first at h ⊢
  simp only [hhead]
  split
  · rename_i hc
    rw [if_pos hc] at h
    rw [takeWhile_append_of_ne h]
  · rename_i hc
    rw [if_neg hc] at h
    split
    · rename_i hd
      rw [if_pos hd] at h
      rw [numberTail_append_of_ne h]
    · rename_i hd
      rw [if_neg hd] at h
      split
      · rename_i hb
        rw [if_pos hb] at h
        rw [takeWhile_append_of_ne h]
      · rfl

theorem first_of_isAsciiBlank {c : Char} (hc : isAsciiBlank c = true) (cs : List Char) :
    first c cs = (.space, cs.takeWhile isAsciiBlank) := by
  have h : c = ' ' ∨ c = '\t' ∨ c = '\n' ∨ c = '\x0c' ∨ c = '\r' := by
    simpa [isAsciiBlank, or_assoc] using hc
  unfold first
  rcases h with rfl | rfl | rfl | rfl | rfl <;> rfl

theorem isAsciiBlank_of_first {c : Char} {cs : List Char} (h : (first c cs).1 = .space) :
    ∀ d ∈ c :: (first c cs).2, isAsciiBlank d = true := by
  unfold first at h ⊢
  split
  · rename_i hc
    simp [hc] at h
  · rename_i hc
    rw [if_neg hc] at h
    split
    · rename_i hd
      rw [if_pos hd] at h
      cases h
    · rename_i hd
      rw [if_neg hd] at h
      split
      · rename_i hb
        intro d hm
        rcases List.mem_cons.mp hm with rfl | hm
        · exact hb
        · exact List.all_eq_true.mp List.all_takeWhile _ hm
      · rename_i hb
        rw [if_neg hb] at h
        split at h <;> cases h

end Piece

theorem pieces_cons (c : Char) (cs : List Char) :
    pieces (c :: cs) =
      ⟨(Piece.first c cs).1, c :: (Piece.first c cs).2⟩ ::
        pieces (cs.drop (Piece.first c cs).2.length) := by
  rw [pieces]

theorem pieces_nil : pieces [] = [] := by
  rw [pieces]

theorem pieces_blank_append {a : List Char} (ha : a ≠ []) (hb : ∀ c ∈ a, isAsciiBlank c = true)
    (b : List Char) :
    pieces (a ++ b) =
      ⟨.space, a ++ b.takeWhile isAsciiBlank⟩ :: pieces (b.dropWhile isAsciiBlank) := by
  obtain ⟨c, cs, rfl⟩ := List.exists_cons_of_ne_nil ha
  have hcs : ∀ d ∈ cs, isAsciiBlank d = true := fun d hd => hb d (List.mem_cons_of_mem _ hd)
  have hdrop : (cs ++ b).drop (cs ++ b.takeWhile isAsciiBlank).length =
      b.dropWhile isAsciiBlank := by
    calc
      _ = (cs ++ b.takeWhile isAsciiBlank ++ b.dropWhile isAsciiBlank).drop
          (cs ++ b.takeWhile isAsciiBlank).length := by
        rw [List.append_assoc, List.takeWhile_append_dropWhile]
      _ = _ := List.drop_left
  rw [List.cons_append, pieces_cons, Piece.first_of_isAsciiBlank (hb c List.mem_cons_self),
    List.takeWhile_append_of_pos hcs, hdrop]
  rfl

theorem Ended.blank_or_cons {a : List Char} (h : Ended a) :
    (∀ c ∈ a, isAsciiBlank c = true) ∨
      ∃ p rest, Ended rest ∧ pieces a = p :: pieces rest ∧
        lineFeeds a = lineFeeds p.text + lineFeeds rest ∧
        ∀ b, pieces (a ++ b) = p :: pieces (rest ++ b) := by
  obtain ⟨c, cs, rfl⟩ := List.exists_cons_of_ne_nil h.ne_nil
  by_cases hall : (Piece.first c cs).2 = cs
  · -- A piece that ends a line is blank.
    have hspace : (Piece.first c cs).1 = .space := by
      refine Decidable.byContradiction fun hk => ?_
      have hf := Piece.lineFeeds_first hk
      rw [hall] at hf
      exact lineFeeds_eq_zero.mp hf h.mem
    have hblank := Piece.isAsciiBlank_of_first hspace
    rw [hall] at hblank
    exact .inl hblank
  · obtain ⟨rest, hr⟩ := Piece.first_prefix c cs
    have hne : rest ≠ [] := by
      rintro rfl
      exact hall (by simpa using hr)
    have hsplit : c :: cs = c :: (Piece.first c cs).2 ++ rest := by rw [List.cons_append, hr]
    have hcut (b : List Char) : pieces (c :: cs ++ b) =
        ⟨(Piece.first c cs).1, c :: (Piece.first c cs).2⟩ :: pieces (rest ++ b) := by
      have hdrop : (cs ++ b).drop (Piece.first c cs).2.length = rest ++ b := by
        have he : cs ++ b = (Piece.first c cs).2 ++ (rest ++ b) := by
          rw [← List.append_assoc, hr]
        exact (congrArg (List.drop _) he).trans List.drop_left
      rw [List.cons_append, pieces_cons, Piece.first_append hall, hdrop]
    refine .inr ⟨⟨(Piece.first c cs).1, c :: (Piece.first c cs).2⟩, rest, (hsplit ▸ h).suffix hne,
      by simpa using hcut [], ?_, hcut⟩
    exact (congrArg lineFeeds hsplit).trans (lineFeeds_append _ _)

theorem Ended.pieces_of_blank {a : List Char} (h : Ended a)
    (hb : ∀ c ∈ a, isAsciiBlank c = true) : pieces a = [⟨.space, a⟩] := by
  have := pieces_blank_append h.ne_nil hb []
  simpa [pieces_nil] using this

theorem Ended.cons_of_pieces {a : List Char} (h : Ended a) {p : Piece} {ps : List Piece}
    (hp : pieces a = p :: ps) (hn : p.isSpace = false ∨ lineFeeds p.text = 0) :
    ∃ rest, Ended rest ∧ ps = pieces rest ∧ lineFeeds a = lineFeeds p.text + lineFeeds rest ∧
      ∀ b, pieces (a ++ b) = p :: pieces (rest ++ b) := by
  rcases h.blank_or_cons with hb | ⟨q, rest, hr, hq, hl, hcut⟩
  · rw [h.pieces_of_blank hb] at hp
    cases hp
    rcases hn with hn | hn
    · cases hn
    · exact absurd h.mem (lineFeeds_eq_zero.mp hn)
  · cases hq.symm.trans hp
    exact ⟨rest, hr, rfl, hl, hcut⟩

theorem Piece.lineFeeds_of_pieces {a : List Char} {p : Piece} {ps : List Piece}
    (hp : pieces a = p :: ps) (hs : p.isSpace = false) : lineFeeds p.text = 0 :=
  feedsInSpace_pieces a p (hp ▸ List.mem_cons_self) hs

/-! ### Uses of macros -/

theorem next?_seam {a : List Char} (h : Ended a) {q : Piece} {qs : List Piece}
    (hn : Piece.next? (pieces a) = some (q, qs)) :
    ∃ rest, Ended rest ∧ qs = pieces rest ∧
      ∀ b, Piece.next? (pieces (a ++ b)) = some (q, pieces (rest ++ b)) := by
  generalize hps : pieces a = ps at hn
  induction ps generalizing a with
  | nil => cases hn
  | cons p ps ih =>
      rcases h.blank_or_cons with hb | ⟨p', rest, hr, hp, _, hcut⟩
      · rw [h.pieces_of_blank hb] at hps
        cases hps
        cases hn
      · rw [hp] at hps
        cases hps
        cases hs : p.isSpace with
        | true =>
            have hnext (xs : List Piece) : Piece.next? (p :: xs) = Piece.next? xs := by
              simp [Piece.next?, hs]
            obtain ⟨rest', hr', hq, hb⟩ := ih hr rfl (by rwa [hnext] at hn)
            exact ⟨rest', hr', hq, fun b => by rw [hcut, hnext, hb]⟩
        | false =>
            have hnext (xs : List Piece) : Piece.next? (p :: xs) = some (p, xs) := by
              simp [Piece.next?, hs]
            rw [hnext] at hn
            cases hn
            exact ⟨rest, hr, rfl, fun b => by rw [hcut, hnext]⟩

theorem arguments?_seam {a : List Char} (h : Ended a) {depth : Nat} {args : List (List Char)}
    {qs : List Piece} (ha : arguments? depth (pieces a) = some (args, qs)) :
    ∃ rest, Ended rest ∧ qs = pieces rest ∧
      ∀ b, arguments? depth (pieces (a ++ b)) = some (args, pieces (rest ++ b)) := by
  generalize hps : pieces a = ps at ha
  induction ps generalizing a depth args with
  | nil => cases ha
  | cons p ps ih =>
      rcases h.blank_or_cons with hb | ⟨p', rest, hr, hp, _, hcut⟩
      · -- Blanks alone close no parenthesis.
        rw [h.pieces_of_blank hb] at hps
        cases hps
        have hc : ∀ c ∈ [')', ',', '('], (Piece.mk .space a).isChar c = false := by
          intro c hc
          simp only [Piece.isChar, beq_eq_false_iff_ne]
          rintro rfl
          have := hb c (by simp)
          simp at hc
          rcases hc with rfl | rfl | rfl <;> simp [isAsciiBlank] at this
        simp [arguments?, hc] at ha
      · rw [hp] at hps
        cases hps
        simp only [arguments?] at ha
        simp only [hcut, arguments?]
        split at ha
        · rename_i hc
          cases ha
          exact ⟨rest, hr, rfl, fun b => by rw [if_pos hc]⟩
        · rename_i hc
          simp only [if_neg hc]
          split at ha
          · rename_i hd
            simp only [if_pos hd]
            obtain ⟨⟨args', qs'⟩, ha', he⟩ := Option.map_eq_some_iff.mp ha
            cases he
            obtain ⟨rest', hr', hq, hb⟩ := ih hr rfl ha'
            exact ⟨rest', hr', hq, fun b => by rw [hb]; rfl⟩
          · rename_i hd
            simp only [if_neg hd]
            obtain ⟨⟨args', qs'⟩, ha', he⟩ := Option.map_eq_some_iff.mp ha
            cases he
            obtain ⟨rest', hr', hq, hb⟩ := ih hr rfl ha'
            exact ⟨rest', hr', hq, fun b => by rw [hb]; rfl⟩

variable {t : MacroTable} {hidden : List String}

theorem macroUse?_seam {a : List Char} (h : Ended a) {p : Piece} {u : MacroUse}
    (hu : macroUse? t hidden p (pieces a) = .ok (some u)) :
    ∃ rest, Ended rest ∧ u.rest = pieces rest ∧
      ∀ b, macroUse? t hidden p (pieces (a ++ b)) =
        .ok (some { u with rest := pieces (rest ++ b) }) := by
  unfold macroUse? at hu ⊢
  split at hu
  · cases hu
  · rename_i d hd
    simp only
    split at hu
    · cases hu
      exact ⟨a, h, rfl, fun b => by simp only⟩
    · rename_i params hparams
      split at hu
      · cases hu
      · rename_i q qs hq
        obtain ⟨rest, hr, rfl, hb⟩ := next?_seam h hq
        simp only [hb]
        split at hu
        · rename_i hc
          simp only [if_pos hc]
          split at hu
          · cases hu
          · rename_i args qs ha
            obtain ⟨rest', hr', rfl, hb'⟩ := arguments?_seam hr ha
            simp only [hb']
            dsimp only at hu ⊢
            split at hu
            · rename_i hl
              cases hu
              exact ⟨rest', hr', rfl, fun b => by rw [if_pos hl]⟩
            · cases hu
        · cases hu

/-! ### Texts that more may follow -/

/-- The last piece that is not blank. -/
def Piece.lastVisible? (ps : List Piece) : Option Piece :=
  (ps.filter fun p => !p.isSpace).getLast?

/-- The piece is the name of a macro with parameters. -/
def MacroTable.takesArguments (t : MacroTable) (p : Piece) : Bool :=
  p.kind == .word && (t.find? p.name).any fun d => d.params.isSome

/-- The text does not end with the name of a macro with parameters. -/
def Settled (t : MacroTable) (ps : List Piece) : Prop :=
  ∀ p ∈ Piece.lastVisible? ps, t.takesArguments p = false

theorem Piece.lastVisible?_of_next? {ps : List Piece} {p : Piece} (hs : p.isSpace = false)
    (h : next? ps = none) : lastVisible? (p :: ps) = some p := by
  have hall : ∀ q ∈ ps, q.isSpace = true := by
    unfold next? at h
    split at h
    · rename_i hd
      have happ := List.takeWhile_append_dropWhile (p := isSpace) (l := ps)
      rw [hd, List.append_nil] at happ
      rw [← happ]
      exact List.all_eq_true.mp List.all_takeWhile
    · cases h
  have hfilter : ps.filter (fun p => !p.isSpace) = [] := by
    simpa [List.filter_eq_nil_iff] using hall
  simp [lastVisible?, hs, hfilter]

theorem Settled.suffix {ps qs : List Piece} (h : Settled t qs) (hs : ps <:+ qs) : Settled t ps := by
  intro p hp
  obtain ⟨front, rfl⟩ := hs
  refine h p ?_
  simp only [Piece.lastVisible?, Option.mem_def] at hp ⊢
  rw [List.filter_append, List.getLast?_append, hp]
  rfl

theorem macroUse?_kept_seam {a : List Char} (h : Ended a) {p : Piece} (hs : p.isSpace = false)
    (hp : Settled t (p :: pieces a)) (hu : macroUse? t hidden p (pieces a) = .ok none)
    (b : List Char) : macroUse? t hidden p (pieces (a ++ b)) = .ok none := by
  unfold macroUse? at hu ⊢
  split at hu
  · rfl
  · rename_i d hd
    split at hu
    · cases hu
    · rename_i params hparams
      have hnext : Piece.next? (pieces a) ≠ none := by
        intro hn
        have := hp p (Piece.lastVisible?_of_next? hs hn)
        split at hd
        · rename_i hw
          simp [MacroTable.takesArguments, hw.1, hd, hparams] at this
        · cases hd
      split at hu
      · rename_i hn
        exact absurd hn hnext
      · rename_i q qs hq
        obtain ⟨rest, _, _, hb⟩ := next?_seam h hq
        simp only [hb]
        split at hu
        · rename_i hc
          split at hu
          · cases hu
          · dsimp only at hu
            split at hu <;> cases hu
        · rename_i hc
          rw [if_neg hc]

/-! ### Expansion at a seam -/

theorem expandLines_blank_seam {line owed : Nat} {a : List Char} (h : Ended a)
    (ha : ∀ c ∈ a, isAsciiBlank c = true) (b : List Char) :
    expandLines t line owed (pieces (a ++ b)) =
      (List.replicate owed '\n' ++ a ++ ·) <$> expandLines t (line + lineFeeds a) 0 (pieces b) := by
  obtain ⟨n, hn⟩ : ∃ n, lineFeeds a = n + 1 := by
    refine Nat.exists_eq_succ_of_ne_zero fun h0 => ?_
    exact lineFeeds_eq_zero.mp h0 h.mem
  by_cases hb : ∃ c cs, b = c :: cs ∧ isAsciiBlank c = true
  · obtain ⟨c, cs, rfl, hc⟩ := hb
    have hpieces : pieces (c :: cs) =
        ⟨.space, c :: cs.takeWhile isAsciiBlank⟩ :: pieces (cs.dropWhile isAsciiBlank) :=
      pieces_blank_append (a := [c]) (by simp) (by simpa using hc) cs
    rw [pieces_blank_append h.ne_nil ha, hpieces, List.takeWhile_cons, if_pos hc,
      List.dropWhile_cons, if_pos hc]
    generalize c :: cs.takeWhile isAsciiBlank = w
    have hboth : lineFeeds (a ++ w) = n + lineFeeds w + 1 := by
      rw [lineFeeds_append, hn]
      omega
    rw [expandLines_feeds _ _ _ rfl hboth, hn]
    cases hw : lineFeeds w with
    | zero =>
        rw [expandLines_blank _ _ _ rfl hw, Functor.map_map]
        simp
    | succ m =>
        rw [expandLines_feeds _ _ _ rfl hw, Functor.map_map]
        simp only [List.replicate_zero, List.nil_append, List.append_assoc]
        congr 2
        omega
  · have hw : b.takeWhile isAsciiBlank = [] ∧ b.dropWhile isAsciiBlank = b := by
      cases b with
      | nil => simp
      | cons c cs =>
          have hc : isAsciiBlank c = false := by
            simpa using fun hc => hb ⟨c, cs, rfl, hc⟩
          simp [hc]
    rw [pieces_blank_append h.ne_nil ha, hw.1, hw.2, List.append_nil,
      expandLines_feeds _ _ _ rfl hn, hn]

/-- Where source lines can be expanded, what follows them is expanded on its own. -/
theorem expandLines_append {line owed : Nat} {a out : List Char} (h : Ended a)
    (hp : Settled t (pieces a)) (ho : expandLines t line owed (pieces a) = .ok out)
    (b : List Char) :
    expandLines t line owed (pieces (a ++ b)) =
      (out ++ ·) <$> expandLines t (line + lineFeeds a) 0 (pieces b) := by
  generalize hps : pieces a = ps at ho hp
  -- On the pieces of the first text: behind each step stands a text that has ended as well, so that
  -- the seam stays behind it.
  fun_induction expandLines t line owed ps generalizing a out with
  | case1 line owed =>
      obtain ⟨c, cs, rfl⟩ := List.exists_cons_of_ne_nil h.ne_nil
      simp [pieces_cons] at hps
  | case2 line owed p ps hs hn ih =>
      obtain ⟨rest, hr, rfl, hl, hcut⟩ := h.cons_of_pieces hps (.inr hn)
      obtain ⟨out, hout, rfl⟩ := exceptMap_eq_ok.mp ho
      rw [hcut, expandLines_blank _ _ _ hs hn, ih hr rfl hout (hp.suffix (List.suffix_cons _ _)),
        Functor.map_map, hl, hn, Nat.zero_add]
      simp
  | case3 line owed p ps hs n hn ih =>
      rcases h.blank_or_cons with hb | ⟨p, rest, hr, hp', hl, hcut⟩
      · rw [h.pieces_of_blank hb] at hps
        cases hps
        rw [expandLines_nil] at ho
        cases ho
        rw [expandLines_blank_seam h hb]
        simp
      · cases hp'.symm.trans hps
        obtain ⟨out, hout, rfl⟩ := exceptMap_eq_ok.mp ho
        rw [hcut, expandLines_feeds _ _ _ hs hn, ih hr rfl hout (hp.suffix (List.suffix_cons _ _)),
          Functor.map_map, hl, hn, Nat.add_assoc]
        simp
  | case4 line owed p ps hs hl ih =>
      have hs : p.isSpace = false := by simpa using hs
      obtain ⟨rest, hr, rfl, hfeeds, hcut⟩ := h.cons_of_pieces hps (.inl hs)
      obtain ⟨out, hout, rfl⟩ := exceptMap_eq_ok.mp ho
      rw [hcut, expandLines_lineName _ _ _ hs hl, ih hr rfl hout (hp.suffix (List.suffix_cons _ _)),
        Functor.map_map, hfeeds, Piece.lineFeeds_of_pieces hps hs, Nat.zero_add]
      simp
  | case5 => cases ho
  | case6 line owed p ps hs hl hu ih =>
      have hs : p.isSpace = false := by simpa using hs
      obtain ⟨rest, hr, rfl, hfeeds, hcut⟩ := h.cons_of_pieces hps (.inl hs)
      obtain ⟨out, hout, rfl⟩ := exceptMap_eq_ok.mp ho
      rw [hcut, expandLines_kept _ _ _ hs (by simpa using hl) (macroUse?_kept_seam hr hs hp hu b),
        ih hr rfl hout (hp.suffix (List.suffix_cons _ _)), Functor.map_map, hfeeds,
        Piece.lineFeeds_of_pieces hps hs, Nat.zero_add]
      simp
  | case7 => cases ho
  | case8 line owed p ps hs hl u hu replaced hr inside =>
      rename_i ih
      have hs : p.isSpace = false := by simpa using hs
      obtain ⟨rest, hrest, rfl, hfeeds, hcut⟩ := h.cons_of_pieces hps (.inl hs)
      obtain ⟨out, hout, rfl⟩ := exceptMap_eq_ok.mp ho
      obtain ⟨behind, hbehind, hb, huse⟩ := macroUse?_seam hrest hu
      have hsuffix := (macroUse?_found hu).rest_suffix
      have hle := Piece.feeds_le_of_suffix hsuffix
      rw [hb, Piece.feeds_pieces, Piece.feeds_pieces] at hle
      have hinside : inside = lineFeeds rest - lineFeeds behind := by
        simp only [inside, hb, Piece.feeds_pieces]
      have hinside' : Piece.feeds (pieces (rest ++ b)) - Piece.feeds (pieces (behind ++ b)) =
          inside := by
        simp only [Piece.feeds_pieces, lineFeeds_append, Nat.add_sub_add_right, hinside]
      have hline : line + lineFeeds a = line + inside + lineFeeds behind := by
        rw [hfeeds, Piece.lineFeeds_of_pieces hps hs, hinside]
        omega
      rw [hcut, expandLines_use _ _ _ hs (by simpa using hl) (huse b) hr, hinside',
        ih hbehind hb.symm hout (hp.suffix (hsuffix.trans (List.suffix_cons _ _))),
        Functor.map_map, hline]
      simp

theorem ended_of_expandLines {line owed : Nat} {a out : List Char} (h : Ended a)
    (ho : expandLines t line owed (pieces a) = .ok out) : Ended out := by
  generalize hps : pieces a = ps at ho
  fun_induction expandLines t line owed ps generalizing a out with
  | case1 line owed =>
      obtain ⟨c, cs, rfl⟩ := List.exists_cons_of_ne_nil h.ne_nil
      simp [pieces_cons] at hps
  | case2 line owed p ps hs hn ih =>
      obtain ⟨rest, hr, rfl, _, _⟩ := h.cons_of_pieces hps (.inr hn)
      obtain ⟨out, hout, rfl⟩ := exceptMap_eq_ok.mp ho
      exact (ih hr rfl hout).prepend _
  | case3 line owed p ps hs n hn ih =>
      rcases h.blank_or_cons with hb | ⟨p, rest, hr, hp', _, _⟩
      · rw [h.pieces_of_blank hb] at hps
        cases hps
        rw [expandLines_nil] at ho
        cases ho
        simpa using h.prepend (List.replicate owed '\n')
      · cases hp'.symm.trans hps
        obtain ⟨out, hout, rfl⟩ := exceptMap_eq_ok.mp ho
        exact (ih hr rfl hout).prepend _
  | case4 line owed p ps hs hl ih =>
      obtain ⟨rest, hr, rfl, _, _⟩ := h.cons_of_pieces hps (.inl (by simpa using hs))
      obtain ⟨out, hout, rfl⟩ := exceptMap_eq_ok.mp ho
      exact (ih hr rfl hout).prepend _
  | case5 => cases ho
  | case6 line owed p ps hs hl hu ih =>
      obtain ⟨rest, hr, rfl, _, _⟩ := h.cons_of_pieces hps (.inl (by simpa using hs))
      obtain ⟨out, hout, rfl⟩ := exceptMap_eq_ok.mp ho
      exact (ih hr rfl hout).prepend _
  | case7 => cases ho
  | case8 line owed p ps hs hl u hu replaced hr inside =>
      rename_i ih
      obtain ⟨rest, hrest, rfl, _, _⟩ := h.cons_of_pieces hps (.inl (by simpa using hs))
      obtain ⟨out, hout, rfl⟩ := exceptMap_eq_ok.mp ho
      obtain ⟨behind, hbehind, hb, _⟩ := macroUse?_seam hrest hu
      exact (ih hbehind hb.symm hout).prepend _

/-! ### Source texts -/

theorem isSome_after?_append (pattern rest : List Char) :
    (after? pattern (pattern ++ rest)).isSome := by
  induction pattern with
  | nil => rfl
  | cons c cs ih => simpa [after?] using ih

theorem isSome_cutAt?_of_append (pattern before rest : List Char) :
    (cutAt? pattern (before ++ (pattern ++ rest))).isSome := by
  induction before with
  | nil =>
      have h := isSome_after?_append pattern rest
      rw [List.nil_append]
      cases hc : pattern ++ rest with
      | nil =>
          rw [hc] at h
          simpa [cutAt?] using h
      | cons c cs =>
          rw [hc] at h
          obtain ⟨x, hx⟩ := Option.isSome_iff_exists.mp h
          simp [cutAt?, hx]
  | cons c before ih =>
      obtain ⟨x, hx⟩ := Option.isSome_iff_exists.mp ih
      simp only [List.cons_append, cutAt?, hx]
      split <;> simp

theorem isLineName_of_mem_pieces {cs : List Char} (h : cutAt? "__LINE__".toList cs = none) :
    ∀ p ∈ pieces cs, p.isLineName = false := by
  intro p hp
  refine Bool.eq_false_iff.mpr fun hl => ?_
  have htext : p.text = "__LINE__".toList := by
    simpa [Piece.isLineName, Piece.name, ← String.toList_inj] using hl
  obtain ⟨front, back, hs⟩ := List.append_of_mem hp
  have hcs := Piece.textOf_pieces cs
  rw [hs, Piece.textOf_append, Piece.textOf_cons, htext] at hcs
  have := isSome_cutAt?_of_append "__LINE__".toList (Piece.textOf front) (Piece.textOf back)
  rw [hcs, h] at this
  cases this

theorem expandLines_of_kept {line : Nat} {ps : List Piece}
    (h : ∀ before p after, ps = before ++ p :: after → p.isLineName = false ∧
      macroUse? t [] p after = .ok none) :
    expandLines t line 0 ps = .ok (Piece.textOf ps) := by
  induction ps generalizing line with
  | nil => exact expandLines_nil t line 0
  | cons p ps ih =>
      obtain ⟨hl, hu⟩ := h [] p ps rfl
      have ih {line : Nat} := @ih line fun before q after hps => h (p :: before) q after (hps ▸ rfl)
      cases hs : p.isSpace with
      | false =>
          rw [expandLines_kept _ _ _ hs hl hu, ih]
          rfl
      | true =>
          cases hn : lineFeeds p.text with
          | zero =>
              rw [expandLines_blank _ _ _ hs hn, ih]
              rfl
          | succ n =>
              rw [expandLines_feeds _ _ _ hs hn, ih]
              rfl

theorem expandLines_of_find? {line : Nat} {ps : List Piece}
    (h : ∀ p ∈ ps, p.isLineName = false ∧ t.find? p.name = none) :
    expandLines t line 0 ps = .ok (Piece.textOf ps) := by
  refine expandLines_of_kept fun before p after hps => ?_
  obtain ⟨hl, hf⟩ := h p (hps ▸ List.mem_append_right before List.mem_cons_self)
  exact ⟨hl, macroUse?_of_find? t [] hf⟩

/-- That a text without macros is kept as it is saves work and changes nothing. -/
theorem expandSource_eq (t : MacroTable) (line : Nat) (text : List Char) :
    expandSource t line text = expandLines t line 0 (pieces text) := by
  unfold expandSource
  split
  · rename_i h
    simp only [Bool.and_eq_true, Option.isNone_iff_eq_none] at h
    have hf (name : String) : t.find? name = none := by
      have := h.1
      simp only [MacroTable.isEmpty, List.isEmpty_iff] at this
      simp [MacroTable.find?, this]
    rw [expandLines_of_find? fun p hp => ⟨isLineName_of_mem_pieces h.2 p hp, hf _⟩,
      Piece.textOf_pieces]
  · rfl

end ShaderBridge
