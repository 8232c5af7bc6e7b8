import ShaderBridge.Proofs.Macro.Steps

/-!
Line feeds in expanded source lines. The expansion pays back the line feeds that a use of a macro
takes and its replacement does not have. A replacement that has more of them than the use leaves a
surplus, which is the only way in which the number of line feeds changes.

Piece by piece the expansion goes over the text outside of the arguments of uses, and it counts the
line feeds of everything that it has gone over. So the number that it has for the current line is
that of the line in which the next piece stands, and errors come with the number of the line in
which the name of the macro stands.
-/

/-! ## Line feeds of an expansion -/

namespace ShaderBridge

@[simp]
theorem lineFeeds_nil : lineFeeds [] = 0 := rfl

@[simp]
theorem lineFeeds_append (a b : List Char) : lineFeeds (a ++ b) = lineFeeds a + lineFeeds b := by
  simp [lineFeeds]

@[simp]
theorem lineFeeds_replicate (n : Nat) : lineFeeds (List.replicate n '\n') = n := by
  simp [lineFeeds]

theorem lineFeeds_eq_zero {cs : List Char} : lineFeeds cs = 0 ↔ '\n' ∉ cs := by
  simp [lineFeeds, List.count_eq_zero]

theorem lineFeeds_decimal (n : Nat) : lineFeeds (decimal n).toList = 0 := by
  rw [lineFeeds_eq_zero]
  intro h
  have h : '\n' ∈ Nat.toDigits 10 n := by simpa [decimal] using h
  exact absurd (Nat.isDigit_of_mem_toDigits (by decide) (by decide) h) (by decide)

/-! ### Pieces -/

namespace Piece

/-- Line feeds stand in blanks only. -/
def FeedsInSpace (ps : List Piece) : Prop :=
  ∀ p ∈ ps, p.isSpace = false → lineFeeds p.text = 0

theorem FeedsInSpace.suffix {a b : List Piece} (h : FeedsInSpace b) (hs : a <:+ b) :
    FeedsInSpace a :=
  fun p hp => h p (hs.subset hp)

theorem not_mem_takeWhile {p : Char → Bool} (hp : p '\n' = false) (cs : List Char) :
    '\n' ∉ cs.takeWhile p := by
  intro h
  have := List.all_eq_true.mp List.all_takeWhile _ h
  simp [hp] at this

theorem not_mem_numberTail (hexadecimal : Bool) (last : Char) (cs : List Char) :
    '\n' ∉ numberTail hexadecimal last cs := by
  induction cs generalizing last with
  | nil => simp [numberTail]
  | cons c cs ih =>
      simp only [numberTail]
      split
      · rename_i h
        have hc : '\n' ≠ c := by
          rintro rfl
          simp [show isWordChar '\n' = false from by decide] at h
        simpa [hc] using ih c
      · simp

theorem lineFeeds_first {c : Char} {cs : List Char} (h : (first c cs).1 ≠ .space) :
    lineFeeds (c :: (first c cs).2) = 0 := by
  rw [lineFeeds_eq_zero, List.mem_cons, not_or]
  unfold first at h ⊢
  split
  · rename_i hc
    refine ⟨?_, not_mem_takeWhile (by decide) cs⟩
    rintro rfl
    exact absurd hc (by decide)
  · split
    · rename_i hd
      refine ⟨?_, not_mem_numberTail _ _ _⟩
      rintro rfl
      simp [show isDigit '\n' = false from by decide] at hd
    · split
      · simp_all
      · rename_i hb
        have hc : '\n' ≠ c := by
          rintro rfl
          exact absurd (show isAsciiBlank '\n' = true by decide) hb
        split
        · exact ⟨hc, by decide⟩
        · exact ⟨hc, by simp⟩

theorem feedsInSpace_pieces (cs : List Char) : FeedsInSpace (pieces cs) := by
  fun_induction pieces cs with
  | case1 => simp [FeedsInSpace]
  | case2 c cs kind tail h ih =>
      intro p hp hs
      rcases List.mem_cons.mp hp with rfl | hp
      · have hk : (first c cs).1 ≠ .space → lineFeeds (c :: (first c cs).2) = 0 := lineFeeds_first
        rw [h] at hk
        exact hk (by simpa [isSpace] using hs)
      · exact ih p hp hs

@[simp]
theorem feeds_nil : feeds [] = 0 := rfl

@[simp]
theorem feeds_cons (p : Piece) (ps : List Piece) :
    feeds (p :: ps) = lineFeeds p.text + feeds ps := by
  simp [feeds]

theorem feeds_pieces (cs : List Char) : feeds (pieces cs) = lineFeeds cs := by
  rw [feeds, textOf_pieces]

theorem feeds_le_of_suffix {a b : List Piece} (h : a <:+ b) : feeds a ≤ feeds b := by
  obtain ⟨front, rfl⟩ := h
  simp [feeds, textOf_append]

end Piece

/-! ### Source lines -/

/-- How many line feeds a use of a macro has. -/
def MacroUse.inside (u : MacroUse) (ps : List Piece) : Nat :=
  Piece.feeds ps - Piece.feeds u.rest

/-- How many line feeds the replacement of a use has more than the use, which opens in front of the
given pieces. -/
def MacroUse.surplus (u : MacroUse) (t : MacroTable) (line : Nat) (ps : List Piece) : Nat :=
  match u.replacement t line [] with
  | .ok replaced => lineFeeds replaced - u.inside ps
  | .error _ => 0

/-- How many line feeds the uses of macros in source lines add, the first line of which has the
given number. -/
def surplus (t : MacroTable) (line : Nat) (ps : List Piece) : Nat :=
  match ps with
  | [] => 0
  | p :: ps =>
    if p.isSpace then surplus t (line + lineFeeds p.text) ps
    else if p.isLineName then surplus t line ps
    else
      match _h : macroUse? t [] p ps with
      | .ok (some u) => u.surplus t line ps + surplus t (line + u.inside ps) u.rest
      | _ => surplus t line ps
termination_by ps.length
decreasing_by
  · simp
  · simp
  · have := (macroUse?_found _h).rest_suffix.length_le
    simp; omega
  · simp

theorem surplus_of_space {t : MacroTable} {line : Nat} {p : Piece} {ps : List Piece}
    (h : p.isSpace = true) : surplus t line (p :: ps) = surplus t (line + lineFeeds p.text) ps := by
  rw [surplus, if_pos h]

theorem surplus_of_not_use {t : MacroTable} {line : Nat} {p : Piece} {ps : List Piece}
    (hs : p.isSpace = false) (h : p.isLineName = true ∨ macroUse? t [] p ps = .ok none) :
    surplus t line (p :: ps) = surplus t line ps := by
  rw [surplus, if_neg (by simp [hs])]
  split
  · rfl
  · rename_i hl
    split
    · rename_i u hu
      simp [hl, hu] at h
    · rfl

theorem surplus_of_use {t : MacroTable} {line : Nat} {p : Piece} {ps : List Piece} {u : MacroUse}
    (hs : p.isSpace = false) (hl : p.isLineName = false)
    (hu : macroUse? t [] p ps = .ok (some u)) :
    surplus t line (p :: ps) = u.surplus t line ps + surplus t (line + u.inside ps) u.rest := by
  rw [surplus, if_neg (by simp [hs]), if_neg (by simp [hl])]
  split
  · rename_i v hv
    cases hu.symm.trans hv
    rfl
  · rename_i hn
    exact absurd hu (hn u)

theorem lineFeeds_expandLines {t : MacroTable} {line owed : Nat} {ps : List Piece} {out : List Char}
    (hp : Piece.FeedsInSpace ps) (h : expandLines t line owed ps = .ok out) :
    lineFeeds out = owed + Piece.feeds ps + surplus t line ps := by
  fun_induction expandLines t line owed ps generalizing out with
  | case1 line owed =>
      cases h
      simp [surplus]
  | case2 line owed p ps hs hn ih =>
      obtain ⟨rest, hr, rfl⟩ := exceptMap_eq_ok.mp h
      have := ih (hp.suffix (List.suffix_cons _ _)) hr
      rw [surplus_of_space hs, lineFeeds_append, Piece.feeds_cons, hn, Nat.add_zero]
      omega
  | case3 line owed p ps hs n hn ih =>
      obtain ⟨rest, hr, rfl⟩ := exceptMap_eq_ok.mp h
      have := ih (hp.suffix (List.suffix_cons _ _)) hr
      rw [surplus_of_space hs]
      simp only [lineFeeds_append, lineFeeds_replicate, Piece.feeds_cons, hn, Nat.succ_eq_add_one]
      omega
  | case4 line owed p ps hs hl ih =>
      obtain ⟨rest, hr, rfl⟩ := exceptMap_eq_ok.mp h
      have hs : p.isSpace = false := by simpa using hs
      have := ih (hp.suffix (List.suffix_cons _ _)) hr
      have := hp p List.mem_cons_self hs
      rw [surplus_of_not_use hs (.inl hl), lineFeeds_append, lineFeeds_decimal, Piece.feeds_cons]
      omega
  | case5 => cases h
  | case6 line owed p ps hs hl hu ih =>
      obtain ⟨rest, hr, rfl⟩ := exceptMap_eq_ok.mp h
      have := ih (hp.suffix (List.suffix_cons _ _)) hr
      rw [surplus_of_not_use (by simpa using hs) (.inr hu), lineFeeds_append, Piece.feeds_cons]
      omega
  | case7 => cases h
  | case8 line owed p ps hs hl u hu replaced hr inside =>
      rename_i ih
      obtain ⟨rest, hrest, rfl⟩ := exceptMap_eq_ok.mp h
      have hs : p.isSpace = false := by simpa using hs
      have hsuffix := (macroUse?_found hu).rest_suffix
      have hrec : lineFeeds rest = owed + (u.inside ps - lineFeeds replaced) +
          Piece.feeds u.rest + surplus t (line + u.inside ps) u.rest :=
        ih (hp.suffix (hsuffix.trans (List.suffix_cons _ _))) hrest
      have := hp p List.mem_cons_self hs
      have := Piece.feeds_le_of_suffix hsuffix
      rw [surplus_of_use hs (by simpa using hl) hu, lineFeeds_append, Piece.feeds_cons,
        MacroUse.surplus, hr]
      simp only [MacroUse.inside] at hrec ⊢
      omega

theorem macroUse?_of_isEmpty {t : MacroTable} (h : t.isEmpty = true) (hidden : List String)
    (p : Piece) (ps : List Piece) : macroUse? t hidden p ps = .ok none := by
  apply macroUse?_of_find?
  simp only [MacroTable.isEmpty, List.isEmpty_iff] at h
  simp [MacroTable.find?, h]

theorem surplus_of_isEmpty {t : MacroTable} (h : t.isEmpty = true) (line : Nat) (ps : List Piece) :
    surplus t line ps = 0 := by
  induction ps generalizing line with
  | nil => simp [surplus]
  | cons p ps ih =>
      cases hs : p.isSpace with
      | true => rw [surplus_of_space hs, ih]
      | false => rw [surplus_of_not_use hs (.inr (macroUse?_of_isEmpty h _ _ _)), ih]

theorem lineFeeds_expandSource {t : MacroTable} {line : Nat} {text out : List Char}
    (h : expandSource t line text = .ok out) :
    lineFeeds out = lineFeeds text + surplus t line (pieces text) := by
  unfold expandSource at h
  split at h
  · rename_i he
    cases h
    rw [surplus_of_isEmpty (by simp_all)]
    rfl
  · rw [lineFeeds_expandLines (Piece.feedsInSpace_pieces text) h, Piece.feeds_pieces, Nat.zero_add]

end ShaderBridge

/-! ## Where an expansion stands -/

namespace ShaderBridge

/-! ### What a use takes -/

theorem Piece.next?_split {ps qs : List Piece} {q : Piece} (h : next? ps = some (q, qs)) :
    ∃ blanks, ps = blanks ++ q :: qs ∧ ∀ rest, next? (blanks ++ q :: rest) = some (q, rest) := by
  induction ps with
  | nil => cases h
  | cons p ps ih =>
      cases hs : p.isSpace with
      | true =>
          have hnext (ps : List Piece) : next? (p :: ps) = next? ps := by
            rw [next?, List.dropWhile_cons_of_pos hs]
            rfl
          rw [hnext] at h
          obtain ⟨blanks, rfl, hrest⟩ := ih h
          exact ⟨p :: blanks, rfl, fun rest => (hnext _).trans (hrest rest)⟩
      | false =>
          have hnext (ps : List Piece) : next? (p :: ps) = some (p, ps) := by
            rw [next?, List.dropWhile_cons_of_neg (by rw [hs]; exact Bool.false_ne_true)]
          rw [hnext] at h
          cases h
          exact ⟨[], rfl, hnext⟩

theorem arguments?_split {depth : Nat} {ps qs : List Piece} {args : List (List Char)}
    (h : arguments? depth ps = some (args, qs)) :
    ∃ inner, ps = inner ++ qs ∧ ∀ rest, arguments? depth (inner ++ rest) = some (args, rest) := by
  induction ps generalizing depth args with
  | nil => cases h
  | cons p ps ih =>
      rw [arguments?] at h
      split at h
      · next hclose =>
          cases h
          exact ⟨[p], rfl, fun rest => if_pos hclose⟩
      · next hopen =>
          split at h
          · next hcomma =>
              obtain ⟨⟨args, qs⟩, hargs, heq⟩ := Option.map_eq_some_iff.1 h
              cases heq
              obtain ⟨inner, rfl, hrest⟩ := ih hargs
              refine ⟨p :: inner, rfl, fun rest => ?_⟩
              rw [List.cons_append, arguments?, if_neg hopen, if_pos hcomma, hrest]
              rfl
          · next hinside =>
              obtain ⟨⟨args, qs⟩, hargs, heq⟩ := Option.map_eq_some_iff.1 h
              cases heq
              obtain ⟨inner, rfl, hrest⟩ := ih hargs
              refine ⟨p :: inner, rfl, fun rest => ?_⟩
              rw [List.cons_append, arguments?, if_neg hopen, if_neg hinside]
              dsimp only
              rw [hrest]
              rfl

variable {t : MacroTable} {hidden : List String} {p : Piece}

theorem macroUse?_split {ps : List Piece} {u : MacroUse}
    (h : macroUse? t hidden p ps = .ok (some u)) :
    ∃ inner, ps = inner ++ u.rest ∧
      ∀ rest, macroUse? t hidden p (inner ++ rest) = .ok (some { u with rest := rest }) := by
  unfold macroUse? at h ⊢
  split at h
  · cases h
  · next definition hdefinition =>
      split at h
      · cases h
        exact ⟨[], rfl, fun rest => rfl⟩
      · next params hparams =>
          split at h
          · cases h
          · next q qs hnext =>
              obtain ⟨blanks, rfl, hblanks⟩ := Piece.next?_split hnext
              split at h
              · next hparen =>
                  split at h
                  · cases h
                  · next args rest hargs =>
                      obtain ⟨inner, rfl, hinner⟩ := arguments?_split hargs
                      dsimp only at h
                      split at h
                      · next hlength =>
                          cases h
                          refine ⟨blanks ++ q :: inner, ?_, fun rest => ?_⟩
                          · rw [List.append_assoc, List.cons_append]
                          · rw [List.append_assoc, List.cons_append, hblanks]
                            dsimp only
                            rw [if_pos hparen, hinner]
                            exact if_pos hlength
                      · cases h
              · cases h

theorem macroUse?_of_append {ps rest : List Piece}
    (h : macroUse? t hidden p (ps ++ rest) = .ok none) : macroUse? t hidden p ps = .ok none := by
  unfold macroUse? at h ⊢
  split
  · rfl
  · next definition hdefinition =>
      rw [hdefinition] at h
      dsimp only at h
      split
      · next hparams =>
          rw [hparams] at h
          cases h
      · next params hparams =>
          rw [hparams] at h
          dsimp only at h
          split
          · rfl
          · next q qs hnext =>
              obtain ⟨blanks, rfl, hblanks⟩ := Piece.next?_split hnext
              rw [List.append_assoc, List.cons_append, hblanks] at h
              dsimp only at h
              split
              · next hparen =>
                  rw [if_pos hparen] at h
                  split at h
                  · cases h
                  · split at h <;> cases h
              · rfl

/-! ### Places -/

/-- Expansion goes over some pieces and stands in front of the others. A use of a macro is gone over
at once, with its arguments. -/
inductive GoesOver (t : MacroTable) : List Piece → List Piece → List Piece → Prop where
  | start (ps : List Piece) : GoesOver t ps [] ps
  | kept {p : Piece} {ps passed rest : List Piece}
      (hkept : p.isLineName ∨ macroUse? t [] p ps = .ok none) (h : GoesOver t ps passed rest) :
      GoesOver t (p :: ps) (p :: passed) rest
  | use {p : Piece} {u : MacroUse} {inner passed rest : List Piece} (hname : p.isLineName = false)
      (huse : macroUse? t [] p (inner ++ u.rest) = .ok (some u))
      (h : GoesOver t u.rest passed rest) :
      GoesOver t (p :: (inner ++ u.rest)) (p :: (inner ++ passed)) rest

/-- What stands for a piece outside of the arguments of uses, in a line with the given number, and
the pieces behind it: the number for the name of the line number, the replacement for a use of a
macro, and the piece itself for any other. -/
def Piece.replaced (t : MacroTable) (line : Nat) (p : Piece) (ps : List Piece) :
    Except ExpansionError (List Char × List Piece) :=
  if p.isLineName then .ok ((decimal line).toList, ps)
  else
    match macroUse? t [] p ps with
    | .error e => .error e
    | .ok none => .ok (p.text, ps)
    | .ok (some u) => (·, u.rest) <$> u.replacement t line []

variable {line owed : Nat} {ps ps' passed passed' rest : List Piece}

theorem GoesOver.eq_append (h : GoesOver t ps passed rest) : ps = passed ++ rest := by
  induction h with
  | start => rfl
  | kept _ _ ih => rw [ih, List.cons_append]
  | @use p u inner passed rest _ _ _ ih =>
      show p :: (inner ++ u.rest) = p :: (inner ++ passed) ++ rest
      rw [ih, List.cons_append, List.append_assoc]

/-! ### Steps -/

theorem isSpace_of_macroUse? {u : MacroUse} (h : macroUse? t hidden p ps = .ok (some u)) :
    p.isSpace = false := by
  cases hs : p.isSpace with
  | false => rfl
  | true => cases (macroUse?_of_isSpace hs ps).symm.trans h

theorem exists_expandLines_kept (hfeeds : p.isSpace = false → lineFeeds p.text = 0)
    (line owed : Nat) :
    ∃ front owed', ∀ qs, p.isLineName ∨ macroUse? t [] p qs = .ok none →
      expandLines t line owed (p :: qs) =
        (front ++ ·) <$> expandLines t (line + lineFeeds p.text) owed' qs := by
  cases hs : p.isSpace with
  | true =>
      cases hn : lineFeeds p.text with
      | zero => exact ⟨_, _, fun qs _ => expandLines_blank t line owed hs hn⟩
      | succ n => exact ⟨_, _, fun qs _ => expandLines_feeds t line owed hs hn⟩
  | false =>
      rw [hfeeds hs, Nat.add_zero]
      cases hl : p.isLineName with
      | true => exact ⟨_, _, fun qs _ => expandLines_lineName t line owed hs hl⟩
      | false =>
          exact ⟨_, _, fun qs h =>
            expandLines_kept t line owed hs hl (h.resolve_left Bool.false_ne_true)⟩

theorem feeds_use (h : lineFeeds p.text = 0) (inner qs : List Piece) :
    Piece.feeds (p :: (inner ++ qs)) = Piece.feeds inner + Piece.feeds qs := by
  rw [Piece.feeds_cons, h, Nat.zero_add, Piece.feeds, Piece.textOf_append, lineFeeds_append]
  rfl

theorem expandLines_use_append {u : MacroUse} {inner : List Piece} {replaced : List Char}
    (hl : p.isLineName = false) (hu : macroUse? t [] p (inner ++ u.rest) = .ok (some u))
    (hr : u.replacement t line [] = .ok replaced) (qs : List Piece) :
    expandLines t line owed (p :: (inner ++ qs)) =
      (replaced ++ ·) <$> expandLines t (line + Piece.feeds inner)
        (owed + (Piece.feeds inner - lineFeeds replaced)) qs := by
  obtain ⟨inner', hinner, hsplit⟩ := macroUse?_split hu
  obtain rfl := List.append_cancel_right hinner
  have hinside : Piece.feeds (inner ++ qs) - Piece.feeds qs = Piece.feeds inner := by
    rw [Piece.feeds, Piece.textOf_append, lineFeeds_append]
    exact Nat.add_sub_cancel ..
  have h := expandLines_use t line owed (isSpace_of_macroUse? hu) hl (hsplit qs) hr
  rwa [hinside] at h

/-! ### What is put out -/

/-- Expansion of all pieces goes on behind those that it goes over, in the line with the given
number; what it has put out by then comes from those alone. -/
def GoesOnBehind (t : MacroTable) (line owed : Nat) (ps passed rest : List Piece) (next : Nat) :
    Prop :=
  (∃ e, expandLines t line owed passed = .error e ∧ expandLines t line owed ps = .error e) ∨
    ∃ front owed', expandLines t line owed passed = .ok (front ++ List.replicate owed' '\n') ∧
      expandLines t line owed ps = (front ++ ·) <$> expandLines t next owed' rest

theorem GoesOnBehind.step {line' owed' next : Nat} {front : List Char}
    (hpassed : expandLines t line owed passed = (front ++ ·) <$> expandLines t line' owed' passed')
    (hps : expandLines t line owed ps = (front ++ ·) <$> expandLines t line' owed' ps')
    (h : GoesOnBehind t line' owed' ps' passed' rest next) :
    GoesOnBehind t line owed ps passed rest next := by
  rcases h with ⟨e, hpassed', hps'⟩ | ⟨front', owed'', hpassed', hps'⟩
  · exact .inl ⟨e, by rw [hpassed, hpassed']; rfl, by rw [hps, hps']; rfl⟩
  · refine .inr ⟨front ++ front', owed'', ?_, ?_⟩
    · rw [hpassed, hpassed', List.append_assoc]
      rfl
    · rw [hps, hps']
      cases expandLines t next owed'' rest with
      | error e => rfl
      | ok out => exact congrArg Except.ok (List.append_assoc ..).symm

/-- The number that expansion has for the current line counts the line feeds of all that it has
gone over. -/
theorem GoesOver.goesOnBehind (h : GoesOver t ps passed rest) (hfeeds : Piece.FeedsInSpace ps)
    (line owed : Nat) :
    GoesOnBehind t line owed ps passed rest (line + Piece.feeds passed) := by
  induction h generalizing line owed with
  | start ps =>
      refine .inr ⟨[], owed, expandLines_nil t line owed, ?_⟩
      show expandLines t line owed ps = (fun out => out) <$> expandLines t line owed ps
      cases expandLines t line owed ps <;> rfl
  | @kept p ps passed rest hkept h ih =>
      have hkept' : p.isLineName ∨ macroUse? t [] p passed = .ok none :=
        hkept.imp_right fun hu => macroUse?_of_append (h.eq_append ▸ hu)
      obtain ⟨front, owed', hstep⟩ :=
        exists_expandLines_kept (t := t) (hfeeds p List.mem_cons_self) line owed
      rw [Piece.feeds_cons, ← Nat.add_assoc]
      exact .step (hstep passed hkept') (hstep ps hkept)
        (ih (hfeeds.suffix (List.suffix_cons _ _)) _ _)
  | @use p u inner passed rest hl hu h ih =>
      rw [feeds_use (hfeeds p List.mem_cons_self (isSpace_of_macroUse? hu)), ← Nat.add_assoc]
      cases hr : u.replacement t line [] with
      | error e =>
          obtain ⟨inner', hinner, hsplit⟩ := macroUse?_split hu
          obtain rfl := List.append_cancel_right hinner
          have hs := isSpace_of_macroUse? hu
          exact .inl ⟨_, expandLines_useError t line owed hs hl (hsplit passed) hr,
            expandLines_useError t line owed hs hl hu hr⟩
      | ok replaced =>
          have hsuffix : u.rest <:+ p :: (inner ++ u.rest) := ⟨p :: inner, rfl⟩
          exact .step (expandLines_use_append hl hu hr passed)
            (expandLines_use_append hl hu hr u.rest) (ih (hfeeds.suffix hsuffix) _ _)

theorem expandLines_cons_of_replaced_eq_error {e : ExpansionError} (hs : p.isSpace = false)
    (h : p.replaced t line ps = .error e) :
    expandLines t line owed (p :: ps) = .error (e, line) := by
  unfold Piece.replaced at h
  split at h
  · cases h
  · next hl =>
      have hl := eq_false_of_ne_true hl
      split at h
      · next hu =>
          cases h
          exact expandLines_error t line owed hs hl hu
      · cases h
      · next u hu =>
          cases hr : u.replacement t line [] with
          | error e' =>
              rw [hr] at h
              cases h
              exact expandLines_useError t line owed hs hl hu hr
          | ok replaced =>
              rw [hr] at h
              cases h

theorem expandLines_cons_of_replaced_eq_ok {value : List Char} {behind : List Piece}
    (hs : p.isSpace = false) (h : p.replaced t line ps = .ok (value, behind)) :
    ∃ next owed', expandLines t line owed (p :: ps) =
      (value ++ ·) <$> expandLines t next owed' behind := by
  unfold Piece.replaced at h
  split at h
  · next hl =>
      cases h
      exact ⟨_, _, expandLines_lineName t line owed hs hl⟩
  · next hl =>
      have hl := eq_false_of_ne_true hl
      split at h
      · cases h
      · next hu =>
          cases h
          exact ⟨_, _, expandLines_kept t line owed hs hl hu⟩
      · next u hu =>
          obtain ⟨replaced, hr, he⟩ := exceptMap_eq_ok.mp h
          cases he
          exact ⟨_, _, expandLines_use t line owed hs hl hu hr⟩

/-- Where the expansion of all pieces succeeds, what it puts out for a piece that it comes to stands
behind what it puts out for the pieces in front. The line feeds that are owed there come later. -/
theorem GoesOver.exists_of_expandLines_eq_ok {out : List Char}
    (h : GoesOver t ps passed (p :: rest)) (hfeeds : Piece.FeedsInSpace ps) (hs : p.isSpace = false)
    (ho : expandLines t line owed ps = .ok out) :
    ∃ front owed' value behind back, out = front ++ (value ++ back) ∧
      expandLines t line owed passed = .ok (front ++ List.replicate owed' '\n') ∧
      p.replaced t (line + Piece.feeds passed) rest = .ok (value, behind) := by
  rcases h.goesOnBehind hfeeds line owed with ⟨e, _, hps⟩ | ⟨front, owed', hpassed, hps⟩
  · cases hps.symm.trans ho
  · obtain ⟨out', hrest, rfl⟩ := exceptMap_eq_ok.mp (hps.symm.trans ho)
    cases hr : p.replaced t (line + Piece.feeds passed) rest with
    | error e =>
        rw [expandLines_cons_of_replaced_eq_error hs hr] at hrest
        cases hrest
    | ok replaced =>
        obtain ⟨next, owed'', hcons⟩ := expandLines_cons_of_replaced_eq_ok hs hr
        obtain ⟨back, _, rfl⟩ := exceptMap_eq_ok.mp (hcons.symm.trans hrest)
        exact ⟨front, owed', _, _, back, rfl, hpassed, rfl⟩

theorem exceptMap_eq_error {ε α β : Type} {f : α → β} {x : Except ε α} {e : ε} :
    f <$> x = .error e ↔ x = .error e := by
  cases x with
  | error e' => exact ⟨fun h => by cases h; rfl, fun h => by cases h; rfl⟩
  | ok a => exact ⟨nofun, nofun⟩

theorem replaced_eq_error_of_macroUse? {e : ExpansionError} (hl : p.isLineName = false)
    (h : macroUse? t [] p ps = .error e ∨
      ∃ u, macroUse? t [] p ps = .ok (some u) ∧ u.replacement t line [] = .error e) :
    p.replaced t line ps = .error e := by
  unfold Piece.replaced
  rw [hl, if_neg Bool.false_ne_true]
  rcases h with hu | ⟨u, hu, hr⟩
  · rw [hu]
  · rw [hu]
    dsimp only
    rw [hr]
    rfl

theorem exists_of_expandLines_eq_error {e : ExpansionError} {n : Nat}
    (hfeeds : Piece.FeedsInSpace ps) (h : expandLines t line owed ps = .error (e, n)) :
    ∃ passed p rest, GoesOver t ps passed (p :: rest) ∧ p.isSpace = false ∧
      (∃ front, expandLines t line owed passed = .ok front) ∧ n = line + Piece.feeds passed ∧
      p.replaced t n rest = .error e := by
  -- By length, since a use goes over its arguments at once.
  induction hlength : ps.length using Nat.strongRecOn generalizing line owed ps with
  | ind k ih =>
  cases ps with
  | nil =>
      rw [expandLines_nil] at h
      cases h
  | cons p ps =>
      have hover (hkept : p.isLineName ∨ macroUse? t [] p ps = .ok none) : ∃ passed q rest,
          GoesOver t (p :: ps) passed (q :: rest) ∧ q.isSpace = false ∧
          (∃ front, expandLines t line owed passed = .ok front) ∧ n = line + Piece.feeds passed ∧
          q.replaced t n rest = .error e := by
        obtain ⟨front, owed', hstep⟩ :=
          exists_expandLines_kept (t := t) (hfeeds p List.mem_cons_self) line owed
        rw [hstep ps hkept, exceptMap_eq_error] at h
        obtain ⟨passed, q, rest, hover, hs, ⟨out, hout⟩, hn, hr⟩ :=
          ih ps.length (by simp at hlength; omega) (hfeeds.suffix (List.suffix_cons _ _)) h rfl
        refine ⟨p :: passed, q, rest, .kept hkept hover, hs, ⟨front ++ out, ?_⟩, ?_, hr⟩
        · rw [hstep passed (hkept.imp_right fun hu => macroUse?_of_append (hover.eq_append ▸ hu)),
            hout]
          rfl
        · rw [hn, Piece.feeds_cons, Nat.add_assoc]
      cases hl : p.isLineName with
      | true => exact hover (.inl hl)
      | false =>
          rcases hu : macroUse? t [] p ps with e' | _ | u
          · have hs : p.isSpace = false := by
              cases hs : p.isSpace with
              | false => rfl
              | true => cases (macroUse?_of_isSpace hs ps).symm.trans hu
            cases (expandLines_error t line owed hs hl hu).symm.trans h
            exact ⟨[], p, ps, .start _, hs, ⟨_, expandLines_nil ..⟩, rfl,
              replaced_eq_error_of_macroUse? hl (.inl hu)⟩
          · exact hover (.inr hu)
          · have hs := isSpace_of_macroUse? hu
            cases hr : u.replacement t line [] with
            | error e' =>
                cases (expandLines_useError t line owed hs hl hu hr).symm.trans h
                exact ⟨[], p, ps, .start _, hs, ⟨_, expandLines_nil ..⟩, rfl,
                  replaced_eq_error_of_macroUse? hl (.inr ⟨u, hu, hr⟩)⟩
            | ok replaced =>
                obtain ⟨inner, rfl, _⟩ := macroUse?_split hu
                have hsuffix : u.rest <:+ p :: (inner ++ u.rest) := ⟨p :: inner, rfl⟩
                rw [expandLines_use_append hl hu hr, exceptMap_eq_error] at h
                obtain ⟨passed, q, rest, hover', hs', ⟨out, hout⟩, hn, hr'⟩ :=
                  ih u.rest.length (by simp at hlength; omega) (hfeeds.suffix hsuffix) h rfl
                refine ⟨p :: (inner ++ passed), q, rest, .use hl hu hover', hs',
                  ⟨replaced ++ out, ?_⟩, ?_, hr'⟩
                · rw [expandLines_use_append hl hu hr, hout]
                  rfl
                · rw [hn, feeds_use (hfeeds p List.mem_cons_self hs), Nat.add_assoc]

theorem expandLines_eq_error_iff {e : ExpansionError} {n : Nat} (hfeeds : Piece.FeedsInSpace ps) :
    expandLines t line owed ps = .error (e, n) ↔
      ∃ passed p rest, GoesOver t ps passed (p :: rest) ∧ p.isSpace = false ∧
        (∃ front, expandLines t line owed passed = .ok front) ∧ n = line + Piece.feeds passed ∧
        p.replaced t n rest = .error e := by
  refine ⟨exists_of_expandLines_eq_error hfeeds, ?_⟩
  rintro ⟨passed, p, rest, hover, hs, ⟨front, hfront⟩, rfl, hr⟩
  rcases hover.goesOnBehind hfeeds line owed with ⟨e', hpassed, _⟩ | ⟨front', owed', _, hps⟩
  · cases hpassed.symm.trans hfront
  · rw [hps, expandLines_cons_of_replaced_eq_error hs hr]
    rfl

end ShaderBridge
