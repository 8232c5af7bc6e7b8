import ShaderBridge.Macro.Expansion
import ShaderBridge.Preprocess.Condition

namespace ShaderBridge

theorem exceptMap_eq_ok {ε α β : Type} {f : α → β} {x : Except ε α} {b : β} :
    f <$> x = .ok b ↔ ∃ a, x = .ok a ∧ f a = b := by
  cases x with
  | error e => exact ⟨nofun, fun ⟨_, h, _⟩ => nomatch h⟩
  | ok a =>
      constructor
      · intro h
        cases h
        exact ⟨a, rfl, rfl⟩
      · rintro ⟨_, h, rfl⟩
        cases h
        rfl

theorem exceptBind_eq_ok {ε α β : Type} {f : α → Except ε β} {x : Except ε α} {b : β} :
    x >>= f = .ok b ↔ ∃ a, x = .ok a ∧ f a = .ok b := by
  cases x with
  | error e => exact ⟨nofun, fun ⟨_, h, _⟩ => nomatch h⟩
  | ok a =>
      constructor
      · intro h
        exact ⟨a, rfl, h⟩
      · rintro ⟨_, h, hf⟩
        cases h
        exact hf

theorem append_map_append {ε α : Type} (out text : List α) (r : Except ε (List α)) :
    (out ++ ·) <$> ((text ++ ·) <$> r) = (out ++ text ++ ·) <$> r := by
  cases r with
  | error e => rfl
  | ok rest => exact congrArg Except.ok (List.append_assoc out text rest).symm

theorem nil_map_append {ε α : Type} (r : Except ε (List α)) : ([] ++ ·) <$> r = r := by
  cases r <;> rfl

variable (t : MacroTable) (line : Nat) (hidden : List String) {p : Piece} {ps : List Piece}
  {u : MacroUse}

@[simp]
theorem expand_nil : expand t line hidden [] = .ok [] := by
  rw [expand]

theorem expand_lineName (hl : p.isLineName = true) :
    expand t line hidden (p :: ps) = ((decimal line).toList ++ ·) <$> expand t line hidden ps := by
  rw [expand, if_pos hl]

theorem expand_kept (hl : p.isLineName = false) (hu : macroUse? t hidden p ps = .ok none) :
    expand t line hidden (p :: ps) = (p.text ++ ·) <$> expand t line hidden ps := by
  rw [expand, if_neg (by simp [hl])]
  split
  · rename_i h
    cases hu.symm.trans h
  · rfl
  · rename_i h
    cases hu.symm.trans h

theorem expand_error {e : ExpansionError} (hl : p.isLineName = false)
    (hu : macroUse? t hidden p ps = .error e) : expand t line hidden (p :: ps) = .error e := by
  rw [expand, if_neg (by simp [hl])]
  split
  · rename_i h
    cases hu.symm.trans h
    rfl
  · rename_i h
    cases hu.symm.trans h
  · rename_i h
    cases hu.symm.trans h

theorem expand_use (hl : p.isLineName = false) (hu : macroUse? t hidden p ps = .ok (some u)) :
    expand t line hidden (p :: ps) =
      u.replacement t line hidden >>= fun replaced =>
        (replaced ++ ·) <$> expand t line hidden u.rest := by
  rw [expand, if_neg (by simp [hl])]
  split
  · rename_i h
    cases hu.symm.trans h
  · rename_i h
    cases hu.symm.trans h
  · rename_i v h
    cases hu.symm.trans h
    simp [MacroUse.replacement, bind_assoc]

theorem macroUse?_of_find? (h : t.find? p.name = none) : macroUse? t hidden p ps = .ok none := by
  simp [macroUse?, h]

theorem expand_of_kept
    (h : ∀ before p after, ps = before ++ p :: after → p.isLineName = false ∧
      macroUse? t hidden p after = .ok none) :
    expand t line hidden ps = .ok (Piece.textOf ps) := by
  induction ps with
  | nil => exact expand_nil t line hidden
  | cons p ps ih =>
      obtain ⟨hl, hu⟩ := h [] p ps rfl
      rw [expand_kept _ _ _ hl hu, ih fun before q after hps => h (p :: before) q after (hps ▸ rfl)]
      rfl

theorem expand_of_find? (h : ∀ p ∈ ps, p.isLineName = false ∧ t.find? p.name = none) :
    expand t line hidden ps = .ok (Piece.textOf ps) := by
  refine expand_of_kept t line hidden fun before p after hps => ?_
  obtain ⟨hl, hf⟩ := h p (hps ▸ List.mem_append_right before List.mem_cons_self)
  exact ⟨hl, macroUse?_of_find? t hidden hf⟩

theorem substitute_raw {arguments : List (String × Argument)} {a : Argument} {rest : List Piece}
    (h : (if p.isChar '#' then nextParameter? arguments ps else none) = some (a, rest))
    (afterPaste : Bool) :
    substitute arguments afterPaste (p :: ps) =
      (a.raw ++ ·) <$> substitute arguments false rest := by
  rw [substitute]
  split
  · rename_i heq
    cases h.symm.trans heq
    rfl
  · rename_i heq
    cases h.symm.trans heq

theorem substitute_piece {arguments : List (String × Argument)}
    (h : (if p.isChar '#' then nextParameter? arguments ps else none) = none)
    (afterPaste : Bool) :
    substitute arguments afterPaste (p :: ps) =
      (match parameter? arguments p with
      | some a => if afterPaste || pasteFollows ps then .ok a.raw else a.expanded
      | none => .ok p.text) >>= fun text =>
        (text ++ ·) <$> substitute arguments (if p.isSpace then afterPaste else p.isPaste) ps := by
  rw [substitute]
  split
  · rename_i heq
    cases h.symm.trans heq
  · cases parameter? arguments p with
    | none => rfl
    | some a =>
        dsimp only
        split <;> rfl

variable (owed : Nat)

theorem expandLines_nil : expandLines t line owed [] = .ok (List.replicate owed '\n') := by
  rw [expandLines]

theorem expandLines_blank (hs : p.isSpace = true) (hn : lineFeeds p.text = 0) :
    expandLines t line owed (p :: ps) = (p.text ++ ·) <$> expandLines t line owed ps := by
  rw [expandLines, if_pos hs, hn]

theorem expandLines_feeds {n : Nat} (hs : p.isSpace = true) (hn : lineFeeds p.text = n + 1) :
    expandLines t line owed (p :: ps) =
      (List.replicate owed '\n' ++ p.text ++ ·) <$> expandLines t (line + (n + 1)) 0 ps := by
  rw [expandLines, if_pos hs, hn]

theorem expandLines_lineName (hs : p.isSpace = false) (hl : p.isLineName = true) :
    expandLines t line owed (p :: ps) =
      ((decimal line).toList ++ ·) <$> expandLines t line owed ps := by
  rw [expandLines, if_neg (by simp [hs]), if_pos hl]

theorem expandLines_kept (hs : p.isSpace = false) (hl : p.isLineName = false)
    (hu : macroUse? t [] p ps = .ok none) :
    expandLines t line owed (p :: ps) = (p.text ++ ·) <$> expandLines t line owed ps := by
  rw [expandLines, if_neg (by simp [hs]), if_neg (by simp [hl])]
  split
  · rename_i h
    cases hu.symm.trans h
  · rfl
  · rename_i h
    cases hu.symm.trans h

theorem expandLines_use {replaced : List Char} (hs : p.isSpace = false)
    (hl : p.isLineName = false) (hu : macroUse? t [] p ps = .ok (some u))
    (hr : u.replacement t line [] = .ok replaced) :
    expandLines t line owed (p :: ps) =
      (replaced ++ ·) <$> expandLines t (line + (Piece.feeds ps - Piece.feeds u.rest))
        (owed + (Piece.feeds ps - Piece.feeds u.rest - lineFeeds replaced)) u.rest := by
  rw [expandLines, if_neg (by simp [hs]), if_neg (by simp [hl])]
  split
  · rename_i h
    cases hu.symm.trans h
  · rename_i h
    cases hu.symm.trans h
  · rename_i v h
    cases hu.symm.trans h
    rw [hr]

theorem expandLines_error {e : ExpansionError} (hs : p.isSpace = false) (hl : p.isLineName = false)
    (hu : macroUse? t [] p ps = .error e) :
    expandLines t line owed (p :: ps) = .error (e, line) := by
  rw [expandLines, if_neg (by simp [hs]), if_neg (by simp [hl])]
  split
  · rename_i h
    cases hu.symm.trans h
    rfl
  · rename_i h
    cases hu.symm.trans h
  · rename_i h
    cases hu.symm.trans h

theorem expandLines_useError {e : ExpansionError} (hs : p.isSpace = false)
    (hl : p.isLineName = false) (hu : macroUse? t [] p ps = .ok (some u))
    (hr : u.replacement t line [] = .error e) :
    expandLines t line owed (p :: ps) = .error (e, line) := by
  rw [expandLines, if_neg (by simp [hs]), if_neg (by simp [hl])]
  split
  · rename_i h
    cases hu.symm.trans h
  · rename_i h
    cases hu.symm.trans h
  · rename_i v h
    cases hu.symm.trans h
    rw [hr]

end ShaderBridge

namespace ShaderBridge

/-- The name `__LINE__` does not come up when pieces are expanded. -/
inductive LineFree (t : MacroTable) : List String → List Piece → Prop where
  | nil {hidden : List String} : LineFree t hidden []
  | kept {hidden : List String} {p : Piece} {ps : List Piece} (hl : p.isLineName = false)
      (hu : macroUse? t hidden p ps = .ok none) : LineFree t hidden ps → LineFree t hidden (p :: ps)
  | error {hidden : List String} {p : Piece} {ps : List Piece} {e : ExpansionError}
      (hl : p.isLineName = false) (hu : macroUse? t hidden p ps = .error e) :
      LineFree t hidden (p :: ps)
  | use {hidden : List String} {p : Piece} {ps : List Piece} {u : MacroUse}
      (hl : p.isLineName = false) (hu : macroUse? t hidden p ps = .ok (some u)) :
      (∀ a ∈ u.args, LineFree t hidden (pieces a)) →
      (∀ line body, u.body (u.args.map fun a => expand t line hidden (pieces a)) = .ok body →
        LineFree t (u.name :: hidden) (pieces body)) →
      LineFree t hidden u.rest → LineFree t hidden (p :: ps)

variable {t : MacroTable}

theorem macroUse?_of_isSpace {hidden : List String} {p : Piece} (hs : p.isSpace = true)
    (ps : List Piece) : macroUse? t hidden p ps = .ok none := by
  have hk : p.kind ≠ .word := by
    intro hk
    simp [Piece.isSpace, hk] at hs
  simp [macroUse?, hk]

theorem LineFree.tail {hidden : List String} {p : Piece} {ps : List Piece} (hs : p.isSpace = true)
    (h : LineFree t hidden (p :: ps)) : LineFree t hidden ps := by
  have hu : macroUse? t hidden p ps = .ok none := macroUse?_of_isSpace hs ps
  cases h with
  | kept _ _ h => exact h
  | error _ hu' => cases hu.symm.trans hu'
  | use _ hu' => cases hu.symm.trans hu'

theorem lineFree_of_find? {hidden : List String} {ps : List Piece}
    (h : ∀ p ∈ ps, p.isLineName = false ∧ t.find? p.name = none) : LineFree t hidden ps := by
  induction ps with
  | nil => exact .nil
  | cons p ps ih =>
      obtain ⟨hl, hf⟩ := h p List.mem_cons_self
      exact .kept hl (macroUse?_of_find? _ _ hf) (ih fun q hq => h q (List.mem_cons_of_mem _ hq))

theorem replacement_congr {hidden : List String} {u : MacroUse} {line line' : Nat}
    (ha : ∀ a ∈ u.args, expand t line hidden (pieces a) = expand t line' hidden (pieces a))
    (hb : ∀ body, u.body (u.args.map fun a => expand t line' hidden (pieces a)) = .ok body →
      expand t line (u.name :: hidden) (pieces body) =
        expand t line' (u.name :: hidden) (pieces body)) :
    u.replacement t line hidden = u.replacement t line' hidden := by
  have hargs : (u.args.map fun a => expand t line hidden (pieces a)) =
      u.args.map fun a => expand t line' hidden (pieces a) :=
    List.map_congr_left ha
  unfold MacroUse.replacement
  rw [hargs]
  cases hc : u.body (u.args.map fun a => expand t line' hidden (pieces a)) with
  | error e => rfl
  | ok body => exact hb body hc

theorem LineFree.expand_eq {hidden : List String} {ps : List Piece} (h : LineFree t hidden ps)
    (line line' : Nat) : expand t line hidden ps = expand t line' hidden ps := by
  induction h with
  | nil => rw [expand_nil, expand_nil]
  | kept hl hu _ ih => rw [expand_kept _ _ _ hl hu, expand_kept _ _ _ hl hu, ih]
  | error hl hu => rw [expand_error _ _ _ hl hu, expand_error _ _ _ hl hu]
  | use hl hu _ _ _ iha ihb ihr =>
      rw [expand_use _ _ _ hl hu, expand_use _ _ _ hl hu, replacement_congr iha (ihb line'), ihr]

theorem LineFree.expandLines_eq {line owed : Nat} {ps : List Piece} {out : List Char}
    (h : LineFree t [] ps) (ho : expandLines t line owed ps = .ok out) (line' : Nat) :
    expandLines t line' owed ps = .ok out := by
  fun_induction expandLines t line owed ps generalizing out line' with
  | case1 line owed => rw [expandLines_nil, ← ho]
  | case2 line owed p ps hs hn ih =>
      obtain ⟨out, hout, rfl⟩ := exceptMap_eq_ok.mp ho
      rw [expandLines_blank _ _ _ hs hn, ih (h.tail hs) hout]
      rfl
  | case3 line owed p ps hs n hn ih =>
      obtain ⟨out, hout, rfl⟩ := exceptMap_eq_ok.mp ho
      rw [expandLines_feeds _ _ _ hs hn, ih (h.tail hs) hout]
      rfl
  | case4 line owed p ps hs hl ih => cases h <;> simp_all
  | case5 => cases ho
  | case6 line owed p ps hs hl hu ih =>
      obtain ⟨out, hout, rfl⟩ := exceptMap_eq_ok.mp ho
      cases h with
      | kept _ hu' h =>
          rw [expandLines_kept _ _ _ (by simpa using hs) (by simpa using hl) hu, ih h hout]
          rfl
      | error _ hu' => cases hu.symm.trans hu'
      | use _ hu' => cases hu.symm.trans hu'
  | case7 => cases ho
  | case8 line owed p ps hs hl u hu replaced hr inside =>
      rename_i ih
      obtain ⟨out, hout, rfl⟩ := exceptMap_eq_ok.mp ho
      cases h with
      | kept _ hu' h => cases hu.symm.trans hu'
      | error _ hu' => cases hu.symm.trans hu'
      | use _ hu' ha hb h =>
          cases hu.symm.trans hu'
          have hr' : u.replacement t line' [] = .ok replaced := by
            rw [← hr]
            exact replacement_congr (fun a hm => (ha a hm).expand_eq _ _)
              fun body hbody => (hb line body hbody).expand_eq _ _
          rw [expandLines_use _ _ _ (by simpa using hs) (by simpa using hl) hu hr', ih h hout]
          rfl

/-- The name `__LINE__` does not come up when a condition is evaluated. -/
def ConditionLineFree (t : MacroTable) (condition : List Char) : Prop :=
  ∀ answered, Condition.answerDefined t (pieces condition) = .ok answered →
    LineFree t [] (pieces answered)

theorem ConditionLineFree.evaluate_eq {condition : List Char} (h : ConditionLineFree t condition)
    (line line' : Nat) :
    Condition.evaluate t line condition = Condition.evaluate t line' condition := by
  unfold Condition.evaluate
  cases ha : Condition.answerDefined t (pieces condition) with
  | error e => rfl
  | ok answered =>
      simp only [bind, Except.bind, (h answered ha).expand_eq line line']

end ShaderBridge
