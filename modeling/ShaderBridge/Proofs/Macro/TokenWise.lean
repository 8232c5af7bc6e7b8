import ShaderBridge.Proofs.Macro.Seams
import ShaderBridge.Proofs.Token.Borders

namespace ShaderBridge

/-- Every macro is replaced wherever its name stands, and no operands are pasted together. -/
def MacroTable.ObjectLike (t : MacroTable) : Prop :=
  ∀ name definition, t.find? name = some definition →
    definition.params = none ∧ cutAt? ['#', '#'] definition.body = none

/-- The macro that a piece names, if it is not hidden. -/
def MacroTable.enabled? (t : MacroTable) (hidden : List String) (p : Piece) :
    Option MacroDefinition :=
  if p.kind = .word ∧ p.name ∉ hidden then t.find? p.name else none

variable {t : MacroTable} {hidden : List String} {p : Piece} {ps : List Piece}
  {definition : MacroDefinition}

theorem MacroTable.find?_of_enabled? (h : t.enabled? hidden p = some definition) :
    t.find? p.name = some definition ∧ p.name ∉ hidden := by
  unfold enabled? at h
  split at h
  · next hword => exact ⟨h, hword.2⟩
  · cases h

theorem MacroTable.freshNames_of_enabled? (h : t.enabled? hidden p = some definition) :
    freshNames t (p.name :: hidden) < freshNames t hidden :=
  have hfound := find?_of_enabled? h
  freshNames_cons_lt (mem_names_of_find? hfound.1) hfound.2

/-- The texts that a replacement consists of, cut wherever a name is replaced. Each is to be read as
tokens on its own: what is kept in front of the first name, then the texts that its body consists
of, and so on up to what is kept behind the last one. -/
def stretches (t : MacroTable) (line : Nat) (hidden : List String) :
    List Piece → List (List Char)
  | [] => [[]]
  | p :: ps =>
    if p.isLineName then [] :: (decimal line).toList :: stretches t line hidden ps
    else
      match _h : t.enabled? hidden p with
      | none => prependToFirst p.text (stretches t line hidden ps)
      | some definition =>
        [] :: (stretches t line (p.name :: hidden) (pieces definition.body) ++
          stretches t line hidden ps)
termination_by ps => (freshNames t hidden, ps.length)
decreasing_by
  · exact Prod.Lex.right _ (Nat.lt_succ_self _)
  · exact Prod.Lex.right _ (Nat.lt_succ_self _)
  · exact Prod.Lex.left _ _ (MacroTable.freshNames_of_enabled? _h)
  · exact Prod.Lex.right _ (Nat.lt_succ_self _)

/-- The texts that expanded source lines consist of, the first of which has the given number. -/
def lineStretches (t : MacroTable) (line : Nat) : List Piece → List (List Char)
  | [] => [[]]
  | p :: ps =>
    if p.isSpace then prependToFirst p.text (lineStretches t (line + lineFeeds p.text) ps)
    else if p.isLineName then [] :: (decimal line).toList :: lineStretches t line ps
    else
      match t.enabled? [] p with
      | none => prependToFirst p.text (lineStretches t line ps)
      | some definition =>
        [] :: (stretches t line [p.name] (pieces definition.body) ++ lineStretches t line ps)

theorem flatten_prependToFirst (text : List Char) (texts : List (List Char)) :
    (prependToFirst text texts).flatten = text ++ texts.flatten := by
  cases texts with
  | nil => rfl
  | cons first texts => exact List.append_assoc text first texts.flatten

theorem substitute_no_arguments (afterPaste : Bool) (ps : List Piece) :
    substitute [] afterPaste ps = .ok (Piece.textOf ps) := by
  have hparameter (p : Piece) : parameter? [] p = none := by
    unfold parameter?
    split <;> rfl
  have hnext (ps : List Piece) : nextParameter? [] ps = none := by
    unfold nextParameter?
    cases Piece.next? ps with
    | none => rfl
    | some found =>
        show (parameter? [] found.1 >>= _) = none
        rw [hparameter]
        rfl
  induction ps generalizing afterPaste with
  | nil => rw [substitute, Piece.textOf_nil]
  | cons p ps ih =>
      rw [substitute_piece (by rw [hnext, ite_self]), hparameter]
      show (p.text ++ ·) <$> substitute [] _ ps = _
      rw [ih]
      rfl

theorem paste_of_cutAt?_eq_none {cs : List Char} (h : cutAt? ['#', '#'] cs = none) :
    paste cs = cs := by
  unfold paste
  split
  · rfl
  · next hcut => cases h.symm.trans hcut

namespace MacroTable.ObjectLike

variable (h : t.ObjectLike)
include h

theorem macroUse?_eq (hidden : List String) (p : Piece) (ps : List Piece) :
    macroUse? t hidden p ps =
      .ok ((t.enabled? hidden p).map fun definition => ⟨p.name, definition, [], ps⟩) := by
  unfold macroUse?
  show (match t.enabled? hidden p with | none => _ | some definition => _) = _
  cases hfound : t.enabled? hidden p with
  | none => rfl
  | some definition =>
      dsimp only
      rw [(h _ _ (find?_of_enabled? hfound).1).1]
      rfl

theorem replacement_eq (hfound : t.enabled? hidden p = some definition) (line : Nat) :
    (⟨p.name, definition, [], ps⟩ : MacroUse).replacement t line hidden =
      expand t line (p.name :: hidden) (pieces definition.body) := by
  obtain ⟨hparams, hpaste⟩ := h _ _ (find?_of_enabled? hfound).1
  have hbody : (⟨p.name, definition, [], ps⟩ : MacroUse).body [] = .ok definition.body := by
    rw [MacroUse.body, MacroUse.bind, hparams]
    show paste <$> substitute [] false (pieces definition.body) = _
    rw [substitute_no_arguments, Piece.textOf_pieces]
    exact congrArg Except.ok (paste_of_cutAt?_eq_none hpaste)
  show (MacroUse.body _ [] >>= fun body => expand t line (p.name :: hidden) (pieces body)) = _
  rw [hbody]
  rfl

/-- Expansion of such macros never fails, and it puts the texts one behind the other. -/
theorem expand_eq (line : Nat) (hidden : List String) (ps : List Piece) :
    expand t line hidden ps = .ok (stretches t line hidden ps).flatten := by
  fun_induction stretches t line hidden ps with
  | case1 hidden => exact expand_nil t line hidden
  | case2 hidden p ps hl ih =>
      rw [expand_lineName _ _ _ hl, ih]
      rfl
  | case3 hidden p ps hl hfound ih =>
      have hu := h.macroUse?_eq hidden p ps
      rw [hfound] at hu
      rw [expand_kept _ _ _ (eq_false_of_ne_true hl) hu, ih, flatten_prependToFirst]
      rfl
  | case4 hidden p ps hl definition hfound ihbody ih =>
      have hu := h.macroUse?_eq hidden p ps
      rw [hfound] at hu
      rw [expand_use _ _ _ (eq_false_of_ne_true hl) hu, h.replacement_eq hfound, ihbody]
      show (_ ++ ·) <$> expand t line hidden ps = _
      rw [ih, List.flatten_cons, List.flatten_append]
      rfl

theorem expandLines_eq (line : Nat) (ps : List Piece) :
    expandLines t line 0 ps = .ok (lineStretches t line ps).flatten := by
  fun_induction lineStretches t line ps with
  | case1 line => exact expandLines_nil t line 0
  | case2 line p ps hs ih =>
      rw [flatten_prependToFirst]
      cases hn : lineFeeds p.text with
      | zero =>
          rw [hn, Nat.add_zero] at ih
          rw [expandLines_blank _ _ _ hs hn, ih]
          rfl
      | succ n =>
          rw [hn] at ih
          rw [expandLines_feeds _ _ _ hs hn, ih]
          rfl
  | case3 line p ps hs hl ih =>
      rw [expandLines_lineName _ _ _ (eq_false_of_ne_true hs) hl, ih]
      rfl
  | case4 line p ps hs hl hfound ih =>
      have hu := h.macroUse?_eq [] p ps
      rw [hfound] at hu
      rw [expandLines_kept _ _ _ (eq_false_of_ne_true hs) (eq_false_of_ne_true hl) hu, ih,
        flatten_prependToFirst]
      rfl
  | case5 line p ps hs hl definition hfound ih =>
      have hu := h.macroUse?_eq [] p ps
      rw [hfound] at hu
      have hr : (⟨p.name, definition, [], ps⟩ : MacroUse).replacement t line [] = _ :=
        (h.replacement_eq hfound line).trans (h.expand_eq line _ _)
      rw [expandLines_use _ _ _ (eq_false_of_ne_true hs) (eq_false_of_ne_true hl) hu hr,
        Nat.sub_self, Nat.zero_sub, Nat.add_zero, ih, List.flatten_cons, List.flatten_append]
      rfl

end MacroTable.ObjectLike

/-- Tables of macros without parameters and without pasting: expansion yields a text, and its tokens
are those of the texts between the borders of the replacements if no token and no comment has
characters on both sides of a border. Where no comments are there, they are only then. -/
theorem tokens_of_expandSource (h : t.ObjectLike) (line : Nat) (text : List Char) :
    ∃ out, expandSource t line text = .ok out ∧
      ∀ tokens, tokensApart 0 (lineStretches t line (pieces text)) = .ok tokens →
        (KeepsBorders (lineStretches t line (pieces text)) → tokensFrom 0 out = .ok tokens) ∧
        (tokensFrom 0 out = .ok tokens →
          (∀ s ∈ lineStretches t line (pieces text), ¬HasComment s) →
            KeepsBorders (lineStretches t line (pieces text))) := by
  refine ⟨_, (expandSource_eq t line text).trans (h.expandLines_eq line _), ?_⟩
  intro tokens htokens
  exact ⟨fun hkeeps => hkeeps.tokensFrom_flatten htokens,
    fun hout hcomments => keepsBorders_of_tokensFrom_flatten hcomments htokens hout⟩

/-- A name that stands for a minus sign. -/
def minusTable : MacroTable := ⟨[("MINUS", ⟨none, ['-']⟩)]⟩

theorem objectLike_minusTable : minusTable.ObjectLike := by
  intro name definition h
  rw [MacroTable.find?, minusTable, List.lookup_cons, List.lookup_nil] at h
  split at h
  · cases h
    exact ⟨rfl, rfl⟩
  · cases h

theorem lineStretches_minusTable (ps : List Piece) :
    lineStretches minusTable 1 (⟨.word, "MINUS".toList⟩ :: ps) =
      [] :: ['-'] :: lineStretches minusTable 1 ps := by
  have hbody : stretches minusTable 1 ["MINUS"] (pieces ['-']) = [['-']] := by
    have hpieces : pieces ['-'] = [⟨.mark, ['-']⟩] := by decide +kernel
    have hfound : minusTable.enabled? ["MINUS"] ⟨.mark, ['-']⟩ = none := rfl
    rw [hpieces, stretches, if_neg (by decide)]
    split
    · rw [stretches]
      rfl
    · next h => cases hfound.symm.trans h
  have hname : Piece.name ⟨.word, "MINUS".toList⟩ = "MINUS" := by decide
  have hfound : minusTable.enabled? [] ⟨.word, "MINUS".toList⟩ = some ⟨none, ['-']⟩ := by decide
  rw [lineStretches, if_neg (by decide), if_neg (by decide), hfound, hname]
  dsimp only
  rw [hbody]
  rfl

/-- In front of a blank the minus sign stays one. -/
theorem tokens_of_expandSource_minus : minusTable.ObjectLike ∧
    ∃ out, expandSource minusTable 1 "MINUS x".toList = .ok out ∧
      tokensFrom 0 out =
        .ok [⟨.punct .minus, ⟨0, 1⟩⟩, ⟨.ident "x", ⟨2, 3⟩⟩, ⟨.endOfFile, ⟨3, 3⟩⟩] := by
  have hstretches :
      lineStretches minusTable 1 (pieces "MINUS x".toList) = [[], ['-'], [' ', 'x']] := by
    have hpieces : pieces "MINUS x".toList =
        [⟨.word, "MINUS".toList⟩, ⟨.space, [' ']⟩, ⟨.word, ['x']⟩] := by
      decide +kernel
    rw [hpieces, lineStretches_minusTable]
    rfl
  have hminus : lexeme '-' [] = .token (.punct .minus) 0 := rfl
  have hx : lexeme 'x' [] = .token (.ident "x") 0 := rfl
  have hlast := (tokensFrom_blank (c := ' ') rfl 1 ['x']).trans
    (tokensFrom_token_eq_ok hx (tokensFrom_nil 3))
  have hkeeps : KeepsBorders [[], ['-'], [' ', 'x']] := by
    refine keepsBorders_cons.mpr ⟨.nil, keepsBorders_cons.mpr ⟨.token rfl rfl .nil, ?_⟩⟩
    exact keepsBorders_cons.mpr ⟨.blank rfl (.token rfl rfl .nil), keepsBorders_nil⟩
  obtain ⟨out, hout, htokens⟩ := tokens_of_expandSource objectLike_minusTable 1 "MINUS x".toList
  rw [hstretches] at htokens
  refine ⟨objectLike_minusTable, out, hout, (htokens _ ?_).1 hkeeps⟩
  refine tokensApart_cons_eq_ok.mpr ⟨_, _, tokensFrom_nil 0, ?_, rfl⟩
  refine tokensApart_cons_eq_ok.mpr
    ⟨_, _, tokensFrom_token_eq_ok hminus (tokensFrom_nil 1), ?_, rfl⟩
  exact tokensApart_cons_eq_ok.mpr ⟨_, _, hlast, rfl, rfl⟩

/-- In front of another one the two are read as a decrement, though no replacement has one. -/
theorem minus_grows_into_decrement : minusTable.ObjectLike ∧
    tokensApart 0 (lineStretches minusTable 1 (pieces "MINUS-x".toList)) =
      .ok [⟨.punct .minus, ⟨0, 1⟩⟩, ⟨.punct .minus, ⟨1, 2⟩⟩, ⟨.ident "x", ⟨2, 3⟩⟩,
        ⟨.endOfFile, ⟨3, 3⟩⟩] ∧
    expandSource minusTable 1 "MINUS-x".toList = .ok ['-', '-', 'x'] ∧
    tokensFrom 0 ['-', '-', 'x'] =
      .ok [⟨.punct .minusMinus, ⟨0, 2⟩⟩, ⟨.ident "x", ⟨2, 3⟩⟩, ⟨.endOfFile, ⟨3, 3⟩⟩] := by
  have hstretches :
      lineStretches minusTable 1 (pieces "MINUS-x".toList) = [[], ['-'], ['-', 'x']] := by
    have hpieces : pieces "MINUS-x".toList =
        [⟨.word, "MINUS".toList⟩, ⟨.mark, ['-']⟩, ⟨.word, ['x']⟩] := by
      decide +kernel
    rw [hpieces, lineStretches_minusTable]
    rfl
  have hminus : lexeme '-' [] = .token (.punct .minus) 0 := rfl
  have hminusx : lexeme '-' ['x'] = .token (.punct .minus) 0 := rfl
  have hdecrement : lexeme '-' ['-', 'x'] = .token (.punct .minusMinus) 1 := rfl
  have hx : lexeme 'x' [] = .token (.ident "x") 0 := rfl
  have hlast := tokensFrom_token_eq_ok hminusx
    (tokensFrom_token_eq_ok hx (tokensFrom_nil 3) : tokensFrom 2 ['x'] = _)
  refine ⟨objectLike_minusTable, ?_, ?_, ?_⟩
  · rw [hstretches]
    refine tokensApart_cons_eq_ok.mpr ⟨_, _, tokensFrom_nil 0, ?_, rfl⟩
    refine tokensApart_cons_eq_ok.mpr
      ⟨_, _, tokensFrom_token_eq_ok hminus (tokensFrom_nil 1), ?_, rfl⟩
    exact tokensApart_cons_eq_ok.mpr ⟨_, _, hlast, rfl, rfl⟩
  · rw [expandSource_eq, objectLike_minusTable.expandLines_eq, hstretches]
    rfl
  · exact tokensFrom_token_eq_ok hdecrement (tokensFrom_token_eq_ok hx (tokensFrom_nil 3))

end ShaderBridge
