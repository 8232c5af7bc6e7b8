import ShaderBridge.Proofs.Parse.Grouping
import ShaderBridge.Proofs.Token.Spelling

namespace ShaderBridge

/-! ### Parentheses -/

namespace Tree

/-- The precedence of the operator that a tree consists of at last. -/
def precedence : Tree → Nat
  | binary op _ _ => (InfixOp.binary op).binding
  | assign op _ _ => (InfixOp.assign op).binding
  | choice .. => InfixOp.choice.binding
  | sequence .. => InfixOp.sequence.binding
  | _ => 15

/-- Choices and sequences, which stand in parentheses wherever they are operands. -/
def isLoose : Tree → Bool
  | choice .. | sequence .. => true
  | _ => false

def isAssignment : Tree → Bool
  | assign .. => true
  | _ => false

/-- Names, literals and what has an operator in front, which need no parentheses behind a prefix
operator. -/
def isTight : Tree → Bool
  | literal _ | var _ | unary .. => true
  | _ => false

/-- Whether a left operand needs parentheses. -/
def closesLeft (op : InfixOp) (t : Tree) : Bool :=
  t.isLoose || t.precedence < op.binding

/-- Whether a right operand needs parentheses. An assignment on the right of an assignment does
not. -/
def closesRight (op : InfixOp) (t : Tree) : Bool :=
  t.isLoose || t.precedence ≤ op.binding && !(op.isAssign && t.isAssignment)

/-- Whether an operand of a choice needs parentheses. -/
def closesInChoice (t : Tree) : Bool :=
  t.isLoose || t.isAssignment

end Tree

def Phrase.closeIf (close : Bool) (p : Phrase) : Phrase :=
  if close then .group p else p

/-- A tree as it is written, with the parentheses that it needs. -/
def Tree.phrase : Tree → Phrase
  | literal c => .literal c
  | var v => .var v
  | unary op t => .prefixed op (t.phrase.closeIf !t.isTight)
  | swizzle t name => .swizzle (t.phrase.closeIf !t.isTight) name
  | binary op l r =>
    .operation (.binary op) (l.phrase.closeIf (l.closesLeft (.binary op)))
      (r.phrase.closeIf (r.closesRight (.binary op)))
  | assign op l r =>
    .operation (.assign op) (l.phrase.closeIf (l.closesLeft (.assign op)))
      (r.phrase.closeIf (r.closesRight (.assign op)))
  | sequence l r =>
    .operation .sequence (l.phrase.closeIf (l.closesLeft .sequence))
      (r.phrase.closeIf (r.closesRight .sequence))
  | choice c t f =>
    .choice (c.phrase.closeIf c.closesInChoice) (t.phrase.closeIf t.closesInChoice)
      (f.phrase.closeIf f.closesInChoice)

/-! ### Trees of the table -/

namespace Shader

/-- Only what is neither an input nor constant may be written to. -/
def IsWritable (s : Shader) (v : VarId) : Prop :=
  (s.var v).storage? ≠ some .input ∧ (s.var v).isImmutable = false

/-- A variable goes by its name where some variables are in scope, and the name is no keyword. -/
structure IsNamed (s : Shader) (scopes : List (List VarId)) (v : VarId) : Prop where
  found : scopes.flatten.find? (fun id => (s.var id).name == (s.var v).name) = some v
  isWord : isWord (s.var v).name.toList
  ofWord : Lexeme.ofWord (s.var v).name = .ident (s.var v).name

end Shader

/-- Whether a tree consists of integers without a sign, variables, the four operators that stand in
front of their operand, all operators between two operands, and choices. Only variables that may be
written to are assigned to. -/
def Tree.IsTabled (s : Shader) : Tree → Prop
  | literal c => c.isNatural
  | var _ => True
  | unary op t => op.isStep = false ∧ t.IsTabled s
  | binary _ l r | sequence l r => l.IsTabled s ∧ r.IsTabled s
  | assign _ l r => (∃ v, l = var v ∧ s.IsWritable v) ∧ r.IsTabled s
  | choice c t f => c.IsTabled s ∧ t.IsTabled s ∧ f.IsTabled s
  | swizzle .. => False

variable {s : Shader} {t l r : Tree} {op : InfixOp} {close : Bool}

namespace Phrase

theorem tree_closeIf (close : Bool) (p : Phrase) : (p.closeIf close).tree = p.tree := by
  cases close <;> rfl

theorem grouped_closeIf {p : Phrase} (hp : p.Grouped) (close : Bool) :
    (p.closeIf close).Grouped := by
  cases close <;> exact hp

theorem level_closeIf (close : Bool) (p : Phrase) :
    (p.closeIf close).level = if close then 15 else p.level := by
  cases close <;> rfl

end Phrase

namespace Tree

theorem tree_phrase (t : Tree) : t.phrase.tree = t := by
  induction t with
  | literal | var => rfl
  | unary op t ih | swizzle t name ih => simp only [phrase, Phrase.tree, Phrase.tree_closeIf, ih]
  | binary op l r ihl ihr | assign op l r ihl ihr | sequence l r ihl ihr =>
      simp only [phrase, Phrase.tree, Phrase.tree_closeIf, ihl, ihr]
  | choice c t f ihc iht ihf => simp only [phrase, Phrase.tree, Phrase.tree_closeIf, ihc, iht, ihf]

theorem level_phrase (t : Tree) : t.phrase.level = t.precedence := by
  cases t <;> rfl

theorem three_lt_binding (op : BinaryOp) : 3 < (InfixOp.binary op).binding := by
  cases op <;> decide

theorem precedence_ne_three (h : t.isLoose = false) : t.precedence ≠ 3 := by
  cases t with
  | binary op l r => exact Nat.ne_of_gt (three_lt_binding op)
  | assign op l r => exact (by decide : 2 ≠ 3)
  | choice | sequence => cases h
  | _ => exact (by decide : 15 ≠ 3)

theorem precedence_of_isAssignment (h : t.isAssignment) : t.precedence = 2 := by
  cases t with
  | assign => rfl
  | _ => cases h

theorem le_reach_of_closesLeft (hop : op.isAssign = false) :
    op.binding ≤ (l.phrase.closeIf (l.closesLeft op)).reach := by
  have hlevel := Phrase.level_closeIf (l.closesLeft op) l.phrase
  rw [level_phrase] at hlevel
  cases hclose : l.closesLeft op with
  | true => exact Nat.le_of_lt op.binding_lt
  | false =>
      obtain ⟨hloose, hle⟩ := Bool.or_eq_false_iff.1 hclose
      have hle := Nat.not_lt.1 (of_decide_eq_false hle)
      rw [hclose] at hlevel
      refine Phrase.le_reach (by rw [hlevel]; exact hle)
        (by rw [hlevel]; exact precedence_ne_three hloose) fun htwo => ?_
      have : op.binding ≠ 2 := fun h => by
        rw [Parse.isAssign_of_binding h] at hop
        cases hop
      rw [hlevel] at htwo
      have htwo : l.precedence = 2 := htwo
      omega

theorem lt_level_of_closesRight (r : Tree) (op : InfixOp) :
    (r.phrase.closeIf (r.closesRight op)).level ≠ 3 ∧
      if op.isAssign then 2 ≤ (r.phrase.closeIf (r.closesRight op)).level
      else op.binding < (r.phrase.closeIf (r.closesRight op)).level := by
  rw [Phrase.level_closeIf, level_phrase]
  cases hclose : r.closesRight op with
  | true =>
      refine ⟨(by decide : 15 ≠ 3), ?_⟩
      rw [if_pos rfl]
      split
      · decide
      · exact op.binding_lt
  | false =>
      obtain ⟨hloose, hle⟩ := Bool.or_eq_false_iff.1 hclose
      rw [if_neg Bool.false_ne_true]
      refine ⟨precedence_ne_three hloose, ?_⟩
      rcases Bool.and_eq_false_iff.1 hle with hle | hassign
      · have hlt := Nat.not_le.1 (of_decide_eq_false hle)
        split
        · next h =>
            rw [Parse.binding_of_isAssign h] at hlt
            exact Nat.le_of_lt hlt
        · exact hlt
      · obtain ⟨hop, hr⟩ : op.isAssign ∧ r.isAssignment := by simpa using hassign
        rw [if_pos hop, precedence_of_isAssignment hr]

theorem lt_level_of_closesInChoice (t : Tree) :
    3 < (t.phrase.closeIf t.closesInChoice).level := by
  rw [Phrase.level_closeIf, level_phrase]
  cases hclose : t.closesInChoice with
  | true => exact (by decide : 3 < 15)
  | false =>
      obtain ⟨hloose, hassign⟩ := Bool.or_eq_false_iff.1 hclose
      cases t with
      | binary op l r => exact three_lt_binding op
      | choice | sequence => cases hloose
      | assign => cases hassign
      | _ => exact (by decide : 3 < 15)

theorem level_of_isTight (ht : t.isTight) : t.phrase.level = 15 := by
  cases t <;> first | rfl | cases ht

/-- The operators of a tree of the table take the operands that the tree gives them. -/
theorem IsTabled.grouped (ht : t.IsTabled s) : t.phrase.Grouped := by
  induction t with
  | literal | var => trivial
  | swizzle => exact ht.elim
  | unary op t ih =>
      obtain ⟨hop, ht⟩ := ht
      refine ⟨by cases op <;> first | rfl | (cases hop), Phrase.grouped_closeIf (ih ht) _, ?_⟩
      rw [Phrase.level_closeIf]
      cases htight : t.isTight with
      | true => exact level_of_isTight htight
      | false => rfl
  | binary op l r ihl ihr =>
      obtain ⟨hchoice, hlevel⟩ := lt_level_of_closesRight r (.binary op)
      exact ⟨InfixOp.noConfusion, Phrase.grouped_closeIf (ihl ht.1) _,
        Phrase.grouped_closeIf (ihr ht.2) _, le_reach_of_closesLeft rfl, hchoice, hlevel⟩
  | sequence l r ihl ihr =>
      obtain ⟨hchoice, hlevel⟩ := lt_level_of_closesRight r .sequence
      exact ⟨InfixOp.noConfusion, Phrase.grouped_closeIf (ihl ht.1) _,
        Phrase.grouped_closeIf (ihr ht.2) _, le_reach_of_closesLeft rfl, hchoice, hlevel⟩
  | assign op l r ihl ihr =>
      obtain ⟨⟨v, rfl, _⟩, hr⟩ := ht
      obtain ⟨hchoice, hlevel⟩ := lt_level_of_closesRight r (.assign op)
      exact ⟨InfixOp.noConfusion, trivial, Phrase.grouped_closeIf (ihr hr) _, (by decide : 2 ≤ 15),
        hchoice, rfl, hlevel⟩
  | choice c t f ihc iht ihf =>
      exact ⟨Phrase.grouped_closeIf (ihc ht.1) _, Phrase.grouped_closeIf (iht ht.2.1) _,
        Phrase.grouped_closeIf (ihf ht.2.2) _, lt_level_of_closesInChoice c,
        Nat.lt_trans (by decide) (lt_level_of_closesInChoice f)⟩

variable {scopes : List (List VarId)}

theorem IsTabled.fits (ht : t.IsTabled s) (hvars : ∀ v ∈ t.vars, s.IsNamed scopes v) :
    t.Fits s.var scopes := by
  induction t with
  | literal => trivial
  | var v => exact (hvars v (List.mem_singleton_self v)).found
  | swizzle => exact ht.elim
  | unary op t ih => exact ih ht.2 hvars
  | binary op l r ihl ihr | sequence l r ihl ihr =>
      exact ⟨ihl ht.1 fun v hv => hvars v (List.mem_append_left _ hv),
        ihr ht.2 fun v hv => hvars v (List.mem_append_right _ hv)⟩
  | assign op l r ihl ihr =>
      obtain ⟨⟨v, rfl, hwritable⟩, hr⟩ := ht
      exact ⟨(hvars v List.mem_cons_self).found,
        ihr hr fun v hv => hvars v (List.mem_append_right _ hv), v, rfl, hwritable⟩
  | choice c t f ihc iht ihf =>
      exact ⟨ihc ht.1 fun v hv => hvars v (List.mem_append_left _ (List.mem_append_left _ hv)),
        iht ht.2.1 fun v hv => hvars v (List.mem_append_left _ (List.mem_append_right _ hv)),
        ihf ht.2.2 fun v hv => hvars v (List.mem_append_right _ hv)⟩

end Tree

theorem Phrase.mem_kinds_closeIf {name : VarId → String} {p : Phrase} {kind : TokenKind}
    (h : kind ∈ (p.closeIf close).kinds name) : kind ∈ p.kinds name ∨ ∃ q, kind = .punct q := by
  cases close with
  | false => exact .inl h
  | true =>
      rcases List.mem_cons.1 h with rfl | h
      · exact .inr ⟨_, rfl⟩
      rcases List.mem_append.1 h with h | h
      · exact .inl h
      · exact .inr ⟨_, List.mem_singleton.1 h⟩

theorem TokenKind.isSpelled_closeIf {name : VarId → String} {p : Phrase}
    (hp : ∀ kind ∈ p.kinds name, kind.IsSpelled) :
    ∀ kind ∈ (p.closeIf close).kinds name, kind.IsSpelled := by
  intro kind h
  rcases Phrase.mem_kinds_closeIf h with h | ⟨q, rfl⟩
  · exact hp kind h
  · trivial

theorem Tree.IsTabled.isSpelled {scopes : List (List VarId)} (ht : t.IsTabled s)
    (hvars : ∀ v ∈ t.vars, s.IsNamed scopes v) :
    ∀ kind ∈ t.phrase.kinds fun v => (s.var v).name, kind.IsSpelled := by
  have hmark (op : InfixOp) {p q : Phrase}
      (hp : ∀ kind ∈ p.kinds fun v => (s.var v).name, kind.IsSpelled)
      (hq : ∀ kind ∈ q.kinds fun v => (s.var v).name, kind.IsSpelled) :
      ∀ kind ∈ (Phrase.operation op p q).kinds fun v => (s.var v).name, kind.IsSpelled :=
    List.forall_mem_append.2 ⟨hp, List.forall_mem_cons.2 ⟨trivial, hq⟩⟩
  induction t with
  | literal c => exact List.forall_mem_singleton.2 ht
  | var v =>
      have hv := hvars v (List.mem_singleton_self v)
      exact List.forall_mem_singleton.2 ⟨hv.isWord, hv.ofWord⟩
  | swizzle => exact ht.elim
  | unary op t ih =>
      exact List.forall_mem_cons.2 ⟨trivial, TokenKind.isSpelled_closeIf (ih ht.2 hvars)⟩
  | binary op l r ihl ihr | sequence l r ihl ihr =>
      exact hmark _
        (TokenKind.isSpelled_closeIf (ihl ht.1 fun v hv => hvars v (List.mem_append_left _ hv)))
        (TokenKind.isSpelled_closeIf (ihr ht.2 fun v hv => hvars v (List.mem_append_right _ hv)))
  | assign op l r ihl ihr =>
      obtain ⟨⟨v, rfl, _⟩, hr⟩ := ht
      exact hmark _
        (TokenKind.isSpelled_closeIf (ihl trivial fun v hv => hvars v (List.mem_append_left _ hv)))
        (TokenKind.isSpelled_closeIf (ihr hr fun v hv => hvars v (List.mem_append_right _ hv)))
  | choice c t f ihc iht ihf =>
      refine List.forall_mem_append.2 ⟨TokenKind.isSpelled_closeIf (ihc ht.1 fun v hv => hvars v
          (List.mem_append_left _ (List.mem_append_left _ hv))), List.forall_mem_cons.2 ⟨trivial,
        List.forall_mem_append.2 ⟨TokenKind.isSpelled_closeIf (iht ht.2.1 fun v hv => hvars v
          (List.mem_append_left _ (List.mem_append_right _ hv))), List.forall_mem_cons.2 ⟨trivial,
        TokenKind.isSpelled_closeIf (ihf ht.2.2 fun v hv => hvars v
          (List.mem_append_right _ hv))⟩⟩⟩⟩

/-! ### Reading back -/

namespace Parse

/-- The marks that only close something. -/
def closingMarks : List Punct :=
  [.rightParen, .rightBracket, .rightBrace, .semicolon, .colon]

/-- Marks at which an expression may end: those that close something, and the comma where the
expression is no sequence. -/
def MayEnd (ends : List Punct) (t : Tree) : Prop :=
  ∀ p ∈ ends, p ∈ closingMarks ∨ p = .comma ∧ ∀ l r, t ≠ .sequence l r

/-- The expression ends here: at one of the given marks, or with the file. -/
def IsEnd (ends : List Punct) (rest : List Token) : Prop :=
  kindAt rest = .endOfFile ∨ ∃ p ∈ ends, kindAt rest = .punct p

variable {ends : List Punct} {rest : List Token} {scopes : List (List VarId)}

theorem ofPunct?_closing {p : Punct} (hp : p ∈ closingMarks) :
    InfixOp.ofPunct? p = none ∧ isSelection (.punct p) = false := by
  revert p
  decide

theorem MayEnd.isSelection (h : MayEnd ends t) (hrest : IsEnd ends rest) :
    isSelection (kindAt rest) = false := by
  rcases hrest with hrest | ⟨p, hp, hrest⟩
  · rw [hrest]
    rfl
  · rw [hrest]
    rcases h p hp with hp | ⟨rfl, _⟩
    · exact (ofPunct?_closing hp).2
    · rfl

theorem IsEnd.infixAt? (hrest : IsEnd ends rest) : infixAt? ends (kindAt rest) = none := by
  rcases hrest with hrest | ⟨p, hp, hrest⟩
  · rw [hrest]
    rfl
  · rw [hrest]
    exact if_pos (List.contains_iff_mem.2 hp)

theorem MayEnd.open (h : MayEnd ends t) (ht : t.IsTabled s) : Open ends t.phrase := by
  intro op hop
  rcases h op.mark hop with hp | ⟨hcomma, hsequence⟩
  · have hclosing := (ofPunct?_closing hp).1
    rw [InfixOp.ofPunct?_mark] at hclosing
    cases hclosing
  · refine ⟨InfixOp.binding_eq_one_of_mark hcomma, ?_⟩
    rw [Tree.level_phrase]
    cases t with
    | sequence l r => exact absurd rfl (hsequence l r)
    | swizzle => exact ht.elim
    | binary op l r => exact Nat.lt_trans (by decide) (Tree.three_lt_binding op)
    | assign => exact (by decide : 1 < 2)
    | choice => exact (by decide : 1 < 3)
    | _ => exact (by decide : 1 < 15)

/-- A tree of the table is written with blanks between its tokens and with parentheses only where
its operators need them. From what is written an expression is read that has the shape of the tree,
and nothing of it is left. -/
theorem expression_of_spaced (t : Tree) (ht : t.IsTabled s)
    (hvars : ∀ v ∈ t.vars, s.IsNamed scopes v) :
    ∃ tokens place,
      tokenize (String.ofList (TokenKind.spaced (t.phrase.kinds fun v => (s.var v).name))) =
        .ok (tokens ++ [⟨.endOfFile, place⟩]) ∧
      ∀ ends rest calls, MayEnd ends t → IsEnd ends rest →
        ∃ id s', (expression ends).run ⟨tokens ++ rest, s, scopes, calls⟩ =
            .ok (id, ⟨rest, s', scopes, calls⟩) ∧
          s'.Shows t id ∧ s.Adds t.size s' := by
  obtain ⟨_, htokens, tokens, place, rfl, hkinds⟩ :=
    TokenKind.lexes_spaced (ht.isSpelled hvars) 0
  refine ⟨tokens, place, ?_, fun ends rest calls hends hrest => ?_⟩
  · rw [tokenize, String.toList_ofList]
    exact htokens
  · have hst : Starts t.phrase ⟨tokens ++ rest, s, scopes, calls⟩ rest :=
      ⟨⟨tokens, rfl, hkinds⟩, by rw [t.tree_phrase]; exact ht.fits hvars⟩
    obtain ⟨id, ⟨_, s', _, _⟩, hrun, hyields⟩ := exists_run_expression ht.grouped hst
      (hends.isSelection hrest) hrest.infixAt? (hends.open ht)
    obtain ⟨rfl, rfl, rfl, hadds, hshows⟩ := hyields
    rw [t.tree_phrase] at hadds hshows
    exact ⟨id, s', hrun, hshows, hadds⟩

/-- Two variables that may be written to. -/
def twoVariables : Shader :=
  { stage := .fragment
    vars := #[{ name := "a", type := .builtin (.scalar .int), role := .localVar none },
      { name := "b", type := .builtin (.scalar .int), role := .localVar none }] }

/-- The tree of `a = b - ( a - 3 ) , - b`. -/
def twoSteps : Tree :=
  .sequence (.assign .assign (.var ⟨0⟩) (.binary .sub (.var ⟨1⟩) (.binary .sub (.var ⟨0⟩)
    (.literal (.int 3))))) (.unary .minus (.var ⟨1⟩))

theorem twoSteps_of_spaced :
    twoSteps.IsTabled twoVariables ∧
      (∀ v ∈ twoSteps.vars, twoVariables.IsNamed [[⟨1⟩, ⟨0⟩]] v) ∧
      ∃ tokens place, tokenize (String.ofList (TokenKind.spaced
          (twoSteps.phrase.kinds fun v => (twoVariables.var v).name))) =
          .ok (tokens ++ [⟨.endOfFile, place⟩]) ∧
        ∀ ends rest calls, MayEnd ends twoSteps → IsEnd ends rest →
          ∃ id s', (expression ends).run ⟨tokens ++ rest, twoVariables, [[⟨1⟩, ⟨0⟩]], calls⟩ =
              .ok (id, ⟨rest, s', [[⟨1⟩, ⟨0⟩]], calls⟩) ∧
            s'.Shows twoSteps id ∧ twoVariables.Adds twoSteps.size s' := by
  have ha : twoVariables.IsNamed [[⟨1⟩, ⟨0⟩]] ⟨0⟩ := ⟨by decide, by decide, by decide +kernel⟩
  have hb : twoVariables.IsNamed [[⟨1⟩, ⟨0⟩]] ⟨1⟩ := ⟨by decide, by decide, by decide +kernel⟩
  have htabled : twoSteps.IsTabled twoVariables :=
    ⟨⟨⟨⟨0⟩, rfl, by decide, by decide⟩, trivial, trivial,
      (by decide : (Constant.int 3).isNatural)⟩, rfl, trivial⟩
  have hvars : ∀ v ∈ twoSteps.vars, twoVariables.IsNamed [[⟨1⟩, ⟨0⟩]] v :=
    List.forall_mem_cons.2 ⟨ha, List.forall_mem_cons.2 ⟨hb, List.forall_mem_cons.2 ⟨ha,
      List.forall_mem_singleton.2 hb⟩⟩⟩
  exact ⟨htabled, hvars, expression_of_spaced twoSteps htabled hvars⟩

end Parse

end ShaderBridge
