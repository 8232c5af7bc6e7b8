import ShaderBridge.Proofs.Parse.Run

namespace ShaderBridge

def BinaryOp.mark : BinaryOp → Punct
  | .mul => .star
  | .div => .slash
  | .mod => .percent
  | .add => .plus
  | .sub => .minus
  | .shl => .shl
  | .shr => .shr
  | .lt => .lt
  | .gt => .gt
  | .le => .ltEq
  | .ge => .gtEq
  | .eq => .eqEq
  | .ne => .bangEq
  | .bitAnd => .amp
  | .bitXor => .caret
  | .bitOr => .pipe
  | .logicalAnd => .ampAmp
  | .logicalXor => .caretCaret
  | .logicalOr => .pipePipe

def AssignOp.mark : AssignOp → Punct
  | .assign => .eq
  | .add => .plusEq
  | .sub => .minusEq
  | .mul => .starEq
  | .div => .slashEq
  | .mod => .percentEq
  | .shl => .shlEq
  | .shr => .shrEq
  | .bitAnd => .ampEq
  | .bitXor => .caretEq
  | .bitOr => .pipeEq

def UnaryOp.mark : UnaryOp → Punct
  | .plus => .plus
  | .minus => .minus
  | .bitNot => .tilde
  | .logicalNot => .bang
  | .preIncrement | .postIncrement => .plusPlus
  | .preDecrement | .postDecrement => .minusMinus

/-- Whether the operator stands behind its operand. -/
def UnaryOp.isPostfix : UnaryOp → Bool
  | .postIncrement | .postDecrement => true
  | _ => false

theorem UnaryOp.ofPunct?_mark {op : UnaryOp} (h : op.isPostfix = false) :
    UnaryOp.ofPunct? op.mark = some op := by
  cases op <;> first | rfl | cases h

namespace InfixOp

def mark : InfixOp → Punct
  | binary op => op.mark
  | assign op => op.mark
  | choice => .question
  | sequence => .comma

/-- How strongly the operator binds: multiplication most, then sums, shifts, comparisons, equality,
the bitwise and the logical operators, choices, assignments, and sequences least. -/
def binding : InfixOp → Nat
  | binary .mul | binary .div | binary .mod => 14
  | binary .add | binary .sub => 13
  | binary .shl | binary .shr => 12
  | binary .lt | binary .gt | binary .le | binary .ge => 11
  | binary .eq | binary .ne => 10
  | binary .bitAnd => 9
  | binary .bitXor => 8
  | binary .bitOr => 7
  | binary .logicalAnd => 6
  | binary .logicalXor => 5
  | binary .logicalOr => 4
  | choice => 3
  | assign _ => 2
  | sequence => 1

def isAssign : InfixOp → Bool
  | assign _ => true
  | _ => false

theorem ofPunct?_mark (op : InfixOp) : ofPunct? op.mark = some (op, op.binding) := by
  rcases op with op | op | _ | _
  · cases op <;> rfl
  · cases op <;> rfl
  · rfl
  · rfl

theorem binding_lt (op : InfixOp) : op.binding < 15 := by
  rcases op with op | op | _ | _
  · cases op <;> decide
  · exact Nat.lt_of_lt_of_le (Nat.lt_succ_self 2) (by decide)
  · decide
  · decide

theorem binding_eq_one_of_mark {op : InfixOp} (h : op.mark = .comma) : op.binding = 1 := by
  rcases op with op | op | _ | _
  · cases op <;> cases h
  · cases op <;> cases h
  · cases h
  · rfl

end InfixOp

inductive Tree where
  | literal (value : Constant)
  | var (v : VarId)
  | unary (op : UnaryOp) (operand : Tree)
  | binary (op : BinaryOp) (left right : Tree)
  | assign (op : AssignOp) (left right : Tree)
  | sequence (left right : Tree)
  | choice (condition onTrue onFalse : Tree)
  | swizzle (operand : Tree) (name : String)
deriving DecidableEq

namespace Tree

/-- The number of expressions that a tree consists of. -/
def size : Tree → Nat
  | literal _ | var _ => 1
  | unary _ t | swizzle t _ => t.size + 1
  | binary _ l r | assign _ l r | sequence l r => l.size + r.size + 1
  | choice c t f => c.size + t.size + f.size + 1

def vars : Tree → List VarId
  | literal _ => []
  | var v => [v]
  | unary _ t | swizzle t _ => t.vars
  | binary _ l r | assign _ l r | sequence l r => l.vars ++ r.vars
  | choice c t f => c.vars ++ t.vars ++ f.vars

/-- The variable that a swizzle is taken from. -/
def target? : Tree → Option VarId
  | var v => some v
  | swizzle t _ => t.target?
  | _ => none

end Tree

namespace Shader

/-- An expression of a shader has the shape of a tree. -/
def Shows (s : Shader) : Tree → ExprId → Prop
  | .literal c, e => s.exprs[e.index]? = some (.constant c)
  | .var v, e => s.exprs[e.index]? = some (.var v)
  | .unary op t, e => ∃ o, s.exprs[e.index]? = some (.unary op o) ∧ s.Shows t o
  | .binary op l r, e =>
    ∃ a b, s.exprs[e.index]? = some (.binary op a b) ∧ s.Shows l a ∧ s.Shows r b
  | .assign op l r, e =>
    ∃ a b, s.exprs[e.index]? = some (.assign op a b) ∧ s.Shows l a ∧ s.Shows r b
  | .sequence l r, e =>
    ∃ a b, s.exprs[e.index]? = some (.sequence a b) ∧ s.Shows l a ∧ s.Shows r b
  | .choice c t f, e => ∃ a b d, s.exprs[e.index]? = some (.choice a b d) ∧
    s.Shows c a ∧ s.Shows t b ∧ s.Shows f d
  | .swizzle t name, e => ∃ o, s.exprs[e.index]? = some (.member o name none) ∧ s.Shows t o

/-- Some expressions have been added to a shader, and nothing else has changed. -/
def Adds (s : Shader) (count : Nat) (s' : Shader) : Prop :=
  ∃ added : Array Expr, added.size = count ∧ s' = { s with exprs := s.exprs ++ added }

variable {s s' s'' : Shader} {m n : Nat} {e : ExprId}

namespace Adds

theorem trans (h : s.Adds m s') (h' : s'.Adds n s'') : s.Adds (m + n) s'' := by
  obtain ⟨added, rfl, rfl⟩ := h
  obtain ⟨added', rfl, rfl⟩ := h'
  exact ⟨added ++ added', Array.size_append, by rw [Array.append_assoc]⟩

theorem addExpr (s : Shader) (e : Expr) : s.Adds 1 (s.addExpr e).2 :=
  ⟨#[e], rfl, rfl⟩

theorem size_eq (h : s.Adds n s') : s'.exprs.size = s.exprs.size + n := by
  obtain ⟨added, rfl, rfl⟩ := h
  exact Array.size_append

theorem var_eq (h : s.Adds n s') (v : VarId) : s'.var v = s.var v := by
  obtain ⟨added, rfl, rfl⟩ := h
  rfl

theorem getElem? (h : s.Adds n s') {i : Nat} {x : Expr} (hx : s.exprs[i]? = some x) :
    s'.exprs[i]? = some x := by
  obtain ⟨added, rfl, rfl⟩ := h
  have hlt : i < s.exprs.size := (Array.getElem?_eq_some_iff.1 hx).1
  exact (Array.getElem?_append_left hlt).trans hx

end Adds

theorem getElem?_addExpr (s : Shader) (x : Expr) :
    (s.addExpr x).2.exprs[(s.addExpr x).1.index]? = some x :=
  Array.getElem?_push_size

theorem Shows.of_adds (h : s.Adds n s') {t : Tree} (ht : s.Shows t e) : s'.Shows t e := by
  induction t generalizing e with
  | literal | var => exact h.getElem? ht
  | unary _ _ ih | swizzle _ _ ih =>
      obtain ⟨o, hexpr, ho⟩ := ht
      exact ⟨o, h.getElem? hexpr, ih ho⟩
  | binary _ _ _ ihl ihr | assign _ _ _ ihl ihr | sequence _ _ ihl ihr =>
      obtain ⟨a, b, hexpr, ha, hb⟩ := ht
      exact ⟨a, b, h.getElem? hexpr, ihl ha, ihr hb⟩
  | choice _ _ _ ihc iht ihf =>
      obtain ⟨a, b, d, hexpr, ha, hb, hd⟩ := ht
      exact ⟨a, b, d, h.getElem? hexpr, ihc ha, iht hb, ihf hd⟩

theorem expr_of_getElem? {x : Expr} (h : s.exprs[e.index]? = some x) : s.expr e = x := by
  unfold Shader.expr
  rw [Array.getD_eq_getD_getElem?, h]
  rfl

end Shader

inductive Phrase where
  | literal (value : Constant)
  | var (v : VarId)
  | group (inner : Phrase)
  | prefixed (op : UnaryOp) (operand : Phrase)
  | stepped (op : UnaryOp) (operand : Phrase)
  | swizzle (operand : Phrase) (name : String)
  | operation (op : InfixOp) (left right : Phrase)
  | choice (condition onTrue onFalse : Phrase)

namespace Phrase

/-- What is meant, which is the phrase without its parentheses. -/
def tree : Phrase → Tree
  | literal c => .literal c
  | var v => .var v
  | group p => p.tree
  | prefixed op p | stepped op p => .unary op p.tree
  | swizzle p name => .swizzle p.tree name
  | operation (.binary op) l r => .binary op l.tree r.tree
  | operation (.assign op) l r => .assign op l.tree r.tree
  | operation _ l r => .sequence l.tree r.tree
  | choice c t f => .choice c.tree t.tree f.tree

/-- What is written, where variables have the given names. -/
def kinds (name : VarId → String) : Phrase → List TokenKind
  | literal c => [.number c]
  | var v => [.ident (name v)]
  | group p => .punct .leftParen :: (p.kinds name ++ [.punct .rightParen])
  | prefixed op p => .punct op.mark :: p.kinds name
  | stepped op p => p.kinds name ++ [.punct op.mark]
  | swizzle p field => p.kinds name ++ [.punct .dot, .ident field]
  | operation op l r => l.kinds name ++ .punct op.mark :: r.kinds name
  | choice c t f => c.kinds name ++ .punct .question ::
    (t.kinds name ++ .punct .colon :: f.kinds name)

/-- The number of tokens. -/
def length : Phrase → Nat
  | literal _ | var _ => 1
  | group p | swizzle p _ => p.length + 2
  | prefixed _ p | stepped _ p => p.length + 1
  | operation _ l r => l.length + r.length + 1
  | choice c t f => c.length + t.length + f.length + 2

theorem length_kinds (name : VarId → String) (p : Phrase) :
    (p.kinds name).length = p.length := by
  induction p <;> simp_all +arith [kinds, length]

theorem length_pos (p : Phrase) : 0 < p.length := by
  cases p <;> simp [length]

/-- How strongly the operator of a phrase binds that no parentheses close in. -/
def level : Phrase → Nat
  | operation op _ _ => op.binding
  | choice .. => 3
  | _ => 15

/-- How strongly an operator behind a phrase may bind and still take the whole of it as its left
operand. Assignments group to the right, and a choice takes all that follows. -/
def reach (p : Phrase) : Nat :=
  if p.level = 3 then 0 else if p.level = 2 then 1 else p.level

/-- Whether members and steps behind a phrase select from the whole of it. Behind a step nothing is
selected any more, unless an operator in front of the operand has come in between. -/
def isClosed : Phrase → Bool
  | literal _ | var _ | group _ | swizzle .. => true
  | prefixed _ (stepped ..) => true
  | _ => false

/-- Whether each operator takes the operands that it is meant to take. -/
def Grouped : Phrase → Prop
  | literal _ | var _ => True
  | group p => p.Grouped
  | prefixed op p => op.isPostfix = false ∧ p.Grouped ∧ p.level = 15
  | stepped op p => op.isPostfix = true ∧ p.Grouped ∧ p.isClosed
  | swizzle p _ => p.Grouped ∧ p.isClosed
  | operation op l r => op ≠ .choice ∧ l.Grouped ∧ r.Grouped ∧ op.binding ≤ l.reach ∧
    r.level ≠ 3 ∧ if op.isAssign then l.level = 15 ∧ 2 ≤ r.level else op.binding < r.level
  | choice c t f => c.Grouped ∧ t.Grouped ∧ f.Grouped ∧ 3 < c.level ∧ 1 < f.level

theorem reach_le_level (p : Phrase) : p.reach ≤ p.level := by
  unfold reach
  split
  · exact Nat.zero_le _
  · split
    · omega
    · exact Nat.le_refl _

theorem le_reach {p : Phrase} {n : Nat} (hn : n ≤ p.level) (hchoice : p.level ≠ 3)
    (hassign : p.level = 2 → n ≤ 1) : n ≤ p.reach := by
  unfold reach
  rw [if_neg hchoice]
  split
  · next h => exact hassign h
  · exact hn

end Phrase

end ShaderBridge
