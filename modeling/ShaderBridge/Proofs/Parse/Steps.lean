import ShaderBridge.Proofs.Parse.Phrase
import ShaderBridge.Proofs.Parse.Prelude

namespace ShaderBridge

/-! ### Trees in a scope -/

/-- Whether a tree can be written where some variables are in scope: each goes by its name, what is
assigned to may be written, and swizzles are not taken from structures. -/
def Tree.Fits (decl : VarId → Variable) (scopes : List (List VarId)) : Tree → Prop
  | literal _ => True
  | var v => scopes.flatten.find? (fun id => (decl id).name == (decl v).name) = some v
  | unary _ t => t.Fits decl scopes
  | binary _ l r | sequence l r => l.Fits decl scopes ∧ r.Fits decl scopes
  | assign _ l r => l.Fits decl scopes ∧ r.Fits decl scopes ∧
    ∃ v, l.target? = some v ∧ (decl v).storage? ≠ some .input ∧ (decl v).isImmutable = false
  | choice c t f => c.Fits decl scopes ∧ t.Fits decl scopes ∧ f.Fits decl scopes
  | swizzle t _ => t.Fits decl scopes ∧ ∀ v ∈ t.vars, ∀ id, (decl v).type ≠ .declared id

namespace Shader

variable {s : Shader} {e : ExprId} {t : Tree}

theorem expr_rootWithin (ht : s.Shows t e) {v : VarId} (hv : t.target? = some v) {n : Nat}
    (hn : t.size ≤ n + 1) : s.expr (s.rootWithin n e) = .var v := by
  induction t generalizing e n with
  | var w =>
      cases hv
      have hroot : s.rootWithin n e = e := by
        cases n with
        | zero => rfl
        | succ n => rw [rootWithin, expr_of_getElem? ht]
      rw [hroot, expr_of_getElem? ht]
  | swizzle t name ih =>
      obtain ⟨o, hexpr, ho⟩ := ht
      cases n with
      | zero => exact absurd hn (by cases t <;> simp +arith [Tree.size])
      | succ n =>
          rw [rootWithin, expr_of_getElem? hexpr]
          exact ih ho hv (Nat.le_of_succ_le_succ hn)
  | _ => cases hv

theorem targetVariable?_of_shows (ht : s.Shows t e) {v : VarId} (hv : t.target? = some v)
    (hsize : t.size ≤ s.exprs.size) : s.targetVariable? e = some v := by
  rw [targetVariable?, expr_rootWithin ht hv (Nat.le_succ_of_le hsize)]

theorem resultType?_ne_declared {op : BinaryOp} {a b : TypeRef} (ha : ∀ id, a ≠ .declared id)
    (id : StructId) : op.resultType? a b ≠ some (.declared id) := by
  unfold BinaryOp.resultType?
  split
  · exact fun h => by cases h
  · split
    · intro h
      cases h
      exact ha id rfl
    · split
      · split <;>
        · intro h
          obtain ⟨_, _, h⟩ := Option.map_eq_some_iff.1 h
          cases h
      · exact fun h => by cases h

theorem typeWithin?_ne_declared (ht : s.Shows t e)
    (hvars : ∀ v ∈ t.vars, ∀ id, (s.var v).type ≠ .declared id) {n : Nat} {type : ExprType}
    (htype : s.typeWithin? n e = some type) : ∀ id, type.type ≠ .declared id := by
  induction t generalizing e n type with
  | literal c =>
      cases n with
      | zero => cases htype
      | succ n =>
          rw [typeWithin?, expr_of_getElem? ht] at htype
          cases htype
          exact fun id => TypeRef.noConfusion
  | var v =>
      cases n with
      | zero => cases htype
      | succ n =>
          rw [typeWithin?, expr_of_getElem? ht] at htype
          cases htype
          exact hvars v (List.mem_singleton_self v)
  | unary op t ih =>
      obtain ⟨o, hexpr, ho⟩ := ht
      cases n with
      | zero => cases htype
      | succ n =>
          rw [typeWithin?, expr_of_getElem? hexpr] at htype
          exact ih ho hvars htype
  | swizzle t name ih =>
      obtain ⟨o, hexpr, ho⟩ := ht
      cases n with
      | zero => cases htype
      | succ n =>
          rw [typeWithin?, expr_of_getElem? hexpr] at htype
          obtain ⟨_, _, htype⟩ := Option.bind_eq_some_iff.1 htype
          obtain ⟨_, _, htype⟩ := Option.bind_eq_some_iff.1 htype
          obtain ⟨_, _, htype⟩ := Option.bind_eq_some_iff.1 htype
          cases htype
          exact fun id => TypeRef.noConfusion
  | binary op l r ihl ihr =>
      obtain ⟨a, b, hexpr, ha, hb⟩ := ht
      cases n with
      | zero => cases htype
      | succ n =>
          rw [typeWithin?, expr_of_getElem? hexpr] at htype
          obtain ⟨x, hx, htype⟩ := Option.bind_eq_some_iff.1 htype
          obtain ⟨y, hy, htype⟩ := Option.bind_eq_some_iff.1 htype
          obtain ⟨z, hz, htype⟩ := Option.bind_eq_some_iff.1 htype
          cases htype
          rintro id rfl
          exact resultType?_ne_declared
            (ihl ha (fun v hv => hvars v (List.mem_append_left _ hv)) hx) id hz
  | assign op l r ihl ihr =>
      obtain ⟨a, b, hexpr, ha, hb⟩ := ht
      cases n with
      | zero => cases htype
      | succ n =>
          rw [typeWithin?, expr_of_getElem? hexpr] at htype
          exact ihl ha (fun v hv => hvars v (List.mem_append_left _ hv)) htype
  | sequence l r ihl ihr =>
      obtain ⟨a, b, hexpr, ha, hb⟩ := ht
      cases n with
      | zero => cases htype
      | succ n =>
          rw [typeWithin?, expr_of_getElem? hexpr] at htype
          exact ihr hb (fun v hv => hvars v (List.mem_append_right _ hv)) htype
  | choice c t f ihc iht ihf =>
      obtain ⟨a, b, d, hexpr, ha, hb, hd⟩ := ht
      cases n with
      | zero => cases htype
      | succ n =>
          rw [typeWithin?, expr_of_getElem? hexpr] at htype
          exact iht hb (fun v hv => hvars v
            (List.mem_append_left _ (List.mem_append_right _ hv))) htype

theorem baseTypeOf?_ne_declared (ht : s.Shows t e)
    (hvars : ∀ v ∈ t.vars, ∀ id, (s.var v).type ≠ .declared id) (id : StructId) :
    s.baseTypeOf? e ≠ some (.declared id) := by
  intro h
  obtain ⟨type, htype, hdeclared⟩ := Option.map_eq_some_iff.1 h
  exact typeWithin?_ne_declared ht hvars htype id hdeclared

end Shader

namespace Parse

variable {ends : List Punct} {st st' : ParserState} {t : Token} {rest : List Token}
  {fuel level n : Nat} {left base : ExprId} {op : InfixOp}

/-! ### Steps of the rules -/

/-- The operator that a token stands for behind an operand. -/
def infixAt? (ends : List Punct) : TokenKind → Option (InfixOp × Nat)
  | .punct p => if ends.contains p then none else InfixOp.ofPunct? p
  | _ => none

/-- Whether a token behind an operand selects from it or calls it. -/
def isSelection : TokenKind → Bool
  | .punct .dot | .punct .leftBracket | .punct .plusPlus | .punct .minusMinus
  | .punct .leftParen => true
  | _ => false

theorem run_nextInfix? (ends : List Punct) (st : ParserState) :
    (nextInfix? ends).run st = .ok (infixAt? ends (kindAt st.tokens), st) := by
  show (match kindAt st.tokens with
    | .punct p => (pure (if ends.contains p then none else InfixOp.ofPunct? p) : ParseM _)
    | _ => pure none).run st = _
  unfold infixAt?
  split <;> rfl

theorem ne_endOfFile_of_infixAt? {next : InfixOp × Nat} (h : infixAt? ends t.kind = some next) :
    t.kind ≠ .endOfFile := by
  intro ht
  rw [ht] at h
  cases h

theorem run_operations_done
    (h : ∀ op n, infixAt? ends (kindAt st.tokens) = some (op, n) → n < level) (fuel : Nat)
    (left : ExprId) : (operations (fuel + 1) ends level left).run st = .ok (left, st) := by
  refine (run_bind_of (run_nextInfix? ends st)).trans ?_
  cases hop : infixAt? ends (kindAt st.tokens) with
  | none => rfl
  | some next =>
      dsimp only
      rw [if_pos (h next.1 next.2 hop)]
      rfl

theorem run_operations_operator (htokens : st.tokens = t :: rest)
    (h : infixAt? ends t.kind = some (op, n)) (hop : op ≠ .choice) (hlevel : level ≤ n) :
    (operations (fuel + 1) ends level left).run st =
      (do
        let right ← operand fuel ends
        let right ← rightOperand fuel ends op.isAssign n right
        operations fuel ends level (← combine op left right) : ParseM ExprId).run
        { st with tokens := rest } := by
  refine (run_bind_of (run_nextInfix? ends st)).trans ?_
  rw [htokens, show kindAt (t :: rest) = t.kind from rfl, h]
  dsimp only
  rw [if_neg (Nat.not_lt.2 hlevel)]
  refine (run_bind_of (run_advance_of htokens (ne_endOfFile_of_infixAt? h))).trans ?_
  rw [if_neg hop]
  cases op <;> rfl

theorem run_operations_choice (htokens : st.tokens = t :: rest)
    (h : infixAt? ends t.kind = some (.choice, n)) (hlevel : level ≤ n) :
    (operations (fuel + 1) ends level left).run st =
      (do
        let onTrue ← expressionWithin fuel [.colon]
        expect .colon .choiceColon
        let onFalse ← expressionWithin fuel ends
        operations fuel ends level (← addExpr (.choice left onTrue onFalse)) : ParseM ExprId).run
        { st with tokens := rest } := by
  refine (run_bind_of (run_nextInfix? ends st)).trans ?_
  rw [htokens, show kindAt (t :: rest) = t.kind from rfl, h]
  dsimp only
  rw [if_neg (Nat.not_lt.2 hlevel)]
  exact run_bind_of (run_advance_of htokens (ne_endOfFile_of_infixAt? h))

theorem run_rightOperand_done {toRight : Bool} {binding : Nat}
    (h : ∀ op n, infixAt? ends (kindAt st.tokens) = some (op, n) →
      n ≤ binding ∧ (toRight → n ≠ binding)) (fuel : Nat) (right : ExprId) :
    (rightOperand (fuel + 1) ends toRight binding right).run st = .ok (right, st) := by
  refine (run_bind_of (run_nextInfix? ends st)).trans ?_
  cases hop : infixAt? ends (kindAt st.tokens) with
  | none => rfl
  | some next =>
      obtain ⟨hle, hne⟩ := h next.1 next.2 hop
      dsimp only
      rw [if_neg (Nat.not_lt.2 hle), if_neg fun h => hne h.1 h.2]
      rfl

theorem run_rightOperand_extend {toRight : Bool} {binding : Nat}
    (h : infixAt? ends (kindAt st.tokens) = some (op, n))
    (hn : binding < n ∨ toRight ∧ n = binding) (fuel : Nat) (right : ExprId) :
    (rightOperand (fuel + 1) ends toRight binding right).run st =
      (do
        let right ← operations fuel ends (if binding < n then binding + 1 else binding) right
        rightOperand fuel ends toRight binding right : ParseM ExprId).run st := by
  refine (run_bind_of (run_nextInfix? ends st)).trans ?_
  rw [h]
  dsimp only
  by_cases hlt : binding < n
  · rw [if_pos hlt, if_pos hlt]
  · rw [if_neg hlt, if_neg hlt, if_pos (hn.resolve_left hlt)]

theorem run_selections_done (h : isSelection (kindAt st.tokens) = false) (fuel : Nat)
    (base : ExprId) : (selections (fuel + 1) base).run st = .ok (base, st) := by
  refine (run_bind_of (run_peek st)).trans ?_
  split
  · next hkind =>
      rw [hkind] at h
      cases h
  · next hkind =>
      rw [hkind] at h
      cases h
  · next hkind =>
      rw [hkind] at h
      cases h
  · next hkind =>
      rw [hkind] at h
      cases h
  · rfl

theorem run_selections_swizzle {dot word : Token} {name : String}
    (htokens : st.tokens = dot :: word :: rest) (hdot : dot.kind = .punct .dot)
    (hword : word.kind = .ident name)
    (hbase : ∀ id, st.shader.baseTypeOf? base ≠ some (.declared id)) (fuel : Nat) :
    (selections (fuel + 1) base).run st =
      (selections fuel (st.shader.addExpr (.member base name none)).1).run
        { st with tokens := rest,
                  shader := (st.shader.addExpr (.member base name none)).2 } := by
  obtain ⟨tokens, s, scopes, calls⟩ := st
  dsimp only at htokens hbase
  subst htokens
  obtain ⟨kind, place⟩ := dot
  obtain ⟨kind', place'⟩ := word
  dsimp only at hdot hword
  subst hdot hword
  have hmember : (memberOf base).run ⟨⟨.ident name, place'⟩ :: rest, s, scopes, calls⟩ =
      .ok ((s.addExpr (.member base name none)).1,
        ⟨rest, (s.addExpr (.member base name none)).2, scopes, calls⟩) := by
    refine (run_bind_of (show name?.run _ = .ok (some name, _) from rfl)).trans ?_
    refine (run_bind_of (show shader.run _ = .ok (s, _) from rfl)).trans ?_
    dsimp only
    split
    · next id h => exact absurd h (hbase id)
    · rfl
  exact run_bind_of hmember

theorem run_selections_step {mark : UnaryOp} (hmark : mark.isPostfix)
    (htokens : st.tokens = t :: rest) (ht : t.kind = .punct mark.mark) (fuel : Nat) :
    (selections (fuel + 1) base).run st =
      .ok ((st.shader.addExpr (.unary mark base)).1,
        { st with tokens := rest, shader := (st.shader.addExpr (.unary mark base)).2 }) := by
  obtain ⟨tokens, s, scopes, calls⟩ := st
  dsimp only at htokens
  subst htokens
  obtain ⟨kind, place⟩ := t
  dsimp only at ht
  subst ht
  cases mark <;> first | rfl | cases hmark

theorem run_primary_literal {c : Constant} (htokens : st.tokens = t :: rest)
    (ht : t.kind = .number c) (fuel : Nat) :
    (primary (fuel + 1) ends).run st =
      .ok ((st.shader.addExpr (.constant c)).1,
        { st with tokens := rest, shader := (st.shader.addExpr (.constant c)).2 }) := by
  obtain ⟨tokens, s, scopes, calls⟩ := st
  dsimp only at htokens
  subst htokens
  obtain ⟨kind, place⟩ := t
  dsimp only at ht
  subst ht
  rfl

theorem run_primary_var {name : String} {v : VarId} (htokens : st.tokens = t :: rest)
    (ht : t.kind = .ident name) (hrest : kindAt rest ≠ .punct .leftParen)
    (hv : st.scopes.flatten.find? (fun id => (st.shader.var id).name == name) = some v)
    (fuel : Nat) :
    (primary (fuel + 1) ends).run st =
      .ok ((st.shader.addExpr (.var v)).1,
        { st with tokens := rest, shader := (st.shader.addExpr (.var v)).2 }) := by
  obtain ⟨tokens, s, scopes, calls⟩ := st
  dsimp only at htokens hv
  subst htokens
  obtain ⟨kind, place⟩ := t
  dsimp only at ht
  subst ht
  show StateT.run (if kindAt rest == .punct .leftParen then _ else variableNamed name) _ = _
  rw [if_neg (by simpa using hrest)]
  have hfind : (findVariable? name).run ⟨⟨.ident name, place⟩ :: rest, s, scopes, calls⟩ =
      .ok (some v, ⟨⟨.ident name, place⟩ :: rest, s, scopes, calls⟩) := by
    rw [← hv]
    rfl
  exact run_bind_of hfind

theorem run_primary_signed {op : UnaryOp} (hop : op.isPostfix = false)
    (htokens : st.tokens = t :: rest) (ht : t.kind = .punct op.mark) (fuel : Nat) :
    (primary (fuel + 1) ends).run st =
      (do
        let base ← operand fuel ends
        addExpr (.unary op base) : ParseM ExprId).run { st with tokens := rest } := by
  obtain ⟨tokens, s, scopes, calls⟩ := st
  dsimp only at htokens
  subst htokens
  obtain ⟨kind, place⟩ := t
  dsimp only at ht
  subst ht
  have hpeek : peek.run ⟨⟨.punct op.mark, place⟩ :: rest, s, scopes, calls⟩ =
      .ok (.punct op.mark, ⟨⟨.punct op.mark, place⟩ :: rest, s, scopes, calls⟩) := rfl
  refine (run_bind_of hpeek).trans ?_
  dsimp only
  rw [UnaryOp.ofPunct?_mark hop]
  rfl

theorem run_primary_group (htokens : st.tokens = t :: rest) (ht : t.kind = .punct .leftParen)
    (fuel : Nat) :
    (primary (fuel + 1) ends).run st =
      (do
        let inner ← expressionWithin fuel [.rightParen]
        expect .rightParen .closingParen
        return inner : ParseM ExprId).run { st with tokens := rest } := by
  obtain ⟨tokens, s, scopes, calls⟩ := st
  dsimp only at htokens
  subst htokens
  obtain ⟨kind, place⟩ := t
  dsimp only at ht
  subst ht
  rfl

theorem run_expect {p : Punct} {what : Expected} (htokens : st.tokens = t :: rest)
    (ht : t.kind = .punct p) : (expect p what).run st = .ok ((), { st with tokens := rest }) := by
  obtain ⟨tokens, s, scopes, calls⟩ := st
  dsimp only at htokens
  subst htokens
  obtain ⟨kind, place⟩ := t
  dsimp only at ht
  subst ht
  show StateT.run (do
    let found ← (if TokenKind.punct p == .punct p then do advance; return true
      else return false : ParseM Bool)
    unless found do fail (.expected what) : ParseM Unit) _ = _
  rw [if_pos (beq_self_eq_true _)]
  rfl

theorem run_combine_assign {op : AssignOp} {right : ExprId} {v : VarId}
    (htarget : st.shader.targetVariable? left = some v)
    (hinput : (st.shader.var v).storage? ≠ some .input)
    (himmutable : (st.shader.var v).isImmutable = false) :
    (combine (.assign op) left right).run st =
      .ok ((st.shader.addExpr (.assign op left right)).1,
        { st with shader := (st.shader.addExpr (.assign op left right)).2 }) := by
  have hcheck : (checkTarget left).run st = .ok ((), st) := by
    have hshader : shader.run st = .ok (st.shader, st) := rfl
    refine (run_bind_of hshader).trans ?_
    rw [htarget]
    dsimp only
    rw [if_neg hinput, if_neg (by rw [himmutable]; exact Bool.false_ne_true)]
    rfl
  exact run_bind_of hcheck

end Parse

end ShaderBridge
