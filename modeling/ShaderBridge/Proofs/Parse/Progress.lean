import ShaderBridge.Proofs.Parse.Declaration
import ShaderBridge.Proofs.Parse.Steps

/-!
The progress of a parse, counted in tokens. Rules that call one another are given fuel by the tokens
that are left, so a call that uses up fuel has to be paid for: between two tokens each rule calls
only rules that need less fuel than it does, and what is read behind a token may need more again. A
loop ends because each of its steps but the last takes a token.
-/

namespace ShaderBridge

namespace Parse

variable {α β : Type} {F F' : Prop} {st st₁ : ParserState} {Q : α → ParserState → Prop}
  {S : β → ParserState → Prop}

/-! ### Rules that get somewhere -/

/-- The number of tokens that are left, with the end of file. -/
def left (st : ParserState) : Nat :=
  st.tokens.length

/-- From a state a rule gives a result as said, or an error. Where `F` holds, which says that there
is enough fuel, the error is not that the fuel has been used up. -/
def Proceeds (F : Prop) (st : ParserState) (m : ParseM α) (Q : α → ParserState → Prop) : Prop :=
  match m.run st with
  | .ok (a, st') => Q a st'
  | .error (e, _) => F → e ≠ .unfinished

/-- A rule takes at least one token. -/
def Consumes (F : Prop) (st : ParserState) (m : ParseM α) : Prop :=
  Proceeds F st m fun _ st' => left st' < left st

/-- A rule puts no tokens back. -/
def Stays (F : Prop) (st : ParserState) (m : ParseM α) : Prop :=
  Proceeds F st m fun _ st' => left st' ≤ left st

/-- A rule puts no tokens back, and what it finds takes at least one. -/
def Finds (F : Prop) (st : ParserState) (m : ParseM (Option α)) : Prop :=
  Proceeds F st m fun found st' => left st' ≤ left st ∧ (found.isSome → left st' < left st)

theorem proceeds_of_run {m : ParseM α} {a : α} (h : m.run st = .ok (a, st₁)) (hQ : Q a st₁) :
    Proceeds F st m Q := by
  unfold Proceeds
  rw [h]
  exact hQ

theorem Proceeds.result {m : ParseM α} {a : α} (hm : Proceeds F st m Q)
    (h : m.run st = .ok (a, st₁)) : Q a st₁ := by
  unfold Proceeds at hm
  rwa [h] at hm

theorem proceeds_pure {a : α} (h : Q a st) : Proceeds F st (pure a) Q :=
  h

theorem proceeds_bind {m : ParseM α} {f : α → ParseM β} (hm : Proceeds F st m Q)
    (hf : ∀ a st₁, Q a st₁ → Proceeds F st₁ (f a) S) : Proceeds F st (m >>= f) S := by
  unfold Proceeds at hm ⊢
  rw [StateT.run_bind]
  cases h : m.run st with
  | error e =>
      rw [h] at hm
      exact hm
  | ok r =>
      rw [h] at hm
      exact hf r.1 r.2 hm

theorem proceeds_look {m : ParseM α} {f : α → ParseM β} {a : α} (hm : m.run st = .ok (a, st))
    (hf : Proceeds F st (f a) S) : Proceeds F st (m >>= f) S := by
  unfold Proceeds
  rwa [run_bind_of hm]

theorem Proceeds.imp {Q' : α → ParserState → Prop} {m : ParseM α} (hm : Proceeds F' st m Q)
    (hF : F → F') (h : ∀ a st', Q a st' → Q' a st') : Proceeds F st m Q' := by
  unfold Proceeds at hm ⊢
  cases hrun : m.run st with
  | error e =>
      rw [hrun] at hm
      exact fun hfuel => hm (hF hfuel)
  | ok r =>
      rw [hrun] at hm
      exact h _ _ hm

theorem Proceeds.fuel {m : ParseM α} (hm : Proceeds F' st m Q) (hF : F → F') : Proceeds F st m Q :=
  hm.imp hF fun _ _ h => h

theorem proceeds_map {f : α → β} {m : ParseM α} (hm : Proceeds F st m fun a => S (f a)) :
    Proceeds F st (f <$> m) S := by
  rw [← bind_pure_comp]
  exact proceeds_bind hm fun a st₁ h => proceeds_pure h

theorem proceeds_ite {c : Prop} [Decidable c] {m n : ParseM α} (hm : c → Proceeds F st m Q)
    (hn : ¬ c → Proceeds F st n Q) : Proceeds F st (if c then m else n) Q := by
  split
  · next hc => exact hm hc
  · next hc => exact hn hc

theorem proceeds_failAt (place : Span) {e : ParseError} (he : e ≠ .unfinished) :
    Proceeds F st (failAt place e : ParseM α) Q :=
  fun _ => he

theorem proceeds_fail {e : ParseError} (he : e ≠ .unfinished) :
    Proceeds F st (fail e : ParseM α) Q := by
  refine proceeds_look rfl (proceeds_look rfl (proceeds_failAt _ ?_))
  split
  · exact ParseError.noConfusion
  · exact he

theorem proceeds_fail_bind {e : ParseError} (he : e ≠ .unfinished) (f : α → ParseM β) :
    Proceeds F st ((fail e : ParseM α) >>= f) S :=
  proceeds_bind (Q := fun _ _ => False) (proceeds_fail he) fun _ _ h => h.elim

theorem proceeds_failAt_bind (place : Span) {e : ParseError} (he : e ≠ .unfinished)
    (f : α → ParseM β) : Proceeds F st ((failAt place e : ParseM α) >>= f) S :=
  proceeds_bind (Q := fun _ _ => False) (proceeds_failAt place he) fun _ _ h => h.elim

theorem proceeds_unfinished (hF : ¬ F) :
    Proceeds F st (do failAt (← span) .unfinished : ParseM α) Q :=
  fun h => absurd h hF

/-! ### Steps -/

theorem proceeds_advance {kind : TokenKind} (h : kindAt st.tokens = kind)
    (hkind : kind ≠ .endOfFile) :
    Proceeds F st advance fun _ st' => left st' + 1 = left st := by
  obtain ⟨t, rest, htokens, ht⟩ := exists_cons_of_kindAt h hkind
  refine proceeds_of_run (run_advance_of htokens (ht ▸ hkind)) ?_
  rw [left, left, htokens, List.length_cons]

theorem stays_advance : Stays F st advance := by
  by_cases h : kindAt st.tokens = .endOfFile
  · have hrun : advance.run st = .ok ((), st) := by
      obtain ⟨_ | ⟨t, rest⟩, s, scopes, calls⟩ := st
      · rfl
      · exact congrArg (Except.ok <| Prod.mk () ·) (if_pos h)
    exact proceeds_of_run hrun (Nat.le_refl _)
  · exact (proceeds_advance rfl h).imp id fun _ _ h => Nat.le_of_succ_le (Nat.le_of_eq h)

theorem proceeds_take? (p : Punct) : Proceeds F st (take? p) fun found st' =>
    (found = true → left st' < left st) ∧ (found = false → st' = st) := by
  refine proceeds_look (a := kindAt st.tokens == .punct p) rfl ?_
  split
  · next h =>
      refine proceeds_bind (proceeds_advance (eq_of_beq h) TokenKind.noConfusion) fun _ st₁ h₁ => ?_
      exact proceeds_pure ⟨fun _ => by omega, Bool.noConfusion⟩
  · exact proceeds_pure ⟨Bool.noConfusion, fun _ => rfl⟩

theorem stays_take? (p : Punct) : Stays F st (take? p) := by
  refine (proceeds_take? p).imp id fun found st' h => ?_
  cases found with
  | true => exact Nat.le_of_lt (h.1 rfl)
  | false => exact Nat.le_of_eq (congrArg left (h.2 rfl))

theorem consumes_expect (p : Punct) (what : Expected) : Consumes F st (expect p what) := by
  refine proceeds_bind (proceeds_take? p) fun found st₁ h => ?_
  cases found with
  | true => exact proceeds_pure (h.1 rfl)
  | false => exact proceeds_fail ParseError.noConfusion

theorem proceeds_atAny? (ps : List Punct) : Proceeds F st (atAny? ps) fun found st' =>
    st = st' ∧ (found = true → kindAt st.tokens ≠ .endOfFile) := by
  refine proceeds_of_run (run_atAny? ps st) ⟨rfl, fun h hend => ?_⟩
  rw [hend] at h
  cases h

theorem stays_modifyShader (f : Shader → α × Shader) : Stays F st (modifyShader f) :=
  Nat.le_refl (left st)

theorem stays_addExpr (e : Expr) : Stays F st (addExpr e) :=
  stays_modifyShader _

theorem stays_addStmt (t : Stmt) : Stays F st (addStmt t) :=
  stays_modifyShader _

theorem stays_addVar (v : Variable) : Stays F st (addVar v) :=
  stays_modifyShader _

theorem stays_evaluate (id : ExprId) : Stays F st (evaluate id) := by
  refine proceeds_bind (stays_modifyShader _) fun r st₁ h => ?_
  cases r with
  | ok id => exact proceeds_pure h
  | error e => exact proceeds_look rfl (proceeds_failAt _ ParseError.noConfusion)

theorem proceeds_openScope : Proceeds F st openScope fun _ st' => st'.tokens = st.tokens :=
  proceeds_of_run rfl rfl

theorem stays_closeScope : Stays F st closeScope :=
  Nat.le_refl (left st)

theorem proceeds_declare (v : VarId) :
    Proceeds F st (declare v) fun _ st' => st'.tokens = st.tokens := by
  refine proceeds_of_run rfl ?_
  dsimp only
  split <;> rfl

theorem stays_declare (v : VarId) : Stays F st (declare v) :=
  (proceeds_declare v).imp id fun _ _ h => Nat.le_of_eq (congrArg List.length h)

/-- Whatever has happened, the tokens of before are there again where a rule does not apply. -/
theorem proceeds_attempt {rule : ParseM (Option α)} (hrule : Proceeds F st rule fun r st' =>
      ∀ a, r = some a → Q a st') :
    Proceeds F st (attempt rule) fun r st' =>
      match r with
      | some a => Q a st'
      | none => st'.tokens = st.tokens := by
  refine proceeds_look rfl (proceeds_bind hrule fun r st₁ h => ?_)
  cases r with
  | some a => exact proceeds_pure (h a rfl)
  | none => exact rfl

/-! ### Loops -/

theorem proceeds_repeatSteps {step : α → ParseM (α ⊕ β)} {I : α → ParserState → Prop}
    (hstep : ∀ a st, I a st → Proceeds F st (step a) fun next st' =>
      match next with
      | .inl b => left st' < left st ∧ I b st'
      | .inr b => S b st') {a : α} (h : I a st) : Proceeds F st (repeatSteps step a) S := by
  have hwithin (n : Nat) (a : α) (st : ParserState) (hn : left st < n) (h : I a st) :
      Proceeds F st (repeatWithin step n a) S := by
    induction n generalizing a st with
    | zero => exact absurd hn (Nat.not_lt_zero _)
    | succ n ih =>
        refine proceeds_bind (hstep a st h) fun next st₁ hnext => ?_
        cases next with
        | inl b => exact ih b st₁ (by omega) hnext.2
        | inr b => exact proceeds_pure hnext
  exact proceeds_look rfl (hwithin _ a st (Nat.lt_succ_self _) h)

theorem consumes_commaSeparated {item : ParseM α} {closing : List Punct} {separator : ParseError}
    (hseparator : separator ≠ .unfinished)
    (hitem : ∀ st₁, left st₁ ≤ left st → Consumes F st₁ item) :
    Consumes F st (commaSeparated closing separator item) := by
  refine proceeds_repeatSteps (I := fun _ st₁ => left st₁ ≤ left st) (fun found st₁ h₁ => ?_)
    (Nat.le_refl _)
  have hitem' : Consumes F st₁ item := hitem st₁ h₁
  refine proceeds_bind (proceeds_atAny? closing) ?_
  rintro closed _ ⟨rfl, hmark⟩
  split
  · next hclosed =>
      refine proceeds_bind (proceeds_advance rfl (hmark hclosed)) fun _ st₂ h₂ => ?_
      exact proceeds_pure (by dsimp only; omega)
  · refine proceeds_bind hitem' fun a st₂ h₂ => ?_
    refine proceeds_bind (stays_take? .comma) fun atComma st₃ h₃ => ?_
    have hnext : Proceeds F st₃ (pure (.inl (a :: found)) : ParseM (List α ⊕ List α))
      fun next st' =>
        match next with
        | .inl _ => left st' < left st₁ ∧ left st' ≤ left st
        | .inr _ => left st' < left st := proceeds_pure (by dsimp only; omega)
    split
    · exact hnext
    · refine proceeds_bind (proceeds_atAny? closing) ?_
      rintro closed _ ⟨rfl, -⟩
      split
      · exact hnext
      · exact proceeds_fail_bind hseparator _

theorem stays_forM {f : α → ParseM PUnit} (hf : ∀ a st, Stays F st (f a)) (l : List α) :
    Stays F st (l.forM f) := by
  induction l generalizing st with
  | nil => exact proceeds_pure (Nat.le_refl _)
  | cons a l ih =>
      exact proceeds_bind (hf a st) fun _ st₁ h₁ => ih.imp id fun _ _ h => h.trans h₁

theorem stays_mapM {f : α → ParseM β} (hf : ∀ a st, Stays F st (f a)) (l : List α) :
    Stays F st (l.mapM f) := by
  induction l generalizing st with
  | nil => exact proceeds_pure (Nat.le_refl _)
  | cons a l ih =>
      rw [List.mapM_cons]
      refine proceeds_bind (hf a st) fun b st₁ h₁ => proceeds_bind ih fun bs st₂ h₂ => ?_
      exact proceeds_pure (h₂.trans h₁)

/-! ### Expressions -/

theorem stays_checkTarget (left : ExprId) : Stays F st (checkTarget left) := by
  have himmutable (v : Variable) :
      Stays F st (if v.isImmutable then fail .writeToConstant else pure ()) := by
    split
    · exact proceeds_fail ParseError.noConfusion
    · exact proceeds_pure (Nat.le_refl _)
  refine proceeds_look rfl ?_
  split
  · exact proceeds_fail ParseError.noConfusion
  · dsimp only
    split
    · exact proceeds_fail_bind ParseError.noConfusion _
    · exact himmutable _

theorem stays_combine (op : InfixOp) (left right : ExprId) :
    Stays F st (combine op left right) := by
  unfold combine
  cases op with
  | assign op =>
      refine proceeds_bind (stays_checkTarget left) fun _ st₁ h₁ => ?_
      exact (stays_addExpr _).imp id fun _ _ h => h.trans h₁
  | binary | choice | sequence => exact stays_addExpr _

theorem consumes_literal {kind : TokenKind} (h : kindAt st.tokens = kind)
    (hkind : kind ≠ .endOfFile) (value : Constant) : Consumes F st (literal value) :=
  proceeds_bind (proceeds_advance h hkind) fun _ st₁ h₁ =>
    (stays_addExpr _).imp id fun _ _ h => by omega

theorem consumes_variableNamed {name : String} (h : kindAt st.tokens = .ident name) :
    Consumes F st (variableNamed name) := by
  refine proceeds_look rfl ?_
  split
  · exact proceeds_fail ParseError.noConfusion
  · exact proceeds_bind (proceeds_advance h TokenKind.noConfusion) fun _ st₁ h₁ =>
      (stays_addExpr _).imp id fun _ _ h => by omega

theorem proceeds_name? : Proceeds F st name? fun found st' =>
    st = st' ∧ ∀ name, found = some name → kindAt st.tokens = .ident name := by
  refine proceeds_of_run (run_name? st) ⟨rfl, fun name h => ?_⟩
  split at h
  · cases h
    assumption
  · cases h

theorem consumes_memberOf (operand : ExprId) : Consumes F st (memberOf operand) := by
  refine proceeds_bind proceeds_name? ?_
  rintro found _ ⟨rfl, hname⟩
  cases found with
  | none => exact proceeds_fail ParseError.noConfusion
  | some name =>
      have hadd (field : Option VarId) :
          Consumes F st (do advance; addExpr (.member operand name field)) :=
        proceeds_bind (proceeds_advance (hname name rfl) TokenKind.noConfusion) fun _ st₁ h₁ =>
          (stays_addExpr _).imp id fun _ _ h => by omega
      refine proceeds_look rfl ?_
      dsimp only
      split
      · split
        · exact hadd _
        · exact proceeds_fail_bind ParseError.noConfusion _
      · exact hadd none

mutual

theorem consumes_expressionWithin : ∀ (fuel : Nat) (ends : List Punct) (st : ParserState),
    Consumes (8 * left st + 4 ≤ fuel) st (expressionWithin fuel ends)
  | 0, _, _ => proceeds_unfinished (by omega)
  | fuel + 1, ends, st => by
    refine proceeds_bind ((consumes_operand fuel ends st).fuel (by omega)) fun e st₁ h₁ => ?_
    exact (proceeds_operations fuel ends 0 e st₁).imp (by omega) fun _ _ h => by omega

theorem proceeds_operations : ∀ (fuel : Nat) (ends : List Punct) (level : Nat) (e : ExprId)
    (st : ParserState), Proceeds (8 * left st + 1 ≤ fuel) st (operations fuel ends level e)
      fun _ st' => left st' ≤ left st ∧ ∀ op binding,
        infixAt? ends (kindAt st.tokens) = some (op, binding) → level ≤ binding →
          left st' < left st
  | 0, _, _, _, _ => proceeds_unfinished (by omega)
  | fuel + 1, ends, level, e, st => by
    refine proceeds_look (run_nextInfix? ends st) ?_
    cases hnext : infixAt? ends (kindAt st.tokens) with
    | none => exact proceeds_pure ⟨Nat.le_refl _, nofun⟩
    | some next =>
        obtain ⟨op, binding⟩ := next
        dsimp only
        split
        · next hlevel =>
            refine proceeds_pure ⟨Nat.le_refl _, fun _ _ h hle => ?_⟩
            cases h
            omega
        have hkind : kindAt st.tokens ≠ .endOfFile := fun hend => by
          rw [hend] at hnext
          cases hnext
        suffices h : Consumes (8 * left st + 1 ≤ fuel + 1) st _ from
          h.imp id fun _ _ h => ⟨Nat.le_of_lt h, fun _ _ _ _ => h⟩
        refine proceeds_bind (proceeds_advance rfl hkind) fun _ st₁ h₁ => ?_
        -- The operators behind the right operand, which has been taken by then.
        have hrest {st' : ParserState} (h : left st' < left st) (e : ExprId) :
            Proceeds (8 * left st + 1 ≤ fuel + 1) st' (operations fuel ends level e)
              fun _ st'' => left st'' < left st :=
          (proceeds_operations fuel ends level e st').imp (by omega) fun _ _ h => by omega
        split
        · refine proceeds_bind ((consumes_expressionWithin fuel _ st₁).fuel (by omega))
            fun onTrue st₂ h₂ => ?_
          refine proceeds_bind (consumes_expect _ _) fun _ st₃ h₃ => ?_
          refine proceeds_bind ((consumes_expressionWithin fuel ends st₃).fuel (by omega))
            fun onFalse st₄ h₄ => ?_
          exact proceeds_bind (stays_addExpr _) fun e st₅ h₅ => hrest (by omega) e
        · refine proceeds_bind ((consumes_operand fuel ends st₁).fuel (by omega))
            fun right st₂ h₂ => ?_
          refine proceeds_bind ((stays_rightOperand fuel ends _ _ right st₂).fuel (by omega))
            fun right st₃ h₃ => ?_
          exact proceeds_bind (stays_combine op e right) fun e st₄ h₄ => hrest (by omega) e

theorem stays_rightOperand : ∀ (fuel : Nat) (ends : List Punct) (toRight : Bool) (binding : Nat)
    (right : ExprId) (st : ParserState),
    Stays (8 * left st + 2 ≤ fuel) st (rightOperand fuel ends toRight binding right)
  | 0, _, _, _, _, _ => proceeds_unfinished (by omega)
  | fuel + 1, ends, toRight, binding, right, st => by
    refine proceeds_look (run_nextInfix? ends st) ?_
    cases hnext : infixAt? ends (kindAt st.tokens) with
    | none => exact proceeds_pure (Nat.le_refl _)
    | some next =>
        obtain ⟨op, next⟩ := next
        have hextend (level : Nat) (hlevel : level ≤ next) :
            Stays (8 * left st + 2 ≤ fuel + 1) st (do
              let right ← operations fuel ends level right
              rightOperand fuel ends toRight binding right) := by
          refine proceeds_bind ((proceeds_operations fuel ends level right st).fuel (by omega))
            fun right st₁ h₁ => ?_
          have hless := h₁.2 op next hnext hlevel
          exact (stays_rightOperand fuel ends toRight binding right st₁).imp (by omega)
            fun _ _ h => by omega
        dsimp only
        split
        · next hlt => exact hextend _ hlt
        split
        · next heq => exact hextend _ (Nat.le_of_eq heq.2.symm)
        · exact proceeds_pure (Nat.le_refl _)

theorem consumes_operand : ∀ (fuel : Nat) (ends : List Punct) (st : ParserState),
    Consumes (8 * left st + 3 ≤ fuel) st (operand fuel ends)
  | 0, _, _ => proceeds_unfinished (by omega)
  | fuel + 1, ends, st => by
    refine proceeds_bind ((consumes_primary fuel ends st).fuel (by omega)) fun base st₁ h₁ => ?_
    exact (stays_selections fuel base st₁).imp (by omega) fun _ _ h => by omega

theorem stays_selections : ∀ (fuel : Nat) (base : ExprId) (st : ParserState),
    Stays (8 * left st + 2 ≤ fuel) st (selections fuel base)
  | 0, _, _ => proceeds_unfinished (by omega)
  | fuel + 1, base, st => by
    have hrest {st' : ParserState} (h : left st' < left st) (e : ExprId) :
        Proceeds (8 * left st + 2 ≤ fuel + 1) st' (selections fuel e)
          fun _ st'' => left st'' ≤ left st :=
      (stays_selections fuel e st').imp (by omega) fun _ _ h => by omega
    have hstep {p : Punct} (h : kindAt st.tokens = .punct p) (op : UnaryOp) :
        Stays (8 * left st + 2 ≤ fuel + 1) st (do advance; addExpr (.unary op base)) :=
      proceeds_bind (proceeds_advance h TokenKind.noConfusion) fun _ st₁ h₁ =>
        (stays_addExpr _).imp id fun _ _ h => by omega
    refine proceeds_look (run_peek st) ?_
    split
    · next h =>
        refine proceeds_bind (proceeds_advance h TokenKind.noConfusion) fun _ st₁ h₁ => ?_
        exact proceeds_bind (consumes_memberOf base) fun e st₂ h₂ => hrest (by omega) e
    · next h =>
        refine proceeds_bind ((consumes_subscriptOf fuel base st h).fuel (by omega))
          fun e st₁ h₁ => hrest h₁ e
    · next h => exact hstep h _
    · next h => exact hstep h _
    · exact proceeds_pure (Nat.le_refl _)

theorem consumes_subscriptOf : ∀ (fuel : Nat) (base : ExprId) (st : ParserState),
    kindAt st.tokens = .punct .leftBracket →
      Consumes (8 * left st + 1 ≤ fuel) st (subscriptOf fuel base)
  | 0, _, _, _ => proceeds_unfinished (by omega)
  | fuel + 1, base, st, hkind => by
    have hclose {st' : ParserState} (h : left st' < left st) (index : ExprId) :
        Proceeds (8 * left st + 1 ≤ fuel + 1) st' (do
          expect .rightBracket .subscriptClose
          addExpr (.subscript base index)) fun _ st'' => left st'' < left st :=
      proceeds_bind (consumes_expect _ _) fun _ st₁ h₁ =>
        (stays_addExpr _).imp id fun _ _ h => by omega
    refine proceeds_look rfl ?_
    split
    · refine proceeds_bind (proceeds_advance hkind TokenKind.noConfusion) fun _ st₁ h₁ => ?_
      refine proceeds_bind ((consumes_expressionWithin fuel _ st₁).fuel (by omega))
        fun index st₂ h₂ => proceeds_look rfl ?_
      split
      · exact proceeds_bind (stays_evaluate index) fun index st₃ h₃ => hclose (by omega) index
      · exact hclose (by omega) index
    · exact proceeds_fail_bind ParseError.noConfusion _

theorem consumes_primary : ∀ (fuel : Nat) (ends : List Punct) (st : ParserState),
    Consumes (8 * left st + 2 ≤ fuel) st (primary fuel ends)
  | 0, _, _ => proceeds_unfinished (by omega)
  | fuel + 1, ends, st => by
    refine proceeds_look (run_peek st) ?_
    split
    · next p h =>
        split
        · refine proceeds_bind (proceeds_advance h TokenKind.noConfusion) fun _ st₁ h₁ => ?_
          refine proceeds_bind ((consumes_operand fuel ends st₁).fuel (by omega))
            fun base st₂ h₂ => ?_
          exact (stays_addExpr _).imp id fun _ _ h => by omega
        · split
          · refine proceeds_bind (proceeds_advance h TokenKind.noConfusion) fun _ st₁ h₁ => ?_
            refine proceeds_bind ((consumes_expressionWithin fuel _ st₁).fuel (by omega))
              fun inner st₂ h₂ => ?_
            exact proceeds_bind (consumes_expect _ _) fun _ st₃ h₃ => proceeds_pure (by omega)
          · exact proceeds_fail ParseError.noConfusion
    · next h => exact consumes_literal h TokenKind.noConfusion _
    · next h => exact consumes_literal h TokenKind.noConfusion _
    · next h =>
        split
        · exact (consumes_construction fuel _ st (h ▸ TokenKind.noConfusion)).fuel (by omega)
        · exact proceeds_fail ParseError.noConfusion
    · next h => exact consumes_literal h TokenKind.noConfusion _
    · next name h =>
        refine proceeds_look rfl ?_
        split
        · refine proceeds_look rfl ?_
          split
          · exact (consumes_construction fuel _ st (h ▸ TokenKind.noConfusion)).fuel (by omega)
          · refine proceeds_bind (proceeds_advance h TokenKind.noConfusion) fun _ st₁ h₁ => ?_
            refine proceeds_bind ((consumes_arguments fuel _ st₁).fuel (by omega))
              fun args st₂ h₂ => ?_
            refine proceeds_bind (stays_addExpr _) fun call st₃ h₃ => ?_
            refine proceeds_bind (Q := fun _ st' => left st' = left st₃) rfl fun _ st₄ h₄ => ?_
            exact proceeds_pure (by omega)
        · exact consumes_variableNamed h
    · exact proceeds_fail ParseError.noConfusion

theorem consumes_construction : ∀ (fuel : Nat) (type : TypeRef) (st : ParserState),
    kindAt st.tokens ≠ .endOfFile → Consumes (8 * left st + 1 ≤ fuel) st (construction fuel type)
  | 0, _, _, _ => proceeds_unfinished (by omega)
  | fuel + 1, type, st, hkind => by
    have hargs {st' : ParserState} (h : left st' < left st) (opening : Expected)
        (node : List ExprId → Expr) : Proceeds (8 * left st + 1 ≤ fuel + 1) st' (do
          let args ← arguments fuel opening
          addExpr (node args)) fun _ st'' => left st'' < left st :=
      proceeds_bind ((consumes_arguments fuel opening st').fuel (by omega)) fun args st₁ h₁ =>
        (stays_addExpr _).imp id fun _ _ h => by omega
    refine proceeds_bind (proceeds_advance rfl hkind) fun _ st₁ h₁ => ?_
    refine proceeds_bind (stays_take? .leftBracket) fun isArray st₂ h₂ => ?_
    split
    · refine proceeds_bind ((consumes_arrayTypeEnd fuel st₂).fuel (by omega)) fun _ st₃ h₃ => ?_
      exact hargs (by omega) _ _
    · exact hargs (by omega) _ _

theorem consumes_arrayTypeEnd : ∀ (fuel : Nat) (st : ParserState),
    Consumes (8 * left st + 5 ≤ fuel) st (arrayTypeEnd fuel)
  | 0, _ => proceeds_unfinished (by omega)
  | fuel + 1, st => by
    refine proceeds_look rfl ?_
    split
    · exact consumes_expect _ _
    · refine proceeds_bind ((consumes_expressionWithin fuel _ st).fuel (by omega))
        fun _ st₁ h₁ => ?_
      exact (consumes_expect _ _).imp id fun _ _ h => by omega

theorem consumes_arguments : ∀ (fuel : Nat) (opening : Expected) (st : ParserState),
    Consumes (8 * left st + 1 ≤ fuel) st (arguments fuel opening)
  | 0, _, _ => proceeds_unfinished (by omega)
  | fuel + 1, opening, st => by
    refine proceeds_bind (consumes_expect _ _) fun _ st₁ h₁ => ?_
    have hitem (st₂ : ParserState) (h₂ : left st₂ ≤ left st₁) :
        Consumes (8 * left st + 1 ≤ fuel + 1) st₂ (expressionWithin fuel [.comma, .rightParen]) :=
      (consumes_expressionWithin fuel _ st₂).fuel (by omega)
    exact (consumes_commaSeparated ParseError.noConfusion hitem).imp id fun _ _ h => by omega

theorem consumes_itemsWithin : ∀ (fuel : Nat) (ends : List Punct) (st : ParserState),
    Consumes (8 * left st + 5 ≤ fuel) st (itemsWithin fuel ends)
  | 0, _, _ => proceeds_unfinished (by omega)
  | fuel + 1, ends, st => by
    have hitems {st' : ParserState} (h : left st' ≤ left st) (parens : Bool) :
        Proceeds (8 * left st + 5 ≤ fuel + 1) st' (do
          if (← at? .leftBrace) || (parens && (← at? .leftParen)) then
            advance
            let items ← commaSeparated [.rightBrace, .rightParen] (.expected .itemSeparator)
              (itemsWithin fuel (ends ++ [.rightParen, .comma]))
            addExpr (.aggregate items)
          else expressionWithin fuel ends) fun _ st'' => left st'' < left st := by
      refine proceeds_look (a := kindAt st'.tokens == .punct .leftBrace) rfl ?_
      refine proceeds_look (a := kindAt st'.tokens == .punct .leftParen) rfl ?_
      split
      · next hopen =>
          have hkind : kindAt st'.tokens ≠ .endOfFile := fun hend => by
            rw [hend] at hopen
            cases parens <;> cases hopen
          refine proceeds_bind (proceeds_advance rfl hkind) fun _ st₁ h₁ => ?_
          have hitem (st₂ : ParserState) (h₂ : left st₂ ≤ left st₁) :
              Consumes (8 * left st + 5 ≤ fuel + 1) st₂
                (itemsWithin fuel (ends ++ [.rightParen, .comma])) :=
            (consumes_itemsWithin fuel _ st₂).fuel (by omega)
          refine proceeds_bind (consumes_commaSeparated ParseError.noConfusion hitem)
            fun items st₂ h₂ => ?_
          exact (stays_addExpr _).imp id fun _ _ h => by omega
      · exact (consumes_expressionWithin fuel ends st').imp (by omega) fun _ _ h => by omega
    refine proceeds_look (run_peek st) ?_
    refine proceeds_look (a := kindAt st.tokens.tail) rfl (proceeds_ite (fun htyped => ?_) ?_)
    · have hkind : kindAt st.tokens ≠ .endOfFile := fun hend => by
        rw [hend] at htyped
        cases htyped
      refine proceeds_bind (proceeds_advance rfl hkind) fun _ st₁ h₁ => ?_
      refine proceeds_bind stays_advance fun _ st₂ h₂ => ?_
      refine proceeds_bind ((consumes_arrayTypeEnd fuel st₂).fuel (by omega)) fun _ st₃ h₃ => ?_
      refine proceeds_look rfl ?_
      split
      · exact hitems (by omega) true
      · exact proceeds_fail_bind ParseError.noConfusion _
    · exact fun _ => hitems (Nat.le_refl _) false

end

/-- The fuel that the tokens give is enough. -/
theorem consumes_expression (ends : List Punct) : Consumes F st (expression ends) :=
  proceeds_look rfl ((consumes_expressionWithin _ ends st).fuel fun _ => by rw [left]; omega)

theorem consumes_initialValue (type : Option TypeRef) (isArray : Bool) (ends : List Punct) :
    Consumes F st (initialValue type isArray ends) := by
  unfold initialValue
  split
  · exact proceeds_look rfl ((consumes_itemsWithin _ ends st).fuel fun _ => by rw [left]; omega)
  · exact consumes_expression ends

theorem consumes_dimension (hkind : kindAt st.tokens = .punct .leftBracket) :
    Consumes F st dimension := by
  refine proceeds_bind (proceeds_advance hkind TokenKind.noConfusion) fun _ st₁ h₁ => ?_
  refine proceeds_bind (stays_take? _) fun closed st₂ h₂ => ?_
  split
  · exact proceeds_pure (by omega)
  · refine proceeds_bind (consumes_expression _) fun size st₃ h₃ => proceeds_look rfl ?_
    split
    · refine proceeds_bind (stays_evaluate size) fun size st₄ h₄ => ?_
      exact proceeds_bind (consumes_expect _ _) fun _ st₅ h₅ => proceeds_pure (by omega)
    · exact proceeds_fail_bind ParseError.noConfusion _

theorem proceeds_dimensions : Proceeds F st dimensions fun _ st' =>
    left st' ≤ left st ∧ (kindAt st.tokens = .punct .leftBracket → left st' < left st) := by
  refine proceeds_repeatSteps (I := fun _ st₁ => left st₁ ≤ left st ∧
    (kindAt st.tokens = .punct .leftBracket →
      kindAt st₁.tokens = .punct .leftBracket ∨ left st₁ < left st)) (fun found st₁ h₁ => ?_)
    ⟨Nat.le_refl _, .inl⟩
  refine proceeds_look (a := kindAt st₁.tokens == .punct .leftBracket) rfl ?_
  split
  · next hkind =>
      refine proceeds_bind (consumes_dimension (eq_of_beq hkind)) fun size st₂ h₂ => ?_
      exact proceeds_pure ⟨h₂, by omega, fun _ => .inr (by omega)⟩
  · next hkind =>
      exact proceeds_pure ⟨h₁.1, fun h => (h₁.2 h).resolve_left fun h => hkind (beq_iff_eq.2 h)⟩

theorem stays_dimensions : Stays F st dimensions :=
  proceeds_dimensions.imp id fun _ _ h => h.1

end Parse

end ShaderBridge
