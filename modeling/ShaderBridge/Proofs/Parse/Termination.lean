import ShaderBridge.Proofs.Parse.Course
import ShaderBridge.Proofs.Parse.Progress

namespace ShaderBridge

namespace Parse

variable {α β : Type} {F : Prop} {st st' : ParserState}

/-! ### Hints -/

theorem consumes_hintValue : Consumes F st hintValue := by
  refine proceeds_bind (consumes_expect _ _) fun _ st₁ h₁ => proceeds_look (run_peek st₁) ?_
  split
  · refine proceeds_bind stays_advance fun _ st₂ h₂ => ?_
    exact proceeds_bind (consumes_expect _ _) fun _ st₃ h₃ => proceeds_pure (by omega)
  · exact proceeds_fail ParseError.noConfusion

theorem consumes_hint (h : FlowHints) : Consumes F st (hint h) := by
  refine proceeds_look rfl (proceeds_bind proceeds_name? ?_)
  rintro found _ ⟨rfl, hname⟩
  cases found with
  | none => exact proceeds_fail ParseError.noConfusion
  | some name =>
      refine proceeds_bind (proceeds_advance (hname name rfl) TokenKind.noConfusion)
        fun _ st₁ h₁ => ?_
      split
      · exact proceeds_pure (by omega)
      · exact proceeds_bind consumes_hintValue fun _ st₂ h₂ => proceeds_pure (by omega)
      · exact proceeds_failAt _ ParseError.noConfusion

theorem stays_hints : Stays F st hints := by
  refine proceeds_look (run_atDoubleBracket? st) (proceeds_ite (fun _ => ?_) fun _ => ?_)
  · refine proceeds_bind stays_advance fun _ st₁ h₁ => ?_
    refine proceeds_bind stays_advance fun _ st₂ h₂ => ?_
    refine proceeds_bind (proceeds_repeatSteps (I := fun _ st₃ => left st₃ ≤ left st₂)
      (S := fun _ st₃ => left st₃ ≤ left st₂) (fun h st₃ h₃ => ?_) (Nat.le_refl _))
      fun h st₃ h₃ => ?_
    · refine proceeds_look rfl (proceeds_ite (fun _ => proceeds_pure h₃) fun _ => ?_)
      refine proceeds_bind (consumes_hint h) fun h st₄ h₄ => ?_
      exact proceeds_bind (stays_take? _) fun _ st₅ h₅ => proceeds_pure (by dsimp only; omega)
    · refine proceeds_bind (consumes_expect _ _) fun _ st₄ h₄ => ?_
      exact proceeds_bind (consumes_expect _ _) fun _ st₅ h₅ => proceeds_pure (by omega)
  · exact proceeds_pure (Nat.le_refl _)

/-! ### Declarations and expressions -/

theorem finds_parenthesizedName? : Finds F st parenthesizedName? := by
  refine proceeds_bind (proceeds_repeatSteps (I := fun _ st₁ => left st₁ ≤ left st)
    (S := fun _ st₁ => left st₁ ≤ left st) (fun n st₁ h₁ => ?_) (Nat.le_refl _))
    fun opened st₁ h₁ => ?_
  · refine proceeds_bind (proceeds_take? _) fun more st₂ h₂ => ?_
    cases more with
    | true => exact proceeds_pure ⟨h₂.1 rfl, by have := h₂.1 rfl; omega⟩
    | false =>
        obtain rfl := h₂.2 rfl
        exact proceeds_pure h₁
  refine proceeds_bind proceeds_name? ?_
  rintro found _ ⟨rfl, hname⟩
  cases found with
  | none => exact proceeds_pure ⟨h₁, Bool.noConfusion⟩
  | some name =>
      refine proceeds_bind (proceeds_advance (hname name rfl) TokenKind.noConfusion)
        fun _ st₂ h₂ => ?_
      refine proceeds_bind (proceeds_repeatSteps (I := fun _ st₃ => left st₃ ≤ left st₂)
        (S := fun _ st₃ => left st₃ ≤ left st₂) (fun n st₃ h₃ => ?_) (Nat.le_refl _))
        fun closed st₃ h₃ => proceeds_pure ⟨by omega, fun _ => by omega⟩
      refine proceeds_ite (fun _ => proceeds_pure h₃) fun _ => ?_
      refine proceeds_bind (proceeds_take? _) fun more st₄ h₄ => ?_
      cases more with
      | true => exact proceeds_pure ⟨h₄.1 rfl, by have := h₄.1 rfl; omega⟩
      | false =>
          obtain rfl := h₄.2 rfl
          exact proceeds_pure h₃

theorem finds_localVariable? (t : LocalType) (isFirst : Bool) (ends : List Punct) :
    Finds F st (localVariable? t isFirst ends) := by
  refine proceeds_bind finds_parenthesizedName? fun name st₁ h₁ => ?_
  cases name with
  | none => exact proceeds_pure ⟨h₁.1, Bool.noConfusion⟩
  | some name =>
      have h₁ := h₁.2 rfl
      refine proceeds_bind stays_dimensions fun dims st₂ h₂ => ?_
      refine proceeds_bind (proceeds_atAny? _) ?_
      rintro follows _ ⟨rfl, -⟩
      have hadd {st' : ParserState} (h : left st' < left st) (initial : Option ExprId)
          (v : Variable) : Proceeds F st' (do
            if t.constant && initial.isNone then fail .constWithoutValue
            let var ← addVar v
            declare var
            return some var) fun found st'' =>
              left st'' ≤ left st ∧ (found.isSome → left st'' < left st) := by
        refine proceeds_ite (fun _ => proceeds_fail_bind ParseError.noConfusion _) fun _ => ?_
        refine proceeds_bind (stays_addVar v) fun var st₁ h₁ => ?_
        exact proceeds_bind (stays_declare var) fun _ st₂ h₂ =>
          proceeds_pure ⟨by omega, fun _ => by omega⟩
      dsimp only
      split
      · exact proceeds_pure ⟨by omega, Bool.noConfusion⟩
      refine proceeds_bind (stays_take? _) fun assigned st₃ h₃ => ?_
      split
      · refine proceeds_bind (proceeds_map (S := fun _ st' => left st' < left st₃)
          (consumes_initialValue _ _ _)) fun initial st₄ h₄ => ?_
        exact hadd (by omega) initial _
      · exact hadd (by omega) none _

theorem stays_localVariables? (t : LocalType) (ends : List Punct) :
    Stays F st (localVariables? t ends) := by
  refine proceeds_repeatSteps (I := fun _ st₁ => left st₁ ≤ left st) (fun found st₁ h₁ => ?_)
    (Nat.le_refl _)
  refine proceeds_bind (finds_localVariable? t _ ends) fun var st₂ h₂ => ?_
  cases var with
  | none => exact proceeds_pure (h₂.1.trans h₁)
  | some var =>
      have h₂ := h₂.2 rfl
      refine proceeds_bind (proceeds_atAny? ends) ?_
      rintro done _ ⟨rfl, -⟩
      refine proceeds_ite (fun _ => proceeds_pure (by dsimp only; omega)) fun _ => ?_
      refine proceeds_bind (stays_take? _) fun more st₃ h₃ => ?_
      split
      · exact proceeds_pure (by dsimp only; omega)
      · exact proceeds_fail_bind ParseError.noConfusion _

theorem proceeds_typeName? (named : Keyword → Option BuiltinType) :
    Proceeds F st (typeName? named) fun found st' =>
      st = st' ∧ (found.isSome → kindAt st.tokens ≠ .endOfFile) := by
  refine proceeds_look (run_peek st) ?_
  split
  · next h => exact proceeds_pure ⟨rfl, fun _ => h ▸ TokenKind.noConfusion⟩
  · next h => exact proceeds_of_run rfl ⟨rfl, fun _ => h ▸ TokenKind.noConfusion⟩
  · exact proceeds_pure ⟨rfl, Bool.noConfusion⟩

theorem proceeds_localDeclaration? (ends : List Punct) :
    Proceeds F st (localDeclaration? ends) fun found st' =>
      match found with
      | some _ => left st' < left st
      | none => st'.tokens = st.tokens := by
  unfold localDeclaration?
  refine (proceeds_attempt (Q := fun _ st' => left st' < left st) ?_).imp id fun found _ h => by
    cases found <;> exact h
  refine proceeds_look rfl ?_
  extract_lets typed qualified
  have htyped {st' : ParserState} (h : left st' ≤ left st) (precision : Option Precision) :
      Proceeds F st' (typed precision) fun r st'' => ∀ id, r = some id → left st'' < left st := by
    refine proceeds_bind (proceeds_typeName? _) ?_
    rintro type _ ⟨rfl, hkind⟩
    cases type with
    | none => exact proceeds_pure nofun
    | some type =>
        refine proceeds_bind (proceeds_advance rfl (hkind rfl)) fun _ st₁ h₁ => ?_
        refine proceeds_bind stays_dimensions fun dims st₂ h₂ => ?_
        refine proceeds_bind (stays_localVariables? _ ends) fun vars st₃ h₃ => ?_
        cases vars with
        | none => exact proceeds_pure nofun
        | some vars =>
            exact proceeds_bind (stays_addStmt _) fun id st₄ h₄ =>
              proceeds_pure fun _ _ => by omega
  have hqualified {st' : ParserState} (h : left st' ≤ left st) :
      Proceeds F st' (qualified ()) fun r st'' => ∀ id, r = some id → left st'' < left st := by
    refine proceeds_look (run_peek st') ?_
    split
    · exact proceeds_bind stays_advance fun _ st₁ h₁ => htyped (by omega) _
    · exact htyped h none
  split
  · exact proceeds_bind stays_advance fun _ st₁ h₁ => hqualified h₁
  · exact hqualified (Nat.le_refl _)

theorem consumes_declarationOrExpression (ends : List Punct) :
    Consumes F st (declarationOrExpression ends) := by
  refine proceeds_bind (proceeds_localDeclaration? ends) fun found st₁ h₁ => ?_
  cases found with
  | some id => exact proceeds_pure h₁
  | none =>
      have h₁ : left st₁ = left st := congrArg List.length h₁
      refine proceeds_bind (consumes_expression ends) fun e st₂ h₂ => ?_
      exact (stays_addStmt _).imp id fun _ _ h => by omega

theorem stays_optionalExpression (ending : Punct) : Stays F st (optionalExpression ending) := by
  refine proceeds_look rfl (proceeds_ite (fun _ => proceeds_pure (Nat.le_refl _)) fun _ => ?_)
  exact proceeds_bind (consumes_expression _) fun _ st₁ h₁ => proceeds_pure (by omega)

theorem consumes_condition (opening closing : Expected) :
    Consumes F st (condition opening closing) := by
  refine proceeds_bind (consumes_expect _ _) fun _ st₁ h₁ => ?_
  refine proceeds_bind (consumes_expression _) fun value st₂ h₂ => ?_
  exact proceeds_bind (consumes_expect _ _) fun _ st₃ h₃ => proceeds_pure (by omega)

/-! ### Statements -/

theorem consumes_jump (t : Stmt) (name : String) : Consumes F st (jump t name) := by
  refine proceeds_bind stays_advance fun _ st₁ h₁ => ?_
  refine proceeds_bind (consumes_expect _ _) fun _ st₂ h₂ => ?_
  exact (stays_addStmt t).imp id fun _ _ h => by omega

theorem consumes_returnStatement : Consumes F st returnStatement := by
  refine proceeds_bind stays_advance fun _ st₁ h₁ => ?_
  refine proceeds_bind (stays_optionalExpression _) fun value st₂ h₂ => ?_
  refine proceeds_bind (consumes_expect _ _) fun _ st₃ h₃ => ?_
  exact (stays_addStmt _).imp id fun _ _ h => by omega

theorem consumes_defaultLabel : Consumes F st defaultLabel := by
  refine proceeds_bind stays_advance fun _ st₁ h₁ => ?_
  refine proceeds_bind (consumes_expect _ _) fun _ st₂ h₂ => ?_
  exact (stays_addStmt _).imp id fun _ _ h => by omega

theorem consumes_caseLabel : Consumes F st caseLabel := by
  refine proceeds_bind stays_advance fun _ st₁ h₁ => ?_
  refine proceeds_bind (consumes_expression _) fun value st₂ h₂ => ?_
  refine proceeds_bind (consumes_expect _ _) fun _ st₃ h₃ => ?_
  exact (stays_addStmt _).imp id fun _ _ h => by omega

theorem stays_checkLabel (place : Span) (id : StmtId) (labels : Labels) :
    Stays F st (checkLabel place id labels) := by
  refine proceeds_look rfl ?_
  split
  · refine proceeds_look rfl ?_
    split
    · refine proceeds_bind (stays_evaluate _) fun value st₁ h₁ => proceeds_look rfl ?_
      split
      · exact proceeds_failAt _ ParseError.noConfusion
      · refine proceeds_ite (fun _ => proceeds_failAt_bind _ ParseError.noConfusion _) fun _ => ?_
        exact proceeds_bind (stays_modifyShader _) fun _ st₂ h₂ => proceeds_pure (by omega)
    · exact proceeds_failAt_bind _ ParseError.noConfusion _
  · refine proceeds_ite (fun _ => proceeds_failAt_bind _ ParseError.noConfusion _) fun _ => ?_
    exact proceeds_pure (Nat.le_refl _)
  · exact proceeds_pure (Nat.le_refl _)

mutual

/-- The rule for each kind of statement is called before a token is taken. It takes the word or
brace that it begins with, and only then calls the rule for statements again. -/
theorem consumes_statementWithin : ∀ (fuel : Nat) (st : ParserState),
    Consumes (8 * left st + 2 ≤ fuel) st (statementWithin fuel)
  | 0, _ => proceeds_unfinished (by omega)
  | fuel + 1, st => by
    refine proceeds_bind stays_hints fun h st₁ h₁ => proceeds_look (run_peek st₁) ?_
    have hfar {m : ParseM StmtId} (hm : Consumes (8 * left st + 2 ≤ fuel + 1) st₁ m) :
        Proceeds (8 * left st + 2 ≤ fuel + 1) st₁ m fun _ st' => left st' < left st :=
      hm.imp id fun _ _ h => by omega
    split
    · next hkind =>
        refine proceeds_bind proceeds_openScope fun _ st₂ h₂ => ?_
        have hleft : left st₂ = left st₁ := congrArg List.length h₂
        refine proceeds_bind ((consumes_bodyWithin fuel st₂ (by rw [h₂, hkind]; nofun)).fuel
          (by omega)) fun body st₃ h₃ => ?_
        refine proceeds_bind stays_closeScope fun _ st₄ h₄ => ?_
        exact (stays_addStmt _).imp id fun _ _ h => by omega
    · next hkind =>
        refine proceeds_bind (proceeds_advance hkind TokenKind.noConfusion) fun _ st₂ h₂ => ?_
        exact (stays_addStmt _).imp id fun _ _ h => by omega
    · exact hfar ((consumes_branchWithin fuel h st₁ (by simp [*])).fuel (by omega))
    · exact hfar ((consumes_switchWithin fuel h st₁ (by simp [*])).fuel (by omega))
    · exact hfar consumes_caseLabel
    · exact hfar consumes_defaultLabel
    · next hkind =>
        refine proceeds_bind proceeds_openScope fun _ st₂ h₂ => ?_
        have hleft : left st₂ = left st₁ := congrArg List.length h₂
        refine proceeds_bind ((consumes_forWithin fuel h st₂ (by rw [h₂, hkind]; nofun)).fuel
          (by omega)) fun loop st₃ h₃ => ?_
        refine proceeds_bind stays_closeScope fun _ st₄ h₄ => ?_
        exact (stays_addStmt _).imp id fun _ _ h => by omega
    · exact hfar ((consumes_doWithin fuel h st₁ (by simp [*])).fuel (by omega))
    · exact hfar ((consumes_whileWithin fuel h st₁ (by simp [*])).fuel (by omega))
    · exact hfar (consumes_jump _ _)
    · exact hfar (consumes_jump _ _)
    · exact hfar (consumes_jump _ _)
    · exact hfar (consumes_jump _ _)
    · exact hfar consumes_returnStatement
    · refine hfar (proceeds_bind (consumes_declarationOrExpression _) fun id st₂ h₂ => ?_)
      exact proceeds_bind (consumes_expect _ _) fun _ st₃ h₃ => proceeds_pure (by omega)

theorem consumes_bodyWithin : ∀ (fuel : Nat) (st : ParserState), kindAt st.tokens ≠ .endOfFile →
    Consumes (8 * left st + 1 ≤ fuel) st (bodyWithin fuel)
  | 0, _, _ => proceeds_unfinished (by omega)
  | fuel + 1, st, hkind => by
    refine proceeds_bind (proceeds_advance rfl hkind) fun _ st₁ h₁ => ?_
    refine proceeds_repeatSteps (I := fun _ st₂ => left st₂ < left st) (fun found st₂ h₂ => ?_)
      (by omega)
    refine proceeds_bind (stays_take? _) fun closed st₃ h₃ => ?_
    refine proceeds_ite (fun _ => proceeds_pure (by dsimp only; omega)) fun _ =>
      proceeds_look rfl ?_
    refine proceeds_ite (fun _ => proceeds_fail_bind ParseError.noConfusion _) fun _ => ?_
    refine proceeds_bind ((consumes_statementWithin fuel st₃).fuel (by omega)) fun id st₄ h₄ => ?_
    exact proceeds_pure (by dsimp only; omega)

theorem consumes_branchWithin : ∀ (fuel : Nat) (h : FlowHints) (st : ParserState),
    kindAt st.tokens ≠ .endOfFile → Consumes (8 * left st + 1 ≤ fuel) st (branchWithin fuel h)
  | 0, _, _, _ => proceeds_unfinished (by omega)
  | fuel + 1, h, st, hkind => by
    refine proceeds_bind (proceeds_advance rfl hkind) fun _ st₁ h₁ => ?_
    refine proceeds_bind (consumes_condition _ _) fun condition st₂ h₂ => ?_
    refine proceeds_bind ((consumes_statementWithin fuel st₂).fuel (by omega))
      fun onTrue st₃ h₃ => ?_
    refine proceeds_look rfl ?_
    dsimp only
    split
    · refine proceeds_bind stays_advance fun _ st₄ h₄ => ?_
      refine proceeds_bind (proceeds_map (S := fun _ st' => left st' < left st₄)
        ((consumes_statementWithin fuel st₄).fuel (by omega))) fun onFalse st₅ h₅ => ?_
      exact (stays_addStmt _).imp id fun _ _ h => by omega
    · exact (stays_addStmt _).imp id fun _ _ h => by omega

theorem consumes_switchWithin : ∀ (fuel : Nat) (h : FlowHints) (st : ParserState),
    kindAt st.tokens ≠ .endOfFile → Consumes (8 * left st + 1 ≤ fuel) st (switchWithin fuel h)
  | 0, _, _, _ => proceeds_unfinished (by omega)
  | fuel + 1, h, st, hkind => by
    refine proceeds_bind (proceeds_advance rfl hkind) fun _ st₁ h₁ => ?_
    refine proceeds_bind (consumes_condition _ _) fun subject st₂ h₂ => ?_
    refine proceeds_bind (consumes_expect _ _) fun _ st₃ h₃ => ?_
    refine proceeds_bind proceeds_openScope fun _ st₄ h₄ => ?_
    have h₄ : left st₄ = left st₃ := congrArg List.length h₄
    refine proceeds_bind (proceeds_repeatSteps (I := fun _ st₅ => left st₅ < left st)
      (S := fun _ st₅ => left st₅ < left st) ?_ (by omega)) fun body st₅ h₅ => ?_
    · rintro ⟨found, labels⟩ st₅ h₅
      refine proceeds_bind (stays_take? _) fun closed st₆ h₆ => ?_
      refine proceeds_ite (fun _ => proceeds_pure (by dsimp only; omega)) fun _ =>
        proceeds_look rfl ?_
      refine proceeds_ite (fun _ => proceeds_fail_bind ParseError.noConfusion _) fun _ =>
        proceeds_look rfl ?_
      refine proceeds_bind ((consumes_statementWithin fuel st₆).fuel (by omega)) fun id st₇ h₇ => ?_
      exact proceeds_bind (stays_checkLabel _ id labels) fun labels st₈ h₈ =>
        proceeds_pure (by dsimp only; omega)
    · refine proceeds_bind stays_closeScope fun _ st₆ h₆ => ?_
      exact (stays_addStmt _).imp id fun _ _ h => by omega

theorem consumes_forWithin : ∀ (fuel : Nat) (h : FlowHints) (st : ParserState),
    kindAt st.tokens ≠ .endOfFile → Consumes (8 * left st + 1 ≤ fuel) st (forWithin fuel h)
  | 0, _, _, _ => proceeds_unfinished (by omega)
  | fuel + 1, h, st, hkind => by
    refine proceeds_bind (proceeds_advance rfl hkind) fun _ st₁ h₁ => ?_
    refine proceeds_bind (consumes_expect _ _) fun _ st₂ h₂ => ?_
    have hrest {st' : ParserState} (hst : left st' < left st) (start : Option StmtId) :
        Proceeds (8 * left st + 1 ≤ fuel + 1) st' (do
          expect .semicolon .forStart
          let condition ← optionalExpression .semicolon
          expect .semicolon .forCondition
          let step ← optionalExpression .rightParen
          expect .rightParen .forClose
          return Stmt.forLoop h start condition step (← statementWithin fuel))
          fun _ st'' => left st'' < left st := by
      refine proceeds_bind (consumes_expect _ _) fun _ st₃ h₃ => ?_
      refine proceeds_bind (stays_optionalExpression _) fun condition st₄ h₄ => ?_
      refine proceeds_bind (consumes_expect _ _) fun _ st₅ h₅ => ?_
      refine proceeds_bind (stays_optionalExpression _) fun step st₆ h₆ => ?_
      refine proceeds_bind (consumes_expect _ _) fun _ st₇ h₇ => ?_
      exact proceeds_bind ((consumes_statementWithin fuel st₇).fuel (by omega)) fun body st₈ h₈ =>
        proceeds_pure (by omega)
    refine proceeds_look rfl ?_
    split
    · exact hrest (by omega) none
    · refine proceeds_bind (proceeds_map (S := fun _ st' => left st' < left st₂)
        (consumes_declarationOrExpression _)) fun start st₃ h₃ => hrest (by omega) start

theorem consumes_doWithin : ∀ (fuel : Nat) (h : FlowHints) (st : ParserState),
    kindAt st.tokens ≠ .endOfFile → Consumes (8 * left st + 1 ≤ fuel) st (doWithin fuel h)
  | 0, _, _, _ => proceeds_unfinished (by omega)
  | fuel + 1, h, st, hkind => by
    refine proceeds_bind (proceeds_advance rfl hkind) fun _ st₁ h₁ => ?_
    refine proceeds_bind ((consumes_statementWithin fuel st₁).fuel (by omega)) fun body st₂ h₂ => ?_
    refine proceeds_look rfl ?_
    split
    · refine proceeds_bind stays_advance fun _ st₃ h₃ => ?_
      refine proceeds_bind (consumes_condition _ _) fun condition st₄ h₄ => ?_
      refine proceeds_bind (consumes_expect _ _) fun _ st₅ h₅ => ?_
      exact (stays_addStmt _).imp id fun _ _ h => by omega
    · exact proceeds_fail_bind ParseError.noConfusion _

theorem consumes_whileWithin : ∀ (fuel : Nat) (h : FlowHints) (st : ParserState),
    kindAt st.tokens ≠ .endOfFile → Consumes (8 * left st + 1 ≤ fuel) st (whileWithin fuel h)
  | 0, _, _, _ => proceeds_unfinished (by omega)
  | fuel + 1, h, st, hkind => by
    refine proceeds_bind (proceeds_advance rfl hkind) fun _ st₁ h₁ => ?_
    refine proceeds_bind (consumes_expect _ _) fun _ st₂ h₂ => ?_
    refine proceeds_bind (consumes_declarationOrExpression _) fun condition st₃ h₃ => ?_
    refine proceeds_bind (consumes_expect _ _) fun _ st₄ h₄ => ?_
    refine proceeds_bind ((consumes_statementWithin fuel st₄).fuel (by omega)) fun body st₅ h₅ => ?_
    exact (stays_addStmt _).imp id fun _ _ h => by omega

end

/-! ### Qualifiers -/

theorem proceeds_setOnce (kind : QualifierKind) (old : Option α) (new : α) :
    Proceeds F st (setOnce kind old new) fun _ st' => st = st' := by
  unfold setOnce
  split
  · exact proceeds_fail_bind ParseError.noConfusion _
  · exact proceeds_pure rfl

theorem consumes_layoutEntry : Consumes F st layoutEntry := by
  refine proceeds_look (run_peek st) ?_
  extract_lets entry
  have hentry (h : kindAt st.tokens ≠ .endOfFile) (name : String) :
      Consumes F st (entry name) := by
    dsimp only [entry]
    split
    · exact proceeds_fail ParseError.noConfusion
    · refine proceeds_bind (proceeds_advance rfl h) fun _ st₁ h₁ => ?_
      refine proceeds_look rfl (proceeds_ite (fun _ => ?_) fun _ => ?_)
      · refine proceeds_ite (fun _ => ?_) fun _ => proceeds_fail_bind ParseError.noConfusion _
        refine proceeds_bind stays_advance fun _ st₂ h₂ => ?_
        refine proceeds_bind (consumes_expression _) fun value st₃ h₃ => proceeds_look rfl ?_
        split
        · exact proceeds_bind (stays_evaluate value) fun _ st₄ h₄ => proceeds_pure (by omega)
        · exact proceeds_fail_bind ParseError.noConfusion _
      · exact proceeds_ite (fun _ => proceeds_fail_bind ParseError.noConfusion _) fun _ =>
          proceeds_pure (by omega)
  split
  · next h => exact hentry (h ▸ TokenKind.noConfusion) _
  · next h => exact hentry (h ▸ TokenKind.noConfusion) StorageClass.shared.spelling
  · exact proceeds_fail_bind ParseError.noConfusion _

theorem consumes_layoutList (layout : List LayoutEntry) : Consumes F st (layoutList layout) := by
  refine proceeds_bind stays_advance fun _ st₁ h₁ => ?_
  refine proceeds_bind (consumes_expect _ _) fun _ st₂ h₂ => ?_
  refine proceeds_bind (consumes_commaSeparated ParseError.noConfusion fun _ _ =>
    consumes_layoutEntry) fun entries st₃ h₃ => proceeds_pure (by omega)

theorem finds_qualifier? (q : Qualifiers) : Finds F st (qualifier? q) := by
  have htaken {kind : TokenKind} (h : kindAt st.tokens = kind) (hkind : kind ≠ .endOfFile)
      (q : Qualifiers) : Finds F st (do advance; return some q) :=
    proceeds_bind (proceeds_advance h hkind) fun _ st₁ h₁ =>
      proceeds_pure ⟨by omega, fun _ => by omega⟩
  have hset {γ : Type} {kind : TokenKind} (h : kindAt st.tokens = kind) (hkind : kind ≠ .endOfFile)
      (name : QualifierKind) (old : Option γ) (new : γ) (put : Option γ → Qualifiers) :
      Finds F st (do
        let value ← setOnce name old new
        advance
        return some (put value)) := by
    refine proceeds_bind (proceeds_setOnce name old new) ?_
    rintro value _ rfl
    exact htaken h hkind (put value)
  refine proceeds_look (run_peek st) ?_
  split
  · next h => exact hset h TokenKind.noConfusion _ _ _ fun storage => { q with storage }
  · next h => exact hset h TokenKind.noConfusion _ _ _ fun auxiliary => { q with auxiliary }
  · next h => exact hset h TokenKind.noConfusion _ _ _ fun interpolation => { q with interpolation }
  · next h => exact hset h TokenKind.noConfusion _ _ _ fun precision => { q with precision }
  · next h => exact htaken h TokenKind.noConfusion _
  · next h => exact htaken h TokenKind.noConfusion _
  · next h => exact htaken h TokenKind.noConfusion _
  · exact proceeds_bind (consumes_layoutList _) fun layout st₁ h₁ =>
      proceeds_pure ⟨by omega, fun _ => h₁⟩
  · exact proceeds_pure ⟨Nat.le_refl _, Bool.noConfusion⟩

theorem proceeds_qualifiers : Proceeds F st qualifiers fun q st' =>
    left st' ≤ left st ∧ (q.storage.isSome → left st' < left st) := by
  refine proceeds_repeatSteps (I := fun q st₁ => left st₁ ≤ left st ∧
    (q.storage.isSome → left st₁ < left st)) (fun q st₁ h₁ => ?_) ⟨Nat.le_refl _, Bool.noConfusion⟩
  refine proceeds_bind (finds_qualifier? q) fun next st₂ h₂ => ?_
  cases next with
  | some q =>
      have h₂ := h₂.2 rfl
      exact proceeds_pure ⟨h₂, by omega, fun _ => by omega⟩
  | none => exact proceeds_pure ⟨by omega, fun h => h₂.1.trans_lt (h₁.2 h)⟩

theorem ne_unfinished_of_qualifierConflict? {stage : Stage} {q : Qualifiers} {e : ParseError}
    (h : qualifierConflict? stage q = some e) : e ≠ .unfinished := by
  rintro rfl
  revert h
  unfold qualifierConflict?
  repeat' split
  all_goals exact fun h => by cases h

theorem proceeds_declarationQualifiers : Proceeds F st declarationQualifiers fun q st' =>
    left st' ≤ left st ∧ (q.storage.isSome → left st' < left st) := by
  refine proceeds_bind proceeds_qualifiers fun q st₁ h₁ => proceeds_look rfl ?_
  extract_lets kept unreserved
  have hunreserved : Proceeds F st₁ (unreserved ()) fun q st' =>
      left st' ≤ left st ∧ (q.storage.isSome → left st' < left st) := by
    refine proceeds_look (run_peek st₁) ?_
    split
    · exact proceeds_fail_bind ParseError.noConfusion _
    · exact proceeds_pure h₁
  split
  · next h => exact proceeds_fail_bind (ne_unfinished_of_qualifierConflict? h) _
  · exact hunreserved

theorem proceeds_namesType? : Proceeds F st namesType? fun _ st' => st = st' := by
  refine proceeds_bind proceeds_name? ?_
  rintro name _ ⟨rfl, -⟩
  cases name with
  | none => exact proceeds_pure rfl
  | some name => exact proceeds_of_run rfl rfl

theorem proceeds_blockStorage? (q : Qualifiers) : Proceeds F st (blockStorage? q) fun found st' =>
    st = st' ∧ (found.isSome → q.storage.isSome) := by
  refine proceeds_bind proceeds_namesType? ?_
  rintro namesType _ rfl
  refine proceeds_bind proceeds_name? ?_
  rintro name _ ⟨rfl, -⟩
  refine proceeds_look rfl (proceeds_pure ⟨rfl, fun h => ?_⟩)
  cases hstorage : q.storage with
  | none => rw [hstorage] at h; exact h
  | some storage => rfl

/-! ### Names -/

theorem stays_declarator (q : Qualifiers) (type : TypeRef) (typeDims : List (Option ExprId)) :
    Stays F st (declarator q type typeDims) := by
  refine proceeds_bind proceeds_name? ?_
  rintro name _ ⟨rfl, -⟩
  extract_lets unnamed
  have hunnamed {st' : ParserState} (h : left st' ≤ left st) :
      Proceeds F st' (unnamed ()) fun _ st'' => left st'' ≤ left st := by
    refine proceeds_bind stays_dimensions fun dims st₁ h₁ => ?_
    extract_lets dims initialised
    have hinitialised {st₂ : ParserState} (h₂ : left st₂ ≤ left st) (initial : Option ExprId) :
        Proceeds F st₂ (initialised initial) fun _ st'' => left st'' ≤ left st := by
      cases name with
      | some name => exact proceeds_pure h₂
      | none => exact proceeds_fail ParseError.noConfusion
    refine proceeds_bind (stays_take? .eq) fun assigned st₂ h₂ => ?_
    split
    · refine proceeds_bind (consumes_initialValue _ _ _) fun value st₃ h₃ => ?_
      refine proceeds_ite (fun _ => proceeds_look rfl ?_) fun _ => hinitialised (by omega) _
      exact proceeds_ite (fun _ => hinitialised (by omega) _) fun _ =>
        proceeds_fail_bind ParseError.noConfusion _
    · exact proceeds_ite (fun _ => proceeds_fail_bind ParseError.noConfusion _) fun _ =>
        hinitialised (by omega) _
  exact proceeds_ite (fun _ => proceeds_bind stays_advance fun _ st₁ h₁ => hunnamed h₁) fun _ =>
    hunnamed (Nat.le_refl _)

theorem stays_furtherDeclarators (first : Declarator) (typeDims : List (Option ExprId)) :
    Stays F st (furtherDeclarators first typeDims) := by
  refine proceeds_repeatSteps (I := fun _ st₁ => left st₁ ≤ left st) (fun found st₁ h₁ => ?_)
    (Nat.le_refl _)
  refine proceeds_bind (proceeds_take? _) fun more st₂ h₂ => ?_
  cases more with
  | true =>
      have h₂ := h₂.1 rfl
      exact proceeds_bind (stays_declarator _ _ _) fun d st₃ h₃ =>
        proceeds_pure ⟨by omega, by omega⟩
  | false =>
      obtain rfl := h₂.2 rfl
      exact proceeds_pure h₁

theorem consumes_typedDeclaration (q : Qualifiers) : Consumes F st (typedDeclaration q) := by
  refine proceeds_bind (proceeds_typeName? _) ?_
  rintro type _ ⟨rfl, hkind⟩
  cases type with
  | none => exact proceeds_fail ParseError.noConfusion
  | some type =>
      refine proceeds_bind (proceeds_advance rfl (hkind rfl)) fun _ st₁ h₁ => ?_
      refine proceeds_bind stays_dimensions fun dims st₂ h₂ => ?_
      refine proceeds_bind (stays_declarator _ _ _) fun d st₃ h₃ => ?_
      exact (stays_furtherDeclarators d _).imp id fun _ _ h => by omega

theorem stays_declaratorsOf (q : Qualifiers) (type : TypeRef) :
    Stays F st (declaratorsOf q type) := by
  refine proceeds_look rfl (proceeds_ite (fun _ => proceeds_pure (Nat.le_refl _)) fun _ => ?_)
  refine proceeds_bind (stays_declarator q type []) fun d st₁ h₁ => ?_
  exact (stays_furtherDeclarators d []).imp id fun _ _ h => h.trans h₁

theorem consumes_defaultPrecision (h : kindAt st.tokens = .keyword (.word .precision)) :
    Consumes F st defaultPrecision := by
  refine proceeds_bind (proceeds_advance h TokenKind.noConfusion) fun _ st₁ h₁ => ?_
  refine proceeds_look (run_peek st₁) ?_
  extract_lets typed
  have htyped {st' : ParserState} (h : left st' < left st) :
      Proceeds F st' (typed ()) fun _ st'' => left st'' < left st := by
    refine proceeds_look (run_peek st') ?_
    split
    · exact proceeds_ite (fun _ => stays_advance.imp id fun _ _ h' => by omega) fun _ =>
        proceeds_fail ParseError.noConfusion
    · exact proceeds_fail ParseError.noConfusion
  split
  · exact proceeds_bind stays_advance fun _ st₂ h₂ => htyped (by omega)
  · exact proceeds_fail_bind ParseError.noConfusion _

theorem consumes_redeclareInvariant {name : String} (h : kindAt st.tokens = .ident name) :
    Consumes F st (redeclareInvariant name) := by
  refine proceeds_look rfl ?_
  split
  · exact proceeds_fail ParseError.noConfusion
  · refine proceeds_look rfl ?_
    refine proceeds_ite (fun _ => proceeds_fail_bind ParseError.noConfusion _) fun _ => ?_
    refine proceeds_bind (Q := fun _ st' => st'.tokens = st.tokens) rfl fun _ st₁ h₁ => ?_
    have hleft : left st₁ = left st := congrArg List.length h₁
    exact (proceeds_advance (h₁ ▸ h) TokenKind.noConfusion).imp id fun _ _ h => by omega

theorem consumes_plainDeclaration (q : Qualifiers) : Consumes F st (plainDeclaration q) := by
  refine proceeds_bind proceeds_name? ?_
  rintro name _ ⟨rfl, hname⟩
  cases name with
  | none => exact consumes_typedDeclaration q
  | some name =>
      refine proceeds_bind proceeds_namesType? ?_
      rintro namesType _ rfl
      refine proceeds_look rfl (proceeds_ite (fun _ => ?_) fun _ => consumes_typedDeclaration q)
      exact proceeds_bind (consumes_redeclareInvariant (hname name rfl)) fun _ st₁ h₁ =>
        proceeds_pure h₁

/-! ### Structures and blocks -/

theorem stays_exposeFields (fields : List VarId) : Stays F st (exposeFields fields) := by
  refine stays_forM (fun field st => proceeds_look rfl (proceeds_look rfl ?_)) fields
  split
  · refine proceeds_look rfl (proceeds_ite (fun _ => ?_) fun _ => ?_)
    · exact stays_declare field
    · exact proceeds_fail_bind ParseError.noConfusion _
  · exact stays_declare field

mutual

theorem consumes_declarationWithin : ∀ (fuel : Nat) (st : ParserState),
    Consumes (8 * left st + 3 ≤ fuel) st (declarationWithin fuel)
  | 0, _ => proceeds_unfinished (by omega)
  | fuel + 1, st => by
    refine proceeds_bind proceeds_declarationQualifiers fun q st₁ h₁ => ?_
    refine proceeds_bind (proceeds_blockStorage? q) ?_
    rintro storage _ ⟨rfl, hstorage⟩
    cases storage with
    | some storage =>
        -- A block need not have more tokens than the storage class in front.
        have h₁ := h₁.2 (hstorage rfl)
        refine proceeds_bind ((stays_blockWithin fuel storage q st₁).fuel (by omega))
          fun block st₂ h₂ => ?_
        exact (stays_declaratorsOf _ _).imp id fun _ _ h => by omega
    | none =>
        refine proceeds_look rfl (proceeds_ite (fun hkind => ?_) fun _ => ?_)
        · refine proceeds_bind (proceeds_advance (eq_of_beq hkind) TokenKind.noConfusion)
            fun _ st₂ h₂ => ?_
          refine proceeds_bind ((stays_structureWithin fuel st₂).fuel (by omega))
            fun declared st₃ h₃ => ?_
          exact (stays_declaratorsOf _ _).imp id fun _ _ h => by omega
        refine proceeds_look rfl (proceeds_ite (fun hkind => ?_) fun _ => ?_)
        · exact proceeds_bind (consumes_defaultPrecision (eq_of_beq hkind)) fun _ st₂ h₂ =>
            proceeds_pure (by omega)
        · exact (consumes_plainDeclaration q).imp id fun _ _ h => by omega

theorem stays_structureWithin : ∀ (fuel : Nat) (st : ParserState),
    Stays (8 * left st + 2 ≤ fuel) st (structureWithin fuel)
  | 0, _ => proceeds_unfinished (by omega)
  | fuel + 1, st => by
    refine proceeds_bind proceeds_name? ?_
    rintro name _ ⟨rfl, -⟩
    have hfields {st' : ParserState} (h : left st' ≤ left st) :
        Proceeds (8 * left st + 2 ≤ fuel + 1) st' (do
          let fields ← fieldsWithin fuel "structure"
          addStructure name fields) fun _ st'' => left st'' ≤ left st :=
      proceeds_bind ((consumes_fieldsWithin fuel _ st').fuel (by omega)) fun fields st₁ h₁ =>
        (stays_modifyShader _).imp id fun _ _ h => by omega
    exact proceeds_ite (fun _ => proceeds_bind stays_advance fun _ st₁ h₁ => hfields h₁) fun _ =>
      hfields (Nat.le_refl _)

theorem stays_blockWithin : ∀ (fuel : Nat) (storage : StorageClass) (q : Qualifiers)
    (st : ParserState), Stays (8 * left st + 2 ≤ fuel) st (blockWithin fuel storage q)
  | 0, _, _, _ => proceeds_unfinished (by omega)
  | fuel + 1, storage, q, st => by
    refine proceeds_bind proceeds_name? ?_
    rintro name _ ⟨rfl, -⟩
    have hadd {st' : ParserState} (h : left st' ≤ left st) (fields : List VarId) :
        Proceeds (8 * left st + 2 ≤ fuel + 1) st' (do
          let id ← addBlock name fields { storage, memory := q.memory, layout := q.layout }
          if (← name?).isNone then exposeFields fields
          return id) fun _ st'' => left st'' ≤ left st := by
      refine proceeds_bind (stays_modifyShader _) fun id st₁ h₁ => ?_
      refine proceeds_bind proceeds_name? ?_
      rintro second _ ⟨rfl, -⟩
      refine proceeds_ite (fun _ => ?_) fun _ => proceeds_pure (h₁.trans h)
      exact proceeds_bind (stays_exposeFields fields) fun _ st₂ h₂ => proceeds_pure (by omega)
    have hfields {st' : ParserState} (h : left st' ≤ left st) :
        Proceeds (8 * left st + 2 ≤ fuel + 1) st' (do
          let fields ←
            if name.isNone && (← at? .semicolon) then pure []
            else fieldsWithin fuel storage.blockName
          let id ← addBlock name fields { storage, memory := q.memory, layout := q.layout }
          if (← name?).isNone then exposeFields fields
          return id) fun _ st'' => left st'' ≤ left st := by
      refine proceeds_look rfl ?_
      split
      · exact hadd h []
      · exact proceeds_bind ((consumes_fieldsWithin fuel _ st').fuel (by omega))
          fun fields st₁ h₁ => hadd (by omega) fields
    exact proceeds_ite (fun _ => proceeds_bind stays_advance fun _ st₁ h₁ => hfields h₁) fun _ =>
      hfields (Nat.le_refl _)

theorem consumes_fieldsWithin : ∀ (fuel : Nat) (block : String) (st : ParserState),
    Consumes (8 * left st + 1 ≤ fuel) st (fieldsWithin fuel block)
  | 0, _, _ => proceeds_unfinished (by omega)
  | fuel + 1, block, st => by
    refine proceeds_bind (consumes_expect _ _) fun _ st₁ h₁ => ?_
    refine proceeds_repeatSteps (I := fun _ st₂ => left st₂ < left st) (fun found st₂ h₂ => ?_) h₁
    refine proceeds_bind (stays_take? _) fun closed st₃ h₃ => ?_
    refine proceeds_ite (fun _ => proceeds_pure (by dsimp only; omega)) fun _ =>
      proceeds_look rfl ?_
    refine proceeds_ite (fun _ => proceeds_fail_bind ParseError.noConfusion _) fun _ => ?_
    refine proceeds_bind ((consumes_declarationWithin fuel st₃).fuel (by omega))
      fun names st₄ h₄ => ?_
    refine proceeds_bind (consumes_expect _ _) fun _ st₅ h₅ => ?_
    exact proceeds_bind (stays_mapM (fun d _ => stays_addVar _) names) fun fields st₆ h₆ =>
      proceeds_pure (by dsimp only; omega)

end

/-! ### Functions and variables -/

theorem consumes_parameterPart (p : Parameter) : Consumes F st (parameterPart p) := by
  have htaken {kind : TokenKind} (h : kindAt st.tokens = kind) (hkind : kind ≠ .endOfFile)
      (p : Parameter) : Consumes F st (do advance; return p) :=
    proceeds_bind (proceeds_advance h hkind) fun _ st₁ h₁ => proceeds_pure (by omega)
  refine proceeds_look (run_peek st) ?_
  split
  · next h => exact htaken h TokenKind.noConfusion _
  · next h => exact htaken h TokenKind.noConfusion _
  · next h => exact htaken h TokenKind.noConfusion _
  · next h => exact htaken h TokenKind.noConfusion _
  · next h => exact htaken h TokenKind.noConfusion _
  · next h => exact proceeds_bind proceeds_dimensions fun dims st₁ h₁ => proceeds_pure (h₁.2 h)
  · next h =>
      exact proceeds_ite (fun _ => proceeds_fail_bind ParseError.noConfusion _) fun _ =>
        htaken h TokenKind.noConfusion _
  · next name h =>
      have hname : Consumes F st (do
          if p.name.isSome then fail .parameterSyntax
          if p.type = some (.builtin .void) then fail .namedVoid
          advance
          return { p with name := some name }) :=
        proceeds_ite (fun _ => proceeds_fail_bind ParseError.noConfusion _) fun _ =>
          proceeds_ite (fun _ => proceeds_fail_bind ParseError.noConfusion _) fun _ =>
            htaken h TokenKind.noConfusion _
      refine proceeds_ite (fun _ => proceeds_look rfl ?_) fun _ => hname
      split
      · exact proceeds_fail ParseError.noConfusion
      · exact htaken h TokenKind.noConfusion _
  · exact proceeds_fail ParseError.noConfusion

theorem consumes_parameter : Consumes F st parameter := by
  refine proceeds_bind (proceeds_repeatSteps (I := fun p st₁ => left st₁ ≤ left st ∧
    (p.type.isSome → left st₁ < left st)) (S := fun p st₁ => p.type.isSome → left st₁ < left st)
    (fun p st₁ h₁ => ?_) ⟨Nat.le_refl _, Bool.noConfusion⟩) fun p st₁ h₁ => ?_
  · refine proceeds_bind (proceeds_atAny? _) ?_
    rintro ended _ ⟨rfl, -⟩
    refine proceeds_ite (fun _ => proceeds_pure h₁.2) fun _ => ?_
    exact proceeds_bind (consumes_parameterPart p) fun p st₂ h₂ =>
      proceeds_pure ⟨h₂, by omega, fun _ => by omega⟩
  · split
    · exact proceeds_fail ParseError.noConfusion
    · next htype =>
        have h₁ := h₁ (htype ▸ rfl)
        exact (stays_addVar _).imp id fun _ _ h => by omega

theorem proceeds_builtinAttribute : Proceeds F st builtinAttribute fun found st' =>
    left st' ≤ left st ∧ (found = true → left st' < left st) := by
  refine proceeds_look (run_atDoubleBracket? st) (proceeds_ite (fun _ => ?_) fun _ => ?_)
  · refine proceeds_bind stays_advance fun _ st₁ h₁ => ?_
    refine proceeds_bind stays_advance fun _ st₂ h₂ => ?_
    refine proceeds_bind proceeds_name? ?_
    rintro name _ ⟨rfl, -⟩
    refine proceeds_ite (fun _ => ?_) fun _ => proceeds_fail_bind ParseError.noConfusion _
    refine proceeds_bind stays_advance fun _ st₃ h₃ => ?_
    refine proceeds_bind (consumes_expect _ _) fun _ st₄ h₄ => ?_
    exact proceeds_bind (consumes_expect _ _) fun _ st₅ h₅ =>
      proceeds_pure ⟨by omega, fun _ => by omega⟩
  · exact proceeds_pure ⟨Nat.le_refl _, Bool.noConfusion⟩

theorem stays_addFunction (f : Function) : Stays F st (addFunction f) := by
  refine proceeds_look rfl ?_
  split
  · exact stays_modifyShader _
  · refine stays_forM (fun column st => proceeds_ite (fun _ => ?_) fun _ =>
      proceeds_pure (Nat.le_refl _)) _
    refine proceeds_bind (stays_mapM (fun p st => proceeds_look rfl (stays_addVar _)) _)
      fun params st₁ h₁ => ?_
    exact (stays_modifyShader _).imp id fun _ _ h => h.trans h₁

theorem proceeds_declareAll (params : List VarId) :
    Proceeds F st (params.forM declare) fun _ st' => st'.tokens = st.tokens := by
  induction params generalizing st with
  | nil => exact proceeds_pure rfl
  | cons p params ih =>
      exact proceeds_bind (proceeds_declare p) fun _ st₁ h₁ => ih.imp id fun _ _ h => h.trans h₁

theorem consumes_functionBody (params : List VarId) : Consumes F st (functionBody params) := by
  refine proceeds_look rfl (proceeds_ite (fun hkind => ?_) fun _ => ?_)
  · refine proceeds_bind proceeds_openScope fun _ st₁ h₁ => ?_
    refine proceeds_bind (proceeds_declareAll params) fun _ st₂ h₂ => proceeds_look rfl ?_
    have htokens : st₂.tokens = st.tokens := h₂.trans h₁
    have hleft : left st₂ = left st := congrArg List.length htokens
    have hopen : kindAt st₂.tokens ≠ .endOfFile := by
      rw [htokens, eq_of_beq hkind]
      exact TokenKind.noConfusion
    refine proceeds_bind ((consumes_bodyWithin _ st₂ hopen).fuel fun _ => by rw [left]; omega)
      fun body st₃ h₃ => ?_
    refine proceeds_bind stays_closeScope fun _ st₄ h₄ => ?_
    exact proceeds_pure (by omega)
  · refine proceeds_bind (proceeds_take? _) fun ended st₁ h₁ => ?_
    cases ended with
    | true => exact proceeds_pure (h₁.1 rfl)
    | false => exact proceeds_fail_bind ParseError.noConfusion _

theorem consumes_function (returnType : TypeRef) (name : String) :
    Consumes F st (function returnType name) := by
  refine proceeds_bind (consumes_expect _ _) fun _ st₁ h₁ => ?_
  refine proceeds_bind (consumes_commaSeparated ParseError.noConfusion fun _ _ =>
    consumes_parameter) fun params st₂ h₂ => ?_
  refine proceeds_bind proceeds_builtinAttribute fun builtin st₃ h₃ => ?_
  have hbody (params : List VarId) : Proceeds F st₃ (do
      let body ← functionBody params
      addFunction { name, returnType, params, body, builtin }) fun _ st' => left st' < left st :=
    proceeds_bind (consumes_functionBody params) fun body st₄ h₄ =>
      (stays_addFunction _).imp id fun _ _ h => by omega
  refine proceeds_look rfl (proceeds_look rfl ?_)
  refine proceeds_ite (fun _ => ?_) fun _ => proceeds_fail_bind ParseError.noConfusion _
  refine proceeds_ite (fun _ => ?_) fun _ => hbody _
  refine proceeds_ite (fun _ => ?_) fun _ => proceeds_fail_bind ParseError.noConfusion _
  exact proceeds_ite (fun _ => hbody _) fun _ => proceeds_fail_bind ParseError.noConfusion _

theorem stays_declareGlobal (d : Declarator) : Stays F st (declareGlobal d) := by
  have hadd {st' : ParserState} (h : left st' ≤ left st) (initial : Option ExprId) :
      Proceeds F st' (do
        let var ← addVar (d.toGlobal initial)
        modifyShader fun s => ((), { s with globals := s.globals.push var })
        declare var) fun _ st'' => left st'' ≤ left st := by
    refine proceeds_bind (stays_addVar _) fun var st₁ h₁ => ?_
    refine proceeds_bind (stays_modifyShader _) fun _ st₂ h₂ => ?_
    exact (stays_declare var).imp id fun _ _ h => by omega
  refine proceeds_ite (fun _ => proceeds_fail_bind ParseError.noConfusion _) fun _ => ?_
  split
  · refine proceeds_look rfl (proceeds_ite (fun _ => ?_) fun _ => hadd (Nat.le_refl _) _)
    exact proceeds_bind (proceeds_map (S := fun _ st' => left st' ≤ left st) (stays_evaluate _))
      fun initial st₁ h₁ => hadd h₁ initial
  · exact hadd (Nat.le_refl _) none

theorem stays_declareHidden (g : HiddenGlobal) : Stays F st (declareHidden g) := by
  refine proceeds_bind (Q := fun _ st' => left st' ≤ left st) ?_ fun initial st₁ h₁ => ?_
  · cases g.value with
    | none => exact proceeds_pure (Nat.le_refl _)
    | some n => exact proceeds_map (stays_addExpr _)
  · refine proceeds_bind (stays_addVar _) fun var st₂ h₂ => ?_
    refine proceeds_bind (stays_modifyShader _) fun _ st₃ h₃ => ?_
    exact (stays_declare var).imp id fun _ _ h => by omega

/-! ### Whole texts -/

theorem consumes_externalDeclaration : Consumes F st externalDeclaration := by
  refine proceeds_bind (proceeds_take? _) fun ended st₁ h₁ => ?_
  cases ended with
  | true => exact proceeds_pure (h₁.1 rfl)
  | false =>
      obtain rfl := h₁.2 rfl
      refine proceeds_look rfl ?_
      refine proceeds_bind ((consumes_declarationWithin _ st₁).fuel fun _ => by rw [left]; omega)
        fun names st₂ h₂ => proceeds_look (run_peek st₂) ?_
      split
      · refine proceeds_bind stays_advance fun _ st₃ h₃ => ?_
        exact (stays_forM (fun d _ => stays_declareGlobal d) _).imp id fun _ _ h => by omega
      · exact (consumes_function _ _).imp id fun _ _ h => by omega
      · exact proceeds_fail ParseError.noConfusion

theorem stays_declarations : Stays F st declarations := by
  refine proceeds_repeatSteps (I := fun _ st₁ => left st₁ ≤ left st) (fun _ st₁ h₁ => ?_)
    (Nat.le_refl _)
  refine proceeds_look rfl (proceeds_ite (fun _ => proceeds_pure h₁) fun _ => ?_)
  exact proceeds_bind consumes_externalDeclaration fun _ st₂ h₂ =>
    proceeds_pure ⟨h₂, by omega⟩

theorem ne_unfinished_of_withoutDirectives {s : Shader} {tokens : List Token} {e : ParseError}
    {place : Span} (h : withoutDirectives s tokens = .error (e, place)) : e ≠ .unfinished := by
  induction tokens generalizing s with
  | nil => cases h
  | cons t rest ih =>
      unfold withoutDirectives at h
      split at h
      · next d _ =>
          cases hrecord : record d t.span s with
          | error r =>
              rw [hrecord] at h
              cases h
              unfold record at hrecord
              split at hrecord
              · split at hrecord <;> cases hrecord
                exact ParseError.noConfusion
              all_goals cases hrecord
          | ok s' =>
              rw [hrecord] at h
              exact ih h
      · cases hrest : withoutDirectives s rest with
        | error r =>
            rw [hrest] at h
            cases h
            exact ih hrest
        | ok r =>
            rw [hrest] at h
            cases h

theorem proceeds_source (tokens : List Token) : Proceeds F st (source tokens) fun _ _ => True := by
  refine proceeds_look rfl ?_
  split
  · next e h => exact fun _ => ne_unfinished_of_withoutDirectives h
  · refine proceeds_bind (Q := fun _ _ => True) trivial fun _ st₁ _ => ?_
    exact stays_declarations.imp id fun _ _ _ => trivial

theorem proceeds_prelude (stage : Stage) (prototypes : List Token) :
    Proceeds F st (prelude stage prototypes) fun _ _ => True :=
  proceeds_bind (stays_forM (fun g _ => stays_declareHidden g) _) fun _ _ _ =>
    proceeds_source prototypes

/-! ### Every parse ends -/

/-- A rule that has enough fuel does not use it up. -/
def Ends (st : ParserState) (m : ParseM α) : Prop :=
  ∀ place, m.run st ≠ .error (.unfinished, place)

theorem Proceeds.ends {m : ParseM α} {Q : α → ParserState → Prop} (hm : Proceeds True st m Q) :
    Ends st m := by
  intro place h
  unfold Proceeds at hm
  rw [h] at hm
  exact hm trivial rfl

/-- Tokens have been taken on the course of a parse, and the end of file has not. -/
structure Advances (st st' : ParserState) : Prop where
  follows : Follows st st'
  taken : ∃ t taken, st.tokens = t :: taken ++ st'.tokens ∧
    ∀ u ∈ t :: taken, u.kind ≠ .endOfFile

theorem advances_of_left_lt (h : Follows st st') (hleft : left st' < left st) :
    Advances st st' := by
  obtain ⟨refs, hcourse⟩ := h
  obtain ⟨taken, htokens, hkinds⟩ := hcourse.exists_taken
  cases taken with
  | nil => exact absurd hleft (by rw [left, left, htokens]; exact Nat.lt_irrefl _)
  | cons t taken => exact ⟨⟨refs, hcourse⟩, t, taken, htokens, hkinds⟩

theorem along_advances {F : ParserState → Prop} {m : ParseM α} (hm : ∀ st, Consumes (F st) st m)
    (hfollows : Along Follows m) : Along Advances m := by
  intro st a st' h
  exact advances_of_left_lt (hfollows st a st' h) ((hm st).result h)

/-- What is repeated takes tokens each time. -/
structure RulesAdvance : Prop where
  declaration : Along Advances externalDeclaration
  statement (n : Nat) : Along Advances (statementWithin n)
  parameter : Along Advances parameter
  field (n : Nat) : Along Advances (declarationWithin n)
  layout : Along Advances layoutEntry
  hint (h : FlowHints) : Along Advances (hint h)
  builtin {st st' : ParserState} : builtinAttribute.run st = .ok (true, st') → Advances st st'
  item (n : Nat) (ends : List Punct) : Along Advances (itemsWithin n ends)
  expression (n : Nat) (ends : List Punct) : Along Advances (expressionWithin n ends)

theorem rulesAdvance : RulesAdvance where
  declaration := along_advances (fun _ => consumes_externalDeclaration (F := True))
    (along_externalDeclaration along_function)
  statement n := along_advances (consumes_statementWithin n) (along_statementWithin n)
  parameter := along_advances (fun _ => consumes_parameter (F := True)) along_parameter
  field n := along_advances (consumes_declarationWithin n) (along_declarationWithin n)
  layout := along_advances (fun _ => consumes_layoutEntry (F := True)) along_layoutEntry
  hint h := along_advances (fun _ => consumes_hint h (F := True)) (along_hint h)
  builtin {st st'} h :=
    have hleft := (proceeds_builtinAttribute (F := True)).result h
    advances_of_left_lt (along_builtinAttribute st true st' h) (hleft.2 rfl)
  item n ends := along_advances (consumes_itemsWithin n ends) (along_itemsWithin n ends)
  expression n ends :=
    along_advances (consumes_expressionWithin n ends) (along_expressionWithin n ends)

theorem tokens_of_localDeclaration?_none {ends : List Punct}
    (h : (localDeclaration? ends).run st = .ok (none, st')) : st'.tokens = st.tokens :=
  (proceeds_localDeclaration? (F := True) ends).result h

theorem shaderWith_ne_unfinished (prototypes : List Token) (stage : Stage) (tokens : List Token)
    (place : Span) : shaderWith prototypes stage tokens ≠ .error (.unfinished, place) := by
  intro h
  have hwhole : Proceeds True { shader := { stage } } (do
      prelude stage prototypes
      source tokens) fun _ _ => True :=
    proceeds_bind (proceeds_prelude stage prototypes) fun _ _ _ => proceeds_source tokens
  unfold shaderWith at h
  dsimp only at h
  cases hrun : ((do prelude stage prototypes; source tokens : ParseM Unit)).run
      { shader := { stage } } with
  | error e =>
      rw [hrun] at h
      cases h
      exact hwhole.ends place hrun
  | ok r =>
      rw [hrun] at h
      cases h

/-- All that is repeated takes tokens, and no rule goes back but an attempt at a declaration, behind
which an expression takes tokens or is wrong. So no list of tokens keeps the parser for ever, in
whatever state it is given. -/
theorem parser_terminates :
    RulesAdvance ∧
    (∀ ends st st₁, (localDeclaration? ends).run st = .ok (none, st₁) →
      st₁.tokens = st.tokens ∧ Ends st₁ (expression ends) ∧
        ∀ e st₂, (expression ends).run st₁ = .ok (e, st₂) → Advances st₁ st₂) ∧
    Along Follows declarations ∧
    (∀ st tokens, Ends st (source tokens)) ∧
    ∀ prototypes stage tokens place,
      shaderWith prototypes stage tokens ≠ .error (.unfinished, place) := by
  refine ⟨rulesAdvance, fun ends st st₁ h => ?_, along_declarations along_function,
    fun st tokens => (proceeds_source tokens).ends, shaderWith_ne_unfinished⟩
  refine ⟨tokens_of_localDeclaration?_none h, (consumes_expression ends).ends, ?_⟩
  exact along_advances (fun _ => consumes_expression ends (F := True)) (along_expression ends) st₁

/-- The tokens of `float(x) + x;`, where `x` is known. -/
def conversion : ParserState where
  tokens := [.keyword (.type (.scalar .float)), .punct .leftParen, .ident "x", .punct .rightParen,
    .punct .plus, .ident "x", .punct .semicolon, .endOfFile].map (⟨·, {}⟩)
  shader :=
    { stage := .fragment
      vars := #[{ name := "x", type := .builtin (.scalar .float), role := .localVar none }] }
  scopes := [[⟨0⟩]]

/-- What begins like a declaration of `x` is parsed again as a sum. -/
theorem conversion_parsed :
    ∃ st₁ e st₂, (localDeclaration? [.semicolon]).run conversion = .ok (none, st₁) ∧
      st₁.tokens = conversion.tokens ∧ (expression [.semicolon]).run st₁ = .ok (e, st₂) ∧
        kindAt st₂.tokens = .punct .semicolon ∧ Advances st₁ st₂ := by
  have hattempt : ((localDeclaration? [.semicolon]).run conversion).toOption.map (·.1) =
      some none := by decide +kernel
  have hretry : ((localDeclaration? [.semicolon] >>= fun _ => expression [.semicolon]).run
      conversion).toOption.map (kindAt ·.2.tokens) = some (.punct .semicolon) := by
    decide +kernel
  cases hfirst : (localDeclaration? [.semicolon]).run conversion with
  | error e =>
      rw [hfirst] at hattempt
      cases hattempt
  | ok r =>
      obtain ⟨found, st₁⟩ := r
      rw [hfirst] at hattempt
      cases hattempt
      rw [run_bind_of hfirst] at hretry
      obtain ⟨htokens, -, hadvances⟩ := parser_terminates.2.1 _ _ _ hfirst
      cases hsecond : (expression [.semicolon]).run st₁ with
      | error e =>
          rw [hsecond] at hretry
          cases hretry
      | ok r =>
          rw [hsecond] at hretry
          exact ⟨st₁, r.1, r.2, rfl, htokens, hsecond, Option.some.inj hretry,
            hadvances r.1 r.2 hsecond⟩

end Parse

end ShaderBridge
