import ShaderBridge.Proofs.Parse.Expression

namespace ShaderBridge

namespace Parse

/-- A relation that is kept by all that happens while parameters are parsed. -/
class VariableFrame (R : ParserState → ParserState → Prop) : Prop extends ExpressionFrame R where
  addVar (v : Variable) : Along R (addVar v)

/-- A relation that is kept by all that happens while local variables are parsed. -/
class LocalFrame (R : ParserState → ParserState → Prop) : Prop extends VariableFrame R where
  declare (id : VarId) : Along R (declare id)

/-- A relation that is kept by all that happens while a statement is parsed. -/
class StatementFrame (R : ParserState → ParserState → Prop) : Prop extends LocalFrame R where
  addStmt (t : Stmt) : Along R (addStmt t)
  setStmt (id : StmtId) (t : Stmt) : Along R (modifyShader fun s => ((), s.setStmt id t))
  inScope {α : Type} {m : ParseM α} : Along R m →
    Along R (do openScope; let a ← m; closeScope; return a)
  attempt {α : Type} {rule : ParseM (Option α)} :
    Along Pushes rule → Along R rule → Along R (attempt rule)

theorem reads_typeName? (named : Keyword → Option BuiltinType) : Reads (typeName? named) := by
  refine reads_bind reads_peek fun kind => ?_
  split
  · exact reads_pure _
  · exact reads_findType? _
  · exact reads_pure _

theorem reads_atDoubleBracket? : Reads atDoubleBracket? :=
  reads_bind (reads_at? _) fun _ => reads_bind reads_peekSecond fun _ => reads_pure _

variable {α β : Type} {R : ParserState → ParserState → Prop}

theorem along_inScope_of [Frame R] (hopen : Along R openScope) (hclose : Along R closeScope)
    {m : ParseM α} (hm : Along R m) : Along R (do openScope; let a ← m; closeScope; return a) :=
  along_bind hopen fun _ => along_bind hm fun a => along_bind hclose fun _ => along_pure a

theorem along_inScope_bind [Frame R] {m : ParseM α} {f : α → ParseM β}
    (hm : Along R (do openScope; let a ← m; closeScope; return a)) (hf : ∀ a, Along R (f a)) :
    Along R (do openScope; let a ← m; closeScope; f a) := by
  have h := along_bind hm hf
  simpa only [bind_assoc, pure_bind] using h

/-! ### Hints -/

section

variable [Frame R]

theorem along_hintValue : Along R hintValue := by
  refine along_bind (along_expect _ _) fun _ => ?_
  refine along_bind_read reads_peek fun kind => ?_
  split
  · refine along_bind Frame.advance fun _ => ?_
    exact along_bind (along_expect _ _) fun _ => along_pure _
  · exact along_fail _

theorem along_hint (h : FlowHints) : Along R (hint h) := by
  refine along_bind_read reads_span fun place => ?_
  refine along_bind_read reads_name? fun name => ?_
  cases name with
  | none => exact along_fail _
  | some name =>
      refine along_bind Frame.advance fun _ => ?_
      split
      · exact along_pure _
      · exact along_bind along_hintValue fun _ => along_pure _
      · exact along_failAt _ _

theorem along_hints : Along R hints := by
  refine along_bind_read reads_atDoubleBracket? fun found => ?_
  split
  · refine along_bind Frame.advance fun _ => ?_
    refine along_bind Frame.advance fun _ => ?_
    refine along_bind (along_repeatSteps (fun h => ?_) _) fun h => ?_
    · refine along_bind_read (reads_at? _) fun closed => ?_
      split
      · exact along_pure _
      · refine along_bind (along_hint h) fun h => ?_
        exact along_bind (along_take? _) fun _ => along_pure _
    · refine along_bind (along_expect _ _) fun _ => ?_
      exact along_bind (along_expect _ _) fun _ => along_pure h
  · exact along_pure _

theorem along_parenthesizedName? : Along R parenthesizedName? := by
  refine along_bind (along_repeatSteps (fun n => ?_) _) fun opened => ?_
  · refine along_bind (along_take? _) fun more => ?_
    split
    · exact along_pure _
    · exact along_pure _
  refine along_bind_read reads_name? fun name => ?_
  cases name with
  | none => exact along_pure none
  | some name =>
      refine along_bind Frame.advance fun _ => ?_
      refine along_bind (along_repeatSteps (fun n => ?_) _) fun closed => along_pure _
      split
      · exact along_pure _
      · refine along_bind (along_take? _) fun more => ?_
        split
        · exact along_pure _
        · exact along_pure _

end

/-! ### Declarations and expressions -/

section

variable [LocalFrame R]

theorem along_localVariable? (t : LocalType) (isFirst : Bool) (ends : List Punct) :
    Along R (localVariable? t isFirst ends) := by
  refine along_bind along_parenthesizedName? fun name => ?_
  cases name with
  | none => exact along_pure none
  | some name =>
      refine along_bind along_dimensions fun dims => ?_
      refine along_bind_read (reads_atAny? _) fun follows => ?_
      dsimp only
      have hadd (initial : Option ExprId) (v : Variable) :
          Along R (do
            if t.constant && initial.isNone then fail .constWithoutValue
            let var ← addVar v
            declare var
            return some var) := by
        have hdeclare : Along R (do
            let var ← addVar v
            declare var
            return some var) := by
          refine along_bind (VariableFrame.addVar v) fun var => ?_
          exact along_bind (LocalFrame.declare var) fun _ => along_pure _
        refine along_ite ?_ ?_
        · exact along_fail_bind _ _
        · exact hdeclare
      split
      · exact along_pure none
      refine along_bind (along_take? _) fun assigned => ?_
      split
      · refine along_bind (along_map some (along_initialValue _ _ _)) fun initial => ?_
        exact hadd initial _
      · exact hadd none _

theorem along_localVariables? (t : LocalType) (ends : List Punct) :
    Along R (localVariables? t ends) := by
  refine along_repeatSteps (fun found => ?_) []
  refine along_bind (along_localVariable? t _ ends) fun var => ?_
  cases var with
  | none => exact along_pure _
  | some var =>
      refine along_bind_read (reads_atAny? ends) fun done => ?_
      split
      · exact along_pure _
      refine along_bind (along_take? _) fun more => ?_
      split
      · exact along_pure _
      · exact along_fail_bind _ _

theorem along_optionalExpression (ending : Punct) : Along R (optionalExpression ending) := by
  refine along_bind_read (reads_at? ending) fun ended => ?_
  split
  · exact along_pure none
  · exact along_bind (along_expression _) fun _ => along_pure _

theorem along_condition (opening closing : Expected) : Along R (condition opening closing) := by
  refine along_bind (along_expect _ _) fun _ => ?_
  refine along_bind (along_expression _) fun value => ?_
  exact along_bind (along_expect _ _) fun _ => along_pure value

theorem along_qualifiedDeclaration? (hadd : ∀ t, Along R (addStmt t)) (ends : List Punct) :
    Along R (qualifiedDeclaration? ends) := by
  refine along_bind_read (reads_atKeyword? _) fun constant => ?_
  extract_lets typed qualified
  have htyped (precision : Option Precision) : Along R (typed precision) := by
    refine along_bind_read (reads_typeName? _) fun type => ?_
    cases type with
    | none => exact along_pure none
    | some type =>
        refine along_bind Frame.advance fun _ => ?_
        refine along_bind along_dimensions fun dims => ?_
        refine along_bind (along_localVariables? _ ends) fun vars => ?_
        cases vars with
        | none => exact along_pure none
        | some vars => exact along_bind (hadd _) fun _ => along_pure _
  have hqualified : Along R (qualified ()) := by
    refine along_bind_read reads_peek fun kind => ?_
    split
    · exact along_bind Frame.advance fun _ => htyped _
    · exact htyped none
  split
  · exact along_bind Frame.advance fun _ => hqualified
  · exact hqualified

end

/-! ### Pushing -/

theorem pushes_of_scopes {st st' : ParserState} (hscopes : st'.scopes = st.scopes)
    (hcalls : st.calls <:+ st'.calls) : Pushes st st' where
  scopes := ⟨[], hscopes.trans (congrFun List.modifyHead_id _).symm⟩
  calls := hcalls

theorem pushes_same {st st' : ParserState} (hscopes : st'.scopes = st.scopes)
    (hcalls : st'.calls = st.calls) : Pushes st st' :=
  pushes_of_scopes hscopes (hcalls ▸ List.suffix_refl _)

instance : Frame Pushes where
  refl st := pushes_same rfl rfl
  trans {st₁ st₂ st₃} h h' := by
    obtain ⟨added, hscopes⟩ := h.scopes
    obtain ⟨added', hscopes'⟩ := h'.scopes
    refine ⟨⟨added' ++ added, ?_⟩, h.calls.trans h'.calls⟩
    simp [hscopes', hscopes, Function.comp_def]
  advance := by
    intro st a st' h
    cases h
    dsimp only
    split
    · split <;> exact pushes_same rfl rfl
    · exact pushes_same rfl rfl

theorem pushes_modifyShader (f : Shader → α × Shader) : Along Pushes (modifyShader f) := by
  intro st a st' h
  cases h
  exact pushes_same rfl rfl

instance : LocalFrame Pushes where
  addExpr e _ := pushes_modifyShader _
  variableNamed name st _ := along_variableNamed_of (fun _ => pushes_modifyShader _) name st
  evaluate id := by
    intro st a st' h
    obtain ⟨s, _, rfl⟩ := run_evaluate_ok h
    exact pushes_same rfl rfl
  addCall name args := by
    intro st a st' h
    cases h
    exact pushes_of_scopes rfl (List.suffix_cons _ _)
  addVar v := pushes_modifyShader _
  declare id := by
    intro st a st' h
    cases h
    dsimp only
    split
    · exact pushes_same rfl rfl
    · next hscopes => exact ⟨⟨[id], by rw [hscopes]; rfl⟩, List.suffix_refl _⟩

theorem pushes_qualifiedDeclaration? (ends : List Punct) :
    Along Pushes (qualifiedDeclaration? ends) :=
  along_qualifiedDeclaration? (fun _ => pushes_modifyShader _) ends

variable [StatementFrame R]

theorem along_localDeclaration? (ends : List Punct) : Along R (localDeclaration? ends) :=
  StatementFrame.attempt (pushes_qualifiedDeclaration? ends)
    (along_qualifiedDeclaration? StatementFrame.addStmt ends)

theorem along_declarationOrExpression (ends : List Punct) :
    Along R (declarationOrExpression ends) := by
  refine along_bind (along_localDeclaration? ends) fun found => ?_
  cases found with
  | some id => exact along_pure id
  | none => exact along_bind (along_expression ends) fun _ => StatementFrame.addStmt _

/-! ### Statements -/

theorem along_jump (t : Stmt) (name : String) : Along R (jump t name) := by
  refine along_bind Frame.advance fun _ => ?_
  exact along_bind (along_expect _ _) fun _ => StatementFrame.addStmt t

theorem along_returnStatement : Along R returnStatement := by
  refine along_bind Frame.advance fun _ => ?_
  refine along_bind (along_optionalExpression _) fun value => ?_
  exact along_bind (along_expect _ _) fun _ => StatementFrame.addStmt _

theorem along_defaultLabel : Along R defaultLabel := by
  refine along_bind Frame.advance fun _ => ?_
  exact along_bind (along_expect _ _) fun _ => StatementFrame.addStmt _

theorem along_caseLabel : Along R caseLabel := by
  refine along_bind Frame.advance fun _ => ?_
  refine along_bind (along_expression _) fun value => ?_
  exact along_bind (along_expect _ _) fun _ => StatementFrame.addStmt _

theorem along_checkLabel (place : Span) (id : StmtId) (labels : Labels) :
    Along R (checkLabel place id labels) := by
  refine along_bind_read reads_shader fun s => ?_
  split
  · refine along_bind_read (reads_isConstant _) fun constant => ?_
    split
    · refine along_bind (ExpressionFrame.evaluate _) fun value => ?_
      refine along_bind_read reads_shader fun s => ?_
      split
      · exact along_failAt _ _
      · refine along_ite ?_ ?_
        · exact along_bind (along_failAt _ _) fun _ =>
            along_bind (StatementFrame.setStmt id _) fun _ => along_pure _
        · exact along_bind (StatementFrame.setStmt id _) fun _ => along_pure _
    · exact along_failAt _ _
  · refine along_ite ?_ ?_
    · exact along_bind (along_failAt _ _) fun _ => along_pure _
    · exact along_pure _
  · exact along_pure labels

mutual

theorem along_statementWithin : ∀ fuel : Nat, Along R (statementWithin fuel)
  | 0 => along_unfinished
  | fuel + 1 => by
    refine along_bind along_hints fun h => ?_
    refine along_bind_read reads_peek fun kind => ?_
    split
    · exact along_inScope_bind (StatementFrame.inScope (along_bodyWithin fuel)) fun body =>
        StatementFrame.addStmt _
    · exact along_bind Frame.advance fun _ => StatementFrame.addStmt _
    · exact along_branchWithin fuel h
    · exact along_switchWithin fuel h
    · exact along_caseLabel
    · exact along_defaultLabel
    · exact along_inScope_bind (StatementFrame.inScope (along_forWithin fuel h)) fun loop =>
        StatementFrame.addStmt loop
    · exact along_doWithin fuel h
    · exact along_whileWithin fuel h
    · exact along_jump _ _
    · exact along_jump _ _
    · exact along_jump _ _
    · exact along_jump _ _
    · exact along_returnStatement
    · refine along_bind (along_declarationOrExpression _) fun id => ?_
      exact along_bind (along_expect _ _) fun _ => along_pure id

theorem along_bodyWithin : ∀ fuel : Nat, Along R (bodyWithin fuel)
  | 0 => along_unfinished
  | fuel + 1 => by
    refine along_bind Frame.advance fun _ => along_repeatSteps (fun found => ?_) []
    refine along_bind (along_take? _) fun closed => ?_
    split
    · exact along_pure _
    refine along_bind_read reads_atEnd fun ended => ?_
    split
    · exact along_fail_bind _ _
    · exact along_bind (along_statementWithin fuel) fun _ => along_pure _

theorem along_branchWithin : ∀ (fuel : Nat) (h : FlowHints), Along R (branchWithin fuel h)
  | 0, _ => along_unfinished
  | fuel + 1, h => by
    refine along_bind Frame.advance fun _ => ?_
    refine along_bind (along_condition _ _) fun condition => ?_
    refine along_bind (along_statementWithin fuel) fun onTrue => ?_
    refine along_bind_read (reads_atKeyword? _) fun more => ?_
    dsimp only
    split
    · refine along_bind Frame.advance fun _ => ?_
      refine along_bind (along_map some (along_statementWithin fuel)) fun onFalse => ?_
      exact StatementFrame.addStmt _
    · exact StatementFrame.addStmt _

theorem along_switchWithin : ∀ (fuel : Nat) (h : FlowHints), Along R (switchWithin fuel h)
  | 0, _ => along_unfinished
  | fuel + 1, h => by
    refine along_bind Frame.advance fun _ => ?_
    refine along_bind (along_condition _ _) fun subject => ?_
    refine along_bind (along_expect _ _) fun _ => ?_
    refine along_inScope_bind (StatementFrame.inScope (along_repeatSteps ?_ _)) fun body =>
      StatementFrame.addStmt _
    rintro ⟨found, labels⟩
    refine along_bind (along_take? _) fun closed => ?_
    split
    · exact along_pure _
    refine along_bind_read reads_atEnd fun ended => ?_
    split
    · exact along_fail_bind _ _
    refine along_bind_read reads_span fun place => ?_
    refine along_bind (along_statementWithin fuel) fun id => ?_
    exact along_bind (along_checkLabel place id labels) fun _ => along_pure _

theorem along_forWithin : ∀ (fuel : Nat) (h : FlowHints), Along R (forWithin fuel h)
  | 0, _ => along_unfinished
  | fuel + 1, h => by
    refine along_bind Frame.advance fun _ => ?_
    refine along_bind (along_expect _ _) fun _ => ?_
    have hrest (start : Option StmtId) :
        Along R (do
          expect .semicolon .forStart
          let condition ← optionalExpression .semicolon
          expect .semicolon .forCondition
          let step ← optionalExpression .rightParen
          expect .rightParen .forClose
          return Stmt.forLoop h start condition step (← statementWithin fuel)) := by
      refine along_bind (along_expect _ _) fun _ => ?_
      refine along_bind (along_optionalExpression _) fun condition => ?_
      refine along_bind (along_expect _ _) fun _ => ?_
      refine along_bind (along_optionalExpression _) fun step => ?_
      refine along_bind (along_expect _ _) fun _ => ?_
      exact along_bind (along_statementWithin fuel) fun _ => along_pure _
    refine along_bind_read (reads_at? _) fun ended => ?_
    split
    · exact hrest none
    · exact along_bind (along_map some (along_declarationOrExpression _)) hrest

theorem along_doWithin : ∀ (fuel : Nat) (h : FlowHints), Along R (doWithin fuel h)
  | 0, _ => along_unfinished
  | fuel + 1, h => by
    refine along_bind Frame.advance fun _ => ?_
    refine along_bind (along_statementWithin fuel) fun body => ?_
    refine along_bind_read (reads_atKeyword? _) fun found => ?_
    split
    · refine along_bind Frame.advance fun _ => ?_
      refine along_bind (along_condition _ _) fun condition => ?_
      exact along_bind (along_expect _ _) fun _ => StatementFrame.addStmt _
    · exact along_fail_bind _ _

theorem along_whileWithin : ∀ (fuel : Nat) (h : FlowHints), Along R (whileWithin fuel h)
  | 0, _ => along_unfinished
  | fuel + 1, h => by
    refine along_bind Frame.advance fun _ => ?_
    refine along_bind (along_expect _ _) fun _ => ?_
    refine along_bind (along_declarationOrExpression _) fun condition => ?_
    refine along_bind (along_expect _ _) fun _ => ?_
    exact along_bind (along_statementWithin fuel) fun _ => StatementFrame.addStmt _

end

end Parse

end ShaderBridge
