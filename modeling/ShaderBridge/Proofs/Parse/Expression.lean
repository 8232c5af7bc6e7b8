import ShaderBridge.Proofs.Parse.Run
import ShaderBridge.Proofs.Shader.References

namespace ShaderBridge

/-- Names and calls are added by rules of their own, and all other expressions as they are. -/
def Expr.isPlain : Expr → Bool
  | .var _ | .call .. => false
  | _ => true

theorem Expr.isCall_of_isPlain {e : Expr} (h : e.isPlain) : e.isCall = false := by
  cases e <;> first | rfl | cases h

namespace Parse

/-- A relation that is kept by all that happens while an expression is parsed. -/
class ExpressionFrame (R : ParserState → ParserState → Prop) : Prop extends Frame R where
  addExpr (e : Expr) : e.isPlain → Along R (addExpr e)
  /-- A name is only looked up where it comes next. -/
  variableNamed (name : String) (st : ParserState) : kindAt st.tokens = .ident name →
    ∀ e st', (variableNamed name).run st = .ok (e, st') → R st st'
  evaluate (id : ExprId) : Along R (evaluate id)
  addCall (name : String) (args : List ExprId) : Along R (do
    let call ← Parse.addExpr (.call name args none)
    modify fun st : ParserState => { st with calls := call :: st.calls }
    return call)

variable {R : ParserState → ParserState → Prop}

theorem along_variableNamed_of [Frame R] (hadd : ∀ v, Along R (addExpr (.var v))) (name : String) :
    Along R (variableNamed name) := by
  refine along_bind_read (reads_findVariable? name) fun found => ?_
  cases found with
  | none => exact along_fail _
  | some v => exact along_bind Frame.advance fun _ => hadd v

variable [ExpressionFrame R]

theorem reads_nextInfix? (ends : List Punct) : Reads (nextInfix? ends) := by
  refine reads_bind reads_peek fun kind => ?_
  split
  · exact reads_pure _
  · exact reads_pure _

theorem reads_checkTarget (left : ExprId) : Reads (checkTarget left) := by
  refine reads_bind reads_shader fun s => ?_
  split
  · exact reads_fail _
  · dsimp only
    have himmutable (v : Variable) :
        Reads (if v.isImmutable then fail .writeToConstant else pure ()) := by
      split
      · exact reads_fail _
      · exact reads_pure _
    split
    · exact reads_bind (reads_fail _) fun _ => himmutable _
    · exact himmutable _

theorem along_combine (op : InfixOp) (left right : ExprId) : Along R (combine op left right) := by
  unfold combine
  cases op with
  | assign op =>
      exact along_bind_read (reads_checkTarget left) fun _ => ExpressionFrame.addExpr _ rfl
  | binary | choice | sequence => exact ExpressionFrame.addExpr _ rfl

theorem along_literal (value : Constant) : Along R (literal value) :=
  along_bind Frame.advance fun _ => ExpressionFrame.addExpr _ rfl

theorem along_memberOf (operand : ExprId) : Along R (memberOf operand) := by
  refine along_bind_read reads_name? fun name => ?_
  cases name with
  | none => exact along_fail _
  | some name =>
      refine along_bind_read reads_shader fun s => ?_
      have hadd (field : Option VarId) :
          Along R (do advance; addExpr (.member operand name field)) :=
        along_bind Frame.advance fun _ => ExpressionFrame.addExpr _ rfl
      dsimp only
      split
      · split
        · exact hadd _
        · exact along_fail_bind _ _
      · exact hadd none

mutual

theorem along_expressionWithin : ∀ (fuel : Nat) (ends : List Punct),
    Along R (expressionWithin fuel ends)
  | 0, _ => along_unfinished
  | fuel + 1, ends =>
    along_bind (along_operand fuel ends) fun left => along_operations fuel ends 0 left

theorem along_operations : ∀ (fuel : Nat) (ends : List Punct) (level : Nat) (left : ExprId),
    Along R (operations fuel ends level left)
  | 0, _, _, _ => along_unfinished
  | fuel + 1, ends, level, left => by
    refine along_bind_read (reads_nextInfix? ends) fun next => ?_
    split
    · exact along_pure left
    · split
      · exact along_pure left
      refine along_bind Frame.advance fun _ => ?_
      split
      · refine along_bind (along_expressionWithin fuel _) fun onTrue => ?_
        refine along_bind (along_expect .colon .choiceColon) fun _ => ?_
        refine along_bind (along_expressionWithin fuel ends) fun onFalse => ?_
        exact along_bind (ExpressionFrame.addExpr _ rfl) fun e => along_operations fuel ends level e
      · refine along_bind (along_operand fuel ends) fun right => ?_
        refine along_bind (along_rightOperand fuel ends _ _ right) fun right => ?_
        exact along_bind (along_combine _ left right) fun e => along_operations fuel ends level e

theorem along_rightOperand : ∀ (fuel : Nat) (ends : List Punct) (toRight : Bool) (binding : Nat)
    (right : ExprId), Along R (rightOperand fuel ends toRight binding right)
  | 0, _, _, _, _ => along_unfinished
  | fuel + 1, ends, toRight, binding, right => by
    refine along_bind_read (reads_nextInfix? ends) fun next => ?_
    split
    · exact along_pure right
    · have hextend (level : Nat) :
          Along R (do
            let right ← operations fuel ends level right
            rightOperand fuel ends toRight binding right) :=
        along_bind (along_operations fuel ends level right) fun right =>
          along_rightOperand fuel ends toRight binding right
      split
      · exact hextend _
      split
      · exact hextend _
      · exact along_pure right

theorem along_operand : ∀ (fuel : Nat) (ends : List Punct), Along R (operand fuel ends)
  | 0, _ => along_unfinished
  | fuel + 1, ends => along_bind (along_primary fuel ends) fun base => along_selections fuel base

theorem along_selections : ∀ (fuel : Nat) (base : ExprId), Along R (selections fuel base)
  | 0, _ => along_unfinished
  | fuel + 1, base => by
    refine along_bind_read reads_peek fun kind => ?_
    split
    · refine along_bind Frame.advance fun _ => ?_
      exact along_bind (along_memberOf base) fun e => along_selections fuel e
    · exact along_bind (along_subscriptOf fuel base) fun e => along_selections fuel e
    · exact along_bind Frame.advance fun _ => ExpressionFrame.addExpr _ rfl
    · exact along_bind Frame.advance fun _ => ExpressionFrame.addExpr _ rfl
    · exact along_pure base

theorem along_subscriptOf : ∀ (fuel : Nat) (base : ExprId), Along R (subscriptOf fuel base)
  | 0, _ => along_unfinished
  | fuel + 1, base => by
    refine along_bind_read reads_shader fun s => ?_
    split
    · refine along_bind Frame.advance fun _ => ?_
      refine along_bind (along_expressionWithin fuel _) fun index => ?_
      have hclose (index : ExprId) :
          Along R (do
            expect .rightBracket .subscriptClose
            addExpr (.subscript base index)) :=
        along_bind (along_expect _ _) fun _ => ExpressionFrame.addExpr _ rfl
      refine along_bind_read (reads_isConstant index) fun constant => ?_
      split
      · exact along_bind (ExpressionFrame.evaluate index) hclose
      · exact hclose index
    · exact along_fail_bind _ _

theorem along_primary : ∀ (fuel : Nat) (ends : List Punct), Along R (primary fuel ends)
  | 0, _ => along_unfinished
  | fuel + 1, ends => by
    refine along_bind_look reads_peek fun st kind hkind => ?_
    split
    · refine (show Along R _ from ?_) st
      split
      · refine along_bind Frame.advance fun _ => ?_
        exact along_bind (along_operand fuel ends) fun _ => ExpressionFrame.addExpr _ rfl
      · split
        · refine along_bind Frame.advance fun _ => ?_
          refine along_bind (along_expressionWithin fuel _) fun inner => ?_
          exact along_bind (along_expect _ _) fun _ => along_pure inner
        · exact along_fail _
    · exact along_literal _ st
    · exact along_literal _ st
    · refine (show Along R _ from ?_) st
      split
      · exact along_construction fuel _
      · exact along_fail _
    · exact along_literal _ st
    · rename_i name
      intro e st' hrun
      obtain ⟨second, st₁, hsecond, hrest⟩ := run_bind_ok.1 hrun
      cases hsecond
      split at hrest
      · refine (show Along R _ from ?_) st e st' hrest
        refine along_bind_read (reads_findType? _) fun type => ?_
        split
        · exact along_construction fuel _
        · refine along_bind Frame.advance fun _ => ?_
          exact along_bind (along_arguments fuel _) fun args => ExpressionFrame.addCall _ args
      · exact ExpressionFrame.variableNamed name st (kindAt_of_peek hkind) e st' hrest
    · exact along_fail _ st

theorem along_construction : ∀ (fuel : Nat) (type : TypeRef), Along R (construction fuel type)
  | 0, _ => along_unfinished
  | fuel + 1, type => by
    refine along_bind Frame.advance fun _ => ?_
    refine along_bind (along_take? .leftBracket) fun array => ?_
    split
    · refine along_bind (along_arrayTypeEnd fuel) fun _ => ?_
      exact along_bind (along_arguments fuel _) fun _ => ExpressionFrame.addExpr _ rfl
    · exact along_bind (along_arguments fuel _) fun _ => ExpressionFrame.addExpr _ rfl

theorem along_arrayTypeEnd : ∀ fuel : Nat, Along R (arrayTypeEnd fuel)
  | 0 => along_unfinished
  | fuel + 1 => by
    refine along_bind_read (reads_at? .rightBracket) fun closed => ?_
    split
    · exact along_expect _ _
    · exact along_bind (along_expressionWithin fuel _) fun _ => along_expect _ _

theorem along_arguments : ∀ (fuel : Nat) (opening : Expected), Along R (arguments fuel opening)
  | 0, _ => along_unfinished
  | fuel + 1, _ =>
    along_bind (along_expect _ _) fun _ => along_commaSeparated (along_expressionWithin fuel _) _ _

theorem along_itemsWithin : ∀ (fuel : Nat) (ends : List Punct), Along R (itemsWithin fuel ends)
  | 0, _ => along_unfinished
  | fuel + 1, ends => by
    refine along_bind_read reads_peek fun kind => ?_
    refine along_bind_read reads_peekSecond fun second => ?_
    have hitems (parens : Bool) :
        Along R (do
          if (← at? .leftBrace) || (parens && (← at? .leftParen)) then
            advance
            let items ← commaSeparated [.rightBrace, .rightParen] (.expected .itemSeparator)
              (itemsWithin fuel (ends ++ [.rightParen, .comma]))
            addExpr (.aggregate items)
          else expressionWithin fuel ends) := by
      refine along_bind_read (reads_at? _) fun _ => along_bind_read (reads_at? _) fun _ => ?_
      split
      · refine along_bind Frame.advance fun _ => ?_
        refine along_bind (along_commaSeparated (along_itemsWithin fuel _) _ _) fun _ => ?_
        exact ExpressionFrame.addExpr _ rfl
      · exact along_expressionWithin fuel ends
    refine along_ite ?_ ?_
    · refine along_bind Frame.advance fun _ => ?_
      refine along_bind Frame.advance fun _ => ?_
      refine along_bind (along_arrayTypeEnd fuel) fun _ => ?_
      refine along_bind_read (reads_at? _) fun opened => ?_
      split
      · exact hitems true
      · exact along_fail_bind _ _
    · exact hitems false

end

theorem along_expression (ends : List Punct) : Along R (expression ends) :=
  along_bind_read reads_fuel fun fuel => along_expressionWithin fuel ends

theorem along_initialValue (type : Option TypeRef) (isArray : Bool) (ends : List Punct) :
    Along R (initialValue type isArray ends) := by
  unfold initialValue
  split
  · exact along_bind_read reads_fuel fun fuel => along_itemsWithin fuel ends
  · exact along_expression ends

theorem along_dimension : Along R dimension := by
  refine along_bind Frame.advance fun _ => ?_
  refine along_bind (along_take? _) fun closed => ?_
  split
  · exact along_pure none
  · refine along_bind (along_expression _) fun size => ?_
    refine along_bind_read (reads_isConstant size) fun constant => ?_
    split
    · refine along_bind (ExpressionFrame.evaluate size) fun size => ?_
      exact along_bind (along_expect _ _) fun _ => along_pure _
    · exact along_fail_bind _ _

theorem along_dimensions : Along R dimensions := by
  refine along_repeatSteps (fun found => ?_) []
  refine along_bind_read (reads_at? .leftBracket) fun more => ?_
  split
  · exact along_bind along_dimension fun _ => along_pure _
  · exact along_pure _

end Parse

end ShaderBridge
