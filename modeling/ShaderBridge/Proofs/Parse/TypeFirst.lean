import ShaderBridge.Proofs.Parse.SoundExpression
import ShaderBridge.Proofs.Parse.Statement

namespace ShaderBridge

namespace Parse

/-- Expressions and variables have been added to the shader, and items have been replaced. -/
def Growing (st st' : ParserState) : Prop :=
  st.shader.Grows st'.shader

theorem growing_addExpr (e : Expr) : Along Growing (addExpr e) := by
  intro st a st' h
  cases h
  exact .addExpr st.shader e

instance : Frame Growing where
  refl st := .refl st.shader
  trans h h' := h.trans h'
  advance := by
    intro st a st' h
    unfold Growing
    rw [(Frame.advance (R := SameTables) st a st' h).1]
    exact .refl _

instance : LocalFrame Growing where
  addExpr e _ := growing_addExpr e
  variableNamed name st _ := along_variableNamed_of (fun v => growing_addExpr (.var v)) name st
  evaluate id := by
    intro st a st' h
    obtain ⟨s, hfold, rfl⟩ := run_evaluate_ok h
    exact (Folding.evaluates_evaluate id st.shader a s hfold).1.grows
  addCall name args := by
    intro st a st' h
    cases h
    exact .addExpr st.shader _
  addVar v := by
    intro st a st' h
    cases h
    exact .addVar st.shader v
  declare id := by
    intro st a st' h
    cases h
    dsimp only
    split <;> exact .refl st.shader

/-- A mark that a type is named by. -/
def NamesType (s : Shader) : TokenKind → Prop
  | .keyword k => k.concreteType?.isSome
  | .ident name => (s.findStruct? name).isSome
  | _ => False

/-- The name of a type comes next. -/
def AtType (st : ParserState) : Prop :=
  NamesType st.shader (kindAt st.tokens)

/-- A qualifier of a local declaration comes next. -/
def AtQualifier (st : ParserState) : Prop :=
  kindAt st.tokens = .keyword (.storage .constant) ∨
    ∃ p, kindAt st.tokens = .keyword (.precision p)

/-- An expression that begins with a type has been parsed. -/
def Begun (fs : List ExprId) (xs : List Item) (e : ExprId) (st : ParserState) : Prop :=
  Sound False fs (.expr e :: xs) st ∧ st.shader.BeginsWithType e

variable {α : Type} {e : ExprId} {fs : List ExprId} {xs ys : List Item}

theorem Begun.subset {st : ParserState} (h : Begun fs xs e st) (hys : ys ⊆ xs) : Begun fs ys e st :=
  ⟨h.1.subset (List.cons_subset_cons _ hys), h.2⟩

theorem begun_expr {m : ParseM ExprId}
    (hm : Leads (Sound False fs (.expr e :: xs)) m
      fun id => Sound False fs (.expr id :: .expr e :: ys))
    (hgrows : Along Growing m) :
    Leads (Begun fs xs e) m fun id => Begun fs (.expr id :: ys) e := by
  rintro st id st' ⟨h, hbegins⟩ hrun
  exact ⟨(hm st id st' h hrun).subset (by grind),
    (hgrows st id st' hrun).beginsWithType h.linked hbegins⟩

theorem begun_same {m : ParseM α} (hm : Along SameTables m) :
    Leads (Begun fs xs e) m fun _ => Begun fs xs e := by
  rintro st a st' ⟨h, hbegins⟩ hrun
  have hst := hm st a st' hrun
  exact ⟨h.same hst, hst.1 ▸ hbegins⟩

theorem begun_advance : Leads (Begun fs xs e) advance fun _ => Begun fs xs e :=
  begun_same Frame.advance

theorem leads_addExpr (x : Expr) :
    Leads (fun _ => True) (addExpr x) fun id st => st.shader.expr id = x := by
  intro st id st' _ hrun
  cases hrun
  exact Shader.expr_addExpr_self _ x

theorem begun_over {m : ParseM ExprId}
    (hm : Leads (Sound False fs (.expr e :: xs)) m fun id => Sound False fs (.expr id :: ys))
    (hgrows : Along Growing m)
    (hstart : Leads (fun _ => True) m fun id st => (st.shader.expr id).start = .operand e) :
    Leads (Begun fs xs e) m fun id => Begun fs ys id := by
  rintro st id st' ⟨h, hbegins⟩ hrun
  exact ⟨hm st id st' h hrun, .operand (hstart st id st' trivial hrun)
    ((hgrows st id st' hrun).beginsWithType h.linked hbegins)⟩

theorem begun_addExpr (ys : List Item) {x : Expr} (hx : x.references ⊆ .expr e :: xs)
    (hstart : x.start = .operand e) (hys : ys ⊆ xs) (hgeneric : x.isGeneric = false := by rfl)
    (hassign : x.isAssign = false := by rfl) (hmember : x.isMember = false := by rfl) :
    Leads (Begun fs xs e) (addExpr x) fun id => Begun fs ys id := by
  refine begun_over (sound_addExpr ys hx (by grind) hgeneric hassign hmember) (growing_addExpr x) ?_
  intro st id st' _ hrun
  rw [leads_addExpr x st id st' trivial hrun, hstart]

theorem start_combine (op : InfixOp) (left right : ExprId) :
    Leads (fun _ => True) (combine op left right) fun id st =>
      (st.shader.expr id).start = .operand left := by
  have hadd (x : Expr) (hx : x.start = .operand left) :
      Leads (fun _ => True) (addExpr x) fun id st => (st.shader.expr id).start = .operand left := by
    intro st id st' _ hrun
    rw [leads_addExpr x st id st' trivial hrun, hx]
  unfold combine
  cases op with
  | assign op => exact leads_after fun _ => hadd _ rfl
  | _ => exact hadd _ rfl

theorem begun_combine (op : InfixOp) (left right : ExprId) :
    Leads (Begun fs (.expr right :: xs) left) (combine op left right) fun id => Begun fs xs id :=
  begun_over ((tracks_combine op left right).given (by grind)) (along_combine op left right)
    (start_combine op left right)

theorem begun_operations (fuel : Nat) (ends : List Punct) (level : Nat) (left : ExprId) :
    Leads (Begun fs xs left) (operations fuel ends level left) fun id => Begun fs xs id := by
  induction fuel generalizing left level with
  | zero => exact leads_unfinished
  | succ fuel ih =>
      refine leads_bind_read (reads_nextInfix? ends) fun next => ?_
      cases next with
      | none => exact leads_pure fun st h => h
      | some next =>
          obtain ⟨op, binding⟩ := next
          refine leads_ite (fun _ => leads_pure fun st h => h) fun _ => ?_
          refine leads_bind begun_advance fun _ => ?_
          refine leads_ite (fun _ => ?_) fun _ => ?_
          · refine leads_bind (begun_expr (tracks_expressionWithin fuel _ _)
              (along_expressionWithin fuel _)) fun onTrue => ?_
            refine leads_bind (begun_same (along_expect _ _)) fun _ => ?_
            refine leads_bind (begun_expr
              (tracks_expressionWithin fuel _ (.expr left :: .expr onTrue :: xs))
              (along_expressionWithin fuel _)) fun onFalse => ?_
            refine leads_bind (begun_addExpr xs ?_ rfl ?_) fun e => ih level e
            · simp [Expr.references, Expr.links, Expr.items]
            · grind
          · refine leads_bind (begun_expr (tracks_operand fuel ends _) (along_operand fuel ends))
              fun right => ?_
            have hright (toRight : Bool) :
                Leads (Begun fs (.expr right :: xs) left)
                  (rightOperand fuel ends toRight binding right)
                  fun id => Begun fs (.expr id :: xs) left :=
              begun_expr
                ((tracks_rightOperand fuel ends _ _ right (.expr left :: xs)).given (by grind))
                (along_rightOperand fuel ends _ _ right)
            refine leads_bind (hright _) fun right => ?_
            exact leads_bind (begun_combine op left right) fun e => ih level e

theorem start_memberOf (operand : ExprId) :
    Leads (fun _ => True) (memberOf operand) fun id st =>
      (st.shader.expr id).start = .operand operand := by
  refine leads_after fun name => ?_
  cases name with
  | none => exact leads_fail _
  | some name =>
      refine leads_after fun s => ?_
      have hadd (field : Option VarId) :
          Leads (fun _ => True) (do advance; addExpr (.member operand name field)) fun id st =>
            (st.shader.expr id).start = .operand operand := by
        refine leads_after fun _ => ?_
        intro st id st' _ hrun
        rw [leads_addExpr _ st id st' trivial hrun]
        rfl
      dsimp only
      split
      · split
        · exact hadd _
        · exact leads_fail_bind _ _
      · exact hadd none

theorem start_subscriptOf (fuel : Nat) (base : ExprId) :
    Leads (fun _ => True) (subscriptOf fuel base) fun id st =>
      (st.shader.expr id).start = .operand base := by
  cases fuel with
  | zero => exact leads_unfinished
  | succ fuel =>
      have hclose (index : ExprId) :
          Leads (fun _ => True) (do
            expect .rightBracket .subscriptClose
            addExpr (.subscript base index)) fun id st =>
              (st.shader.expr id).start = .operand base := by
        refine leads_after fun _ => ?_
        intro st id st' _ hrun
        rw [leads_addExpr _ st id st' trivial hrun]
        rfl
      refine leads_after fun s => leads_ite (fun _ => ?_) fun _ => leads_fail_bind _ _
      refine leads_after fun _ => leads_after fun index => leads_after fun constant => ?_
      exact leads_ite (fun _ => leads_after hclose) fun _ => hclose index

theorem begun_selections (fuel : Nat) (base : ExprId) :
    Leads (Begun fs xs base) (selections fuel base) fun id => Begun fs xs id := by
  induction fuel generalizing base with
  | zero => exact leads_unfinished
  | succ fuel ih =>
      have hstep (op : UnaryOp) (hop : (Expr.unary op base).start = .operand base) :
          Leads (Begun fs xs base) (do advance; addExpr (.unary op base))
              fun id => Begun fs xs id := by
        refine leads_bind begun_advance fun _ => begun_addExpr xs ?_ hop (List.Subset.refl _)
        simp [Expr.references, Expr.links, Expr.items]
      refine leads_bind_read reads_peek fun kind => ?_
      split
      · refine leads_bind begun_advance fun _ => ?_
        exact leads_bind
          (begun_over (Tracks.memberOf base) (along_memberOf base) (start_memberOf base)) ih
      · exact leads_bind (begun_over (tracks_subscriptOf fuel base xs) (along_subscriptOf fuel base)
          (start_subscriptOf fuel base)) ih
      · exact hstep _ rfl
      · exact hstep _ rfl
      · exact leads_pure fun st h => h

theorem begun_construction (fuel : Nat) (type : TypeRef) (hconcrete : type.isFamily = false) :
    Leads (Sound False fs (typeItems type ++ xs)) (construction fuel type)
        fun id => Begun fs xs id := by
  cases fuel with
  | zero => exact leads_unfinished
  | succ fuel =>
      have htype : Leads (fun _ => True) (construction (fuel + 1) type) fun id st =>
          (st.shader.expr id).start = .type := by
        have hadd (x : Expr) (hx : x.start = .type) :
            Leads (fun _ => True) (addExpr x) fun id st => (st.shader.expr id).start = .type := by
          intro st id st' _ hrun
          rw [leads_addExpr x st id st' trivial hrun, hx]
        refine leads_after fun _ => leads_after fun array => leads_ite (fun _ => ?_) fun _ => ?_
        · exact leads_after fun _ => leads_after fun items => hadd _ rfl
        · exact leads_after fun args => hadd _ rfl
      intro st id st' h hrun
      exact ⟨tracks_construction (fuel + 1) type xs hconcrete st id st' h hrun,
        .type (htype st id st' trivial hrun)⟩

theorem begun_variableNamed (name : String) :
    Leads (fun st => Sound False fs xs st ∧ (st.shader.findStruct? name).isSome)
      (variableNamed name)
      fun id => Begun fs xs id := by
  rintro st id st' ⟨h, hname⟩ hrun
  refine ⟨tracks_variableNamed name st id st' h hrun, ?_⟩
  obtain ⟨found, st₁, hfound, hrest⟩ := run_bind_ok.1 hrun
  cases hfound
  cases hfind : st.scopes.flatten.find? fun id => (st.shader.var id).name == name with
  | none =>
      rw [hfind] at hrest
      cases hrest
  | some v =>
      rw [hfind] at hrest
      obtain ⟨_, st₂, hadvance, hadd⟩ := run_bind_ok.1 hrest
      have hsame := Frame.advance (R := SameTables) st _ st₂ hadvance
      have hv : (st₂.shader.var v).name = name := by
        rw [hsame.1]
        simpa using List.find?_some hfind
      cases hadd
      refine .var (v := v) (congrArg Expr.start (Shader.expr_addExpr_self _ _)) ?_
      show (st₂.shader.findStruct? (st₂.shader.var v).name).isSome
      rwa [hv, hsame.1]

theorem begun_primary (fuel : Nat) (ends : List Punct) :
    Leads (fun st => Sound False fs xs st ∧ AtType st) (primary fuel ends)
      fun id => Begun fs xs id := by
  cases fuel with
  | zero => exact leads_unfinished
  | succ fuel =>
      refine leads_bind_look reads_peek fun kind => ?_
      refine leads_imp (P := fun st => Sound False fs xs st ∧ NamesType st.shader kind) ?_ ?_
      · split
        · exact leads_absurd fun st h => h.2
        · exact leads_absurd fun st h => by cases h.2
        · exact leads_absurd fun st h => by cases h.2
        · split
          · next t ht =>
              refine leads_imp (begun_construction fuel (.builtin t) ?_) fun st h =>
                h.1.subset (by simp [typeItems, Item.ofType?])
              exact not_isFamily_of_concreteType? ht
          · exact leads_fail _
        · exact leads_absurd fun st h => h.2
        · next name =>
            refine leads_bind_read reads_peekSecond fun second => ?_
            refine leads_ite (fun _ => ?_) fun _ => begun_variableNamed name
            rintro st id st' ⟨h, hname⟩ hrun
            obtain ⟨t, st₁, hfind, hrest⟩ := run_bind_ok.1 hrun
            obtain ⟨hsound, -⟩ := sound_findType? name st t _ h hfind
            cases hfind
            obtain ⟨struct, hstruct⟩ := Option.isSome_iff_exists.1 hname
            rw [hstruct] at hrest hsound
            exact begun_construction fuel (.declared struct) rfl st id st' hsound hrest
        · exact leads_fail _
      · rintro st ⟨⟨h, htype⟩, hlook⟩
        cases hlook
        exact ⟨h, htype⟩

theorem begun_operand (fuel : Nat) (ends : List Punct) :
    Leads (fun st => Sound False fs xs st ∧ AtType st) (operand fuel ends)
      fun id => Begun fs xs id := by
  cases fuel with
  | zero => exact leads_unfinished
  | succ fuel => exact leads_bind (begun_primary fuel ends) fun base => begun_selections fuel base

theorem begun_expression (ends : List Punct) :
    Leads (fun st => Sound False fs xs st ∧ AtType st) (expression ends)
      fun id => Begun fs xs id := by
  refine leads_bind_read reads_fuel fun fuel => ?_
  cases fuel with
  | zero => exact leads_unfinished
  | succ fuel =>
      exact leads_bind (begun_operand fuel ends) fun left => begun_operations fuel ends 0 left

theorem not_operand_atQualifier (fuel : Nat) (ends : List Punct) :
    Leads AtQualifier (operand fuel ends) fun _ _ => False := by
  rcases fuel with _ | _ | fuel
  · exact leads_unfinished
  · exact leads_bind (Q := fun _ _ => False) leads_unfinished fun _ => leads_absurd fun _ h => h
  · refine leads_bind (Q := fun _ _ => False) ?_ fun _ => leads_absurd fun _ h => h
    intro st id st' h hrun
    obtain ⟨kind, st₁, hlook, hrest⟩ := run_bind_ok.1 hrun
    cases hlook
    rcases h with h | ⟨p, h⟩
    · rw [h] at hrest
      cases hrest
    · rw [h] at hrest
      cases hrest

theorem not_expression_atQualifier (ends : List Punct) :
    Leads AtQualifier (expression ends) fun _ _ => False := by
  refine leads_bind_read reads_fuel fun fuel => ?_
  cases fuel with
  | zero => exact leads_unfinished
  | succ fuel =>
      exact leads_bind (not_operand_atQualifier fuel ends) fun _ => leads_absurd fun _ h => h

end Parse

end ShaderBridge
