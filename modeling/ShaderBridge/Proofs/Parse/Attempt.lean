import ShaderBridge.Proofs.Constant.FoldedThrough
import ShaderBridge.Proofs.Parse.Accepted
import ShaderBridge.Proofs.Parse.SoundStatement

/-!
What a declaration leaves behind that turns out not to be one. Tokens, scopes and calls are those of
before, and so are the tables up to the items of constructors and arrays, which folding has
replaced. Where the constants in scope have been folded through, there was nothing to replace, and
what follows is parsed as if no declaration had been tried.
-/

namespace ShaderBridge

namespace Parse

/-- Everything that the constants in scope are made of has been folded. -/
def ConstantsFolded (st : ParserState) : Prop :=
  ∀ v ∈ st.scopes.flatten, (st.shader.var v).isImmutable →
    ∀ e ∈ (st.shader.var v).initial?, st.shader.FoldedThrough e

/-- Two states are the same, up to the items of constructors and arrays. -/
structure SameButItems (st st' : ParserState) : Prop where
  tokens : st'.tokens = st.tokens
  scopes : st'.scopes = st.scopes
  calls : st'.calls = st.calls
  rest : st'.shader = { st.shader with exprs := st'.shader.exprs }
  exprs : st'.shader.exprs.size = st.shader.exprs.size
  expr : ∀ e : ExprId, (st.shader.expr e).Refolds (st'.shader.expr e)

/-- An expression statement, of which no declaration has been tried. -/
def expressionStatement (ends : List Punct) : ParseM StmtId := do
  addStmt (.expression (← expression ends))

def HarmlessItem (s : Shader) : Item → Prop
  | .expr e => s.Harmless e
  | .var v => s.HarmlessVar v
  | _ => True

/-- A state in the middle of an attempt: what was there before it is as it was, and all that may be
named or is at hand may be folded without harm. -/
structure Trying (st₀ : ParserState) (_ : List ExprId) (xs : List Item) (st : ParserState) :
    Prop where
  kept : st₀.shader.KeptBy st.shader
  scopes : ∀ v ∈ st.scopes.flatten, st₀.shader.HarmlessVar v
  known : ∀ x ∈ xs, HarmlessItem st₀.shader x

variable {st₀ st : ParserState} {fs : List ExprId} {xs ys : List Item}

theorem ConstantsFolded.trying (h : ConstantsFolded st) : Trying st fs [] st where
  kept := .refl _
  scopes v hv := .inr fun himmutable e he => .inr (h v hv himmutable e he)
  known := List.forall_mem_nil _

namespace Trying

theorem cons {x : Item} (h : Trying st₀ fs xs st) (hx : HarmlessItem st₀.shader x) :
    Trying st₀ fs (x :: xs) st :=
  { h with known := List.forall_mem_cons.2 ⟨hx, h.known⟩ }

theorem subset (h : Trying st₀ fs xs st) (hys : ys ⊆ xs) : Trying st₀ fs ys st :=
  { h with known := fun x hx => h.known x (hys hx) }

theorem same {st' : ParserState} (h : Trying st₀ fs xs st) (hst : SameTables st st') :
    Trying st₀ fs xs st' where
  kept := hst.1 ▸ h.kept
  scopes := hst.2 ▸ h.scopes
  known := h.known

theorem addExpr (h : Trying st₀ fs ys st) (hxs : xs ⊆ ys) {e : Expr}
    (hoperands : ∀ o ∈ e.operands, .expr o ∈ ys) (hvar : ∀ v, e = .var v → .var v ∈ ys) :
    Trying st₀ fs (.expr (st.shader.addExpr e).1 :: xs)
      { st with shader := (st.shader.addExpr e).2 } := by
  refine cons { h.subset hxs with kept := h.kept.addExpr ?_ ?_ } (.inl h.kept.grows.exprs)
  · exact fun o ho => h.known _ (hoperands o ho)
  · exact fun v hv => h.known _ (hvar v hv)

end Trying

theorem trying_addExpr (hxs : xs ⊆ ys) {e : Expr} (he : e.references ⊆ ys) :
    Leads (Trying st₀ fs ys) (addExpr e) fun id => Trying st₀ fs (.expr id :: xs) := by
  intro st id st' h hrun
  cases hrun
  refine h.addExpr hxs (fun o ho => he ?_) fun v hv => he ?_
  · rcases Expr.mem_operands_iff.1 ho with hlink | hitem
    · exact List.mem_append_left _ hlink
    · exact List.mem_append_right _ (List.mem_map_of_mem hitem)
  · subst hv
    exact List.mem_append_left _ (List.mem_singleton_self _)

theorem trying_memberOf (operand : ExprId) :
    Leads (Trying st₀ fs (.expr operand :: xs)) (memberOf operand)
      fun id => Trying st₀ fs (.expr id :: xs) := by
  refine leads_bind_read reads_name? fun name => ?_
  cases name with
  | none => exact leads_fail _
  | some name =>
      refine leads_bind_read reads_shader fun s => ?_
      have hadd (field : Option VarId) :
          Leads (Trying st₀ fs (.expr operand :: xs))
            (do advance; addExpr (.member operand name field))
              fun id => Trying st₀ fs (.expr id :: xs) := by
        refine leads_bind (fun st a st' h hrun => h.same (Frame.advance st a st' hrun)) fun _ => ?_
        intro st id st' h hrun
        cases hrun
        refine h.addExpr (List.subset_cons_self _ _) (fun o ho => ?_) fun v => Expr.noConfusion
        rw [List.mem_singleton.1 ho]
        exact List.mem_cons_self
      dsimp only
      split
      · split
        · exact hadd _
        · exact leads_fail_bind _ _
      · exact hadd none

instance : Tracks (Trying st₀) where
  subset h hys := h.subset hys
  fewer h _ := ⟨h.kept, h.scopes, h.known⟩
  same h hst := h.same hst
  addExpr _ _ he hxs _ _ _ := trying_addExpr hxs he
  addAssign _ _ _ _ he hxs := leads_imp (trying_addExpr hxs he) fun _ h => h.1
  evaluate := by
    rintro fs xs id st id' st' ⟨h, hconstant⟩ hrun
    obtain ⟨s, hfold, rfl⟩ := run_evaluate_ok hrun
    obtain ⟨hid, hknown⟩ := List.forall_mem_cons.1 h.known
    have hconstant : st.shader.isConstant id := by
      injection hconstant with hconstant
      exact (Prod.ext_iff.1 hconstant).1
    obtain ⟨hkept, hid'⟩ := Folding.keptBy_evaluate h.kept hid hconstant hfold
    exact ⟨hkept, h.scopes, List.forall_mem_cons.2 ⟨hid', hknown⟩⟩
  findVariable? name := by
    intro st v st' h hrun
    cases hrun
    cases hfound : st.scopes.flatten.find? fun id => (st.shader.var id).name == name with
    | none => exact h
    | some v => exact h.cons (h.scopes v (List.mem_of_find?_eq_some hfound))
  findType? name := by
    intro st t st' h hrun
    cases hrun
    cases hfound : st.shader.findStruct? name with
    | none => exact ⟨h, fun type htype => by cases htype⟩
    | some id => exact ⟨h.cons trivial, fun type htype => by cases htype; rfl⟩
  memberOf := trying_memberOf
  addVar xs v hv hxs _ _ := by
    intro st id st' h hrun
    cases hrun
    refine Trying.cons { h.subset hxs with kept := h.kept.addVar fun e he => ?_ }
      (.inl h.kept.grows.vars)
    exact h.known (.expr e) (hv (by simp [Variable.references, Option.mem_def.1 he]))
  declare hid := by
    intro st a st' h hrun
    cases hrun
    dsimp only
    split
    · exact h
    · next hscopes =>
        refine ⟨h.kept, fun v hv => ?_, h.known⟩
        rcases List.mem_cons.1 hv with rfl | hv
        · exact h.known _ hid
        · exact h.scopes v (by rw [hscopes]; exact hv)

/-- A state in the middle of an attempt, whatever the constants in scope are. -/
def GrownFrom (st₀ : ParserState) (_ : List ExprId) (_ : List Item) (st : ParserState) : Prop :=
  Growing st₀ st

theorem grownFrom_along {α : Type} {m : ParseM α} (hm : Along Growing m) :
    Leads (GrownFrom st₀ fs xs) m fun _ => Growing st₀ :=
  fun st a st' h hrun => Frame.trans (R := Growing) h (hm st a st' hrun)

instance : Tracks (GrownFrom st₀) where
  subset h _ := h
  fewer h _ := h
  same {_ _ st st'} h hst := by
    unfold GrownFrom Growing
    rw [hst.1]
    exact h
  addExpr _ _ _ _ _ _ _ := grownFrom_along (growing_addExpr _)
  addAssign _ _ _ _ _ _ := leads_imp (grownFrom_along (growing_addExpr _)) fun _ h => h.1
  evaluate := leads_imp (grownFrom_along (ExpressionFrame.evaluate _)) fun _ h => h.1
  findVariable? name := grownFrom_along (reads_findVariable? name).along
  findType? name := by
    intro st t st' h hrun
    cases hrun
    refine ⟨h, fun type htype => ?_⟩
    obtain ⟨id, _, rfl⟩ := Option.map_eq_some_iff.1 htype
    rfl
  memberOf operand := grownFrom_along (along_memberOf operand)
  addVar _ v _ _ _ _ := grownFrom_along (VariableFrame.addVar v)
  declare {_ _ id} _ := grownFrom_along (LocalFrame.declare id)

section

variable {S : List ExprId → List Item → ParserState → Prop} [Tracks S]

/-- Where a rule does not apply, all that has been kept still holds. -/
def KeptUnless {α : Type} (S : List ExprId → List Item → ParserState → Prop) (r : Option α)
    (st : ParserState) : Prop :=
  r = none → S [] [] st

theorem tracks_localType (constant : Bool) (precision : Option Precision) (ends : List Punct) :
    Leads (S [] []) (do
      match ← typeName? Keyword.concreteType? with
      | none => return none
      | some type =>
        advance
        let typeDims := (← dimensions).reverse
        match ← localVariables? { constant, precision, type, typeDims } ends with
        | none => return none
        | some vars => return some (← addStmt (.declaration vars))) (KeptUnless S) := by
  refine leads_bind tracks_concreteTypeName? fun type => leads_of_and fun htype => ?_
  cases type with
  | none => exact leads_pure fun st h _ => h
  | some type =>
      refine leads_bind tracks_advance fun _ => leads_bind (tracks_dimensions _) fun dims => ?_
      have hsizes : dimSizes dims.reverse ⊆ dimSizes dims ++ [] := by
        simp only [dimSizes, List.filterMap_reverse]
        grind
      refine leads_bind ((tracks_localVariables? _ ends [] (htype type rfl) hsizes).given ?_)
        fun vars => ?_
      · simp only [dimItems, List.filterMap_reverse]
        grind
      cases vars with
      | none => exact leads_pure fun st h _ => Tracks.fewer h (List.nil_subset _)
      | some vars =>
          refine leads_bind (Q := fun _ _ => True) (fun _ _ _ _ _ => trivial) fun id => ?_
          exact leads_pure fun st _ hnone => absurd hnone (Option.some_ne_none id)

/-- What holds of a state after a declaration has been tried in vain, with what has been added since
dropped. -/
theorem leads_localDeclaration?_none {N : ParserState → Prop} (ends : List Punct)
    (hstart : S [] [] st₀)
    (hN : ∀ st, S [] [] st → N ⟨st₀.tokens, st.shader.truncate st₀.shader.exprs.size
      st₀.shader.vars.size, st₀.scopes, st₀.calls⟩) :
    Leads (· = st₀) (localDeclaration? ends) fun r st => r.elim (N st) fun _ => True := by
  refine leads_attempt (pushes_qualifiedDeclaration? ends) fun st₁ hst₁ => ?_
  subst hst₁
  refine leads_weaken (Q := KeptUnless S) (leads_imp (P := S [] []) ?_ fun st h => h ▸ hstart)
    fun r st h => ?_
  · refine leads_bind_read (reads_atKeyword? _) fun constant => ?_
    extract_lets typed qualified
    have hqualified : Leads (S [] []) (qualified ()) (KeptUnless S) := by
      refine leads_bind_read reads_peek fun kind => ?_
      split
      · exact leads_bind tracks_advance fun _ => tracks_localType constant _ ends
      · exact tracks_localType constant none ends
    refine leads_ite (fun _ => ?_) fun _ => hqualified
    exact leads_bind tracks_advance fun _ => hqualified
  · cases r with
    | none => exact hN st (h rfl)
    | some id => trivial

end

theorem sameButItems_truncate {s : Shader} (h : st.shader.Grows s) :
    SameButItems st ⟨st.tokens, s.truncate st.shader.exprs.size st.shader.vars.size, st.scopes,
      st.calls⟩ := by
  have hcut := h.truncate
  have hexprs : (s.truncate st.shader.exprs.size st.shader.vars.size).exprs.size =
      st.shader.exprs.size := by
    simp [Shader.truncate, h.exprs]
  refine ⟨rfl, rfl, rfl, ?_, hexprs, fun e => ?_⟩
  · have hrest := hcut.rest
    rwa [h.vars_truncate] at hrest
  · by_cases he : e.index < st.shader.exprs.size
    · exact hcut.expr e he
    · have he' := Nat.not_lt.1 he
      rw [Shader.expr_of_size_le he', Shader.expr_of_size_le (hexprs.symm ▸ he')]
      exact .same _

variable {st' : ParserState} {ends : List Punct}

theorem sameButItems_of_localDeclaration?_none
    (h : (localDeclaration? ends).run st = .ok (none, st')) : SameButItems st st' :=
  leads_localDeclaration?_none (S := GrownFrom st) (N := SameButItems st) ends (Frame.refl st)
    (fun _ => sameButItems_truncate) st none st' rfl h

theorem eq_of_localDeclaration?_none (hconstants : ConstantsFolded st)
    (h : (localDeclaration? ends).run st = .ok (none, st')) : st' = st := by
  refine leads_localDeclaration?_none (S := Trying st) (N := (· = st)) ends hconstants.trying
    (fun st₁ h₁ => ?_) st none st' rfl h
  rw [h₁.kept.truncate]

/-- A declaration that is tried in vain leaves the tokens, the scopes, the calls and the tables as
they were, up to the items of constructors and arrays. Where the constants in scope have been folded
through, it leaves all as it was, and what comes is parsed as an expression as if no declaration had
been tried. -/
theorem failed_declaration_leaves_no_trace (h : (localDeclaration? ends).run st = .ok (none, st')) :
    SameButItems st st' ∧ (ConstantsFolded st → st' = st ∧
      (declarationOrExpression ends).run st = (expressionStatement ends).run st) := by
  refine ⟨sameButItems_of_localDeclaration?_none h, fun hconstants => ?_⟩
  have hsame := eq_of_localDeclaration?_none hconstants h
  subst hsame
  refine ⟨rfl, ?_⟩
  unfold declarationOrExpression
  rw [StateT.run_bind, h]
  rfl

/-- The tokens of `void f() { const vec2 v = vec2(x, 2); float[v](v.x, 2); }` for a first component
`x`. -/
def retried (x : List TokenKind) : List TokenKind :=
  [.keyword (.type .void), .ident "f", .punct .leftParen, .punct .rightParen, .punct .leftBrace,
    .keyword (.storage .constant), .keyword (.type (.vector .float .two)), .ident "v", .punct .eq,
    .keyword (.type (.vector .float .two)), .punct .leftParen] ++ x ++
  [.punct .comma, .number (.int 2), .punct .rightParen, .punct .semicolon,
    .keyword (.type (.scalar .float)), .punct .leftBracket, .ident "v", .punct .rightBracket,
    .punct .leftParen, .ident "v", .punct .dot, .ident "x", .punct .comma, .number (.int 2),
    .punct .rightParen, .punct .semicolon, .punct .rightBrace, .endOfFile]

/-- Parses a text as far as the end of the first statement in the body of its first function, which
has no parameters. -/
def firstStatement (kinds : List TokenKind) : ParseM StmtId := do
  prelude .fragment []
  modify fun st => { st with tokens := unplaced kinds }
  let _ ← declarationWithin (← fuel)
  expect .leftParen .openingParen
  expect .rightParen .closingParen
  openScope
  advance
  statementWithin (← fuel)

/-- A state in the body of a function, from which a declaration is tried in vain. -/
def TriedInBody (kinds : List TokenKind) (st st' : ParserState) : Prop :=
  (∃ id, (firstStatement kinds).run { shader := { stage := .fragment } } = .ok (id, st)) ∧
    (localDeclaration? [.semicolon]).run st = .ok (none, st')

def checkTried (kinds : List TokenKind) (f : ParserState → ParserState → Bool) : Bool :=
  match (firstStatement kinds).run { shader := { stage := .fragment } } with
  | .ok (_, st) =>
    match (localDeclaration? [.semicolon]).run st with
    | .ok (none, st') => f st st'
    | _ => false
  | _ => false

theorem exists_tried (kinds : List TokenKind) {f : ParserState → ParserState → Bool}
    (h : checkTried kinds f = true) : ∃ st st', TriedInBody kinds st st' ∧ f st st' = true := by
  unfold checkTried at h
  split at h
  · next id st hfirst =>
      split at h
      · next st' htried => exact ⟨st, st', ⟨⟨id, hfirst⟩, htried⟩, h⟩
      · cases h
  · cases h

/-- A constant that is made of literals stays as it is. -/
theorem exists_attempt_undone :
    ∃ st st', TriedInBody (retried [.number (.int 2)]) st st' ∧ ConstantsFolded st ∧ st' = st ∧
      (declarationOrExpression [.semicolon]).run st =
        (expressionStatement [.semicolon]).run st := by
  obtain ⟨st, st', htried, hfacts⟩ := exists_tried (retried [.number (.int 2)])
    (f := fun st _ => st.scopes.flatten.all fun v => (st.shader.var v).initial?.all fun e =>
      (st.shader.foldedFirst e).all fun a =>
        decide (a.index < st.shader.exprs.size) && (st.shader.constant? a).isSome)
    (by decide +kernel)
  have hconstants : ConstantsFolded st := by
    intro v hv _ e he
    refine Shader.foldedThrough_of_literals fun a ha => ?_
    have hinitial := List.all_eq_true.1 hfacts v hv
    rw [Option.mem_def.1 he] at hinitial
    simpa using List.all_eq_true.1 hinitial a ha
  exact ⟨st, st', htried, hconstants, (failed_declaration_leaves_no_trace htried.2).2 hconstants⟩

/-- A constant that is made of a sum is changed: the sum is replaced by an expression that is no
longer there. What follows is not parsed as if no declaration had been tried. -/
theorem exists_attempt_traced :
    ∃ st st', TriedInBody (retried [.number (.int 1), .punct .plus, .number (.int 1)]) st st' ∧
      st'.shader.exprs.size = 21 ∧ (st.shader.expr ⟨20⟩).items = [⟨18⟩, ⟨19⟩] ∧
      (st'.shader.expr ⟨20⟩).items = [⟨22⟩, ⟨19⟩] ∧
      (declarationOrExpression [.semicolon]).run st ≠
      (expressionStatement [.semicolon]).run st := by
  let itemsAfter (rule : ParseM StmtId) (st : ParserState) : Option (List ExprId) :=
    (rule.run st).toOption.map fun r => (r.2.shader.expr ⟨20⟩).items
  obtain ⟨st, st', htried, hfacts⟩ := exists_tried
    (retried [.number (.int 1), .punct .plus, .number (.int 1)])
    (f := fun st st' => decide (st'.shader.exprs.size = 21 ∧
      (st.shader.expr ⟨20⟩).items = [⟨18⟩, ⟨19⟩] ∧ (st'.shader.expr ⟨20⟩).items = [⟨22⟩, ⟨19⟩] ∧
      itemsAfter (declarationOrExpression [.semicolon]) st ≠
        itemsAfter (expressionStatement [.semicolon]) st))
    (by decide +kernel)
  obtain ⟨hsize, hbefore, hafter, hruns⟩ := of_decide_eq_true hfacts
  refine ⟨st, st', htried, hsize, hbefore, hafter, fun hsame => hruns ?_⟩
  simp only [itemsAfter, hsame]

end Parse

end ShaderBridge
