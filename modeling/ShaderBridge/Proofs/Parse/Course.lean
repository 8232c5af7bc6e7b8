import ShaderBridge.Proofs.Parse.Declaration
import ShaderBridge.Proofs.Parse.SoundExpression

/-!
The course that a parse takes through its states. Tokens are taken one by one, and they are put back
only where a declaration turns out to be none. A name is looked up where it comes next, in the
scopes that are open there, and every scope that is opened is closed again. So the scopes of a
function, a block, a `switch` and a loop are those of the text, and what was declared in front of a
statement is as it was behind it.
-/

namespace ShaderBridge

namespace Parse

variable {α : Type} {R : ParserState → ParserState → Prop} {st st' st₁ st₂ : ParserState}

/-- A name stands for the latest variable that has it, in the innermost scope with such a variable.
-/
def Denotes (st : ParserState) (name : String) (v : VarId) : Prop :=
  (st.shader.var v).name = name ∧ ∃ inner later earlier outer,
    st.scopes = inner ++ (later ++ v :: earlier) :: outer ∧
      (∀ scope ∈ inner, ∀ w ∈ scope, (st.shader.var w).name ≠ name) ∧
        ∀ w ∈ later, (st.shader.var w).name ≠ name

theorem denotes_iff {name : String} {v : VarId} :
    Denotes st name v ↔ (findVariable? name).run st = .ok (some v, st) := by
  have hrun : (findVariable? name).run st = .ok (some v, st) ↔
      st.scopes.flatten.find? (fun id => (st.shader.var id).name == name) = some v :=
    ⟨fun h => (Prod.mk.inj (Except.ok.inj h)).1, fun h => congrArg (Except.ok <| Prod.mk · st) h⟩
  rw [hrun, List.find?_flatten_eq_some_iff]
  simp [Denotes]

/-- An expression that has been added for the name of a variable. -/
structure Reference where
  /-- The state in which the name comes next. -/
  state : ParserState
  name : String
  var : VarId
  expr : ExprId

def Reference.IsLexical (r : Reference) : Prop :=
  kindAt r.state.tokens = .ident r.name ∧ Denotes r.state r.name r.var

end Parse

theorem Shader.expr_truncate (s : Shader) (exprs vars : Nat) (e : ExprId) :
    (s.truncate exprs vars).expr e = if e.index < exprs then s.expr e else default := by
  by_cases hlt : e.index < exprs <;> by_cases hsize : e.index < s.exprs.size <;>
    simp [truncate, expr, hlt, hsize]

/-- No expression of the second shader is the name of a variable unless it was so in the first. -/
def Shader.AddsNoNames (s s' : Shader) : Prop :=
  ∀ e v, s'.expr e = .var v → s.expr e = .var v

namespace Parse

variable {α : Type} {R : ParserState → ParserState → Prop} {st st' st₁ st₂ : ParserState}
  {refs refs' : List Reference}

/-- The course from one state to another, with the expressions that are added for names on it. -/
inductive Course : ParserState → List Reference → ParserState → Prop where
  | stay (st : ParserState) : Course st [] st
  | append {st st₁ st₂ : ParserState} {refs refs' : List Reference} :
      Course st refs st₁ → Course st₁ refs' st₂ → Course st (refs ++ refs') st₂
  | take {st : ParserState} {t : Token} {rest : List Token} :
      st.tokens = t :: rest → t.kind ≠ .endOfFile → Course st [] { st with tokens := rest }
  /-- The shader is added to, but no name is. -/
  | work {st : ParserState} {s : Shader} {calls : List ExprId} :
      st.shader.AddsNoNames s → Course st [] { st with shader := s, calls }
  | refer {st : ParserState} {t : Token} {rest : List Token} {name : String} {v : VarId} :
      st.tokens = t :: rest → t.kind = .ident name → Denotes st name v →
      Course st [⟨st, name, v, (st.shader.addExpr (.var v)).1⟩]
        { st with tokens := rest, shader := (st.shader.addExpr (.var v)).2 }
  | declare {st : ParserState} {scope : List VarId} {outer : List (List VarId)} (v : VarId) :
      st.scopes = scope :: outer → Course st [] { st with scopes := (v :: scope) :: outer }
  /-- What happens in a scope of its own, which is opened in front and closed behind. -/
  | inScope {st st' : ParserState} {refs : List Reference} :
      Course { st with scopes := [] :: st.scopes } refs st' →
      Course st refs { st' with scopes := st'.scopes.tail }
  /-- An attempt at a declaration that has failed. -/
  | rewind {st st' : ParserState} {refs : List Reference} : Course st refs st' →
      Course st refs
        { st with shader := st'.shader.truncate st.shader.exprs.size st.shader.vars.size }

namespace Course

theorem scopes_eq (h : Course st refs st') :
    ∃ added, st'.scopes = st.scopes.modifyHead (added ++ ·) := by
  induction h with
  | stay st | take | work | refer | rewind => exact ⟨[], (List.modifyHead_id ▸ rfl)⟩
  | append _ _ ih ih' =>
      obtain ⟨added, hadded⟩ := ih
      obtain ⟨added', hadded'⟩ := ih'
      exact ⟨added' ++ added, by simp [hadded, hadded', Function.comp_def]⟩
  | declare v hscopes => exact ⟨[v], by simp [hscopes]⟩
  | inScope _ ih =>
      obtain ⟨added, hadded⟩ := ih
      exact ⟨[], by rw [hadded]; exact (List.modifyHead_id ▸ rfl)⟩

theorem isLexical (h : Course st refs st') : ∀ r ∈ refs, r.IsLexical := by
  induction h with
  | stay | take | work | declare => exact List.forall_mem_nil _
  | append _ _ ih ih' => exact fun r hr => (List.mem_append.1 hr).elim (ih r) (ih' r)
  | @refer st t rest name v htokens hname hdenotes =>
      refine List.forall_mem_singleton.2 ⟨?_, hdenotes⟩
      dsimp only
      rw [htokens]
      exact hname
  | inScope _ ih | rewind _ ih => exact ih

theorem exists_reference (h : Course st refs st') {e : ExprId} {v : VarId}
    (he : st'.shader.expr e = .var v) :
    st.shader.expr e = .var v ∨ ∃ r ∈ refs, r.expr = e ∧ r.var = v := by
  induction h with
  | stay | take | declare => exact .inl he
  | work hs => exact .inl (hs e v he)
  | append _ _ ih ih' =>
      rcases ih' he with he | ⟨r, hr, hexpr⟩
      · exact (ih he).imp_right fun ⟨r, hr, hexpr⟩ => ⟨r, List.mem_append_left _ hr, hexpr⟩
      · exact .inr ⟨r, List.mem_append_right _ hr, hexpr⟩
  | @refer st t rest name w =>
      dsimp only at he
      rw [Shader.expr_addExpr] at he
      split at he
      · next hsize =>
          cases he
          refine .inr ⟨_, List.mem_singleton_self _, ?_, rfl⟩
          cases e
          exact congrArg ExprId.mk hsize.symm
      · exact .inl he
  | inScope _ ih => exact ih he
  | @rewind st st' refs _ ih =>
      dsimp only at he
      rw [Shader.expr_truncate] at he
      split at he
      · exact ih he
      · cases he

theorem exists_taken (h : Course st refs st') :
    ∃ taken, st.tokens = taken ++ st'.tokens ∧ ∀ t ∈ taken, t.kind ≠ .endOfFile := by
  induction h with
  | stay | work | declare | rewind => exact ⟨[], rfl, List.forall_mem_nil _⟩
  | append _ _ ih ih' =>
      obtain ⟨taken, htokens, hkinds⟩ := ih
      obtain ⟨taken', htokens', hkinds'⟩ := ih'
      exact ⟨taken ++ taken', by rw [htokens, htokens', List.append_assoc],
        fun t ht => (List.mem_append.1 ht).elim (hkinds t) (hkinds' t)⟩
  | take htokens hkind => exact ⟨[_], htokens, List.forall_mem_singleton.2 hkind⟩
  | refer htokens hname =>
      exact ⟨[_], htokens, List.forall_mem_singleton.2 (hname ▸ TokenKind.noConfusion)⟩
  | inScope _ ih => exact ih

end Course

/-- One state comes behind another on the course of a parse. -/
def Follows (st st' : ParserState) : Prop :=
  ∃ refs, Course st refs st'

/-- One state comes behind another, and nothing has been declared in between that is still known. -/
structure Balances (st st' : ParserState) : Prop where
  follows : Follows st st'
  scopes : st'.scopes = st.scopes

theorem balances_work {s : Shader} {calls : List ExprId} (hs : st.shader.AddsNoNames s) :
    Balances st { st with shader := s, calls } :=
  ⟨⟨[], .work hs⟩, rfl⟩

theorem addsNoNames_addExpr (s : Shader) {x : Expr} (hx : ∀ v, x ≠ .var v) :
    s.AddsNoNames (s.addExpr x).2 := by
  intro e v he
  rw [Shader.expr_addExpr] at he
  split at he
  · exact absurd he (hx v)
  · exact he

theorem addsNoNames_folded {s s' : Shader} (h : Folding.Folded s s') : s.AddsNoNames s' := by
  intro e v he
  by_cases hlt : e.index < s.exprs.size
  · have hrefolds := h.grows.expr e hlt
    rw [he] at hrefolds
    generalize s.expr e = x at hrefolds
    cases hrefolds
    rfl
  · obtain ⟨value, hvalue⟩ := h.literals e (Nat.not_lt.1 hlt)
    rw [hvalue] at he
    cases he

instance : Frame Balances where
  refl st := ⟨⟨[], .stay st⟩, rfl⟩
  trans h h' :=
    have ⟨_, hcourse⟩ := h.follows
    have ⟨_, hcourse'⟩ := h'.follows
    ⟨⟨_, hcourse.append hcourse'⟩, h'.scopes.trans h.scopes⟩
  advance := by
    intro st a st' h
    unfold advance at h
    cases h
    dsimp only
    split
    · next t rest htokens =>
        split
        · exact ⟨⟨[], .stay st⟩, rfl⟩
        · next hkind => exact ⟨⟨[], .take htokens hkind⟩, rfl⟩
    · exact ⟨⟨[], .stay st⟩, rfl⟩

instance : VariableFrame Balances where
  addExpr x hx := by
    intro st a st' h
    cases h
    exact balances_work (addsNoNames_addExpr _ fun v hv => by rw [hv] at hx; cases hx)
  variableNamed name st hname e st' h := by
    obtain ⟨found, st₁, hfind, h⟩ := run_bind_ok.1 h
    have hst := reads_findVariable? name st found st₁ hfind
    subst hst
    cases found with
    | none => cases h
    | some v =>
        obtain ⟨t, rest, htokens, hkind⟩ := exists_cons_of_kindAt hname TokenKind.noConfusion
        have hadvance := run_advance_of htokens (hkind ▸ TokenKind.noConfusion)
        dsimp only at h
        rw [run_bind_of hadvance] at h
        cases h
        exact ⟨⟨_, .refer htokens hkind (denotes_iff.2 hfind)⟩, rfl⟩
  evaluate id := by
    intro st a st' h
    obtain ⟨s, hfold, rfl⟩ := run_evaluate_ok h
    exact balances_work (addsNoNames_folded (Folding.evaluates_evaluate id st.shader a s hfold).1)
  addCall name args := by
    intro st a st' h
    cases h
    exact balances_work (addsNoNames_addExpr _ fun _ => Expr.noConfusion)
  addVar v := by
    intro st a st' h
    cases h
    exact balances_work fun _ _ he => he

theorem Along.follows {m : ParseM α} (hm : Along Balances m) : Along Follows m :=
  fun st a st' h => (hm st a st' h).follows

theorem balances_inScope {m : ParseM α} (hm : Along Follows m) :
    Along Balances (do openScope; let a ← m; closeScope; return a) := by
  intro st a st' h
  obtain ⟨_, st₁, hopen, h⟩ := run_bind_ok.1 h
  cases hopen
  obtain ⟨a, st₂, hrun, h⟩ := run_bind_ok.1 h
  obtain ⟨refs, hcourse⟩ := hm _ _ _ hrun
  obtain ⟨added, hscopes⟩ := hcourse.scopes_eq
  cases h
  exact ⟨⟨refs, hcourse.inScope⟩, by dsimp only; rw [hscopes]; rfl⟩

instance : Frame Follows where
  refl st := ⟨[], .stay st⟩
  trans := fun ⟨_, h⟩ ⟨_, h'⟩ => ⟨_, h.append h'⟩
  advance := Along.follows Frame.advance

instance : LocalFrame Follows where
  addExpr x hx := Along.follows (ExpressionFrame.addExpr x hx)
  variableNamed name st hname e st' h :=
    (ExpressionFrame.variableNamed (R := Balances) name st hname e st' h).follows
  evaluate id := Along.follows (ExpressionFrame.evaluate id)
  addCall name args := Along.follows (ExpressionFrame.addCall name args)
  addVar v := Along.follows (VariableFrame.addVar v)
  declare id := by
    intro st a st' h
    cases h
    dsimp only
    split
    · exact ⟨[], .stay st⟩
    · next hscopes => exact ⟨[], .declare id hscopes⟩

theorem balances_modifyShader {f : Shader → α × Shader} (hf : ∀ s, (f s).2.exprs = s.exprs) :
    Along Balances (modifyShader f) := by
  intro st a st' h
  cases h
  refine balances_work fun e v he => ?_
  rwa [Shader.expr, hf] at he

instance : DeclarationFrame Follows where
  addStmt t := Along.follows (balances_modifyShader fun _ => rfl)
  setStmt id t := Along.follows (balances_modifyShader fun _ => rfl)
  inScope hm := Along.follows (balances_inScope hm)
  attempt hpushes hrule := by
    intro st r st' h
    obtain ⟨st₁, hrun, rfl⟩ := run_attempt_ok hpushes h
    cases r with
    | some a => exact hrule _ _ _ hrun
    | none =>
        obtain ⟨refs, hcourse⟩ := hrule _ _ _ hrun
        exact ⟨refs, hcourse.rewind⟩
  setFlags id f := Along.follows (balances_modifyShader fun _ => rfl)
  addGlobal v :=
    along_bind (VariableFrame.addVar v) fun var =>
      along_bind (Along.follows (balances_modifyShader fun _ => rfl)) fun _ =>
        LocalFrame.declare var
  addFunc f := Along.follows (balances_modifyShader fun _ => rfl)

instance : StructureFrame Follows where
  addStructure name fields :=
    Along.follows (balances_modifyShader fun _ => by cases name <;> rfl)
  addBlock name fields block := Along.follows (balances_modifyShader fun _ => rfl)

theorem balances_function (type : TypeRef) (name : String) : Along Balances (function type name) :=
  along_function_of_body type name
    (fun params => along_functionBody_of params <| balances_inScope <|
      along_bind (along_forM LocalFrame.declare params) fun _ =>
        along_bind_read reads_fuel along_bodyWithin)
    fun _ => balances_modifyShader fun _ => rfl

/-- On the course between two states every name stands for the variable that it denotes where it is
read, and no other names are in the shader behind it. -/
def ReadsLexically (st st' : ParserState) : Prop :=
  ∃ refs, Course st refs st' ∧ (∀ r ∈ refs, r.IsLexical) ∧
    ∀ e v, st'.shader.expr e = .var v →
      st.shader.expr e = .var v ∨ ∃ r ∈ refs, r.expr = e ∧ r.var = v

theorem Follows.readsLexically (h : Follows st st') : ReadsLexically st st' :=
  have ⟨refs, hcourse⟩ := h
  ⟨refs, hcourse, hcourse.isLexical, fun _ _ => hcourse.exists_reference⟩

/-- There are as many scopes as before, the outer ones are what they were, and the innermost one has
at most got further variables, which are its latest ones. -/
structure ScopesKept (st st' : ParserState) : Prop where
  depth : st'.scopes.length = st.scopes.length
  outer : st'.scopes.tail = st.scopes.tail
  innermost : ∃ added, st'.scopes.head? = st.scopes.head?.map (added ++ ·)

theorem Follows.scopesKept (h : Follows st st') : ScopesKept st st' := by
  obtain ⟨refs, hcourse⟩ := h
  obtain ⟨added, hscopes⟩ := hcourse.scopes_eq
  refine ⟨by rw [hscopes, List.length_modifyHead], ?_, added, ?_⟩
  · rw [hscopes]
    cases st.scopes <;> rfl
  · rw [hscopes, List.head?_modifyHead]

/-- Scopes are lexical and balanced, for statements and for functions in every state of a parse. -/
theorem scopes_lexical :
    (∀ n id, (statementWithin n).run st = .ok (id, st') →
      ReadsLexically st st' ∧ ScopesKept st st') ∧
      ∀ type name, (function type name).run st = .ok ((), st') →
        ReadsLexically st st' ∧ st'.scopes = st.scopes := by
  refine ⟨fun n id h => ?_, fun type name h => ?_⟩
  · have hfollows : Follows st st' := along_statementWithin n st id st' h
    exact ⟨hfollows.readsLexically, hfollows.scopesKept⟩
  · have hbalances := balances_function type name st () st' h
    exact ⟨hbalances.follows.readsLexically, hbalances.scopes⟩

/-- The tokens of `{ int x = x; x; }`, where `x` is known. -/
def shadowing : ParserState where
  tokens := [.punct .leftBrace, .keyword (.type (.scalar .int)), .ident "x", .punct .eq, .ident "x",
    .punct .semicolon, .ident "x", .punct .semicolon, .punct .rightBrace, .endOfFile].map (⟨·, {}⟩)
  shader :=
    { stage := .fragment
      vars := #[{ name := "x", type := .builtin (.scalar .int), role := .localVar none }] }
  scopes := [[⟨0⟩]]

/-- The first value is that of the outer variable, and behind it the name stands for the inner one.
-/
theorem shadowing_scopes :
    ∃ id st', (statementWithin 40).run shadowing = .ok (id, st') ∧
      st'.shader.exprs = #[.var ⟨0⟩, .var ⟨1⟩] ∧
      ReadsLexically shadowing st' ∧ ScopesKept shadowing st' := by
  have hexprs : ((statementWithin 40).run shadowing).toOption.map (·.2.shader.exprs) =
      some #[.var ⟨0⟩, .var ⟨1⟩] := by decide +kernel
  cases hrun : (statementWithin 40).run shadowing with
  | error e =>
      rw [hrun] at hexprs
      cases hexprs
  | ok r =>
      rw [hrun] at hexprs
      exact ⟨r.1, r.2, rfl, Option.some.inj hexprs, scopes_lexical.1 40 r.1 hrun⟩

end Parse

end ShaderBridge
