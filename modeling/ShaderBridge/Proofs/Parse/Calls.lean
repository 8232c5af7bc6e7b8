import ShaderBridge.Proofs.Shader.Binding
import ShaderBridge.Proofs.Shader.Pruned
import ShaderBridge.Proofs.Shader.WellFormed

namespace ShaderBridge

namespace Shader

variable {s s' : Shader} {calls : List ExprId}

theorem Recorded.index_lt (h : s.Recorded calls) {c : ExprId} (hc : c ∈ calls) :
    c.index < s.exprs.size := by
  by_contra hle
  have hcall := (h.mem_iff c).1 hc
  rw [expr_of_size_le (Nat.not_lt.1 hle)] at hcall
  cases hcall

theorem Recorded.refolds (h : s.Recorded calls)
    (hold : ∀ id : ExprId, id.index < s.exprs.size → (s.expr id).Refolds (s'.expr id))
    (hnew : ∀ id : ExprId, s.exprs.size ≤ id.index → (s'.expr id).isCall = false) :
    s'.Recorded calls where
  latestFirst := h.latestFirst
  mem_iff c := by
    rw [h.mem_iff]
    by_cases hc : c.index < s.exprs.size
    · rw [(hold c hc).isCall]
    · rw [hnew c (Nat.not_lt.1 hc), expr_of_size_le (Nat.not_lt.1 hc)]
      rfl
  unbound c name args target hcall := by
    by_cases hc : c.index < s.exprs.size
    · have hsame := hold c hc
      rw [hcall] at hsame
      generalize hexpr : s.expr c = e at hsame
      cases hsame
      exact h.unbound c name args target hexpr
    · have hnone := hnew c (Nat.not_lt.1 hc)
      rw [hcall] at hnone
      cases hnone

theorem Recorded.addCall (h : s.Recorded calls) (name : String) (args : List ExprId) :
    (s.addExpr (.call name args none)).2.Recorded (⟨s.exprs.size⟩ :: calls) where
  latestFirst := List.pairwise_cons.2 ⟨fun c hc => h.index_lt hc, h.latestFirst⟩
  mem_iff c := by
    rw [List.mem_cons, expr_addExpr]
    by_cases hc : c.index = s.exprs.size
    · rw [if_pos hc]
      exact iff_of_true (.inl (by cases c; exact congrArg ExprId.mk hc)) rfl
    · rw [if_neg hc, h.mem_iff]
      exact or_iff_right fun heq => hc (congrArg ExprId.index heq)
  unbound c name args target hcall := by
    rw [expr_addExpr] at hcall
    split at hcall
    · cases hcall
      rfl
    · exact h.unbound c name args target hcall

end Shader

namespace Parse

/-- Expressions are there for good but for their items, and the calls among them stay on record. -/
structure Calling (st st' : ParserState) : Prop where
  size : st.shader.exprs.size ≤ st'.shader.exprs.size
  expr : ∀ id : ExprId, id.index < st.shader.exprs.size →
    (st.shader.expr id).Refolds (st'.shader.expr id)
  recorded : st.shader.Recorded st.calls → st'.shader.Recorded st'.calls

variable {st st' : ParserState}

theorem calling_same (hexprs : st'.shader.exprs = st.shader.exprs) (hcalls : st'.calls = st.calls) :
    Calling st st' := by
  have hexpr (id : ExprId) : st'.shader.expr id = st.shader.expr id := by
    rw [Shader.expr, hexprs]
    rfl
  refine ⟨hexprs ▸ Nat.le_refl _, fun id _ => by rw [hexpr]; exact .same _, fun h => ?_⟩
  rw [hcalls]
  refine h.refolds (fun id _ => by rw [hexpr]; exact .same _) fun id hid => ?_
  rw [hexpr, Shader.expr_of_size_le hid]
  rfl

instance : Frame Calling where
  refl st := calling_same rfl rfl
  trans h h' := {
    size := Nat.le_trans h.size h'.size
    expr := fun id hid => (h.expr id hid).trans (h'.expr id (Nat.lt_of_lt_of_le hid h.size))
    recorded := fun hst => h'.recorded (h.recorded hst) }
  advance := by
    intro st a st' h
    unfold advance at h
    cases h
    dsimp only
    split
    · split <;> exact calling_same rfl rfl
    · exact calling_same rfl rfl

theorem calling_addExpr {e : Expr} (he : e.isCall = false) : Along Calling (addExpr e) := by
  intro st a st' h
  cases h
  have hgrows := Shader.Grows.addExpr st.shader e
  refine ⟨hgrows.exprs, hgrows.expr, fun hst => hst.refolds hgrows.expr fun id hid => ?_⟩
  change ((st.shader.addExpr e).2.expr id).isCall = false
  rw [Shader.expr_addExpr]
  split
  · exact he
  · rw [Shader.expr_of_size_le hid]
    rfl

instance statementFrame_calling : StatementFrame Calling where
  addExpr e he := calling_addExpr (Expr.isCall_of_isPlain he)
  variableNamed name st _ := along_variableNamed_of (fun _ => calling_addExpr rfl) name st
  evaluate id := by
    intro st a st' h
    obtain ⟨s, hfold, rfl⟩ := run_evaluate_ok h
    have hfolded := (Folding.evaluates_evaluate id st.shader a s hfold).1
    exact ⟨hfolded.grows.exprs, hfolded.grows.expr, fun hst =>
      hst.refolds hfolded.grows.expr fun id hid => by
        obtain ⟨value, hvalue⟩ := hfolded.literals id hid
        rw [hvalue]
        rfl⟩
  addCall name args := by
    intro st a st' h
    cases h
    have hgrows := Shader.Grows.addExpr st.shader (.call name args none)
    exact ⟨hgrows.exprs, hgrows.expr, fun hst => hst.addCall name args⟩
  addStmt t := by
    intro st a st' h
    cases h
    exact calling_same rfl rfl
  setStmt id t := by
    intro st a st' h
    cases h
    exact calling_same rfl rfl
  addVar v := by
    intro st a st' h
    cases h
    exact calling_same rfl rfl
  declare id := by
    intro st a st' h
    cases h
    dsimp only
    split <;> exact calling_same rfl rfl
  inScope := along_inScope_of (fun st a st' h => by cases h; exact calling_same rfl rfl)
    fun st a st' h => by cases h; exact calling_same rfl rfl
  attempt hpushes hrule := by
    intro st r st' h
    obtain ⟨st₁, hrun, rfl⟩ := run_attempt_ok hpushes h
    have hcalling := hrule _ _ _ hrun
    cases r with
    | some a => exact hcalling
    | none =>
        -- What was replaced stays replaced, and what was added is gone with its record.
        have hold (id : ExprId) (hid : id.index < st.shader.exprs.size) :
            (st.shader.expr id).Refolds
              ((st₁.shader.truncate st.shader.exprs.size st.shader.vars.size).expr id) := by
          have hlt := Nat.lt_of_lt_of_le hid hcalling.size
          simpa [Shader.truncate, Shader.expr, hid, hlt] using hcalling.expr id hid
        have hsize : (st₁.shader.truncate st.shader.exprs.size st.shader.vars.size).exprs.size =
            st.shader.exprs.size := by
          simp [Shader.truncate, hcalling.size]
        have hnew (id : ExprId) (hid : st.shader.exprs.size ≤ id.index) :
            ((st₁.shader.truncate st.shader.exprs.size st.shader.vars.size).expr id).isCall =
              false := by
          rw [Shader.expr_of_size_le (Nat.le_trans hsize.le hid)]
          rfl
        exact ⟨hsize.ge, hold, fun hst => hst.refolds hold hnew⟩

instance globalFrame_calling : GlobalFrame Calling where
  setFlags id f := by
    intro st a st' h
    cases h
    exact calling_same rfl rfl
  addGlobal v := by
    intro st a st' h
    obtain ⟨var, st₁, hvar, h⟩ := run_bind_ok.1 h
    cases hvar
    cases h
    dsimp only
    split <;> exact calling_same rfl rfl

instance declarationFrame_calling : DeclarationFrame Calling where
  addFunc f := by
    intro st a st' h
    cases h
    exact calling_same rfl rfl

instance structureFrame_calling : StructureFrame Calling where
  addStructure name fields := by
    intro st a st' h
    cases h
    cases name <;> exact calling_same rfl rfl
  addBlock name fields block := by
    intro st a st' h
    cases h
    exact calling_same rfl rfl

theorem along_source {R : ParserState → ParserState → Prop} [StructureFrame R]
    (hfunction : ∀ type name, Along R (function type name))
    (hrecord : ∀ (st : ParserState) tokens version extensions,
      R st { st with tokens, shader := { st.shader with version, extensions } })
    (tokens : List Token) : Along R (source tokens) := by
  intro st a st' h
  obtain ⟨version, extensions, h⟩ := run_source_ok h
  exact Frame.trans (hrecord st _ _ _) (along_declarations hfunction _ _ _ h)

theorem calling_source (tokens : List Token) : Along Calling (source tokens) :=
  along_source along_function (fun _ _ _ _ => calling_same rfl rfl) tokens

theorem calling_prelude (stage : Stage) (prototypes : List Token) :
    Along Calling (prelude stage prototypes) :=
  along_bind (along_forM along_declareHidden _) fun _ => calling_source prototypes

end Parse

namespace Shader

open Relation

variable {s : Shader}

theorem recorded_initial (stage : Stage) : ({ stage } : Shader).Recorded [] where
  latestFirst := .nil
  mem_iff c := by
    rw [expr_of_size_le (Nat.zero_le _)]
    exact iff_of_false List.not_mem_nil Bool.noConfusion
  unbound c name args target h := by
    rw [expr_of_size_le (Nat.zero_le _)] at h
    cases h

theorem Extends.linkPrototypes (hlinked : s.Linked) : s.Extends s.linkPrototypes := by
  have hsize : s.linkPrototypes.funcs.size = s.funcs.size := by
    unfold Shader.linkPrototypes
    rw [← Array.foldl_toList]
    refine List.foldlRecOn (motive := fun linked : Shader => linked.funcs.size = s.funcs.size)
      _ _ rfl fun linked hlinked id _ => ?_
    split
    · exact hlinked
    split
    · simpa [modifyFunc] using hlinked
    · exact hlinked
  obtain ⟨funcs, hlink, hfunc⟩ := linkPrototypes_eq s
  rw [hlink] at hfunc hsize ⊢
  refine of_functionNames hlinked (fun _ _ => .same _) (fun _ _ => ⟨rfl, rfl⟩)
    (Nat.le_of_eq hsize.symm) (fun f _ => ?_) (fun _ _ => rfl) rfl
  rcases hfunc f with hsame | ⟨-, prototype, hlinked⟩
  · rw [hsame]
    exact ⟨rfl, rfl⟩
  · rw [hlinked]
    exact ⟨rfl, rfl⟩

/-- An accepted shader is one with all its calls on record, after these have been bound in turn.
Before that, every access to a member selects what it has been read for. -/
theorem Accepted.exists_recorded (h : s.Accepted) :
    ∃ (s₀ : Shader) (calls : List ExprId), s₀.Recorded calls ∧ s₀.MembersSelected ∧
      s = s₀.bindCalls calls.reverse := by
  obtain ⟨prototypes, stage, tokens, hshader⟩ := h
  obtain ⟨st, hrun, rfl⟩ := Parse.exists_run_of_shaderWith hshader
  have hcalling := Parse.along_bind (R := Parse.Calling) (Parse.calling_prelude stage prototypes)
    (fun _ => Parse.calling_source tokens) _ _ _ hrun
  have hsound : Parse.Sound False [] [] st := Parse.leads_bind
    (Parse.sound_prelude stage prototypes) (fun _ => Parse.sound_source tokens) _ _ _
    (Parse.sound_initial stage) hrun
  have hmembers := hsound.members.of_exprs_eq hsound.linked (.linkPrototypes hsound.linked)
  refine ⟨st.shader.linkPrototypes, st.calls, ?_, ?_, rfl⟩
  all_goals obtain ⟨funcs, hlink, _⟩ := linkPrototypes_eq st.shader
  · rw [hlink]
    have hrecorded := hcalling.recorded (recorded_initial stage)
    exact ⟨hrecorded.latestFirst, hrecorded.mem_iff, hrecorded.unbound⟩
  · exact hmembers (by rw [hlink])

theorem Linked.argumentsFirst (h : s.Linked) (hitems : s.ItemsBelow) {call : ExprId}
    (hcall : (s.expr call).isCall = true) : s.ArgumentsFirst call := by
  intro c hc hcalled
  have hrank := lt_of_transGen (f := s.rank) (fun e d hd =>
    h.rank_lt hitems (.operand (Expr.typedBy_subset _ hd))) hc
  have hcallRank {e : ExprId} (he : (s.expr e).isCall = true) : s.rank e = e.index + 1 := by
    cases hexpr : s.expr e <;> rw [hexpr] at he <;> simp_all [rank, constant?, Expr.isCall]
  rw [hcallRank hcall, hcallRank hcalled] at hrank
  omega

/-- Every call whose arguments do not lead to later calls is bound by the types that its arguments
have in the finished shader. These are all calls unless a statement is an expression that begins
with a type, and where they are all calls, none would be bound in another way again. -/
theorem Accepted.calls_bound (h : s.Accepted) :
    (∀ call name args target, s.expr call = .call name args target → s.ArgumentsFirst call →
      s.Binds name args target) ∧
    (¬ s.Ambiguous → ∀ call, (s.expr call).isCall = true → s.ArgumentsFirst call) ∧
    ((∀ call, (s.expr call).isCall = true → s.ArgumentsFirst call) →
      ∀ calls, s.bindCalls calls = s) := by
  obtain ⟨hlinked, hitems⟩ := h.consistent
  have htarget (call : ExprId) (name : String) (args : List ExprId) (target : Option FuncId)
      (hcall : s.expr call = .call name args target) (hfirst : s.ArgumentsFirst call) :
      target = s.selectOverload? name args := by
    obtain ⟨s₀, calls, hrecorded, -, rfl⟩ := h.exists_recorded
    exact hrecorded.target_eq hcall hfirst
  refine ⟨fun call name args target hcall hfirst => ?_, fun hambiguous call => ?_,
    fun hfirst calls => ?_⟩
  · rw [htarget call name args target hcall hfirst]
    exact binds_selectOverload? s name args
  · exact hlinked.argumentsFirst (hitems.resolve_right hambiguous)
  · induction calls with
    | nil => rfl
    | cons call rest ih =>
        rw [bindCalls_cons, bindCall_eq_self fun name args target hcall => ?_, ih]
        exact htarget call name args target hcall (hfirst call (by rw [hcall]; rfl))

end Shader

/-- The tokens of `float g(int x); float g(float x);`. -/
def overloadedPrototypes : List TokenKind :=
  [.keyword (.type (.scalar .float)), .ident "g", .punct .leftParen,
    .keyword (.type (.scalar .int)), .ident "x", .punct .rightParen, .punct .semicolon,
    .keyword (.type (.scalar .float)), .ident "g", .punct .leftParen,
    .keyword (.type (.scalar .float)), .ident "x", .punct .rightParen, .punct .semicolon]

/-- The tokens of `float f() { return g(g(1)); }` behind the prototypes. -/
def nestedCalls : List TokenKind :=
  overloadedPrototypes ++
    [TokenKind.keyword (.type (.scalar .float)), .ident "f", .punct .leftParen, .punct .rightParen,
      .punct .leftBrace, .keyword (.word .returnValue), .ident "g", .punct .leftParen, .ident "g",
      .punct .leftParen, .number (.integer .int 1), .punct .rightParen, .punct .rightParen,
      .punct .semicolon, .punct .rightBrace, .endOfFile]

theorem Shader.exists_calls_bound :
    ∃ s : Shader, s.Accepted ∧ s.expr ⟨18⟩ = .call "g" [⟨17⟩] (some ⟨1⟩) ∧ s.ArgumentsFirst ⟨18⟩ ∧
      s.Binds "g" [⟨17⟩] (some ⟨1⟩) ∧ ∀ calls, s.bindCalls calls = s := by
  obtain ⟨s, hs, hfacts⟩ := Parse.exists_accepted (f := fun s => (s.stmts, s.expr ⟨18⟩))
    (show (Parse.plainShader? .fragment nestedCalls).map _ =
        some (#[.returnValue (some ⟨18⟩)], .call "g" [⟨17⟩] (some ⟨1⟩)) by
      decide +kernel)
  obtain ⟨hstmts, hcall⟩ := Prod.mk.inj hfacts
  have hambiguous : ¬ s.Ambiguous := by
    rintro ⟨⟨t⟩, e, ht, _⟩
    rw [stmt, hstmts] at ht
    cases t <;> cases ht
  obtain ⟨hbinds, hfirst, hagain⟩ := Accepted.calls_bound hs
  have hall := hfirst hambiguous
  have hfirst := hall ⟨18⟩ (by rw [hcall]; rfl)
  exact ⟨s, hs, hcall, hfirst, hbinds _ _ _ _ hcall hfirst, hagain hall⟩

/-- The tokens of `const float v[5] = float[](1 + 1, 1 + 1, 1 + 1, 1 + 1, 1 + 1);`. -/
def constantSums : List TokenKind :=
  [TokenKind.keyword (.storage .constant), .keyword (.type (.scalar .float)), .ident "v",
    .punct .leftBracket, .number (.integer .int 5), .punct .rightBracket, .punct .eq,
    .keyword (.type (.scalar .float)), .punct .leftBracket, .punct .rightBracket,
    .punct .leftParen] ++
  [Punct.comma, .comma, .comma, .comma, .rightParen].flatMap (fun p =>
    [TokenKind.number (.integer .int 1), .punct .plus, .number (.integer .int 1), .punct p]) ++
  [TokenKind.punct .semicolon]

/-- The tokens of
`int h(); float h() { return 1.0; }
void main() { const float v[5] = …; float[v](g(float[](1 + 1, 2.0))); float[v](1.0, h(), 2.0); }`
behind the prototypes. -/
def callInReplacedItem : List TokenKind :=
  overloadedPrototypes ++
    [TokenKind.keyword (.type (.scalar .int)), .ident "h", .punct .leftParen, .punct .rightParen,
      .punct .semicolon, .keyword (.type (.scalar .float)), .ident "h", .punct .leftParen,
      .punct .rightParen, .punct .leftBrace, .keyword (.word .returnValue),
      .number (.real .float 0x3F800000), .punct .semicolon, .punct .rightBrace,
      .keyword (.type .void), .ident "main", .punct .leftParen, .punct .rightParen,
      .punct .leftBrace] ++
    constantSums ++
    [TokenKind.keyword (.type (.scalar .float)), .punct .leftBracket, .ident "v",
      .punct .rightBracket, .punct .leftParen, .ident "g", .punct .leftParen,
      .keyword (.type (.scalar .float)),
      .punct .leftBracket, .punct .rightBracket, .punct .leftParen, .number (.integer .int 1),
      .punct .plus, .number (.integer .int 1), .punct .comma, .number (.real .float 0x40000000),
      .punct .rightParen, .punct .rightParen, .punct .rightParen, .punct .semicolon,
      .keyword (.type (.scalar .float)), .punct .leftBracket, .ident "v", .punct .rightBracket,
      .punct .leftParen, .number (.real .float 0x3F800000), .punct .comma, .ident "h",
      .punct .leftParen, .punct .rightParen, .punct .comma, .number (.real .float 0x40000000),
      .punct .rightParen, .punct .semicolon, .punct .rightBrace, .endOfFile]

/-- The argument of a call is an array whose first item has been replaced by what has become a later
call. As long as that call is not bound, its type is that of the first function with its name, which
is `int`; then it is bound to the definition, and the type of the argument is `float`. -/
theorem Shader.exists_call_misbound :
    ∃ s : Shader, s.Accepted ∧ s.expr ⟨40⟩ = .call "g" [⟨39⟩] (some ⟨0⟩) ∧
      ¬ s.Binds "g" [⟨39⟩] (some ⟨0⟩) ∧ s.bindCalls [⟨40⟩] ≠ s := by
  obtain ⟨s, hs, hfacts⟩ := Parse.exists_accepted (a := true)
    (f := fun s =>
      decide (s.expr ⟨40⟩ = .call "g" [⟨39⟩] (some ⟨0⟩)) &&
      decide (s.overloads "g" = [⟨0⟩, ⟨1⟩]) &&
      decide ([⟨0⟩, ⟨1⟩].map s.paramTypes =
        [[.builtin (.scalar .int)], [.builtin (.scalar .float)]]) &&
      decide (s.baseTypeOf? ⟨39⟩ = some (.builtin (.scalar .float))) &&
      decide ((s.bindCalls [⟨40⟩]).expr ⟨40⟩ = .call "g" [⟨39⟩] (some ⟨1⟩)))
    (show (Parse.plainShader? .fragment callInReplacedItem).map _ = _ by decide +kernel)
  simp only [Bool.and_eq_true, decide_eq_true_eq, List.map_cons, List.map_nil, List.cons.injEq,
    and_true] at hfacts
  obtain ⟨⟨⟨⟨hcall, hoverloads⟩, hint, hfloat⟩, htype⟩, hagain⟩ := hfacts
  have htypes {types : List TypeRef} (h : [⟨39⟩].map s.baseTypeOf? = types.map some) :
      types = [.builtin (.scalar .float)] := by
    rw [List.map_singleton, htype, ← List.map_singleton] at h
    exact (List.map_injective_iff.2 (Option.some_injective _) h).symm
  refine ⟨s, hs, hcall, fun hbinds => ?_, fun hsame => ?_⟩
  · cases hbinds with
    | only honly => rw [hoverloads] at honly; cases honly
    | same _ htypes' hpreferred =>
        have hparams := hpreferred.holds
        rw [hint, htypes htypes'] at hparams
        cases hparams
    | converted _ htypes' hdiffer =>
        refine hdiffer ⟨1⟩ (by simp [hoverloads]) ?_
        rw [hfloat, htypes htypes']
  · rw [hsame, hcall] at hagain
    cases hagain

end ShaderBridge
