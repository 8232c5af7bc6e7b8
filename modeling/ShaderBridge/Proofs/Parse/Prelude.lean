import ShaderBridge.Proofs.Parse.Own

namespace ShaderBridge

namespace Shader

/-- A parameter of a type of the language that is no array. -/
def IsPlainParam (s : Shader) (p : VarId) : Prop :=
  ∃ t q, (s.var p).type = .builtin t ∧ (s.var p).dims = [] ∧ (s.var p).role = .parameter q

/-- A prototype that mentions types of the language only. -/
structure IsAnnounced (s : Shader) (f : Function) : Prop where
  returnType : ∃ t, f.returnType = .builtin t
  params : ∀ p ∈ f.params, s.IsPlainParam p
  body : f.body = none
  prototype : f.prototype = none

/-- A shader holds prototypes of the language only. -/
structure OnlyAnnounced (s : Shader) : Prop where
  names : s.structureNames = []
  stmts : s.stmts = #[]
  globals : ∀ g ∈ s.globals, ∃ info, (s.var g).role = .global info
  funcs : ∀ f : FuncId, f.index < s.funcs.size → s.IsAnnounced (s.func f)

variable {s : Shader}

theorem var_addVar_of_lt (v : Variable) {id : VarId} (h : id.index < s.vars.size) :
    (s.addVar v).2.var id = s.var id := by
  rw [var_addVar, if_neg (Nat.ne_of_lt h)]

theorem lt_size_of_role {id : VarId} (h : (s.var id).role ≠ .field) : id.index < s.vars.size := by
  by_contra hlt
  rw [var_of_size_le (Nat.le_of_not_lt hlt)] at h
  exact h rfl

theorem IsPlainParam.lt_size {p : VarId} (h : s.IsPlainParam p) : p.index < s.vars.size := by
  obtain ⟨t, q, _, _, hrole⟩ := h
  exact lt_size_of_role (by rw [hrole]; exact VarRole.noConfusion)

theorem IsPlainParam.addVar {p : VarId} (h : s.IsPlainParam p) (v : Variable) :
    (s.addVar v).2.IsPlainParam p := by
  unfold IsPlainParam
  rw [var_addVar_of_lt v h.lt_size]
  exact h

theorem IsAnnounced.addVar {f : Function} (h : s.IsAnnounced f) (v : Variable) :
    (s.addVar v).2.IsAnnounced f :=
  ⟨h.returnType, fun p hp => (h.params p hp).addVar v, h.body, h.prototype⟩

theorem OnlyAnnounced.addVar (h : s.OnlyAnnounced) (v : Variable) :
    (s.addVar v).2.OnlyAnnounced where
  names := h.names
  stmts := h.stmts
  globals g hg := by
    obtain ⟨info, hrole⟩ := h.globals g hg
    refine ⟨info, ?_⟩
    rw [var_addVar_of_lt v (lt_size_of_role (by rw [hrole]; exact VarRole.noConfusion)), hrole]
  funcs f hf := (h.funcs f hf).addVar v

theorem OnlyAnnounced.addExpr (h : s.OnlyAnnounced) (e : Expr) :
    (s.addExpr e).2.OnlyAnnounced where
  names := h.names
  stmts := h.stmts
  globals := h.globals
  funcs id hid := ⟨(h.funcs id hid).returnType, (h.funcs id hid).params, (h.funcs id hid).body,
    (h.funcs id hid).prototype⟩

theorem OnlyAnnounced.addGlobal (h : s.OnlyAnnounced) {g : VarId}
    (hg : ∃ info, (s.var g).role = .global info) :
    ({ s with globals := s.globals.push g } : Shader).OnlyAnnounced where
  names := h.names
  stmts := h.stmts
  globals g' hg' := by
    rcases Array.mem_push.1 hg' with hg' | rfl
    · exact h.globals g' hg'
    · exact hg
  funcs id hid := ⟨(h.funcs id hid).returnType, (h.funcs id hid).params, (h.funcs id hid).body,
    (h.funcs id hid).prototype⟩

theorem OnlyAnnounced.addFunc (h : s.OnlyAnnounced) {f : Function} (hf : s.IsAnnounced f) :
    (s.addFunc f).OnlyAnnounced where
  names := h.names
  stmts := h.stmts
  globals := h.globals
  funcs id hid := by
    rw [func_addFunc]
    split
    · exact ⟨hf.returnType, hf.params, hf.body, hf.prototype⟩
    · next hne =>
        have hlt : id.index < s.funcs.size := by
          simp only [Shader.addFunc, Array.size_push] at hid
          omega
        exact ⟨(h.funcs id hlt).returnType, (h.funcs id hlt).params, (h.funcs id hlt).body,
          (h.funcs id hlt).prototype⟩

end Shader

namespace Parse

/-! ### Announcements -/

def isParameterQualifier : TokenKind → Bool
  | .keyword (.storage .input) | .keyword (.storage .output) | .keyword (.word .inout) => true
  | _ => false

/-- The tokens of a named parameter of a type of the language. -/
inductive IsParameter : List Token → Prop where
  | named (t : BuiltinType) (name : String) (p₁ p₂ : Span) :
      t ≠ .void → IsParameter [⟨.keyword (.type t), p₁⟩, ⟨.ident name, p₂⟩]
  | qualified (w : Token) {words : List Token} :
      isParameterQualifier w.kind → IsParameter words → IsParameter (w :: words)

/-- The tokens of parameters up to the parenthesis behind them. -/
inductive IsParameterList : List Token → Prop where
  | close (p : Span) : IsParameterList [⟨.punct .rightParen, p⟩]
  | last {words : List Token} (p : Span) :
      IsParameter words → IsParameterList (words ++ [⟨.punct .rightParen, p⟩])
  | more {words rest : List Token} (p : Span) :
      IsParameter words → IsParameterList rest →
        IsParameterList (words ++ ⟨.punct .comma, p⟩ :: rest)

/-- The tokens of prototypes, each of which is marked as one of the language. -/
inductive Announces : List Token → Prop where
  | done (p : Span) : Announces [⟨.endOfFile, p⟩]
  | prototype (t : BuiltinType) (name : String) {params rest : List Token}
      (p₁ p₂ p₃ p₄ p₅ p₆ p₇ p₈ p₉ : Span) :
      name ≠ "main" → IsParameterList params → Announces rest →
        Announces (⟨.keyword (.type t), p₁⟩ :: ⟨.ident name, p₂⟩ :: ⟨.punct .leftParen, p₃⟩ ::
          (params ++ ⟨.punct .leftBracket, p₄⟩ :: ⟨.punct .leftBracket, p₅⟩ ::
            ⟨.ident "builtin", p₆⟩ :: ⟨.punct .rightBracket, p₇⟩ ::
              ⟨.punct .rightBracket, p₈⟩ :: ⟨.punct .semicolon, p₉⟩ :: rest))

variable {s : Shader} {scopes : List (List VarId)} {calls : List ExprId}
  {rest : List Token}

/-! ### Parameters -/

/-- A parameter with the next of its words, unless the mark behind it comes next. -/
def parameterStep (p : Parameter) : ParseM (Parameter ⊕ Parameter) := do
  if ← atAny? [.comma, .rightParen] then return .inr p
  return .inl (← parameterPart p)

theorem exists_run_parameterStep {w : Token} (hw : isParameterQualifier w.kind) (p : Parameter) :
    ∃ q, (parameterStep p).run ⟨w :: rest, s, scopes, calls⟩ =
      .ok (.inl { p with qualifiers := q }, ⟨rest, s, scopes, calls⟩) := by
  obtain ⟨kind, place⟩ := w
  dsimp only at hw
  unfold isParameterQualifier at hw
  split at hw
  · exact ⟨_, rfl⟩
  · exact ⟨_, rfl⟩
  · exact ⟨_, rfl⟩
  · cases hw

theorem run_parameterStep_mark {mark : Token}
    (hmark : mark.kind = .punct .comma ∨ mark.kind = .punct .rightParen) (p : Parameter) :
    (parameterStep p).run ⟨mark :: rest, s, scopes, calls⟩ =
      .ok (.inr p, ⟨mark :: rest, s, scopes, calls⟩) := by
  obtain ⟨kind, place⟩ := mark
  rcases hmark with hkind | hkind <;>
  · cases hkind
    rfl

theorem exists_run_words {words : List Token} (hwords : IsParameter words) {mark : Token}
    (hmark : mark.kind = .punct .comma ∨ mark.kind = .punct .rightParen) {p : Parameter}
    (htype : p.type = none) (hname : p.name = none) (hdims : p.dims = []) {n : Nat}
    (hn : words.length < n) :
    ∃ p' : Parameter, (∃ t, p'.type = some (.builtin t) ∧ p'.dims = []) ∧
      (repeatWithin parameterStep n p).run ⟨words ++ mark :: rest, s, scopes, calls⟩ =
        .ok (p', ⟨mark :: rest, s, scopes, calls⟩) := by
  induction hwords generalizing p n with
  | named t name p₁ p₂ ht =>
      obtain ⟨n, rfl⟩ : ∃ m, n = m + 3 := ⟨n - 3, by simp only [List.length_cons] at hn; omega⟩
      obtain ⟨qualifiers, precision, type, name', dims⟩ := p
      subst htype hname
      refine ⟨⟨qualifiers, precision, some (.builtin t), some name, dims⟩, ⟨t, rfl, hdims⟩, ?_⟩
      rw [List.cons_append, run_repeatWithin_inl (b := ⟨qualifiers, precision, some (.builtin t),
        none, dims⟩) rfl, List.cons_append, run_repeatWithin_inl (b := ⟨qualifiers, precision,
          some (.builtin t), some name, dims⟩)]
      · exact run_repeatWithin_inr (run_parameterStep_mark hmark _) _
      · cases t <;> first | exact absurd rfl ht | rfl
  | qualified w hw hwords ih =>
      obtain ⟨n, rfl⟩ : ∃ m, n = m + 1 := ⟨n - 1, by omega⟩
      obtain ⟨q, hstep⟩ := exists_run_parameterStep hw p
      rw [List.cons_append, run_repeatWithin_inl hstep]
      exact ih (p := { p with qualifiers := q }) htype hname hdims (Nat.lt_of_succ_lt_succ hn)

/-- The variable that a parameter of a prototype becomes. -/
def IsPlain (v : Variable) : Prop :=
  ∃ t q, v.type = .builtin t ∧ v.dims = [] ∧ v.role = .parameter q

theorem exists_run_parameter {words : List Token} (hwords : IsParameter words) {mark : Token}
    (hmark : mark.kind = .punct .comma ∨ mark.kind = .punct .rightParen) :
    ∃ v : Variable, IsPlain v ∧ parameter.run ⟨words ++ mark :: rest, s, scopes, calls⟩ =
      .ok (⟨s.vars.size⟩, ⟨mark :: rest, (s.addVar v).2, scopes, calls⟩) := by
  obtain ⟨p, ⟨t, htype, hdims⟩, hrun⟩ := @exists_run_words s scopes calls rest words hwords mark
    hmark {} rfl rfl rfl ((words ++ mark :: rest).length + 1) (by rw [List.length_append]; omega)
  have hwhole : (repeatSteps parameterStep {}).run ⟨words ++ mark :: rest, s, scopes, calls⟩ =
      .ok (p, ⟨mark :: rest, s, scopes, calls⟩) :=
    hrun
  obtain ⟨qualifiers, precision, type, name, dims⟩ := p
  subst htype hdims
  exact ⟨Variable.mk _ _ _ _ _ _, ⟨t, qualifiers, rfl, rfl, rfl⟩, (run_bind_of hwhole).trans rfl⟩

/-- A step of the list of parameters. -/
def parametersStep (found : List VarId) : ParseM (List VarId ⊕ List VarId) := do
  if ← atAny? [.rightParen] then
    advance
    return .inr found.reverse
  let a ← parameter
  unless ← take? .comma do
    unless ← atAny? [.rightParen] do fail .parameterSyntax
  return .inl (a :: found)

theorem IsParameter.exists_cons {words : List Token} (hwords : IsParameter words) :
    ∃ w tail, words = w :: tail ∧ ∀ p, w.kind ≠ .punct p := by
  cases hwords with
  | named t name p₁ p₂ ht => exact ⟨_, _, rfl, fun p => TokenKind.noConfusion⟩
  | qualified w hw hwords =>
      refine ⟨w, _, rfl, fun p hp => ?_⟩
      rw [hp] at hw
      cases hw

theorem run_atAny?_parameter {words : List Token} (hwords : IsParameter words) :
    (atAny? [.rightParen]).run ⟨words ++ rest, s, scopes, calls⟩ =
      .ok (false, ⟨words ++ rest, s, scopes, calls⟩) := by
  obtain ⟨⟨kind, place⟩, tail, rfl, hw⟩ := hwords.exists_cons
  rw [run_atAny?]
  cases kind with
  | punct p => exact absurd rfl (hw p)
  | _ => rfl

theorem exists_run_parametersStep {words : List Token} (hwords : IsParameter words) {mark : Punct}
    (hmark : mark = .comma ∨ mark = .rightParen) (p : Span) (found : List VarId) :
    ∃ v : Variable, IsPlain v ∧
      (parametersStep found).run ⟨words ++ ⟨.punct mark, p⟩ :: rest, s, scopes, calls⟩ =
        .ok (.inl (⟨s.vars.size⟩ :: found),
          ⟨if mark = .comma then rest else ⟨.punct mark, p⟩ :: rest, (s.addVar v).2, scopes,
            calls⟩) := by
  obtain ⟨v, hv, hrun⟩ := @exists_run_parameter s scopes calls rest words hwords ⟨.punct mark, p⟩
    (hmark.imp (congrArg _) (congrArg _))
  refine ⟨v, hv, (run_bind_of (run_atAny?_parameter hwords)).trans ((run_bind_of hrun).trans ?_)⟩
  rcases hmark with rfl | rfl <;> rfl

theorem isPlainParam_addVar {v : Variable} (hv : IsPlain v) {found : List VarId}
    (hfound : ∀ p ∈ found, s.IsPlainParam p) :
    ∀ p ∈ (⟨s.vars.size⟩ : VarId) :: found, (s.addVar v).2.IsPlainParam p := by
  refine List.forall_mem_cons.2 ⟨?_, fun p hp => (hfound p hp).addVar v⟩
  rw [Shader.IsPlainParam, Shader.var_addVar, if_pos rfl]
  exact hv

theorem exists_run_parametersWithin {params : List Token} (hparams : IsParameterList params)
    (hs : s.OnlyAnnounced) {found : List VarId} (hfound : ∀ p ∈ found, s.IsPlainParam p) {n : Nat}
    (hn : params.length < n) :
    ∃ ps s', s'.OnlyAnnounced ∧ (∀ p ∈ ps, s'.IsPlainParam p) ∧
      (repeatWithin parametersStep n found).run ⟨params ++ rest, s, scopes, calls⟩ =
        .ok (ps, ⟨rest, s', scopes, calls⟩) := by
  induction hparams generalizing s found n with
  | close p =>
      obtain ⟨n, rfl⟩ : ∃ m, n = m + 1 := ⟨n - 1, by omega⟩
      exact ⟨found.reverse, s, hs, fun p hp => hfound p (List.mem_reverse.1 hp),
        run_repeatWithin_inr rfl n⟩
  | @last words p hwords =>
      obtain ⟨n, rfl⟩ : ∃ m, n = m + 2 :=
        ⟨n - 2, by simp only [List.length_append, List.length_cons] at hn; omega⟩
      obtain ⟨v, hv, hrun⟩ := @exists_run_parametersStep s scopes calls rest words hwords
        .rightParen (.inr rfl) p found
      have hfound' := isPlainParam_addVar hv hfound
      refine ⟨(⟨s.vars.size⟩ :: found).reverse, (s.addVar v).2, hs.addVar v,
        fun p hp => hfound' p (List.mem_reverse.1 hp), ?_⟩
      rw [List.append_assoc, List.cons_append, List.nil_append, run_repeatWithin_inl hrun]
      exact run_repeatWithin_inr rfl n
  | @more words tail p hwords hrest ih =>
      obtain ⟨n, rfl⟩ : ∃ m, n = m + 1 := ⟨n - 1, by omega⟩
      obtain ⟨v, hv, hrun⟩ := @exists_run_parametersStep s scopes calls (tail ++ rest) words hwords
        .comma (.inl rfl) p found
      rw [List.append_assoc, List.cons_append, run_repeatWithin_inl hrun]
      refine ih (hs.addVar v) (isPlainParam_addVar hv hfound) ?_
      simp only [List.length_append, List.length_cons] at hn
      omega

theorem exists_run_parameters {params : List Token} (hparams : IsParameterList params)
    (hs : s.OnlyAnnounced) :
    ∃ ps s', s'.OnlyAnnounced ∧ (∀ p ∈ ps, s'.IsPlainParam p) ∧
      (commaSeparated [.rightParen] .parameterSyntax parameter).run
        ⟨params ++ rest, s, scopes, calls⟩ = .ok (ps, ⟨rest, s', scopes, calls⟩) :=
  exists_run_parametersWithin hparams hs (fun _ hp => by cases hp)
    (by rw [List.length_append]; omega)

/-! ### Prototypes -/

theorem run_builtinAttribute (p₁ p₂ p₃ p₄ p₅ : Span) (rest : List Token) (s : Shader)
    (scopes : List (List VarId)) (calls : List ExprId) :
    builtinAttribute.run ⟨⟨.punct .leftBracket, p₁⟩ :: ⟨.punct .leftBracket, p₂⟩ ::
        ⟨.ident "builtin", p₃⟩ :: ⟨.punct .rightBracket, p₄⟩ :: ⟨.punct .rightBracket, p₅⟩ :: rest,
        s, scopes, calls⟩ = .ok (true, ⟨rest, s, scopes, calls⟩) :=
  rfl

theorem exists_instanceOf (column : Nat) (t : BuiltinType) :
    ∃ t', instanceOf column (.builtin t) = .builtin t' := by
  unfold instanceOf
  split
  · next f h => exact ⟨_, rfl⟩
  · exact ⟨t, rfl⟩

theorem exists_run_instances (column : Nat) {params found : List VarId} (hs : s.OnlyAnnounced)
    (hparams : ∀ p ∈ params, s.IsPlainParam p) (hfound : ∀ p ∈ found, s.IsPlainParam p) :
    ∃ ps s', s'.OnlyAnnounced ∧ (∀ p ∈ ps ++ found, s'.IsPlainParam p) ∧
      (params.mapM fun p => do
        let v := (← shader).var p
        addVar { v with type := instanceOf column v.type }).run ⟨rest, s, scopes, calls⟩ =
          .ok (ps, ⟨rest, s', scopes, calls⟩) := by
  induction params generalizing s found with
  | nil => exact ⟨[], s, hs, hfound, rfl⟩
  | cons p params ih =>
      obtain ⟨⟨t, q, htype, hdims, hrole⟩, hparams⟩ := List.forall_mem_cons.1 hparams
      obtain ⟨t', ht'⟩ := exists_instanceOf column t
      have hv : IsPlain { s.var p with type := instanceOf column (s.var p).type } :=
        ⟨t', q, by rw [htype, ht'], hdims, hrole⟩
      obtain ⟨ps, s', hs', hps, hrun⟩ := ih (hs.addVar _) (fun p hp => (hparams p hp).addVar _)
        (isPlainParam_addVar hv hfound)
      refine ⟨⟨s.vars.size⟩ :: ps, s', hs', fun p hp => hps p ?_, ?_⟩
      · simp only [List.cons_append, List.mem_cons, List.mem_append] at hp ⊢
        tauto
      · rw [List.mapM_cons]
        exact (run_bind_of rfl).trans ((run_bind_of hrun).trans rfl)

theorem exists_run_forM {f : α → ParseM PUnit} {P : Shader → Prop}
    (hf : ∀ a s, P s → ∃ s', P s' ∧ (f a).run ⟨rest, s, scopes, calls⟩ =
      .ok (⟨⟩, ⟨rest, s', scopes, calls⟩)) (l : List α) (hs : P s) :
    ∃ s', P s' ∧ (l.forM f).run ⟨rest, s, scopes, calls⟩ = .ok (⟨⟩, ⟨rest, s', scopes, calls⟩) := by
  induction l generalizing s with
  | nil => exact ⟨s, hs, rfl⟩
  | cons a l ih =>
      obtain ⟨s₁, hs₁, hrun⟩ := hf a s hs
      obtain ⟨s₂, hs₂, hrun'⟩ := ih hs₁
      exact ⟨s₂, hs₂, (run_bind_of hrun).trans hrun'⟩

theorem exists_run_addFunction {f : Function} (hs : s.OnlyAnnounced) (hf : s.IsAnnounced f) :
    ∃ s', s'.OnlyAnnounced ∧ (addFunction f).run ⟨rest, s, scopes, calls⟩ =
      .ok ((), ⟨rest, s', scopes, calls⟩) := by
  obtain ⟨t, ht⟩ := hf.returnType
  cases hfamilies : familiesOf f.returnType (f.params.map fun p => (s.var p).type) with
  | nil =>
      refine ⟨s.addFunc f, hs.addFunc hf, (run_bind_of rfl).trans ?_⟩
      rw [hfamilies]
      rfl
  | cons g families =>
      have hcolumn (column : Nat) (s : Shader) (h : s.OnlyAnnounced ∧ s.IsAnnounced f) :
          ∃ s', (s'.OnlyAnnounced ∧ s'.IsAnnounced f) ∧ StateT.run (do
            if (g :: families).all fun g => column < g.instances.length then
              let params ← f.params.mapM fun p => do
                let v := (← shader).var p
                addVar { v with type := instanceOf column v.type }
              let returnType := instanceOf column f.returnType
              modifyShader fun s =>
                ((), s.addFunc { f with returnType, params, instantiated := true }))
            (⟨rest, s, scopes, calls⟩ : ParserState) = .ok (⟨⟩, ⟨rest, s', scopes, calls⟩) := by
        split
        · obtain ⟨ps, s', hs', hps, hrun⟩ := exists_run_instances column h.1 h.2.params h.2.params
          obtain ⟨t', ht'⟩ := exists_instanceOf column t
          rw [List.forall_mem_append] at hps
          have hinstance : s'.IsAnnounced
              { f with
                returnType := instanceOf column f.returnType
                params := ps
                instantiated := true } :=
            ⟨⟨t', by rw [ht, ht']⟩, hps.1, hf.body, hf.prototype⟩
          exact ⟨s'.addFunc _, ⟨hs'.addFunc hinstance, hf.returnType, hps.2, hf.body,
            hf.prototype⟩, (run_bind_of hrun).trans rfl⟩
        · exact ⟨s, h, rfl⟩
      obtain ⟨s', ⟨hs', -⟩, hrun⟩ :=
        exists_run_forM hcolumn (List.range Family.maxInstances) ⟨hs, hf⟩
      refine ⟨s', hs', (run_bind_of rfl).trans ?_⟩
      rw [hfamilies]
      exact hrun

theorem exists_run_function (t : BuiltinType) {name : String} (hname : name ≠ "main")
    {params : List Token} (hparams : IsParameterList params) (hs : s.OnlyAnnounced)
    (p₃ p₄ p₅ p₆ p₇ p₈ p₉ : Span) :
    ∃ s', s'.OnlyAnnounced ∧ (function (.builtin t) name).run ⟨⟨.punct .leftParen, p₃⟩ ::
        (params ++ ⟨.punct .leftBracket, p₄⟩ :: ⟨.punct .leftBracket, p₅⟩ ::
          ⟨.ident "builtin", p₆⟩ :: ⟨.punct .rightBracket, p₇⟩ :: ⟨.punct .rightBracket, p₈⟩ ::
            ⟨.punct .semicolon, p₉⟩ :: rest), s, scopes, calls⟩ =
      .ok ((), ⟨rest, s', scopes, calls⟩) := by
  obtain ⟨ps, s₁, hs₁, hps, hrun⟩ := @exists_run_parameters s scopes calls
    (⟨.punct .leftBracket, p₄⟩ :: ⟨.punct .leftBracket, p₅⟩ :: ⟨.ident "builtin", p₆⟩ ::
      ⟨.punct .rightBracket, p₇⟩ :: ⟨.punct .rightBracket, p₈⟩ :: ⟨.punct .semicolon, p₉⟩ :: rest)
    params hparams hs
  obtain ⟨s₂, hs₂, hadd⟩ := @exists_run_addFunction s₁ scopes calls rest
    { name, returnType := TypeRef.builtin t, params := declaredParams s₁ ps, body := none,
      builtin := true } hs₁
    ⟨⟨t, rfl⟩, fun p hp => hps p (declaredParams_subset s₁ ps hp), rfl, rfl⟩
  refine ⟨s₂, hs₂, (run_bind_of rfl).trans ((run_bind_of hrun).trans ?_)⟩
  refine (run_bind_of (run_builtinAttribute _ _ _ _ _ _ _ _ _)).trans ((run_bind_of rfl).trans ?_)
  refine (run_bind_of rfl).trans ?_
  have hfound : (kindAt (⟨.punct .semicolon, p₉⟩ :: rest) == .punct .semicolon) = true := rfl
  dsimp only
  rw [hfound, Bool.and_true, Bool.or_true, if_pos rfl, if_neg hname]
  exact (run_bind_of rfl).trans hadd

theorem run_externalDeclaration_announced (t : BuiltinType) (name : String) (p₁ p₂ p₃ : Span)
    (rest : List Token) (s : Shader) (scopes : List (List VarId)) (calls : List ExprId) :
    externalDeclaration.run ⟨⟨.keyword (.type t), p₁⟩ :: ⟨.ident name, p₂⟩ ::
        ⟨.punct .leftParen, p₃⟩ :: rest, s, scopes, calls⟩ =
      (function (.builtin t) name).run ⟨⟨.punct .leftParen, p₃⟩ :: rest, s, scopes, calls⟩ := by
  obtain ⟨stage⟩ := s
  cases stage <;> rfl

theorem exists_run_announced {tokens : List Token} (htokens : Announces tokens)
    (hs : s.OnlyAnnounced) {n : Nat} (hn : tokens.length < n + 1) :
    ∃ tokens' s', s'.OnlyAnnounced ∧ (repeatWithin (fun () => do
        if ← atEnd then return .inr ()
        externalDeclaration
        return .inl ()) n ()).run ⟨tokens, s, scopes, calls⟩ =
      .ok ((), ⟨tokens', s', scopes, calls⟩) := by
  induction htokens generalizing s n with
  | done p =>
      obtain ⟨n, rfl⟩ : ∃ m, n = m + 1 := ⟨n - 1, by simp at hn; omega⟩
      exact ⟨_, s, hs, run_repeatWithin_inr rfl n⟩
  | @prototype t name params rest p₁ p₂ p₃ p₄ p₅ p₆ p₇ p₈ p₉ hname hparams hrest ih =>
      obtain ⟨n, rfl⟩ : ∃ m, n = m + 1 := ⟨n - 1, by simp at hn; omega⟩
      obtain ⟨s₁, hs₁, hrun⟩ := @exists_run_function s scopes calls rest t name hname params hparams
        hs p₃ p₄ p₅ p₆ p₇ p₈ p₉
      have hstep := (run_externalDeclaration_announced t name p₁ p₂ p₃ _ s scopes calls).trans hrun
      obtain ⟨tokens', s', hs', hrun'⟩ := @ih s₁ hs₁ n (by
        simp only [List.length_cons, List.length_append] at hn
        omega)
      refine ⟨tokens', s', hs', ?_⟩
      rw [run_repeatWithin_inl (b := ()), hrun']
      exact (run_bind_of rfl).trans ((run_bind_of hstep).trans rfl)

theorem IsParameter.not_directive {words : List Token} (hwords : IsParameter words) :
    ∀ w ∈ words, w.kind.isDirective = false := by
  induction hwords with
  | named t name p₁ p₂ ht => simp [TokenKind.isDirective]
  | @qualified w words hw hwords ih =>
      refine List.forall_mem_cons.2 ⟨?_, ih⟩
      unfold isParameterQualifier at hw
      split at hw <;> simp_all [TokenKind.isDirective]

theorem IsParameterList.not_directive {words : List Token} (hwords : IsParameterList words) :
    ∀ w ∈ words, w.kind.isDirective = false := by
  induction hwords with
  | close p => simp [TokenKind.isDirective]
  | last p hwords =>
      exact List.forall_mem_append.2 ⟨hwords.not_directive, by simp [TokenKind.isDirective]⟩
  | more p hwords hrest ih =>
      exact List.forall_mem_append.2 ⟨hwords.not_directive, List.forall_mem_cons.2 ⟨rfl, ih⟩⟩

theorem Announces.not_directive {tokens : List Token} (htokens : Announces tokens) :
    ∀ t ∈ tokens, t.kind.isDirective = false := by
  induction htokens with
  | done p => simp [TokenKind.isDirective]
  | prototype t name p₁ p₂ p₃ p₄ p₅ p₆ p₇ p₈ p₉ hname hparams hrest ih =>
      have := hparams.not_directive
      simp only [List.forall_mem_cons, List.forall_mem_append]
      exact ⟨rfl, rfl, rfl, this, rfl, rfl, rfl, rfl, rfl, rfl, ih⟩

theorem withoutDirectives_of_not_directive {tokens : List Token}
    (h : ∀ t ∈ tokens, t.kind.isDirective = false) (s : Shader) :
    withoutDirectives s tokens = .ok (tokens, s) := by
  induction tokens with
  | nil => rfl
  | cons t tokens ih =>
      obtain ⟨ht, htokens⟩ := List.forall_mem_cons.1 h
      unfold withoutDirectives
      split
      · next d hd => simp [hd, TokenKind.isDirective] at ht
      · rw [ih htokens]
        rfl

theorem exists_run_source {tokens : List Token} (htokens : Announces tokens) {st : ParserState}
    (hs : st.shader.OnlyAnnounced) :
    ∃ st', st'.shader.OnlyAnnounced ∧ (source tokens).run st = .ok ((), st') := by
  obtain ⟨tokens₀, s, scopes, calls⟩ := st
  obtain ⟨tokens', s', hs', hrun⟩ := @exists_run_announced s scopes calls tokens htokens hs
    (tokens.length + 1) (by omega)
  refine ⟨⟨tokens', s', scopes, calls⟩, hs', (run_bind_of rfl).trans ?_⟩
  rw [withoutDirectives_of_not_directive htokens.not_directive]
  exact (run_bind_of rfl).trans hrun

theorem exists_run_declareHidden (g : HiddenGlobal) {st : ParserState}
    (hs : st.shader.OnlyAnnounced) :
    ∃ st', st'.shader.OnlyAnnounced ∧ (declareHidden g).run st = .ok ((), st') := by
  have hadd {s : Shader} (hs : s.OnlyAnnounced) {v : Variable}
      (hv : ∃ info, v.role = .global info) :
      ({ (s.addVar v).2 with globals := s.globals.push ⟨s.vars.size⟩ } : Shader).OnlyAnnounced := by
    refine (hs.addVar v).addGlobal ?_
    rw [Shader.var_addVar, if_pos rfl]
    exact hv
  obtain ⟨tokens, s, scopes, calls⟩ := st
  obtain ⟨name, type, storage, precision, array, value⟩ := g
  cases value <;> cases scopes
  · exact ⟨_, hadd hs ⟨_, rfl⟩, rfl⟩
  · exact ⟨_, hadd hs ⟨_, rfl⟩, rfl⟩
  · exact ⟨_, hadd (hs.addExpr _) ⟨_, rfl⟩, rfl⟩
  · exact ⟨_, hadd (hs.addExpr _) ⟨_, rfl⟩, rfl⟩

/-- What the language declares gives a shader that holds its prototypes only. -/
theorem exists_run_prelude (stage : Stage) {prototypes : List Token}
    (hprototypes : Announces prototypes) :
    ∃ st, st.shader.OnlyAnnounced ∧
      (prelude stage prototypes).run { shader := { stage } } = .ok ((), st) := by
  have hhidden (l : List HiddenGlobal) {st : ParserState} (hs : st.shader.OnlyAnnounced) :
      ∃ st', st'.shader.OnlyAnnounced ∧ (l.forM declareHidden).run st = .ok ((), st') := by
    induction l generalizing st with
    | nil => exact ⟨st, hs, rfl⟩
    | cons g l ih =>
        obtain ⟨st₁, hs₁, hrun⟩ := exists_run_declareHidden g hs
        obtain ⟨st₂, hs₂, hrun'⟩ := ih hs₁
        exact ⟨st₂, hs₂, (run_bind_of hrun).trans hrun'⟩
  obtain ⟨st₁, hs₁, hrun⟩ := @hhidden stage.hiddenGlobals { shader := { stage } }
    ⟨rfl, rfl, fun g hg => absurd hg (Array.not_mem_empty g),
      fun f hf => absurd hf (Nat.not_lt_zero _)⟩
  obtain ⟨st₂, hs₂, hrun'⟩ := exists_run_source hprototypes hs₁
  exact ⟨st₂, hs₂, (run_bind_of hrun).trans hrun'⟩

end Parse

end ShaderBridge
