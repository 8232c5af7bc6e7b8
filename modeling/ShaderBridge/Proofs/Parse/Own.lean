import ShaderBridge.Proofs.Parse.Declaration
import ShaderBridge.Proofs.Parse.SoundSource

namespace ShaderBridge

namespace Shader

/-- A shader has been added to, and none of the added functions is one of the language. -/
structure Beyond (s₀ s : Shader) : Prop where
  vars : s₀.vars.size ≤ s.vars.size
  funcs : s₀.funcs.size ≤ s.funcs.size
  var : ∀ v : VarId, v.index < s₀.vars.size → ∃ flags, s.var v = { s₀.var v with flags }
  func : ∀ f : FuncId, f.index < s₀.funcs.size → s.func f = s₀.func f
  globals : ∀ g ∈ s.globals, g ∈ s₀.globals ∨ s₀.vars.size ≤ g.index
  own : ∀ f : FuncId, s₀.funcs.size ≤ f.index → (s.func f).builtin = false

variable {s₀ s s' : Shader}

namespace Beyond

theorem refl (s : Shader) : s.Beyond s where
  vars := Nat.le_refl _
  funcs := Nat.le_refl _
  var v _ := ⟨(s.var v).flags, rfl⟩
  func _ _ := rfl
  globals _ hg := .inl hg
  own f hf := by rw [func_of_size_le hf]; rfl

theorem same (h : s₀.Beyond s) (hvars : s'.vars = s.vars) (hfuncs : s'.funcs = s.funcs)
    (hglobals : s'.globals = s.globals) : s₀.Beyond s' := by
  obtain ⟨hv, hf, hvar, hfunc, hglobal, hown⟩ := h
  refine ⟨hvars ▸ hv, hfuncs ▸ hf, fun v hlt => ?_, fun f hlt => ?_, hglobals ▸ hglobal,
    fun f hle => ?_⟩
  · obtain ⟨flags, heq⟩ := hvar v hlt
    exact ⟨flags, by rw [← heq, Shader.var, Shader.var, hvars]⟩
  · rw [← hfunc f hlt, Shader.func, Shader.func, hfuncs]
  · rw [← hown f hle, Shader.func, Shader.func, hfuncs]

theorem addVar (h : s₀.Beyond s) (v : Variable) : s₀.Beyond (s.addVar v).2 where
  vars := by
    have := h.vars
    simp only [Shader.addVar, Array.size_push]
    omega
  funcs := h.funcs
  var id hid := by
    rw [var_addVar, if_neg (by have := h.vars; omega)]
    exact h.var id hid
  func := h.func
  globals := h.globals
  own := h.own

theorem truncate (h : s₀.Beyond s) (exprs : Nat) {vars : Nat} (hvars : s₀.vars.size ≤ vars) :
    s₀.Beyond (s.truncate exprs vars) where
  vars := by
    have := h.vars
    simp only [Shader.truncate, Array.size_shrink]
    omega
  funcs := h.funcs
  var id hid := by
    obtain ⟨flags, hvar⟩ := h.var id hid
    refine ⟨flags, ?_⟩
    rw [← hvar]
    have hlt : id.index < vars := by omega
    have hlt' := Nat.lt_of_lt_of_le hid h.vars
    simp [Shader.truncate, Shader.var, hlt, hlt']
  func := h.func
  globals := h.globals
  own := h.own

theorem setFlags (h : s₀.Beyond s) (id : VarId) (f : VarFlags → VarFlags) :
    s₀.Beyond (s.modifyVar id fun v => { v with flags := f v.flags }) where
  vars := by simpa [Shader.modifyVar] using h.vars
  funcs := h.funcs
  var v hv := by
    obtain ⟨flags, hvar⟩ := h.var v hv
    have hflags : ∃ flags', (s.modifyVar id fun v => { v with flags := f v.flags }).var v =
        { s.var v with flags := flags' } := by
      simp only [Shader.modifyVar, Shader.var, Array.getD_eq_getD_getElem?, Array.getElem?_modify]
      split
      · cases s.vars[v.index]? with
        | none => exact ⟨_, rfl⟩
        | some old => exact ⟨f old.flags, rfl⟩
      · exact ⟨_, rfl⟩
    obtain ⟨flags', hflags⟩ := hflags
    exact ⟨flags', by rw [hflags, hvar]⟩
  func := h.func
  globals := h.globals
  own := h.own

theorem addGlobal (h : s₀.Beyond s) {id : VarId} (hid : s₀.vars.size ≤ id.index) :
    s₀.Beyond { s with globals := s.globals.push id } where
  vars := h.vars
  funcs := h.funcs
  var := h.var
  func := h.func
  globals g hg := by
    rcases Array.mem_push.1 hg with hg | rfl
    · exact h.globals g hg
    · exact .inr hid
  own := h.own

theorem addFunc (h : s₀.Beyond s) {f : Function} (hf : f.builtin = false) :
    s₀.Beyond (s.addFunc f) where
  vars := h.vars
  funcs := by
    have := h.funcs
    simp only [Shader.addFunc, Array.size_push]
    omega
  var := h.var
  func id hid := by
    rw [func_addFunc, if_neg (by have := h.funcs; omega)]
    exact h.func id hid
  globals := h.globals
  own id hid := by
    rw [func_addFunc]
    split
    · exact hf
    · exact h.own id hid

end Beyond

end Shader

namespace Parse

/-- A text marks a function as one of the language. -/
def MarksBuiltin (tokens : List Token) : Prop :=
  [.punct .leftBracket, .punct .leftBracket, .ident "builtin"] <:+: tokens.map Token.kind

/-- If the tokens mark no function as one of the language, nor do those that are left, and what the
shader has been added to is still the same. -/
def StaysOwn (st st' : ParserState) : Prop :=
  ¬ MarksBuiltin st.tokens →
    ¬ MarksBuiltin st'.tokens ∧ ∀ s₀ : Shader, s₀.Beyond st.shader → s₀.Beyond st'.shader

theorem staysOwn_same {st st' : ParserState} (htokens : st'.tokens = st.tokens)
    (hvars : st'.shader.vars = st.shader.vars) (hfuncs : st'.shader.funcs = st.shader.funcs)
    (hglobals : st'.shader.globals = st.shader.globals) : StaysOwn st st' :=
  fun hmarks => ⟨htokens ▸ hmarks, fun _ h => h.same hvars hfuncs hglobals⟩

theorem staysOwn_shader {st : ParserState} {s : Shader}
    (h : ∀ s₀ : Shader, s₀.Beyond st.shader → s₀.Beyond s) : StaysOwn st { st with shader := s } :=
  fun hmarks => ⟨hmarks, h⟩

instance : Frame StaysOwn where
  refl st := staysOwn_same rfl rfl rfl rfl
  trans h h' := fun hmarks =>
    have ⟨hmarks₁, h₁⟩ := h hmarks
    have ⟨hmarks₂, h₂⟩ := h' hmarks₁
    ⟨hmarks₂, fun s₀ h₀ => h₂ s₀ (h₁ s₀ h₀)⟩
  advance := by
    intro st a st' h
    unfold advance at h
    cases h
    dsimp only
    split
    · next t rest htokens =>
        split
        · exact staysOwn_same rfl rfl rfl rfl
        · refine fun hmarks => ⟨fun hrest => hmarks ?_, fun _ h => h⟩
          rw [htokens, MarksBuiltin, List.map_cons]
          exact hrest.trans (List.suffix_cons _ _).isInfix
    · exact staysOwn_same rfl rfl rfl rfl

theorem staysOwn_addExpr (e : Expr) : Along StaysOwn (addExpr e) := by
  intro st a st' h
  cases h
  exact staysOwn_same rfl rfl rfl rfl

instance : StatementFrame StaysOwn where
  addExpr e _ := staysOwn_addExpr e
  variableNamed name st _ := along_variableNamed_of (fun v => staysOwn_addExpr (.var v)) name st
  evaluate id := by
    intro st a st' h
    obtain ⟨s, hfold, rfl⟩ := run_evaluate_ok h
    obtain ⟨exprs, hs⟩ := Folding.changesExprs_evaluate id st.shader
    rw [hfold] at hs
    subst hs
    exact staysOwn_same rfl rfl rfl rfl
  addCall name args := by
    intro st a st' h
    cases h
    exact staysOwn_same rfl rfl rfl rfl
  addStmt t := by
    intro st a st' h
    cases h
    exact staysOwn_same rfl rfl rfl rfl
  setStmt id t := by
    intro st a st' h
    cases h
    exact staysOwn_same rfl rfl rfl rfl
  addVar v := by
    intro st a st' h
    cases h
    exact staysOwn_shader fun _ h => h.addVar v
  declare id := by
    intro st a st' h
    cases h
    dsimp only
    split <;> exact staysOwn_same rfl rfl rfl rfl
  inScope := along_inScope_of (fun st a st' h => by cases h; exact staysOwn_same rfl rfl rfl rfl)
    fun st a st' h => by cases h; exact staysOwn_same rfl rfl rfl rfl
  attempt hpushes hrule := by
    intro st r st' h
    obtain ⟨st₁, hrun, rfl⟩ := run_attempt_ok hpushes h
    cases r with
    | some a => exact hrule _ _ _ hrun
    | none =>
        refine fun hmarks => ⟨hmarks, fun s₀ h₀ => ?_⟩
        exact ((hrule _ _ _ hrun hmarks).2 s₀ h₀).truncate _ h₀.vars

instance : StructureFrame StaysOwn where
  setFlags id f := by
    intro st a st' h
    cases h
    exact staysOwn_shader fun _ h => h.setFlags id f
  addGlobal v := by
    intro st a st' h
    obtain ⟨var, st₁, hvar, h⟩ := run_bind_ok.1 h
    cases hvar
    cases h
    dsimp only
    have hadded {s₀ : Shader} (h₀ : s₀.Beyond st.shader) :
        s₀.Beyond { (st.shader.addVar v).2 with
          globals := (st.shader.addVar v).2.globals.push (st.shader.addVar v).1 } :=
      (h₀.addVar v).addGlobal h₀.vars
    split <;> exact fun hmarks => ⟨hmarks, fun _ h₀ => hadded h₀⟩
  addStructure name fields := by
    intro st a st' h
    cases h
    cases name <;> exact staysOwn_same rfl rfl rfl rfl
  addBlock name fields block := by
    intro st a st' h
    cases h
    exact staysOwn_same rfl rfl rfl rfl

theorem marksBuiltin_of_builtinAttribute {st st' : ParserState}
    (h : builtinAttribute.run st = .ok (true, st')) : MarksBuiltin st.tokens := by
  obtain ⟨tokens, s, scopes, calls⟩ := st
  obtain ⟨found, st₁, hfound, h⟩ := run_bind_ok.1 h
  rw [run_atDoubleBracket?] at hfound
  obtain ⟨rfl, rfl⟩ : _ ∧ _ := by simpa using hfound
  split at h
  · next hfound =>
      simp only [Bool.and_eq_true, beq_iff_eq] at hfound
      obtain ⟨t₁, rest₁, rfl, ht₁⟩ := exists_cons_of_kindAt hfound.1 TokenKind.noConfusion
      obtain ⟨t₂, rest₂, rfl, ht₂⟩ := exists_cons_of_kindAt hfound.2 TokenKind.noConfusion
      obtain ⟨_, st₂, hadvance, h⟩ := run_bind_ok.1 h
      rw [run_advance (by rw [ht₁]; exact TokenKind.noConfusion)] at hadvance
      cases hadvance
      obtain ⟨_, st₃, hadvance, h⟩ := run_bind_ok.1 h
      rw [run_advance (by rw [ht₂]; exact TokenKind.noConfusion)] at hadvance
      cases hadvance
      obtain ⟨name, st₄, hname, h⟩ := run_bind_ok.1 h
      rw [run_name?] at hname
      cases hname
      cases hkind : kindAt rest₂ with
      | ident name =>
          obtain ⟨t₃, rest₃, rfl, ht₃⟩ := exists_cons_of_kindAt hkind TokenKind.noConfusion
          simp only [hkind] at h
          split at h
          · next hname =>
              have hname : name = "builtin" := by simpa using hname
              refine ⟨[], rest₃.map Token.kind, ?_⟩
              simp [ht₁, ht₂, ht₃, hname]
          · obtain ⟨_, _, hfail, _⟩ := run_bind_ok.1 h
            cases hfail
      | _ =>
          simp only [hkind] at h
          obtain ⟨_, _, hfail, _⟩ := run_bind_ok.1 h
          cases hfail
  · cases h

section

variable {s₀ : Shader}

/-- The tokens mark no function as one of the language, and the shader has been added to. -/
def Owned (s₀ : Shader) (st : ParserState) : Prop :=
  ¬ MarksBuiltin st.tokens ∧ s₀.Beyond st.shader

theorem owned_along {α : Type} {m : ParseM α} (hm : Along StaysOwn m) :
    Leads (Owned s₀) m fun _ => Owned s₀ := by
  intro st a st' h hrun
  obtain ⟨hmarks, hbeyond⟩ := hm st a st' hrun h.1
  exact ⟨hmarks, hbeyond s₀ h.2⟩

theorem owned_builtinAttribute :
    Leads (Owned s₀) builtinAttribute fun builtin st => builtin = false ∧ Owned s₀ st := by
  intro st builtin st' h hrun
  refine ⟨?_, owned_along along_builtinAttribute st builtin st' h hrun⟩
  cases builtin with
  | false => rfl
  | true => exact absurd (marksBuiltin_of_builtinAttribute hrun) h.1

theorem owned_function (type : TypeRef) (name : String) :
    Leads (Owned s₀) (function type name) fun _ => Owned s₀ := by
  have hbody (params : List VarId) : Along StaysOwn (do
      let body ← functionBody params
      addFunction { name, returnType := type, params, body, builtin := false }) := by
    refine along_bind (along_functionBody params) fun body => along_addFunction fun g hg => ?_
    intro st a st' hrun
    cases hrun
    exact staysOwn_shader fun _ h => h.addFunc hg
  refine leads_bind (owned_along (along_expect _ _)) fun _ => ?_
  refine leads_bind (owned_along (along_commaSeparated along_parameter _ _)) fun params => ?_
  refine leads_bind owned_builtinAttribute fun builtin => ?_
  cases builtin with
  | true => exact leads_absurd fun st h => Bool.noConfusion h.1
  | false =>
      refine leads_imp (P := Owned s₀) ?_ fun st h => h.2
      refine leads_bind_read reads_shader fun s => ?_
      refine leads_bind_read (reads_at? _) fun ended => ?_
      refine leads_ite (fun _ => ?_) fun _ => leads_fail_bind _ _
      refine leads_ite (fun _ => ?_) fun _ => owned_along (hbody _)
      refine leads_ite (fun _ => ?_) fun _ => leads_fail_bind _ _
      exact leads_ite (fun _ => owned_along (hbody _)) fun _ => leads_fail_bind _ _

end

theorem staysOwn_function (type : TypeRef) (name : String) :
    Along StaysOwn (function type name) := by
  intro st a st' hrun hmarks
  refine ⟨?_, fun s₀ h₀ => ?_⟩
  · exact (owned_function type name st a st' ⟨hmarks, .refl st.shader⟩ hrun).1
  · exact (owned_function type name st a st' ⟨hmarks, h₀⟩ hrun).2

/-- A text marks a function as one of the language, directives aside. -/
def UsesBuiltin (tokens : List Token) : Prop :=
  MarksBuiltin (tokens.filter fun t => !t.kind.isDirective)

theorem beyond_source {tokens : List Token} (htokens : ¬ UsesBuiltin tokens) {st st' : ParserState}
    (h : (source tokens).run st = .ok ((), st')) : st.shader.Beyond st'.shader := by
  obtain ⟨version, extensions, h⟩ := run_source_ok h
  refine (along_declarations staysOwn_function _ _ _ h htokens).2 st.shader ?_
  exact (Shader.Beyond.refl st.shader).same rfl rfl rfl

end Parse

end ShaderBridge
