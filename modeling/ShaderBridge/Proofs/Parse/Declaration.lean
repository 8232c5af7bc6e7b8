import ShaderBridge.Proofs.Parse.Statement
import ShaderBridge.Parse.Source

namespace ShaderBridge

def TokenKind.isDirective : TokenKind → Bool
  | .directive _ => true
  | _ => false

namespace Parse

/-- A relation that is kept by all that happens while global variables are declared. -/
class GlobalFrame (R : ParserState → ParserState → Prop) : Prop extends LocalFrame R where
  setFlags (id : VarId) (f : VarFlags → VarFlags) :
    Along R (modifyShader fun s => ((), s.modifyVar id fun v => { v with flags := f v.flags }))
  addGlobal (v : Variable) : Along R (do
    let var ← Parse.addVar v
    modifyShader fun s => ((), { s with globals := s.globals.push var })
    Parse.declare var)

/-- A relation that is kept by all that happens outside functions, apart from the declaration of
structures and blocks. -/
class DeclarationFrame (R : ParserState → ParserState → Prop) : Prop
    extends GlobalFrame R, StatementFrame R where
  addFunc (f : Function) : Along R (modifyShader fun s => ((), s.addFunc f))

/-- A relation that is kept by all that happens outside functions, apart from the functions. -/
class StructureFrame (R : ParserState → ParserState → Prop) : Prop extends GlobalFrame R where
  addStructure (name : Option String) (fields : List VarId) : Along R (addStructure name fields)
  addBlock (name : Option String) (fields : List VarId) (block : BlockInfo) :
    Along R (addBlock name fields block)

variable {α : Type} {R : ParserState → ParserState → Prop}

/-! ### Qualifiers -/

theorem reads_setOnce (kind : QualifierKind) (old : Option α) (new : α) :
    Reads (setOnce kind old new) := by
  unfold setOnce
  split
  · exact reads_bind (reads_fail _) fun _ => reads_pure _
  · exact reads_pure _

section

variable [ExpressionFrame R]

theorem along_layoutEntry : Along R layoutEntry := by
  refine along_bind_read reads_peek fun kind => ?_
  extract_lets entry
  have hentry (name : String) : Along R (entry name) := by
    dsimp only [entry]
    split
    · exact along_fail _
    · refine along_bind Frame.advance fun _ => ?_
      refine along_bind_read (reads_at? .eq) fun assigned => ?_
      split
      · refine along_ite ?_ (along_fail_bind _ _)
        refine along_bind Frame.advance fun _ => ?_
        refine along_bind (along_expression _) fun value => ?_
        refine along_bind_read (reads_isConstant value) fun constant => ?_
        split
        · exact along_bind (ExpressionFrame.evaluate value) fun _ => along_pure _
        · exact along_fail_bind _ _
      · exact along_ite (along_fail_bind _ _) (along_pure _)
  split
  · exact hentry _
  · exact hentry StorageClass.shared.spelling
  · exact along_fail_bind _ _

theorem along_layoutList (layout : List LayoutEntry) : Along R (layoutList layout) := by
  refine along_bind Frame.advance fun _ => ?_
  refine along_bind (along_expect _ _) fun _ => ?_
  exact along_bind (along_commaSeparated along_layoutEntry _ _) fun _ => along_pure _

theorem along_qualifier? (q : Qualifiers) : Along R (qualifier? q) := by
  have htaken (q : Qualifiers) : Along R (do advance; return some q) :=
    along_bind Frame.advance fun _ => along_pure _
  refine along_bind_read reads_peek fun kind => ?_
  split
  · exact along_bind_read (reads_setOnce _ _ _) fun _ => htaken _
  · exact along_bind_read (reads_setOnce _ _ _) fun _ => htaken _
  · exact along_bind_read (reads_setOnce _ _ _) fun _ => htaken _
  · exact along_bind_read (reads_setOnce _ _ _) fun _ => htaken _
  · exact htaken _
  · exact htaken _
  · exact htaken _
  · exact along_bind (along_layoutList _) fun _ => along_pure _
  · exact along_pure none

theorem along_qualifiers : Along R qualifiers := by
  refine along_repeatSteps (fun q => ?_) _
  refine along_bind (along_qualifier? q) fun next => ?_
  cases next with
  | some q => exact along_pure _
  | none => exact along_pure _

theorem along_declarationQualifiers : Along R declarationQualifiers := by
  refine along_bind along_qualifiers fun q => ?_
  refine along_bind_read reads_shader fun s => ?_
  extract_lets kept unreserved
  have hunreserved : Along R (unreserved ()) := by
    refine along_bind_read reads_peek fun kind => ?_
    split
    · exact along_fail_bind _ _
    · exact along_pure q
  split
  · exact along_fail_bind _ _
  · exact hunreserved

omit [ExpressionFrame R] in
theorem reads_namesType? : Reads namesType? := by
  refine reads_bind reads_name? fun name => ?_
  cases name with
  | none => exact reads_pure false
  | some name => exact reads_map _ (reads_findType? name)

/-! ### Names -/

theorem along_declarator (q : Qualifiers) (type : TypeRef) (typeDims : List (Option ExprId)) :
    Along R (declarator q type typeDims) := by
  refine along_bind_read reads_name? fun name => ?_
  extract_lets unnamed
  have hunnamed : Along R (unnamed ()) := by
    refine along_bind along_dimensions fun dims => ?_
    extract_lets dims initialised
    have hinitialised (initial : Option ExprId) : Along R (initialised initial) := by
      cases name with
      | some name => exact along_pure _
      | none => exact along_fail _
    refine along_bind (along_take? .eq) fun assigned => ?_
    split
    · refine along_bind (along_initialValue _ _ _) fun value => ?_
      refine along_ite ?_ (hinitialised _)
      refine along_bind_read (reads_isConstant value) fun constant => ?_
      exact along_ite (hinitialised _) (along_fail_bind _ _)
    · exact along_ite (along_fail_bind _ _) (hinitialised _)
  exact along_ite (along_bind Frame.advance fun _ => hunnamed) hunnamed

theorem along_furtherDeclarators (first : Declarator) (typeDims : List (Option ExprId)) :
    Along R (furtherDeclarators first typeDims) := by
  refine along_repeatSteps (fun found => ?_) _
  refine along_bind (along_take? .comma) fun more => ?_
  split
  · exact along_bind (along_declarator _ _ _) fun _ => along_pure _
  · exact along_pure _

theorem along_typedDeclaration (q : Qualifiers) : Along R (typedDeclaration q) := by
  refine along_bind_read (reads_typeName? _) fun type => ?_
  cases type with
  | none => exact along_fail _
  | some type =>
      refine along_bind Frame.advance fun _ => ?_
      refine along_bind along_dimensions fun dims => ?_
      exact along_bind (along_declarator _ _ _) fun d => along_furtherDeclarators d _

omit [ExpressionFrame R] in
theorem along_defaultPrecision [Frame R] : Along R defaultPrecision := by
  refine along_bind Frame.advance fun _ => ?_
  refine along_bind_read reads_peek fun kind => ?_
  extract_lets typed
  have htyped : Along R (typed ()) := by
    refine along_bind_read reads_peek fun kind => ?_
    split
    · exact along_ite Frame.advance (along_fail _)
    · exact along_fail _
  split
  · exact along_bind Frame.advance fun _ => htyped
  · exact along_fail_bind _ _

end

theorem along_redeclareInvariant [GlobalFrame R] (name : String) :
    Along R (redeclareInvariant name) := by
  refine along_bind_read (reads_findVariable? name) fun found => ?_
  cases found with
  | none => exact along_fail _
  | some v =>
      have hset :
          Along R (do
            modifyShader fun s =>
              ((), s.modifyVar v fun v => { v with flags := { v.flags with invariant := true } })
            advance) :=
        along_bind (GlobalFrame.setFlags v fun flags => { flags with invariant := true })
          fun _ => Frame.advance
      refine along_bind_read reads_shader fun s => ?_
      refine along_ite ?_ ?_
      · exact along_fail_bind _ _
      · exact hset

theorem along_exposeFields [LocalFrame R] (fields : List VarId) :
    Along R (exposeFields fields) := by
  refine along_forM (fun field => ?_) fields
  refine along_bind_read reads_shader fun s => ?_
  refine along_bind_read (reads_findVariable? _) fun existing => ?_
  cases existing with
  | none => exact LocalFrame.declare field
  | some existing =>
      refine along_bind_read reads_shader fun s => ?_
      refine along_ite ?_ ?_
      · exact LocalFrame.declare field
      · exact along_fail_bind _ _

/-! ### Functions and variables -/

theorem along_parameterPart [ExpressionFrame R] (p : Parameter) : Along R (parameterPart p) := by
  have htaken (p : Parameter) : Along R (do advance; return p) :=
    along_bind Frame.advance fun _ => along_pure p
  refine along_bind_read reads_peek fun kind => ?_
  split
  · exact htaken _
  · exact htaken _
  · exact htaken _
  · exact htaken _
  · exact htaken _
  · exact along_bind along_dimensions fun _ => along_pure _
  · refine along_ite ?_ ?_
    · exact along_fail_bind _ _
    · exact htaken _
  · have hname (name : String) :
        Along R (do
          if p.name.isSome then fail .parameterSyntax
          if p.type = some (.builtin .void) then fail .namedVoid
          advance
          return { p with name := some name }) := by
      refine along_ite ?_ ?_
      · exact along_fail_bind _ _
      · refine along_ite ?_ ?_
        · exact along_fail_bind _ _
        · exact htaken _
    refine along_ite ?_ ?_
    · refine along_bind_read (reads_findType? _) fun type => ?_
      cases type with
      | none => exact along_fail _
      | some type => exact htaken _
    · exact hname _
  · exact along_fail _

theorem along_parameter [VariableFrame R] : Along R parameter := by
  refine along_bind (along_repeatSteps (fun p => ?_) _) fun p => ?_
  · refine along_bind_read (reads_atAny? _) fun ended => ?_
    split
    · exact along_pure _
    · exact along_bind (along_parameterPart p) fun _ => along_pure _
  · split
    · exact along_fail _
    · exact VariableFrame.addVar _

theorem along_builtinAttribute [Frame R] : Along R builtinAttribute := by
  refine along_bind_read reads_atDoubleBracket? fun found => ?_
  split
  · refine along_bind Frame.advance fun _ => ?_
    refine along_bind Frame.advance fun _ => ?_
    refine along_bind_read reads_name? fun name => ?_
    refine along_ite ?_ ?_
    · refine along_bind Frame.advance fun _ => ?_
      refine along_bind (along_expect _ _) fun _ => ?_
      exact along_bind (along_expect _ _) fun _ => along_pure true
    · exact along_fail_bind _ _
  · exact along_pure false

theorem along_addFunction [VariableFrame R] {f : Function}
    (hadd : ∀ g : Function, g.builtin = f.builtin →
      Along R (modifyShader fun s => ((), s.addFunc g))) : Along R (addFunction f) := by
  refine along_bind_read reads_shader fun s => ?_
  split
  · exact hadd f rfl
  · refine along_forM (fun column => ?_) _
    refine along_ite ?_ (along_pure _)
    refine along_bind (along_mapM (fun p => ?_) _) fun params => hadd _ rfl
    exact along_bind_read reads_shader fun s => VariableFrame.addVar _

theorem along_functionBody_of [Frame R] (params : List VarId)
    (hscope : Along R (do
      openScope
      let body ← (do params.forM declare; bodyWithin (← fuel))
      closeScope
      return body)) : Along R (functionBody params) := by
  refine along_bind_read (reads_at? _) fun opened => ?_
  split
  · have hbody := along_inScope_bind hscope fun body => along_pure (some body)
    simpa only [bind_assoc] using hbody
  · refine along_bind (along_take? _) fun ended => ?_
    split
    · exact along_pure none
    · exact along_fail_bind _ _

theorem along_functionBody [StatementFrame R] (params : List VarId) :
    Along R (functionBody params) :=
  along_functionBody_of params <| StatementFrame.inScope <|
    along_bind (along_forM LocalFrame.declare params) fun _ =>
      along_bind_read reads_fuel along_bodyWithin

theorem along_function_of_body [VariableFrame R] (returnType : TypeRef) (name : String)
    (hbody : ∀ params, Along R (functionBody params))
    (hadd : ∀ f : Function, Along R (modifyShader fun s => ((), s.addFunc f))) :
    Along R (function returnType name) := by
  have hbody (params : List VarId) (builtin : Bool) :
      Along R (do
        let body ← functionBody params
        addFunction { name, returnType, params, body, builtin }) :=
    along_bind (hbody params) fun body => along_addFunction fun g _ => hadd g
  refine along_bind (along_expect _ _) fun _ => ?_
  refine along_bind (along_commaSeparated along_parameter _ _) fun params => ?_
  refine along_bind along_builtinAttribute fun builtin => ?_
  refine along_bind_read reads_shader fun s => ?_
  refine along_bind_read (reads_at? _) fun ended => ?_
  refine along_ite ?_ (along_fail_bind _ _)
  refine along_ite ?_ (hbody _ _)
  refine along_ite ?_ (along_fail_bind _ _)
  exact along_ite (hbody _ _) (along_fail_bind _ _)

theorem along_function [DeclarationFrame R] (returnType : TypeRef) (name : String) :
    Along R (function returnType name) :=
  along_function_of_body returnType name along_functionBody DeclarationFrame.addFunc

theorem along_declareGlobal [GlobalFrame R] (d : Declarator) : Along R (declareGlobal d) := by
  have hadd (initial : Option ExprId) :
      Along R (do
        let var ← addVar (d.toGlobal initial)
        modifyShader fun s => ((), { s with globals := s.globals.push var })
        declare var) := GlobalFrame.addGlobal _
  refine along_ite (along_fail_bind _ _) ?_
  split
  · refine along_bind_read (reads_isConstant _) fun constant => ?_
    refine along_ite ?_ (hadd _)
    exact along_bind (along_map some (ExpressionFrame.evaluate _)) hadd
  · exact hadd none

theorem along_declareHidden [GlobalFrame R] (g : HiddenGlobal) : Along R (declareHidden g) := by
  refine along_bind (m := g.value.mapM fun n => addExpr (.constant (.uint n))) ?_ fun initial => ?_
  · cases g.value with
    | none => exact along_pure none
    | some n => exact along_map some (ExpressionFrame.addExpr _ rfl)
  · exact GlobalFrame.addGlobal _

/-! ### Structures and blocks -/

theorem reads_blockStorage? (q : Qualifiers) : Reads (blockStorage? q) :=
  reads_bind reads_namesType? fun _ => reads_bind reads_name? fun _ =>
    reads_bind (reads_at? _) fun _ => reads_pure _

theorem along_plainDeclaration [GlobalFrame R] (q : Qualifiers) : Along R (plainDeclaration q) := by
  refine along_bind_read reads_name? fun name => ?_
  cases name with
  | none => exact along_typedDeclaration q
  | some name =>
      refine along_bind_read reads_namesType? fun namesType => ?_
      refine along_bind_read reads_peekSecond fun second => ?_
      refine along_ite ?_ (along_typedDeclaration q)
      exact along_bind (along_redeclareInvariant name) fun _ => along_pure _

theorem along_declaratorsOf [ExpressionFrame R] (q : Qualifiers) (type : TypeRef) :
    Along R (declaratorsOf q type) := by
  refine along_bind_read (reads_at? _) fun ended => ?_
  refine along_ite (along_pure _) ?_
  exact along_bind (along_declarator q type []) fun d => along_furtherDeclarators d []

variable [StructureFrame R]

mutual

theorem along_declarationWithin : ∀ fuel : Nat, Along R (declarationWithin fuel)
  | 0 => along_unfinished
  | fuel + 1 => by
    refine along_bind along_declarationQualifiers fun q => ?_
    refine along_bind_read (reads_blockStorage? q) fun storage => ?_
    cases storage with
    | some storage =>
        exact along_bind (along_blockWithin fuel storage q) fun block => along_declaratorsOf _ _
    | none =>
        refine along_bind_read (reads_atKeyword? _) fun opensStructure => along_ite ?_ ?_
        · refine along_bind Frame.advance fun _ => ?_
          exact along_bind (along_structureWithin fuel) fun id => along_declaratorsOf _ _
        refine along_bind_read (reads_atKeyword? _) fun opensPrecision => along_ite ?_ ?_
        · exact along_bind along_defaultPrecision fun _ => along_pure _
        · exact along_plainDeclaration q

theorem along_structureWithin : ∀ fuel : Nat, Along R (structureWithin fuel)
  | 0 => along_unfinished
  | fuel + 1 => by
    refine along_bind_read reads_name? fun name => ?_
    have hfields : Along R (do
        let fields ← fieldsWithin fuel "structure"
        addStructure name fields) :=
      along_bind (along_fieldsWithin fuel _) fun fields => StructureFrame.addStructure name fields
    exact along_ite (along_bind Frame.advance fun _ => hfields) hfields

theorem along_blockWithin : ∀ (fuel : Nat) (storage : StorageClass) (q : Qualifiers),
    Along R (blockWithin fuel storage q)
  | 0, _, _ => along_unfinished
  | fuel + 1, storage, q => by
    refine along_bind_read reads_name? fun name => ?_
    have hadd (fields : List VarId) : Along R (do
        let id ← addBlock name fields { storage, memory := q.memory, layout := q.layout }
        if (← name?).isNone then exposeFields fields
        return id) := by
      refine along_bind (StructureFrame.addBlock _ _ _) fun id => ?_
      refine along_bind_read reads_name? fun second => ?_
      exact along_ite (along_bind (along_exposeFields fields) fun _ => along_pure _) (along_pure _)
    have hfields : Along R (do
        let fields ←
          if name.isNone && (← at? .semicolon) then pure []
          else fieldsWithin fuel storage.blockName
        let id ← addBlock name fields { storage, memory := q.memory, layout := q.layout }
        if (← name?).isNone then exposeFields fields
        return id) := by
      refine along_bind_read (reads_at? _) fun ended => ?_
      split
      · exact along_bind (along_pure _) hadd
      · exact along_bind (along_fieldsWithin fuel _) hadd
    exact along_ite (along_bind Frame.advance fun _ => hfields) hfields

theorem along_fieldsWithin : ∀ (fuel : Nat) (block : String), Along R (fieldsWithin fuel block)
  | 0, _ => along_unfinished
  | fuel + 1, block => by
    refine along_bind (along_expect _ _) fun _ => ?_
    refine along_repeatSteps (fun found => ?_) []
    refine along_bind (along_take? _) fun closed => along_ite (along_pure _) ?_
    refine along_bind_read reads_atEnd fun ended => along_ite (along_fail_bind _ _) ?_
    refine along_bind (along_declarationWithin fuel) fun names => ?_
    refine along_bind (along_expect _ _) fun _ => ?_
    exact along_bind (along_mapM (fun d => VariableFrame.addVar _) _) fun fields => along_pure _

end

/-! ### Whole texts -/

theorem along_externalDeclaration (hfunction : ∀ type name, Along R (function type name)) :
    Along R externalDeclaration := by
  refine along_bind (along_take? _) fun ended => along_ite (along_pure _) ?_
  refine along_bind_read reads_fuel fun fuel => ?_
  refine along_bind (along_declarationWithin fuel) fun names => ?_
  refine along_bind_read reads_peek fun kind => ?_
  split
  · exact along_bind Frame.advance fun _ => along_forM along_declareGlobal _
  · exact hfunction _ _
  · exact along_fail _

theorem along_declarations (hfunction : ∀ type name, Along R (function type name)) :
    Along R declarations := by
  refine along_repeatSteps (fun _ => ?_) ()
  refine along_bind_read reads_atEnd fun ended => along_ite (along_pure _) ?_
  exact along_bind (along_externalDeclaration hfunction) fun _ => along_pure _

theorem record_eq {d : Directive} {place : Span} {s s' : Shader} (h : record d place s = .ok s') :
    s' = { s with version := s'.version, extensions := s'.extensions } := by
  unfold record at h
  split at h
  · split at h <;> cases h
    rfl
  all_goals
    cases h
    rfl

theorem withoutDirectives_eq {s s' : Shader} {tokens rest : List Token}
    (h : withoutDirectives s tokens = .ok (rest, s')) :
    rest = tokens.filter (fun t => !t.kind.isDirective) ∧
      s' = { s with version := s'.version, extensions := s'.extensions } := by
  induction tokens generalizing s rest with
  | nil =>
      cases h
      exact ⟨rfl, rfl⟩
  | cons t tokens ih =>
      unfold withoutDirectives at h
      split at h
      · next d hkind =>
          cases hrecord : record d t.span s with
          | error e =>
              rw [hrecord] at h
              cases h
          | ok recorded =>
              rw [hrecord] at h
              obtain ⟨hrest, hs'⟩ := ih h
              exact ⟨by simp [hrest, hkind, TokenKind.isDirective], by rw [hs', record_eq hrecord]⟩
      · next hkind =>
          have hplain : t.kind.isDirective = false := by
            unfold TokenKind.isDirective
            split
            · next d hd => exact absurd hd (hkind d)
            · rfl
          cases hrest : withoutDirectives s tokens with
          | error e =>
              rw [hrest] at h
              cases h
          | ok r =>
              rw [hrest] at h
              cases h
              exact ⟨by simp [(ih hrest).1, hplain], (ih hrest).2⟩

/-- The directives of a text are recorded, and its declarations follow without them. -/
theorem run_source_ok {tokens : List Token} {st st' : ParserState} {a : Unit}
    (h : (source tokens).run st = .ok (a, st')) :
    ∃ version extensions, declarations.run { st with
        tokens := tokens.filter fun t => !t.kind.isDirective,
        shader := { st.shader with version, extensions } } = .ok (a, st') := by
  obtain ⟨s, st₁, hshader, h⟩ := run_bind_ok.1 h
  cases hshader
  cases hdirectives : withoutDirectives st.shader tokens with
  | error e =>
      rw [hdirectives] at h
      cases h
  | ok r =>
      rw [hdirectives] at h
      obtain ⟨_, st₂, hmodify, h⟩ := run_bind_ok.1 h
      cases hmodify
      obtain ⟨hrest, hshader⟩ := withoutDirectives_eq hdirectives
      rw [hrest, hshader] at h
      exact ⟨_, _, h⟩

end Parse

end ShaderBridge
