import ShaderBridge.Proofs.Parse.TypeFirst

namespace ShaderBridge

namespace Parse

variable {α : Type} {c : Prop} {fs : List ExprId} {xs ys : List Item}

/-! ### Steps -/

theorem sound_openScope : Leads (Sound c fs xs) openScope fun _ => Sound c fs xs := by
  intro st a st' h hrun
  cases hrun
  exact ⟨h.linked, h.resolved, h.members, h.scopes, h.items, h.known, h.folded⟩

theorem sound_closeScope : Leads (Sound c fs xs) closeScope fun _ => Sound c fs xs := by
  intro st a st' h hrun
  cases hrun
  refine ⟨h.linked, h.resolved, h.members, fun v hv => ?_, h.items, h.known, h.folded⟩
  obtain ⟨scope, hscope, hv⟩ := List.mem_flatten.1 hv
  exact h.scopes v (List.mem_flatten.2 ⟨scope, List.mem_of_mem_tail hscope, hv⟩)

theorem Sound.restate {st : ParserState} {s : Shader} (h : Sound c fs xs st) (hlinked : s.Linked)
    (hresolved : s.Resolved) (hmembers : s.MembersSelected) (hkeeps : st.shader.Keeps s)
    (hexprs : s.exprs = st.shader.exprs) (hvars : s.vars = st.shader.vars)
    (hnames : s.structureNames = st.shader.structureNames)
    (hstmt : ∀ t e, st.shader.stmt t = .expression e → s.stmt t = .expression e) :
    Sound c fs xs { st with shader := s } where
  linked := hlinked
  resolved := hresolved
  members := hmembers
  scopes v hv := hkeeps.has (h.scopes v hv)
  items hc := (h.items hc).imp (fun hbelow => hbelow.of_exprs_eq hexprs) fun hambiguous => by
    refine hambiguous.mono h.linked hstmt (fun e _ => ?_) (fun v _ => ?_) fun name hname => ?_
    · rw [Shader.expr, hexprs]; rfl
    · rw [Shader.var, hvars]; rfl
    · rw [Shader.findStruct?, hnames]; exact hname
  known := hkeeps.all h.known
  folded e he := (h.folded e he).of_exprs_eq hexprs

theorem stmt_addStmt_of_expression {s : Shader} {t : Stmt} {id : StmtId} {e : ExprId}
    (h : s.stmt id = .expression e) : (s.addStmt t).2.stmt id = .expression e := by
  rw [Shader.stmt_addStmt, if_neg, h]
  intro hid
  have hdefault : s.stmt id = default := by
    unfold Shader.stmt
    rw [Array.getD_eq_getD_getElem?, Array.getElem?_eq_none (Nat.le_of_eq hid.symm)]
    rfl
  rw [hdefault] at h
  cases h

theorem sound_addStmt (xs : List Item) {t : Stmt} (ht : t.references ⊆ ys) (hxs : xs ⊆ ys) :
    Leads (Sound c fs ys) (addStmt t) fun id => Sound c fs (.stmt id :: xs) := by
  intro st id st' h hrun
  cases hrun
  refine Sound.cons ((h.subset hxs).restate (h.linked.addStmt fun x hx => h.known x (ht hx))
    (h.resolved.extend rfl rfl
      (fun _ hv => .inl hv) (fun _ => .inl rfl) fun _ => .inl rfl)
    (h.members.of_structs h.linked rfl rfl rfl rfl fun _ _ => rfl) ?_ rfl rfl rfl
    fun t e => stmt_addStmt_of_expression) ?_
  · constructor <;> simp
  · simp [Shader.has]

/-! ### Declarations and expressions -/

/-- Tokens that are not a declaration. If items may have been replaced in the attempt, a type or a
qualifier comes next. -/
def Undeclared (c : Prop) (fs : List ExprId) (xs : List Item) (st : ParserState) : Prop :=
  Sound False fs xs st ∧ (Sound c fs xs st ∨ AtType st ∨ AtQualifier st)

/-- The state from which a declaration is attempted, behind its qualifiers. -/
def Qualified (st₀ st : ParserState) : Prop :=
  SameTables st₀ st ∧ (AtQualifier st₀ ∨ st.tokens = st₀.tokens)

theorem qualified_advance {st₀ : ParserState} :
    Leads (fun st => Qualified st₀ st ∧ AtQualifier st) advance fun _ => Qualified st₀ := by
  rintro st a st' ⟨⟨hsame, hst⟩, hat⟩ hrun
  refine ⟨Frame.trans hsame (Frame.advance st a st' hrun), .inl (hst.elim (fun h => h) fun h => ?_)⟩
  unfold AtQualifier at hat ⊢
  rwa [← h]

theorem atType_of_typeName? {st st' : ParserState} {t : TypeRef}
    (h : (typeName? Keyword.concreteType?).run st = .ok (some t, st')) : AtType st := by
  obtain ⟨kind, st₁, hlook, hrest⟩ := run_bind_ok.1 h
  cases hlook
  split at hrest
  · next k hk =>
      unfold AtType NamesType
      rw [hk]
      cases hconcrete : k.concreteType? with
      | none => rw [hconcrete] at hrest; cases hrest
      | some t => simp [hconcrete]
  · next name hname =>
      unfold AtType NamesType
      rw [hname]
      obtain ⟨s, st₂, hlook, hrest⟩ := run_bind_ok.1 hrest
      cases hlook
      cases hfound : st.shader.findStruct? name with
      | none => rw [hfound] at hrest; cases hrest
      | some t => simp [hfound]
  · cases hrest

/-- What an attempt to parse a declaration comes to. -/
def Attempted (c : Prop) (fs : List ExprId) (xs : List Item) (st₀ : ParserState)
    (r : Option StmtId) (st : ParserState) : Prop :=
  r.elim (Undeclared c fs xs ⟨st₀.tokens, st.shader.truncate st₀.shader.exprs.size
    st₀.shader.vars.size, st₀.scopes, st₀.calls⟩) fun id => Sound c fs (.stmt id :: xs) st

theorem attempted_of_same {st₀ st : ParserState} (h : Sound c fs xs st₀) (hst : SameTables st₀ st) :
    Attempted c fs xs st₀ none st := by
  unfold Attempted
  rw [hst.1, Shader.Grows.truncate_self]
  exact ⟨⟨h.linked, h.resolved, h.members, h.scopes, False.elim, h.known, h.folded⟩, .inl h⟩

theorem attempted_of_growing {st₀ st : ParserState} (h : Sound c fs xs st₀)
    (hgrows : Growing st₀ st)
    (hat : AtType st₀ ∨ AtQualifier st₀) : Attempted c fs xs st₀ none st := by
  have hcut := Shader.Grows.truncate hgrows
  have hlinked := h.linked.grows hcut (by simp [Shader.truncate, Shader.Grows.exprs hgrows])
    (by simp [Shader.truncate, Shader.Grows.vars hgrows])
  refine ⟨⟨hlinked, h.resolved.truncate h.linked hgrows, h.members.truncate h.linked hgrows,
    fun v hv => hcut.keeps.has (h.scopes v hv), False.elim, hcut.keeps.all h.known,
    fun e he => (h.folded e he).grows hcut⟩, .inr (hat.imp_left fun htype => ?_)⟩
  unfold AtType NamesType Shader.findStruct? at htype ⊢
  rw [hcut.rest]
  exact htype

theorem sound_localType {st₀ : ParserState} (h₀ : Sound c fs xs st₀) (constant : Bool)
    (precision : Option Precision) (ends : List Punct) :
    Leads (Qualified st₀) (do
      match ← typeName? Keyword.concreteType? with
      | none => return none
      | some type =>
        advance
        let typeDims := (← dimensions).reverse
        match ← localVariables? { constant, precision, type, typeDims } ends with
        | none => return none
        | some vars => return some (← addStmt (.declaration vars))) (Attempted c fs xs st₀) := by
  refine leads_bind_look (reads_typeName? _) fun type => ?_
  cases type with
  | none => exact leads_pure fun st h => attempted_of_same h₀ h.1.1
  | some type =>
      have hrest (htype : type.isFamily = false) (hat : AtType st₀ ∨ AtQualifier st₀) :
          Leads (fun st => Sound c fs (typeItems type ++ xs) st ∧ Growing st₀ st) (do
            advance
            let typeDims := (← dimensions).reverse
            match ← localVariables? { constant, precision, type, typeDims } ends with
            | none => return none
            | some vars => return some (← addStmt (.declaration vars)))
              (Attempted c fs xs st₀) := by
        refine leads_bind (tracks_advance.along Frame.advance) fun _ => ?_
        refine leads_bind ((tracks_dimensions _).along along_dimensions) fun dims => ?_
        have hsizes : dimSizes dims.reverse ⊆ dimSizes dims ++ fs := by
          simp only [dimSizes, List.filterMap_reverse]
          grind
        refine leads_bind (((tracks_localVariables? _ ends xs htype hsizes).given ?_).along
          (along_localVariables? _ ends)) fun vars => ?_
        · simp only [dimItems, List.filterMap_reverse]
          grind
        cases vars with
        | none => exact leads_pure fun st h => attempted_of_growing h₀ h.2 hat
        | some vars =>
            refine leads_bind (leads_imp (sound_addStmt xs ?_ ?_) fun st h => h.1) fun id => ?_
            · simp [Stmt.references]
            · grind
            · exact leads_pure fun st h => h.fewer (List.subset_append_right _ _)
      rintro st r st' ⟨⟨hsame, hst⟩, hlook⟩ hrun
      have hat : AtType st₀ ∨ AtQualifier st₀ := hst.elim .inr fun htokens => .inl <| by
        have htype := atType_of_typeName? hlook
        unfold AtType at htype ⊢
        rwa [← htokens, ← hsame.1]
      obtain ⟨hsound, htype⟩ := tracks_concreteTypeName? st _ st (h₀.same hsame) hlook
      have hgrowing : Growing st₀ st := by
        unfold Growing
        rw [hsame.1]
        exact .refl _
      exact hrest (htype type rfl) hat st r st' ⟨hsound.subset (by grind), hgrowing⟩ hrun

theorem kindAt_of_atKeyword? {st st' : ParserState} {k : Keyword}
    (h : (atKeyword? k).run st = .ok (true, st')) : kindAt st.tokens = .keyword k := by
  obtain ⟨kind, st₁, hlook, hrest⟩ := run_bind_ok.1 h
  rw [kindAt_of_peek hlook]
  generalize hk : (kind == TokenKind.keyword k) = b at hrest
  cases hrest
  exact eq_of_beq hk

theorem sound_localDeclaration? (ends : List Punct) (xs : List Item) :
    Leads (Sound c fs xs) (localDeclaration? ends) fun r st =>
      r.elim (Undeclared c fs xs st) fun id => Sound c fs (.stmt id :: xs) st := by
  refine leads_attempt (pushes_qualifiedDeclaration? ends) fun st₀ h₀ => ?_
  show Leads _ _ (Attempted c fs xs st₀)
  refine leads_imp (P := Qualified st₀) ?_ fun st h => h ▸ ⟨⟨rfl, rfl⟩, .inr rfl⟩
  refine leads_bind_look (reads_atKeyword? _) fun constant => ?_
  extract_lets typed qualified
  have hqualified : Leads (Qualified st₀) (qualified ()) (Attempted c fs xs st₀) := by
    refine leads_bind_look reads_peek fun kind => ?_
    split
    · refine leads_bind (leads_imp qualified_advance fun st h => ⟨h.1, ?_⟩) fun _ =>
        sound_localType h₀ constant _ ends
      exact .inr ⟨_, kindAt_of_peek h.2⟩
    · exact leads_imp (sound_localType h₀ constant none ends) fun st h => h.1
  refine leads_ite (fun hconstant => ?_) fun _ => leads_imp hqualified fun st h => h.1
  refine leads_bind (leads_imp qualified_advance fun st h => ⟨h.1, .inl ?_⟩) fun _ => hqualified
  exact kindAt_of_atKeyword? (hconstant ▸ h.2)

theorem sound_declarationOrExpression (ends : List Punct) (xs : List Item) :
    Leads (Sound c fs xs) (declarationOrExpression ends) fun id => Sound c fs (.stmt id :: xs) := by
  refine leads_bind (sound_localDeclaration? ends xs) fun found => ?_
  cases found with
  | some id => exact leads_pure fun st h => h
  | none =>
      rintro st id st' ⟨hany, h | htype | hqualifier⟩ hrun
      · refine leads_bind (tracks_expression ends xs)
          (fun e => sound_addStmt xs ?_ ?_) st id st' h hrun
        · simp [Stmt.references]
        · grind
      · obtain ⟨e, st₁, hexpr, hadd⟩ := run_bind_ok.1 hrun
        obtain ⟨hsound, hbegins⟩ := begun_expression ends st e st₁ ⟨hany, htype⟩ hexpr
        have h' := sound_addStmt xs (by simp [Stmt.references]) (by grind) st₁ id st' hsound hadd
        refine { h' with items := fun _ => .inr ?_ }
        cases hadd
        refine ⟨⟨st₁.shader.stmts.size⟩, e, ?_, hbegins.mono hsound.linked ?_ ?_ ?_⟩
        · exact (Shader.stmt_addStmt st₁.shader (.expression e) _).trans (if_pos rfl)
        · exact fun _ _ => rfl
        · exact fun _ _ => rfl
        · exact fun _ h => h
      · obtain ⟨e, st₁, hexpr, hadd⟩ := run_bind_ok.1 hrun
        exact (not_expression_atQualifier ends st e st₁ hqualifier hexpr).elim

theorem sound_optionalExpression (ending : Punct) (xs : List Item) :
    Leads (Sound c fs xs) (optionalExpression ending)
        fun e => Sound c fs (e.toList.map .expr ++ xs) := by
  refine leads_bind_read (reads_at? ending) fun ended => ?_
  refine leads_ite (fun _ => leads_pure fun st h => h) fun _ => ?_
  exact leads_bind (tracks_expression _ xs) fun e => leads_pure fun st h => h

/-! ### Statements -/

theorem sound_jump {t : Stmt} (ht : t.references = []) (name : String) (xs : List Item) :
    Leads (Sound c fs xs) (jump t name) fun id => Sound c fs (.stmt id :: xs) := by
  refine leads_bind tracks_advance fun _ => ?_
  refine leads_bind (tracks_same (along_expect _ _)) fun _ =>
    sound_addStmt xs ?_ (List.Subset.refl _)
  simp [ht]

theorem sound_returnStatement (xs : List Item) :
    Leads (Sound c fs xs) returnStatement fun id => Sound c fs (.stmt id :: xs) := by
  refine leads_bind tracks_advance fun _ => ?_
  refine leads_bind (sound_optionalExpression _ xs) fun value => ?_
  refine leads_bind (tracks_same (along_expect _ _)) fun _ => sound_addStmt xs ?_ ?_
  · simp [Stmt.references]
  · grind

theorem sound_caseLabel (xs : List Item) :
    Leads (Sound c fs xs) caseLabel fun id => Sound c fs (.stmt id :: xs) := by
  refine leads_bind tracks_advance fun _ => ?_
  refine leads_bind (tracks_expression _ xs) fun value => ?_
  refine leads_bind (tracks_same (along_expect _ _)) fun _ => sound_addStmt xs ?_ ?_
  · simp [Stmt.references]
  · grind

theorem sound_condition (opening closing : Expected) (xs : List Item) :
    Leads (Sound c fs xs) (condition opening closing) fun e => Sound c fs (.expr e :: xs) := by
  refine leads_bind (tracks_same (along_expect _ _)) fun _ => ?_
  refine leads_bind (tracks_expression _ xs) fun value => ?_
  exact leads_bind (tracks_same (along_expect _ _)) fun _ => leads_pure fun st h => h

theorem sound_checkLabel (place : Span) (id : StmtId) (labels : Labels) (xs : List Item) :
    Leads (Sound c fs xs) (checkLabel place id labels) fun _ => Sound c fs xs := by
  refine leads_bind_look reads_shader fun s => ?_
  split
  · next value hlabel =>
      refine leads_imp (P := fun st => Sound c fs (.expr value :: xs) st ∧
        st.shader.stmt id = .label (some value)) ?_ ?_
      · refine leads_bind_read (reads_isConstant _) fun constant => ?_
        refine leads_ite (fun _ => ?_) fun _ => ?_
        · refine leads_bind (Q := fun value' st => Sound c fs (.expr value' :: xs) st ∧
            st.shader.stmt id = .label (some value)) ?_ fun value' => ?_
          · rintro st value' st' ⟨h, hstmt⟩ hrun
            have hgrows := ExpressionFrame.evaluate (R := Growing) value st value' st' hrun
            refine ⟨(sound_evaluate st value' st' h hrun).fewer (List.subset_cons_self _ _), ?_⟩
            rw [show st'.shader.stmt id = st.shader.stmt id by rw [hgrows.rest]; rfl, hstmt]
          · refine leads_bind_read reads_shader fun s => ?_
            have hset (labels : Labels) :
                Leads (fun st => Sound c fs (.expr value' :: xs) st ∧
                  st.shader.stmt id = .label (some value)) (do
                    modifyShader fun s => ((), s.setStmt id (.label (some value')))
                    return labels) fun _ => Sound c fs xs := by
              rintro st _ st' ⟨h, hstmt⟩ hrun
              cases hrun
              have hvalue := h.known (.expr value') List.mem_cons_self
              refine (h.subset (by grind)).restate (h.linked.setStmt id ?_)
                (h.resolved.extend rfl rfl
                  (fun _ hv => .inl hv) (fun _ => .inl rfl) fun _ => .inl rfl)
                (h.members.of_structs h.linked rfl rfl rfl rfl fun _ _ => rfl) ?_ rfl rfl rfl
                fun t e ht => ?_
              · simpa [Stmt.references] using hvalue
              · constructor <;> simp [Shader.setStmt]
              · have hne : t ≠ id := by
                  rintro rfl
                  rw [hstmt] at ht
                  cases ht
                rwa [Shader.stmt_setStmt_of_ne _ _ hne]
            split
            · exact leads_failAt _ _
            · exact leads_ite (fun _ => leads_failAt_bind _ _ _) fun _ => hset _
        · exact leads_failAt_bind _ _ _
      · rintro st ⟨h, hlook⟩
        cases hlook
        refine ⟨h.cons (h.linked.stmt id _ ?_), hlabel⟩
        rw [hlabel]
        exact List.mem_singleton_self _
  · exact leads_ite (fun _ => leads_failAt_bind _ _ _) fun _ => leads_pure fun st h => h.1
  · exact leads_pure fun st h => h.1

mutual

theorem sound_statementWithin : ∀ (fuel : Nat) (xs : List Item),
    Leads (Sound c fs xs) (statementWithin fuel) fun id => Sound c fs (.stmt id :: xs)
  | 0, _ => leads_unfinished
  | fuel + 1, xs => by
    refine leads_bind (tracks_same along_hints) fun h => ?_
    refine leads_bind_read reads_peek fun kind => ?_
    split
    · refine leads_bind sound_openScope fun _ => ?_
      refine leads_bind (sound_bodyWithin fuel xs) fun body => ?_
      refine leads_bind sound_closeScope fun _ => sound_addStmt xs ?_ ?_
      · simp [Stmt.references]
      · grind
    · exact leads_bind tracks_advance fun _ =>
        sound_addStmt xs (List.nil_subset _) (List.Subset.refl _)
    · exact sound_branchWithin fuel h xs
    · exact sound_switchWithin fuel h xs
    · exact sound_caseLabel xs
    · refine leads_bind tracks_advance fun _ => ?_
      exact leads_bind (tracks_same (along_expect _ _)) fun _ =>
        sound_addStmt xs (List.nil_subset _) (List.Subset.refl _)
    · refine leads_bind sound_openScope fun _ => ?_
      refine leads_bind (sound_forWithin fuel h xs) fun loop => ?_
      refine leads_bind sound_closeScope fun _ => sound_addStmt xs ?_ ?_
      · simp
      · grind
    · exact sound_doWithin fuel h xs
    · exact sound_whileWithin fuel h xs
    · exact sound_jump rfl _ xs
    · exact sound_jump rfl _ xs
    · exact sound_jump rfl _ xs
    · exact sound_jump rfl _ xs
    · exact sound_returnStatement xs
    · refine leads_bind (sound_declarationOrExpression _ xs) fun id => ?_
      exact leads_bind (tracks_same (along_expect _ _)) fun _ => leads_pure fun st h => h

theorem sound_bodyWithin : ∀ (fuel : Nat) (xs : List Item),
    Leads (Sound c fs xs) (bodyWithin fuel) fun body => Sound c fs (body.map .stmt ++ xs)
  | 0, _ => leads_unfinished
  | fuel + 1, xs => by
    refine leads_bind tracks_advance fun _ => ?_
    refine leads_repeatSteps
      (I := fun found => Sound c fs (found.map .stmt ++ xs)) (fun found => ?_) []
    refine leads_bind (tracks_same (along_take? _)) fun closed => ?_
    refine leads_ite (fun _ => leads_pure fun st h => h.subset (by grind)) fun _ => ?_
    refine leads_bind_read reads_atEnd fun ended => ?_
    refine leads_ite (fun _ => leads_fail_bind _ _) fun _ => ?_
    exact leads_bind (sound_statementWithin fuel _) fun id => leads_pure fun st h => h

theorem sound_branchWithin : ∀ (fuel : Nat) (h : FlowHints) (xs : List Item),
    Leads (Sound c fs xs) (branchWithin fuel h) fun id => Sound c fs (.stmt id :: xs)
  | 0, _, _ => leads_unfinished
  | fuel + 1, h, xs => by
    refine leads_bind tracks_advance fun _ => ?_
    refine leads_bind (sound_condition _ _ xs) fun condition => ?_
    refine leads_bind (sound_statementWithin fuel _) fun onTrue => ?_
    have hadd (onFalse : Option StmtId) :
        Leads (Sound c fs (onFalse.toList.map .stmt ++ (.stmt onTrue :: .expr condition :: xs)))
          (addStmt (.branch h condition onTrue onFalse)) fun id => Sound c fs (.stmt id :: xs) := by
      refine sound_addStmt xs ?_ (by grind)
      simp only [Stmt.references]
      grind
    refine leads_bind_read (reads_atKeyword? _) fun more => ?_
    refine leads_ite (fun _ => ?_) fun _ => hadd none
    refine leads_bind tracks_advance fun _ => ?_
    exact leads_bind (leads_map some (sound_statementWithin fuel _)) hadd

theorem sound_switchWithin : ∀ (fuel : Nat) (h : FlowHints) (xs : List Item),
    Leads (Sound c fs xs) (switchWithin fuel h) fun id => Sound c fs (.stmt id :: xs)
  | 0, _, _ => leads_unfinished
  | fuel + 1, h, xs => by
    refine leads_bind tracks_advance fun _ => ?_
    refine leads_bind (sound_condition _ _ xs) fun subject => ?_
    refine leads_bind (tracks_same (along_expect _ _)) fun _ => ?_
    refine leads_bind sound_openScope fun _ => ?_
    refine leads_bind (Q := fun body => Sound c fs (body.map .stmt ++ (.expr subject :: xs))) ?_
      fun body => ?_
    · refine leads_repeatSteps (I := fun r : List StmtId × Labels =>
        Sound c fs (r.1.map .stmt ++ (.expr subject :: xs))) ?_ ([], {})
      rintro ⟨found, labels⟩
      refine leads_bind (tracks_same (along_take? _)) fun closed => ?_
      refine leads_ite (fun _ => leads_pure fun st h => h.subset (by grind)) fun _ => ?_
      refine leads_bind_read reads_atEnd fun ended => ?_
      refine leads_ite (fun _ => leads_fail_bind _ _) fun _ => ?_
      refine leads_bind_read reads_span fun place => ?_
      refine leads_bind (sound_statementWithin fuel _) fun id => ?_
      exact leads_bind (sound_checkLabel place id labels _) fun _ => leads_pure fun st h => h
    · refine leads_bind sound_closeScope fun _ => sound_addStmt xs ?_ ?_
      · simp only [Stmt.references]
        grind
      · grind

theorem sound_forWithin : ∀ (fuel : Nat) (h : FlowHints) (xs : List Item),
    Leads (Sound c fs xs) (forWithin fuel h) fun loop => Sound c fs (loop.references ++ xs)
  | 0, _, _ => leads_unfinished
  | fuel + 1, h, xs => by
    refine leads_bind tracks_advance fun _ => ?_
    refine leads_bind (tracks_same (along_expect _ _)) fun _ => ?_
    have hrest (start : Option StmtId) :
        Leads (Sound c fs (start.toList.map .stmt ++ xs)) (do
          expect .semicolon .forStart
          let condition ← optionalExpression .semicolon
          expect .semicolon .forCondition
          let step ← optionalExpression .rightParen
          expect .rightParen .forClose
          return Stmt.forLoop h start condition step (← statementWithin fuel))
          fun loop => Sound c fs (loop.references ++ xs) := by
      refine leads_bind (tracks_same (along_expect _ _)) fun _ => ?_
      refine leads_bind (sound_optionalExpression _ _) fun condition => ?_
      refine leads_bind (tracks_same (along_expect _ _)) fun _ => ?_
      refine leads_bind (sound_optionalExpression _ _) fun step => ?_
      refine leads_bind (tracks_same (along_expect _ _)) fun _ => ?_
      refine leads_bind (sound_statementWithin fuel _) fun body => leads_pure fun st h =>
        h.subset ?_
      simp only [Stmt.references]
      grind
    refine leads_bind_read (reads_at? _) fun ended => ?_
    refine leads_ite (fun _ => hrest none) fun _ => ?_
    exact leads_bind (leads_map some (sound_declarationOrExpression _ xs)) hrest

theorem sound_doWithin : ∀ (fuel : Nat) (h : FlowHints) (xs : List Item),
    Leads (Sound c fs xs) (doWithin fuel h) fun id => Sound c fs (.stmt id :: xs)
  | 0, _, _ => leads_unfinished
  | fuel + 1, h, xs => by
    refine leads_bind tracks_advance fun _ => ?_
    refine leads_bind (sound_statementWithin fuel xs) fun body => ?_
    refine leads_bind_read (reads_atKeyword? _) fun found => ?_
    refine leads_ite (fun _ => ?_) fun _ => leads_fail_bind _ _
    refine leads_bind tracks_advance fun _ => ?_
    refine leads_bind (sound_condition _ _ _) fun condition => ?_
    refine leads_bind (tracks_same (along_expect _ _)) fun _ => sound_addStmt xs ?_ ?_
    · simp [Stmt.references]
    · grind

theorem sound_whileWithin : ∀ (fuel : Nat) (h : FlowHints) (xs : List Item),
    Leads (Sound c fs xs) (whileWithin fuel h) fun id => Sound c fs (.stmt id :: xs)
  | 0, _, _ => leads_unfinished
  | fuel + 1, h, xs => by
    refine leads_bind tracks_advance fun _ => ?_
    refine leads_bind (tracks_same (along_expect _ _)) fun _ => ?_
    refine leads_bind (sound_declarationOrExpression _ xs) fun condition => ?_
    refine leads_bind (tracks_same (along_expect _ _)) fun _ => ?_
    refine leads_bind (sound_statementWithin fuel _) fun body => sound_addStmt xs ?_ ?_
    · simp [Stmt.references]
    · grind

end

end Parse

end ShaderBridge
