import ShaderBridge.Proofs.Parse.Accepted
import ShaderBridge.Proofs.Parse.ArrayText

namespace ShaderBridge

namespace Parse

variable {C Q : Shader → List (List VarId) → Prop} {K : Shader → Prop} {k : TokenKind}
  {ks : List TokenKind} {rest : List Token} {st : ParserState} {sizes : List (Option Constant)}

/-! ### Declarations outside of functions -/

variable {word : TokenKind} {type : TypeRef}

theorem NamesTypeIn.run_typeName? (h : NamesTypeIn Q word type)
    {named : Keyword → Option BuiltinType}
    (hnamed : ∀ t : BuiltinType, t.isFamily = false → named (.type t) = some t)
    (hword : kindAt st.tokens = word) (hQ : Q st.shader st.scopes) :
    (typeName? named).run st = .ok (some type, st) := by
  refine (run_bind_of (run_peek st)).trans ?_
  rw [hword]
  cases h with
  | builtin t ht _ =>
      show Except.ok ((named (.type t)).map TypeRef.builtin, st) = _
      rw [hnamed t ht]
      rfl
  | declared name id hname =>
      show Except.ok ((st.shader.findStruct? name).map TypeRef.declared, st) = _
      rw [hname _ _ hQ]
      rfl

theorem NamesTypeIn.ne_punct (h : NamesTypeIn Q word type) (p : Punct) : word ≠ .punct p := by
  cases h <;> exact TokenKind.noConfusion

theorem NamesTypeIn.ne_endOfFile (h : NamesTypeIn Q word type) : word ≠ .endOfFile := by
  cases h <;> exact TokenKind.noConfusion

theorem NamesTypeIn.isFamily (h : NamesTypeIn Q word type) : type.isFamily = false := by
  cases h with
  | builtin t ht _ => exact ht
  | declared => rfl

theorem NamesTypeIn.ne_void (h : NamesTypeIn Q word type) : type ≠ .builtin .void := by
  cases h with
  | builtin t _ ht => exact fun heq => ht (TypeRef.builtin.inj heq)
  | declared => exact TypeRef.noConfusion

theorem qualifierConflict?_default (stage : Stage) : qualifierConflict? stage {} = none := by
  cases stage <;> rfl

theorem NamesTypeIn.run_declarationQualifiers (h : NamesTypeIn Q word type)
    (hword : kindAt st.tokens = word) : declarationQualifiers.run st = .ok ({}, st) := by
  have hnone : (qualifier? {}).run st = .ok (none, st) := by
    refine (run_bind_of (run_peek st)).trans ?_
    rw [hword]
    cases h <;> rfl
  have hqualifiers : qualifiers.run st = .ok ({}, st) :=
    (run_bind_of rfl).trans (run_repeatWithin_inr (run_bind_of hnone) _)
  refine (run_bind_of hqualifiers).trans ((run_bind_of (a := st.shader) rfl).trans ?_)
  rw [qualifierConflict?_default]
  refine (run_bind_of (run_peek st)).trans ?_
  rw [hword]
  cases h <;> rfl

theorem NamesTypeIn.run_declarationWithin (h : NamesTypeIn Q word type)
    (hword : kindAt st.tokens = word) (fuel : Nat) :
    (declarationWithin (fuel + 1)).run st = (typedDeclaration {}).run st := by
  refine (run_bind_of (h.run_declarationQualifiers hword)).trans ?_
  obtain ⟨tokens, s, scopes, calls⟩ := st
  cases tokens with
  | nil => exact absurd hword.symm h.ne_endOfFile
  | cons t tokens =>
      obtain ⟨kind, place⟩ := t
      cases hword
      cases h <;> rfl

theorem delivers_typedDeclaration {d : ArrayText} (hd : d.ReadIn Q) (hk : EndsName k)
    (hcomma : k ≠ .punct .comma) :
    Delivers (Ahead (d.tokens ++ k :: ks) rest Q) (typedDeclaration {})
      fun found => Ahead (k :: ks) rest fun s scopes => Q s scopes ∧
        List.Forall₂ (IsDeclarator s) found d.declared := by
  obtain ⟨k', ks', hnext, hends⟩ := exists_furtherTokens d.others hk ks
  rw [d.tokens_append, hnext]
  refine delivers_bind_look (fun st h => hd.type.run_typeName? (fun t _ => rfl) h.kindAt h.2) ?_
  refine delivers_bind (delivers_advance hd.type.ne_endOfFile) fun _ => ?_
  refine delivers_bind (delivers_dimensions hd.typeDims TokenKind.noConfusion) fun dims => ?_
  refine delivers_bind (delivers_imp (P := Ahead (d.first.tokens ++ k' :: ks') rest fun s scopes =>
      Q s scopes ∧ s.HasSizes dims.reverse d.typeSizes.reverse ∧ True)
    (delivers_declarator (hd.nameDims _ List.mem_cons_self) hends (fun _ _ _ h => h) _ _ _) ?_)
    fun first => ?_
  · exact fun st h => h.imp fun ⟨hQ, hdims⟩ => ⟨hQ, List.rel_reverse hdims, trivial⟩
  · rw [← hnext]
    refine delivers_imp (delivers_furtherDeclarators
      (fun x hx => hd.nameDims x (List.mem_cons_of_mem _ hx)) hk hcomma _ _ first rfl) ?_
    exact fun st h => h.imp fun ⟨⟨hQ, hfirst⟩, hdims, _⟩ => ⟨hQ, hdims, hfirst⟩

theorem delivers_declarationWithin {d : ArrayText} (hd : d.ReadIn Q) (hK : Persists K)
    (fuel : Nat) :
    Delivers (Ahead (d.tokens ++ .punct .semicolon :: ks) rest fun s scopes => Q s scopes ∧ K s)
      (declarationWithin (fuel + 1))
      fun found => Ahead (.punct .semicolon :: ks) rest fun s scopes =>
        (Q s scopes ∧ List.Forall₂ (IsDeclarator s) found d.declared) ∧ K s := by
  intro st h
  rw [hd.type.run_declarationWithin h.kindAt]
  exact (delivers_typedDeclaration hd ⟨by decide, by decide⟩ (by decide)).growing
    (along_typedDeclaration {}) hK st h

/-! ### Global variables -/

theorem exists_run_declareGlobal {d : Declarator} (htype : d.type.isFamily = false)
    (hinitial : d.initial = none) (st : ParserState) :
    ∃ scopes, (declareGlobal d).run st =
      .ok ((), ⟨st.tokens, { (st.shader.addVar (d.toGlobal none)).2 with
        globals := st.shader.globals.push (st.shader.addVar (d.toGlobal none)).1 }, scopes,
        st.calls⟩) := by
  obtain ⟨tokens, s, scopes, calls⟩ := st
  unfold declareGlobal
  rw [htype, hinitial]
  cases scopes <;> exact ⟨_, rfl⟩

/-- Behind the given globals stand variables that are what a text says of them. -/
def HasGlobals (globals : List VarId) (xs : List SizedName) (s : Shader) : Prop :=
  ∃ vars : List VarId, s.globals.toList = globals ++ vars ∧ List.Forall₂ s.IsVariable vars xs

theorem HasGlobals.push {globals : List VarId} {xs : List SizedName} {s : Shader} {x : SizedName}
    {v : Variable} (h : HasGlobals globals xs s) (hname : v.name = x.name) (htype : v.type = x.type)
    (hdims : s.HasSizes v.dims x.sizes) :
    HasGlobals globals (xs ++ [x])
      { (s.addVar v).2 with globals := s.globals.push (s.addVar v).1 } := by
  obtain ⟨vars, hglobals, hvars⟩ := h
  refine ⟨vars ++ [(s.addVar v).1], ?_, List.rel_append ?_ (.cons ?_ .nil)⟩
  · simp [hglobals]
  · exact hvars.imp fun w y hw => (hw.grows (.addVar s v)).congr rfl rfl
  · exact (Shader.isVariable_addVar v hname htype hdims).congr rfl rfl

theorem delivers_declareGlobals {globals : List VarId} {xs : List SizedName} {ds : List Declarator}
    (done : List SizedName) (hxs : ∀ x ∈ xs, x.type.isFamily = false) :
    Delivers (Ahead ks rest fun s _ =>
        HasGlobals globals done s ∧ List.Forall₂ (IsDeclarator s) ds xs)
      (ds.forM declareGlobal)
      fun _ => Ahead ks rest fun s _ => HasGlobals globals (done ++ xs) s := by
  induction ds generalizing xs done with
  | nil =>
      refine delivers_pure fun st h => h.imp fun ⟨hdone, hnil⟩ => ?_
      cases hnil
      rwa [List.append_nil]
  | cons d ds ih =>
      rintro st ⟨hahead, hdone, hds⟩
      cases hds with
      | @cons _ x _ xs hd hds =>
          have htype : d.type.isFamily = false := hd.type ▸ hxs x List.mem_cons_self
          obtain ⟨scopes, hrun⟩ := exists_run_declareGlobal htype hd.initial st
          have hlater := persists_forall₂ persists_isDeclarator ds xs _ _
            (.addVar st.shader (d.toGlobal none)) hds
          obtain ⟨_, st', hrest, hfound⟩ := ih (done ++ [x])
            (fun y hy => hxs y (List.mem_cons_of_mem x hy)) ⟨st.tokens, _, scopes, st.calls⟩
            ⟨hahead, hdone.push (v := d.toGlobal none) hd.name hd.type hd.dims,
              hlater.imp fun e y he => he.congr rfl⟩
          rw [List.append_assoc] at hfound
          exact ⟨(), st', (run_bind_of hrun).trans hrest, hfound⟩

theorem ArrayText.ReadIn.isFamily {d : ArrayText} (hd : d.ReadIn Q) :
    ∀ x ∈ d.declared, x.type.isFamily = false := by
  intro x hx
  obtain ⟨y, _, rfl⟩ := List.mem_map.1 hx
  exact hd.type.isFamily

theorem delivers_globals {d : ArrayText} (hd : d.ReadIn Q) (globals : List VarId) :
    Delivers (Ahead (d.tokens ++ [.punct .semicolon]) rest fun s scopes =>
        Q s scopes ∧ s.globals.toList = globals)
      externalDeclaration
      fun _ => Ahead [] rest fun s _ => HasGlobals globals d.declared s := by
  have hglobals : Persists fun s => s.globals.toList = globals := by
    intro s s' hg h
    rw [hg.rest]
    exact h
  refine delivers_bind_look (fun st h => run_take?_other (h.kindAt ▸ hd.type.ne_punct _)) ?_
  refine delivers_bind_fuel fun n => ?_
  refine delivers_bind (delivers_declarationWithin hd hglobals n) fun names => ?_
  refine delivers_bind_look (fun st h => h.run_peek) ?_
  refine delivers_bind (delivers_advance TokenKind.noConfusion) fun _ => ?_
  refine delivers_imp (delivers_declareGlobals [] hd.isFamily) fun st h => h.imp ?_
  exact fun ⟨⟨_, hfound⟩, hglobals⟩ => ⟨⟨[], by simp [hglobals], .nil⟩, hfound⟩

/-! ### Fields -/

section Fields

variable (ks rest) (hQ : ∀ s scopes v, Q s scopes → Q (s.addVar v).2 scopes)

include hQ

theorem delivers_addField (d : Declarator) (x : SizedName) (hK : Persists K) :
    Delivers (Ahead ks rest fun s scopes => (Q s scopes ∧ IsDeclarator s d x) ∧ K s)
      (addVar d.toField)
      fun v => Ahead ks rest fun s scopes => (Q s scopes ∧ s.IsVariable v x) ∧ K s := by
  rintro st ⟨hahead, ⟨h, hd⟩, hkept⟩
  have hv := Shader.isVariable_addVar d.toField hd.name hd.type hd.dims
  exact ⟨_, _, rfl, hahead, ⟨hQ _ _ _ h, hv⟩, hK _ _ (.addVar st.shader _) hkept⟩

theorem delivers_addFields (ds : List Declarator) (xs : List SizedName) (hK : Persists K) :
    Delivers (Ahead ks rest fun s scopes =>
        (Q s scopes ∧ List.Forall₂ (IsDeclarator s) ds xs) ∧ K s)
      (ds.mapM fun d => addVar d.toField)
      fun fields => Ahead ks rest fun s scopes =>
        (Q s scopes ∧ List.Forall₂ s.IsVariable fields xs) ∧ K s := by
  induction ds generalizing xs K with
  | nil =>
      refine delivers_pure fun st h => h.imp fun ⟨⟨hQ, hnil⟩, hK⟩ => ?_
      cases hnil
      exact ⟨⟨hQ, .nil⟩, hK⟩
  | cons d ds ih =>
      cases xs with
      | nil => exact fun st h => absurd h.2.1.2 (by simp)
      | cons x xs =>
          have hfirst := delivers_addField ks rest hQ d x
            (hK.and (persists_forall₂ persists_isDeclarator ds xs))
          have hrest (field : VarId) := ih xs (hK.and (persists_isVariable field x))
          rw [List.mapM_cons]
          refine delivers_bind (delivers_imp hfirst ?_) fun field => ?_
          · refine fun st h => h.imp fun ⟨⟨hQ, hds⟩, hkept⟩ => ?_
            obtain ⟨hd, hds⟩ := List.forall₂_cons.1 hds
            exact ⟨⟨hQ, hd⟩, hkept, hds⟩
          · refine delivers_bind (delivers_imp (hrest field) ?_) fun fields => ?_
            · exact fun st h => h.imp fun ⟨⟨hQ, hfield⟩, hkept, hds⟩ => ⟨⟨hQ, hds⟩, hkept, hfield⟩
            · exact delivers_pure fun st h => h.imp fun ⟨⟨hQ, hfields⟩, hkept, hfield⟩ =>
                ⟨⟨hQ, .cons hfield hfields⟩, hkept⟩

end Fields

/-- The tokens of fields up to the brace behind them. -/
def fieldTokens (ds : List ArrayText) : List TokenKind :=
  ds.flatMap (fun d => d.tokens ++ [.punct .semicolon]) ++ [.punct .rightBrace]

theorem fieldTokens_cons (d : ArrayText) (ds : List ArrayText) :
    fieldTokens (d :: ds) = d.tokens ++ .punct .semicolon :: fieldTokens ds := by
  simp [fieldTokens]

theorem delivers_fields {ds : List ArrayText} (hds : ∀ d ∈ ds, d.ReadIn Q)
    (hQ : ∀ s scopes v, Q s scopes → Q (s.addVar v).2 scopes) (rest : List Token) (fuel : Nat)
    (block : String) :
    Delivers (Ahead (.punct .leftBrace :: fieldTokens ds) rest Q) (fieldsWithin (fuel + 2) block)
      fun fields => Ahead [] rest fun s _ =>
        List.Forall₂ s.IsVariable fields (ds.flatMap ArrayText.declared) := by
  refine delivers_bind (delivers_expect .leftBrace _) fun _ => ?_
  refine delivers_imp (delivers_repeatSteps ds
    (I := fun left found => Ahead (fieldTokens left) rest fun s scopes => Q s scopes ∧
      Collects s.IsVariable found (left.flatMap ArrayText.declared)
        (ds.flatMap ArrayText.declared)) ?_ ?_ ?_) fun st h => h.imp fun hQ => ⟨hQ, .start _⟩
  · intro d hd left found
    have hword := (hds d hd).type
    have hfound := persists_collects persists_isVariable found
      ((d :: left).flatMap ArrayText.declared) (ds.flatMap ArrayText.declared)
    rw [fieldTokens_cons]
    refine delivers_bind_look (fun st h => run_take?_other (h.kindAt ▸ hword.ne_punct _)) ?_
    refine delivers_bind_look (a := false) (fun st h => ?_) ?_
    · show Except.ok (kindAt st.tokens == .endOfFile, st) = _
      rw [h.kindAt, beq_false_of_ne hword.ne_endOfFile]
    refine delivers_bind (delivers_declarationWithin (hds d hd) hfound fuel) fun names => ?_
    refine delivers_bind (delivers_expect .semicolon _) fun _ => ?_
    refine delivers_bind (delivers_addFields _ _ hQ _ _ hfound) fun fields => ?_
    exact delivers_pure fun st h => ⟨_, rfl, h.imp fun ⟨⟨hQ, hfields⟩, hfound⟩ =>
      ⟨hQ, hfound.append hfields⟩⟩
  · intro found
    refine delivers_bind_eq (delivers_take? .rightBrace) ?_
    exact delivers_pure fun st h => ⟨_, rfl, h.imp fun ⟨_, hfound⟩ => hfound.all⟩
  · intro st h
    refine Nat.le_trans ?_ h.length_le
    rw [fieldTokens, List.length_append]
    exact Nat.le_trans (length_le_flatMap fun d _ => by simp) (Nat.le_add_right _ _)

/-! ### Local variables -/

theorem delivers_parenthesizedName? (name : String) :
    Delivers (Ahead (.ident name :: ks) rest C) parenthesizedName?
      fun r st => r = some name ∧ Ahead ks rest C st := by
  refine delivers_bind_look (a := 0) (fun st h => ?_) ?_
  · have htake : (take? .leftParen).run st = .ok (false, st) :=
      run_take?_other (h.kindAt ▸ TokenKind.noConfusion)
    exact (run_bind_of rfl).trans (run_repeatWithin_inr (run_bind_of htake) _)
  refine delivers_bind_look (fun st h => h.run_name?) ?_
  refine delivers_bind (delivers_advance TokenKind.noConfusion) fun _ => ?_
  exact delivers_bind_look (a := true) (fun st _ => rfl) (delivers_pure fun st h => ⟨rfl, h⟩)

theorem delivers_declare {names : List String} (hQ : HoldsBeside Q names) (hK : Persists K)
    {v : Variable} {x : SizedName} (hname : v.name = x.name) (htype : v.type = x.type)
    (hx : x.name ∈ names) :
    Delivers (Ahead ks rest fun s scopes => (Q s scopes ∧ s.HasSizes v.dims x.sizes) ∧ K s)
      (do
        let id ← addVar v
        declare id
        return some id)
      fun r st => ∃ id, r = some id ∧
        Ahead ks rest (fun s scopes => (Q s scopes ∧ s.IsVariable id x) ∧ K s) st := by
  rintro ⟨tokens, s, scopes, calls⟩ ⟨hahead, ⟨h, hdims⟩, hfront⟩
  have hvar := Shader.isVariable_addVar v hname htype hdims
  have hadded := hQ.addVar s scopes v h
  have hkept := hK s _ (.addVar s v) hfront
  cases scopes with
  | nil => exact ⟨_, _, rfl, _, rfl, hahead, ⟨hadded, hvar⟩, hkept⟩
  | cons scope outer =>
      have hin := hQ.declare _ scope outer (s.addVar v).1 hvar.known (hvar.name ▸ hx) hadded
      exact ⟨_, _, rfl, _, rfl, hahead, ⟨hin, hvar⟩, hkept⟩

theorem NamesTypeIn.run_atKeyword? (h : NamesTypeIn Q word type) {s : StorageClass}
    (hword : kindAt st.tokens = word) : (atKeyword? (.storage s)).run st = .ok (false, st) := by
  show Except.ok (kindAt st.tokens == .keyword (.storage s), st) = _
  rw [hword]
  cases h <;> rfl

theorem NamesTypeIn.ne_precision (h : NamesTypeIn Q word type) (p : Precision) :
    word ≠ .keyword (.precision p) := by
  cases h
  · intro heq
    cases heq
  · exact TokenKind.noConfusion

theorem concreteType?_type {t : BuiltinType} (ht : t.isFamily = false) :
    (Keyword.type t).concreteType? = some t := by
  simp [Keyword.concreteType?, Keyword.type?, ht]

theorem delivers_addStmt (t : Stmt) (hK : ∀ s : Shader, K s → K (s.addStmt t).2) :
    Delivers (Ahead ks rest fun s _ => K s) (addStmt t)
      fun id => Ahead ks rest fun s _ => s.stmt id = t ∧ K s := by
  rintro st ⟨hahead, h⟩
  exact ⟨_, _, rfl, hahead, (Shader.stmt_addStmt st.shader t _).trans (if_pos rfl), hK _ h⟩

section Locals

variable {ending : Punct} (hending : EndsName (.punct ending))

include hending

theorem delivers_localVariable? {x : NameText} (hx : ∀ d ∈ x.dims, d.ReadIn Q)
    {names : List String} (hQ : HoldsBeside Q names) (hname : x.name ∈ names)
    (hk : k = .punct .comma ∨ k = .punct ending) (hK : Persists K) (type : TypeRef)
    (typeDims : List (Option ExprId)) (isFirst : Bool) :
    Delivers (Ahead (x.tokens ++ k :: ks) rest fun s scopes =>
        Q s scopes ∧ s.HasSizes typeDims sizes ∧ K s)
      (localVariable? ⟨false, none, type, typeDims⟩ isFirst [ending])
      fun r st => ∃ v, r = some v ∧ Ahead (k :: ks) rest (fun s scopes =>
        (Q s scopes ∧ s.IsVariable v (x.sized type sizes)) ∧
          s.HasSizes typeDims sizes ∧ K s) st := by
  have hends : EndsName k := by
    rcases hk with rfl | rfl
    · exact ⟨by decide, by decide⟩
    · exact hending
  have hkept := (persists_hasSizes typeDims sizes).and hK
  refine delivers_bind_eq (delivers_parenthesizedName? x.name) ?_
  refine delivers_bind ((delivers_dimensions hx hends.1).growing along_dimensions hkept)
    fun dims => ?_
  refine delivers_bind_look (a := true) (fun st h => ?_) ?_
  · rcases hk with rfl | rfl
    · exact run_atAny?_mem h.kindAt (by simp)
    · exact run_atAny?_mem h.kindAt (by simp)
  rw [Bool.not_true, Bool.and_false, if_neg Bool.false_ne_true]
  refine delivers_bind_look (fun st h => run_take?_other (h.kindAt ▸ hends.2)) ?_
  refine delivers_imp (delivers_declare (x := x.sized type sizes) hQ hkept rfl rfl hname) ?_
  exact fun st h => h.imp fun ⟨⟨hQ, hdims⟩, htype, hkept⟩ =>
    ⟨⟨hQ, List.rel_append htype hdims⟩, htype, hkept⟩

/-- A local declaration in front of one of its names. -/
def AtName (Q : Shader → List (List VarId) → Prop) (typeDims : List (Option ExprId))
    (sizes : List (Option Constant)) (type : TypeRef) (names : List NameText) (ks : List TokenKind)
    (rest : List Token) (x : NameText) (left : List NameText) (found : List VarId) :
    ParserState → Prop :=
  Ahead (x.tokens ++ (ArrayText.furtherTokens left ++ ks)) rest fun s scopes =>
    Q s scopes ∧ s.HasSizes typeDims sizes ∧ Collects s.IsVariable found
      ((x :: left).map fun y => y.sized type sizes) (names.map fun y => y.sized type sizes)

theorem delivers_localVariables? {first : NameText} {others : List NameText}
    (hnames : ∀ x ∈ first :: others, ∀ d ∈ x.dims, d.ReadIn Q)
    (hQ : HoldsBeside Q ((first :: others).map NameText.name)) (hcomma : ending ≠ .comma)
    (type : TypeRef) (typeDims : List (Option ExprId)) :
    Delivers (Ahead (first.tokens ++ (ArrayText.furtherTokens others ++ .punct ending :: ks)) rest
        fun s scopes => Q s scopes ∧ s.HasSizes typeDims sizes)
      (localVariables? ⟨false, none, type, typeDims⟩ [ending])
      fun r st => ∃ vars, r = some vars ∧ Ahead (.punct ending :: ks) rest (fun s _ =>
        List.Forall₂ s.IsVariable vars ((first :: others).map fun x => x.sized type sizes)) st := by
  refine delivers_imp (delivers_repeatSteps others (I := fun left found st => ∃ x ∈ first :: others,
    AtName Q typeDims sizes type (first :: others) (.punct ending :: ks) rest x left found st)
    ?_ ?_ ?_) ?_
  · rintro y hy left found st ⟨x, hx, h⟩
    rw [AtName, furtherTokens_cons] at h
    refine delivers_bind_some (delivers_localVariable? hending (hnames x hx) hQ
      (List.mem_map_of_mem hx) (.inl rfl) (persists_collects persists_isVariable found _ _) type
      typeDims found.isEmpty) (fun v => ?_) st h
    refine delivers_bind_look (a := false) (fun st h => run_atAny?_other ?_) ?_
    · rw [h.kindAt]
      simp [hcomma.symm]
    · refine delivers_bind_eq (delivers_take? .comma) (delivers_pure fun st h => ?_)
      exact ⟨_, rfl, y, List.mem_cons_of_mem _ hy, h.imp fun ⟨⟨hQ, hv⟩, hdims, hfound⟩ =>
        ⟨hQ, hdims, hfound.cons hv⟩⟩
  · rintro found st ⟨x, hx, h⟩
    refine delivers_bind_some (delivers_localVariable? hending (hnames x hx) hQ
      (List.mem_map_of_mem hx) (.inr rfl) (persists_collects persists_isVariable found _ _) type
      typeDims found.isEmpty) (fun v => ?_) st h
    refine delivers_bind_look
      (fun st h => run_atAny?_mem h.kindAt (List.mem_singleton_self ending)) ?_
    exact delivers_pure fun st h => ⟨_, rfl, _, rfl, h.imp fun ⟨⟨_, hv⟩, _, hfound⟩ =>
      (hfound.cons hv).all⟩
  · rintro st ⟨x, hx, h⟩
    refine Nat.le_trans (length_le_furtherTokens others) (Nat.le_trans ?_ h.length_le)
    simp only [List.length_append]
    omega
  · exact fun st h => ⟨first, List.mem_cons_self, h.imp fun ⟨hQ, hdims⟩ => ⟨hQ, hdims, .start _⟩⟩

theorem delivers_locals {d : ArrayText} (hd : d.ReadIn Q)
    (hQ : HoldsBeside Q (d.names.map NameText.name)) (hcomma : ending ≠ .comma) :
    Delivers (Ahead (d.tokens ++ .punct ending :: ks) rest Q) (localDeclaration? [ending])
      fun r st => ∃ id, r = some id ∧ Ahead (.punct ending :: ks) rest (fun s _ =>
        ∃ vars, s.stmt id = .declaration vars ∧ List.Forall₂ s.IsVariable vars d.declared) st := by
  rw [d.tokens_append]
  refine delivers_attempt ?_
  refine delivers_bind_look (fun st h => hd.type.run_atKeyword? h.kindAt) ?_
  refine delivers_bind_look (fun st h => h.run_peek) ?_
  extract_lets typed
  have htyped : Delivers (Ahead (d.tokens ++ .punct ending :: ks) rest Q) (typed none)
      fun r st => ∃ id, r = some id ∧ Ahead (.punct ending :: ks) rest (fun s _ =>
        ∃ vars, s.stmt id = .declaration vars ∧ List.Forall₂ s.IsVariable vars d.declared) st := by
    rw [d.tokens_append]
    refine delivers_bind_look (fun st h =>
      hd.type.run_typeName? (fun t ht => concreteType?_type ht) h.kindAt h.2) ?_
    refine delivers_bind (delivers_advance hd.type.ne_endOfFile) fun _ => ?_
    refine delivers_bind (delivers_dimensions hd.typeDims TokenKind.noConfusion) fun dims => ?_
    refine delivers_bind_some (delivers_imp (P := Ahead (d.first.tokens ++
        (ArrayText.furtherTokens d.others ++ .punct ending :: ks)) rest fun s scopes =>
        Q s scopes ∧ s.HasSizes dims.reverse d.typeSizes.reverse)
      (delivers_localVariables? hending hd.nameDims hQ hcomma d.type dims.reverse) ?_)
      fun vars => ?_
    · exact fun st h => h.imp fun ⟨hQ, hdims⟩ => ⟨hQ, List.rel_reverse hdims⟩
    · refine delivers_bind (delivers_addStmt _ fun s h =>
        h.imp fun v x hv => hv.congr rfl rfl) fun id => ?_
      exact delivers_pure fun st h => ⟨id, rfl, h.imp fun ⟨hstmt, hvars⟩ => ⟨vars, hstmt, hvars⟩⟩
  split
  · next p hp => exact absurd hp (hd.type.ne_precision p)
  · rwa [d.tokens_append] at htyped

end Locals

/-! ### Parameters -/

section Parameters

variable {P : ParserState → Prop} {S : Parameter → ParserState → Prop} {n m : Nat} {p : Parameter}

theorem delivers_parameterStep {R : Parameter → ParserState → Prop}
    (hat : ∀ st, P st → ∀ q ∈ [Punct.comma, .rightParen], kindAt st.tokens ≠ .punct q)
    (hpart : Delivers P (parameterPart p) R)
    (hrest : ∀ q, Delivers (R q) (repeatWithin parameterStep n q) S) :
    Delivers P (repeatWithin parameterStep (n + 1) p) S := by
  refine delivers_bind (Q := fun next st => ∃ q, next = .inl q ∧ R q st) ?_ fun next => ?_
  · refine delivers_bind_look (fun st h => run_atAny?_other (hat st h)) ?_
    exact delivers_bind hpart fun q => delivers_pure fun st h => ⟨q, rfl, h⟩
  · rintro st ⟨q, rfl, h⟩
    exact hrest q st h

theorem delivers_parameterDims {dims : List DimText} (hdims : ∀ d ∈ dims, d.ReadIn Q)
    (hk : k ≠ .punct .leftBracket)
    (hrest : ∀ found m, n ≤ m → Delivers (Ahead (k :: ks) rest fun s scopes =>
        Q s scopes ∧ s.HasSizes found (sizes ++ dims.map DimText.size))
      (repeatWithin parameterStep m { p with dims := found }) S)
    (hm : n + dims.length ≤ m) :
    Delivers (Ahead (dims.flatMap DimText.tokens ++ k :: ks) rest fun s scopes =>
        Q s scopes ∧ s.HasSizes p.dims sizes)
      (repeatWithin parameterStep m p) S := by
  cases dims with
  | nil =>
      have hnone := hrest p.dims m hm
      rw [List.map_nil, List.append_nil] at hnone
      exact hnone
  | cons d dims =>
      obtain ⟨m, rfl⟩ : ∃ m', m = m' + 1 := ⟨m - 1, by simp at hm; omega⟩
      obtain ⟨kinds, hopens⟩ := (hdims d List.mem_cons_self).opens
      have hbracket (st : ParserState)
          (h : Ahead ((d :: dims).flatMap DimText.tokens ++ k :: ks) rest
            (fun s scopes => Q s scopes ∧ s.HasSizes p.dims sizes) st) :
          kindAt st.tokens = .punct .leftBracket := by
        rw [List.flatMap_cons, hopens] at h
        exact h.kindAt
      refine delivers_parameterStep (R := fun q st => ∃ found, q = { p with dims := found } ∧
        Ahead (k :: ks) rest (fun s scopes => Q s scopes ∧
          s.HasSizes found (sizes ++ (d :: dims).map DimText.size)) st) ?_ ?_ ?_
      · intro st h
        rw [hbracket st h]
        decide
      · refine delivers_bind_look (fun st h => by rw [run_peek, hbracket st h]) ?_
        refine delivers_bind ((delivers_dimensions hdims hk).growing along_dimensions
          (persists_hasSizes p.dims sizes)) fun found => ?_
        exact delivers_pure fun st h => ⟨_, rfl, h.imp fun ⟨⟨hQ, hfound⟩, hfront⟩ =>
          ⟨hQ, List.rel_append hfront hfound⟩⟩
      · rintro q st ⟨found, rfl, h⟩
        exact hrest found m (by simp at hm; omega) st h

theorem delivers_parameterType (hword : NamesTypeIn Q k type) (htype : p.type = none) :
    Delivers (Ahead (k :: ks) rest Q) (parameterPart p)
      fun q st => q = { p with type := some type } ∧ Ahead ks rest Q st := by
  refine delivers_bind_look (fun st h => h.run_peek) ?_
  have hadvance : Delivers (Ahead (k :: ks) rest Q)
      (do advance; return { p with type := some type } : ParseM Parameter)
      fun q st => q = { p with type := some type } ∧ Ahead ks rest Q st :=
    delivers_bind (delivers_advance hword.ne_endOfFile) fun _ => delivers_pure fun st h => ⟨rfl, h⟩
  cases hword with
  | builtin t _ _ =>
      dsimp only
      rw [htype]
      exact hadvance
  | declared name id hname =>
      dsimp only
      rw [htype]
      refine delivers_bind_look (a := some (.declared id)) (fun st h => ?_) hadvance
      rw [← Option.map_some, ← hname _ _ h.2]
      rfl

theorem delivers_parameterName (name : String) (htype : p.type = some type)
    (hvoid : type ≠ .builtin .void) (hname : p.name = none) :
    Delivers (Ahead (.ident name :: ks) rest C) (parameterPart p)
      fun q st => q = { p with name := some name } ∧ Ahead ks rest C st := by
  have hnamed : some type ≠ some (TypeRef.builtin .void) := fun h => hvoid (Option.some.inj h)
  refine delivers_bind_look (fun st h => h.run_peek) ?_
  dsimp only
  rw [htype, hname, if_neg (by simp), if_neg (by simp), if_neg hnamed]
  exact delivers_bind (delivers_advance TokenKind.noConfusion) fun _ =>
    delivers_pure fun st h => ⟨rfl, h⟩

/-- What a parameter gets from its text, and the mark behind it comes next. -/
def HasParts (d : ArrayText) (ending : Punct) (ks : List TokenKind) (rest : List Token)
    (p : Parameter) : ParserState → Prop :=
  Ahead (.punct ending :: ks) rest fun s _ => p.type = some d.type ∧ p.name = some d.first.name ∧
    s.HasSizes p.dims (d.typeSizes ++ d.first.dims.map DimText.size)

variable {d : ArrayText} {ending : Punct}

theorem delivers_parts (hd : d.ReadIn Q) (hending : ending ∈ [Punct.comma, .rightParen])
    (hm : d.dims.length + d.first.dims.length + 3 ≤ m) :
    Delivers (Ahead (d.word :: (d.dims.flatMap DimText.tokens ++ .ident d.first.name ::
        (d.first.dims.flatMap DimText.tokens ++ .punct ending :: ks))) rest Q)
      (repeatWithin parameterStep m {}) (HasParts d ending ks rest) := by
  have hend : TokenKind.punct ending ≠ .punct .leftBracket := by
    rintro heq
    cases heq
    simp at hending
  -- the steps from the last one to the first one
  have hlast (found : List (Option ExprId)) (m : Nat) (hm : 1 ≤ m) :
      Delivers (Ahead (.punct ending :: ks) rest fun s scopes => Q s scopes ∧
          s.HasSizes found (d.typeSizes ++ d.first.dims.map DimText.size))
        (repeatWithin parameterStep m ⟨{}, none, some d.type, some d.first.name, found⟩)
        (HasParts d ending ks rest) := by
    obtain ⟨m, rfl⟩ := Nat.exists_eq_add_of_le' hm
    intro st h
    exact ⟨_, st, run_repeatWithin_inr (run_bind_of (run_atAny?_mem h.kindAt hending)) m,
      h.imp fun h => ⟨rfl, rfl, h.2⟩⟩
  have hnamed (found : List (Option ExprId)) (m : Nat) (hm : d.first.dims.length + 2 ≤ m) :
      Delivers (Ahead (.ident d.first.name ::
          (d.first.dims.flatMap DimText.tokens ++ .punct ending :: ks)) rest fun s scopes =>
          Q s scopes ∧ s.HasSizes found d.typeSizes)
        (repeatWithin parameterStep m ⟨{}, none, some d.type, none, found⟩)
        (HasParts d ending ks rest) := by
    obtain ⟨m, rfl⟩ : ∃ m', m = m' + 1 := ⟨m - 1, by omega⟩
    refine delivers_parameterStep (fun st h q _ => h.kindAt ▸ TokenKind.noConfusion)
      (delivers_parameterName d.first.name rfl hd.type.ne_void rfl) fun q => ?_
    rintro st ⟨rfl, h⟩
    exact delivers_parameterDims (n := 1) (hd.nameDims d.first List.mem_cons_self) hend hlast
      (by omega) st h
  obtain ⟨m, rfl⟩ : ∃ m', m = m' + 1 := ⟨m - 1, by omega⟩
  refine delivers_parameterStep (fun st h q _ => h.kindAt ▸ hd.type.ne_punct q)
    (delivers_parameterType hd.type rfl) fun q => ?_
  rintro st ⟨rfl, h⟩
  exact delivers_parameterDims (n := d.first.dims.length + 2) hd.typeDims TokenKind.noConfusion
    hnamed (by omega) st (h.imp fun hQ => ⟨hQ, .nil⟩)

theorem delivers_parameter (hd : d.ReadIn Q) (hending : ending ∈ [Punct.comma, .rightParen])
    (ks : List TokenKind) (rest : List Token) :
    Delivers (Ahead (d.typeTokens ++ d.first.tokens ++ .punct ending :: ks) rest Q) parameter
      fun v => Ahead (.punct ending :: ks) rest fun s _ => s.IsVariable v d.parameter := by
  rw [d.typeTokens_append]
  refine delivers_bind (Q := HasParts d ending ks rest) ?_ fun p => ?_
  · intro st h
    have hlength := h.length_le
    have htype := length_le_flatMap fun dim hdim => (hd.typeDims dim hdim).tokens_ne_nil
    have hname := length_le_flatMap fun dim hdim =>
      (hd.nameDims d.first List.mem_cons_self dim hdim).tokens_ne_nil
    simp only [List.length_cons, List.length_append] at hlength
    obtain ⟨p, st', hrun, hp⟩ :=
      delivers_parts (m := st.tokens.length + 1) hd hending (by omega) st h
    exact ⟨p, st', (run_bind_of rfl).trans hrun, hp⟩
  · rintro st ⟨hahead, htype, hname, hdims⟩
    rw [htype]
    refine ⟨_, _, rfl, hahead, Shader.isVariable_addVar _ ?_ rfl hdims⟩
    rw [hname]
    rfl

end Parameters

/-! ### All places together -/

/-- The variables of a declaration get the same dimensions as global variables, as fields, as local
variables, and as the first or a later name: the sizes on the type from the last to the first, then
those on the name. A parameter has the sizes on the type in the order in which they are written, so
it agrees with the others exactly if that order is the same from both ends. -/
theorem dimensions_by_place {d : ArrayText} (hd : d.ReadIn Q)
    (hQ : HoldsBeside Q (d.names.map NameText.name)) (rest : List Token) :
    (∀ globals, Delivers (Ahead (d.tokens ++ [.punct .semicolon]) rest fun s scopes =>
        Q s scopes ∧ s.globals.toList = globals) externalDeclaration
      fun _ => Ahead [] rest fun s _ => HasGlobals globals d.declared s) ∧
    (∀ before after : List ArrayText, (∀ e ∈ before ++ after, e.ReadIn Q) → ∀ fuel block,
      Delivers (Ahead (.punct .leftBrace :: fieldTokens (before ++ d :: after)) rest Q)
        (fieldsWithin (fuel + 2) block)
        fun fields => Ahead [] rest fun s _ => List.Forall₂ s.IsVariable fields
          (before.flatMap ArrayText.declared ++ d.declared ++ after.flatMap ArrayText.declared)) ∧
    (∀ ending ∈ [Punct.semicolon, .rightParen],
      Delivers (Ahead (d.tokens ++ [.punct ending]) rest Q) (localDeclaration? [ending])
        fun r st => ∃ id, r = some id ∧ Ahead [.punct ending] rest (fun s _ => ∃ vars,
          s.stmt id = .declaration vars ∧ List.Forall₂ s.IsVariable vars d.declared) st) ∧
    (∀ ending ∈ [Punct.comma, .rightParen],
      Delivers (Ahead (d.typeTokens ++ d.first.tokens ++ [.punct ending]) rest Q) parameter
        fun v => Ahead [.punct ending] rest fun s _ => s.IsVariable v d.parameter ∧
          (s.IsVariable v (d.first.sized d.type d.typeSizes.reverse) ↔
            d.typeSizes.reverse = d.typeSizes)) := by
  refine ⟨delivers_globals hd, fun before after hothers fuel block => ?_, fun ending hending => ?_,
    fun ending hending => ?_⟩
  · have hall : ∀ e ∈ before ++ d :: after, e.ReadIn Q := by
      simp only [List.mem_append, List.mem_cons] at hothers ⊢
      rintro e (he | rfl | he)
      · exact hothers e (.inl he)
      · exact hd
      · exact hothers e (.inr he)
    have hfields := delivers_fields hall hQ.addVar rest fuel block
    rwa [List.flatMap_append, List.flatMap_cons, ← List.append_assoc] at hfields
  · have hends : EndsName (.punct ending) ∧ ending ≠ .comma := by
      rcases List.mem_pair.1 hending with rfl | rfl <;>
        exact ⟨⟨by decide, by decide⟩, by decide⟩
    exact delivers_locals hends.1 hd hQ hends.2
  · refine delivers_weaken (delivers_parameter hd hending [] rest) fun v st h => h.imp fun hv => ?_
    refine ⟨hv, fun hv' => ?_, fun heq => ?_⟩
    · exact List.append_cancel_right (hv'.dims.unique hv.dims)
    · rw [heq]
      exact hv

/-- The text `float[2][n] x[4], y[]`, where `n` is 3. -/
def scales : ArrayText where
  word := .keyword (.type (.scalar .float))
  type := .builtin (.scalar .float)
  dims := [⟨[.punct .leftBracket, .number (.int 2), .punct .rightBracket], some (.int 2)⟩,
    ⟨[.punct .leftBracket, .ident "n", .punct .rightBracket], some (.int 3)⟩]
  first := ⟨"x", [⟨[.punct .leftBracket, .number (.int 4), .punct .rightBracket], some (.int 4)⟩]⟩
  others := [⟨"y", [⟨[.punct .leftBracket, .punct .rightBracket], none⟩]⟩]

/-- Some tokens come next, and `n` is the constant 3. -/
def withConstant (ks : List TokenKind) : ParserState where
  tokens := unplaced ks
  shader :=
    { stage := .fragment
      exprs := #[.constant (.int 3)]
      vars := #[{ name := "n", type := .builtin (.scalar .int), flags := { constant := true },
                  role := .localVar (some ⟨0⟩) }] }
  scopes := [[⟨0⟩]]

theorem ahead_withConstant (ks : List TokenKind) :
    Ahead ks [] (NamesConstant "n" (.int 3)) (withConstant ks) := by
  refine ⟨⟨unplaced ks, ?_, (List.append_nil _).symm⟩, ⟨?_, ⟨0⟩, ⟨0⟩, rfl, rfl, rfl, rfl⟩⟩
  · rw [unplaced, List.map_map]
    exact List.map_id ks
  · intro v hv
    obtain rfl := List.mem_singleton.1 hv
    exact Nat.zero_lt_one

theorem readIn_scales : scales.ReadIn (NamesConstant "n" (.int 3)) where
  type := .builtin _ rfl (by decide)
  typeDims := by
    have hliteral := readIn_literal (Q := NamesConstant "n" (.int 3)) (.int 2)
      fun s scopes h => h.addExpr _
    exact List.forall_mem_cons.2 ⟨hliteral, List.forall_mem_singleton.2 (readIn_constant "n" _)⟩
  nameDims := by
    have hliteral := readIn_literal (Q := NamesConstant "n" (.int 3)) (.int 4)
      fun s scopes h => h.addExpr _
    refine List.forall_mem_cons.2 ⟨List.forall_mem_singleton.2 hliteral, ?_⟩
    exact List.forall_mem_singleton.2 (List.forall_mem_singleton.2 readIn_empty)

/-- The variables `x` and `y` of the text as global variables, fields and local variables, and `x`
as a parameter. -/
theorem dimensions_of_scales :
    (∃ st, externalDeclaration.run (withConstant (scales.tokens ++ [.punct .semicolon])) =
        .ok ((), st) ∧
      HasGlobals []
        [⟨"x", .builtin (.scalar .float), [some (.int 3), some (.int 2), some (.int 4)]⟩,
          ⟨"y", .builtin (.scalar .float), [some (.int 3), some (.int 2), none]⟩] st.shader) ∧
    (∃ fields st, (fieldsWithin 2 "structure").run
        (withConstant (.punct .leftBrace :: fieldTokens [scales])) = .ok (fields, st) ∧
      List.Forall₂ st.shader.IsVariable fields
        [⟨"x", .builtin (.scalar .float), [some (.int 3), some (.int 2), some (.int 4)]⟩,
          ⟨"y", .builtin (.scalar .float), [some (.int 3), some (.int 2), none]⟩]) ∧
    (∃ id vars st, (localDeclaration? [.semicolon]).run
        (withConstant (scales.tokens ++ [.punct .semicolon])) = .ok (some id, st) ∧
      st.shader.stmt id = .declaration vars ∧ List.Forall₂ st.shader.IsVariable vars
        [⟨"x", .builtin (.scalar .float), [some (.int 3), some (.int 2), some (.int 4)]⟩,
          ⟨"y", .builtin (.scalar .float), [some (.int 3), some (.int 2), none]⟩]) ∧
    (∃ v st, parameter.run (withConstant
        (scales.typeTokens ++ scales.first.tokens ++ [.punct .rightParen])) = .ok (v, st) ∧
      st.shader.IsVariable v
        ⟨"x", .builtin (.scalar .float), [some (.int 2), some (.int 3), some (.int 4)]⟩) := by
  obtain ⟨hglobals, hfields, hlocals, hparameter⟩ := dimensions_by_place readIn_scales
    (NamesConstant.holdsBeside (.int 3) (by decide)) []
  refine ⟨?_, ?_, ?_, ?_⟩
  · obtain ⟨_, st, hrun, h⟩ := hglobals [] _
      ⟨(ahead_withConstant _).1, (ahead_withConstant _).2, rfl⟩
    exact ⟨st, hrun, h.2⟩
  · obtain ⟨fields, st, hrun, h⟩ := hfields [] [] (List.forall_mem_nil _) 0 "structure" _
      (ahead_withConstant _)
    exact ⟨fields, st, hrun, h.2⟩
  · obtain ⟨_, st, hrun, id, rfl, _, vars, hstmt, hvars⟩ := hlocals .semicolon (by decide) _
      (ahead_withConstant _)
    exact ⟨id, vars, st, hrun, hstmt, hvars⟩
  · obtain ⟨v, st, hrun, h⟩ := hparameter .rightParen (by decide) _ (ahead_withConstant _)
    exact ⟨v, st, hrun, h.2.1⟩

/-- The tokens of `void f(float[2][3] p) { float[2][3] l; }`. -/
def arraysTwice : List TokenKind :=
  let type := [.keyword (.type (.scalar .float)), .punct .leftBracket, .number (.int 2),
    .punct .rightBracket, .punct .leftBracket, .number (.int 3), .punct .rightBracket]
  [.keyword (.type .void), .ident "f", .punct .leftParen] ++ type ++
    [.ident "p", .punct .rightParen, .punct .leftBrace] ++ type ++
    [.ident "l", .punct .semicolon, .punct .rightBrace, .endOfFile]

/-- The parameter and the local variable are declared with the same words. -/
theorem exists_parameter_dimensions_ne :
    ∃ s : Shader, plainShader? .fragment arraysTwice = some s ∧
      (s.var ⟨36⟩).role = .parameter {} ∧ (s.var ⟨37⟩).role = .localVar none ∧
      s.IsVariable ⟨36⟩ ⟨"p", .builtin (.scalar .float), [some (.int 2), some (.int 3)]⟩ ∧
      s.IsVariable ⟨37⟩ ⟨"l", .builtin (.scalar .float), [some (.int 3), some (.int 2)]⟩ ∧
      ¬ s.HasSizes (s.var ⟨36⟩).dims [some (.int 3), some (.int 2)] := by
  have hshader : (plainShader? .fragment arraysTwice).map (fun s => (s.vars.size,
      [s.var ⟨36⟩, s.var ⟨37⟩], [16, 17, 18, 19].map fun i : Nat => s.exprs[i]?)) =
      some (38,
        [{ name := "p", type := .builtin (.scalar .float), dims := [some ⟨16⟩, some ⟨17⟩],
            flags := { array := true }, role := .parameter {} },
          { name := "l", type := .builtin (.scalar .float), dims := [some ⟨19⟩, some ⟨18⟩],
            flags := { array := true }, role := .localVar none }],
        [some (.constant (.int 2)), some (.constant (.int 3)), some (.constant (.int 2)),
          some (.constant (.int 3))]) := by
    decide +kernel
  obtain ⟨s, hs, hfacts⟩ := Option.map_eq_some_iff.1 hshader
  simp only [List.map_cons, List.map_nil, Prod.mk.injEq, List.cons.injEq, and_true] at hfacts
  obtain ⟨hsize, ⟨hp, hl⟩, h16, h17, h18, h19⟩ := hfacts
  have hdims : s.HasSizes (s.var ⟨36⟩).dims [some (.int 2), some (.int 3)] := by
    rw [hp]
    exact .cons (congrArg some h16) (.cons (congrArg some h17) .nil)
  have hdims' : s.HasSizes (s.var ⟨37⟩).dims [some (.int 3), some (.int 2)] := by
    rw [hl]
    exact .cons (congrArg some h19) (.cons (congrArg some h18) .nil)
  refine ⟨s, hs, by rw [hp], by rw [hl], ⟨?_, by rw [hp], by rw [hp], hdims⟩,
    ⟨?_, by rw [hl], by rw [hl], hdims'⟩, fun h => absurd (hdims.unique h) (by decide)⟩ <;>
  · rw [hsize]
    decide

end Parse

end ShaderBridge
