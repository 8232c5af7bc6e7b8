import ShaderBridge.Proofs.Parse.Steps

/-!
The rules for expressions read a grouped phrase as its tree, whatever follows it, as long as that
does not belong to the phrase.

By the precedence of operators the rules do not take phrases one after the other: an operand is
read, and then the operators behind it are applied up to one that binds less strongly than what is
asked for. So what is shown of a phrase is that its first operand can be read, and that from there
on the operators lead to the tree of the phrase, in any context that does not bind more strongly.
-/

namespace ShaderBridge

namespace Phrase

def isStepped : Phrase → Bool
  | stepped .. => true
  | _ => false

end Phrase

namespace Parse

variable {ends : List Punct} {st st' : ParserState} {rest : List Token} {p l r : Phrase}
  {id : ExprId} {op : InfixOp}

/-- The tokens of a phrase come next, and the phrase can be read where they stand. -/
structure Starts (p : Phrase) (st : ParserState) (rest : List Token) : Prop where
  tokens : ∃ ts, st.tokens = ts ++ rest ∧
    ts.map Token.kind = p.kinds fun v => (st.shader.var v).name
  fits : p.tree.Fits st.shader.var st.scopes

/-- A tree has been added to the shader, and the tokens that are left have been reached. -/
structure Yields (t : Tree) (st : ParserState) (id : ExprId) (st' : ParserState)
    (rest : List Token) : Prop where
  tokens : st'.tokens = rest
  scopes : st'.scopes = st.scopes
  calls : st'.calls = st.calls
  adds : st.shader.Adds t.size st'.shader
  shows : st'.shader.Shows t id

/-- What follows a phrase takes nothing away from it. -/
structure Stops (ends : List Punct) (p : Phrase) (rest : List Token) : Prop where
  selection : p.isStepped ∨ isSelection (kindAt rest) = false
  binding : ∀ op n, infixAt? ends (kindAt rest) = some (op, n) → n ≤ p.reach

/-- An expression does not end within a phrase: the only operator to end it is the comma, and the
phrase is not a sequence then. -/
def Open (ends : List Punct) (p : Phrase) : Prop :=
  ∀ op : InfixOp, op.mark ∈ ends → op.binding = 1 ∧ 1 < p.level

/-- An operand from which members may be selected is read, up to the selections. -/
def ReadsClosed (p : Phrase) : Prop :=
  ∀ ⦃st rest⦄ (ends : List Punct), Starts p st rest → kindAt rest ≠ .punct .leftParen →
    ∃ id st', Yields p.tree st id st' rest ∧ ∀ fuel, 4 * p.length ≤ fuel →
      ∃ fuel', fuel ≤ fuel' + p.length ∧
        (operand fuel ends).run st = (selections fuel' id).run st'

/-- From the first operand of a phrase the operators lead to the whole of it. -/
structure Continues (ends : List Punct) (p : Phrase) (first : ExprId) (st₁ : ParserState)
    (id : ExprId) (st' : ParserState) : Prop where
  run : ∀ fuel level, 4 * p.length ≤ fuel → level ≤ p.level →
    ∃ fuel', fuel ≤ fuel' + p.length ∧
      (operations fuel ends level first).run st₁ = (operations fuel' ends level id).run st'
  next : p.level = 15 ∧ first = id ∧ st₁ = st' ∨ p.level < 15 ∧
    ∃ op n, infixAt? ends (kindAt st₁.tokens) = some (op, n) ∧ p.level ≤ n ∧ (p.level = 2 → n = 2)

/-- A phrase is read as its tree. -/
def ReadsPhrase (p : Phrase) : Prop :=
  ∀ ⦃st rest ends⦄, Starts p st rest → Stops ends p rest → Open ends p →
    ∃ first st₁ id st', Yields p.tree st id st' rest ∧
      (∀ fuel, 4 * p.length ≤ fuel → (operand fuel ends).run st = .ok (first, st₁)) ∧
      Continues ends p first st₁ id st'

/-! ### Parts of phrases -/

theorem Yields.var_eq {t : Tree} (h : Yields t st id st' rest) :
    st'.shader.var = st.shader.var :=
  funext h.adds.var_eq

theorem Starts.of_eq {tokens tail : List Token} (hst : st'.tokens = tokens ++ tail)
    (hkinds : tokens.map Token.kind = p.kinds fun v => (st.shader.var v).name)
    (hfits : p.tree.Fits st.shader.var st.scopes) (hvar : st'.shader.var = st.shader.var)
    (hscopes : st'.scopes = st.scopes) : Starts p st' tail :=
  ⟨⟨tokens, hst, by rw [hvar]; exact hkinds⟩, by rw [hvar, hscopes]; exact hfits⟩

theorem isSelection_mark (op : InfixOp) : isSelection (.punct op.mark) = false := by
  rcases op with op | op | _ | _
  · cases op <;> rfl
  · cases op <;> rfl
  · rfl
  · rfl

theorem infixAt?_mark (op : InfixOp) (hop : op.mark ∉ ends) :
    infixAt? ends (.punct op.mark) = some (op, op.binding) := by
  show (if ends.contains op.mark then none else InfixOp.ofPunct? op.mark) = _
  rw [if_neg (by simpa using hop), InfixOp.ofPunct?_mark]

theorem pos_of_infixAt? {kind : TokenKind} {n : Nat} (h : infixAt? ends kind = some (op, n)) :
    0 < n := by
  unfold infixAt? at h
  split at h
  · split at h
    · cases h
    · next p _ =>
        cases p <;> cases h <;> decide
  · cases h

theorem Starts.operation (h : Starts (.operation op l r) st rest) :
    ∃ t tail, t.kind = .punct op.mark ∧ Starts l st (t :: tail) ∧
      ∀ st', st'.tokens = tail → st'.shader.var = st.shader.var → st'.scopes = st.scopes →
        Starts r st' rest := by
  obtain ⟨⟨ts, hst, hkinds⟩, hfits⟩ := h
  obtain ⟨ls, ts', rfl, hls, hkinds⟩ := List.map_eq_append_iff.1 hkinds
  obtain ⟨t, rs, rfl, ht, hrs⟩ := List.map_eq_cons_iff.1 hkinds
  rw [List.append_assoc] at hst
  have hparts : l.tree.Fits st.shader.var st.scopes ∧ r.tree.Fits st.shader.var st.scopes := by
    rcases op with op | op | _ | _
    · exact hfits
    · exact ⟨hfits.1, hfits.2.1⟩
    · exact hfits
    · exact hfits
  exact ⟨t, rs ++ rest, ht, ⟨⟨ls, hst, hls⟩, hparts.1⟩, fun st' htokens hvar hscopes =>
    .of_eq htokens hrs hparts.2 hvar hscopes⟩

theorem Starts.choice {c t f : Phrase} (h : Starts (.choice c t f) st rest) :
    ∃ mark colon tail tail', mark.kind = .punct .question ∧ colon.kind = .punct .colon ∧
      Starts c st (mark :: tail) ∧
      (∀ st', st'.tokens = tail → st'.shader.var = st.shader.var → st'.scopes = st.scopes →
        Starts t st' (colon :: tail')) ∧
      ∀ st', st'.tokens = tail' → st'.shader.var = st.shader.var → st'.scopes = st.scopes →
        Starts f st' rest := by
  obtain ⟨⟨ts, hst, hkinds⟩, hfits⟩ := h
  obtain ⟨cs, ts', rfl, hcs, hkinds⟩ := List.map_eq_append_iff.1 hkinds
  obtain ⟨mark, ts', rfl, hmark, hkinds⟩ := List.map_eq_cons_iff.1 hkinds
  obtain ⟨us, ts', rfl, hus, hkinds⟩ := List.map_eq_append_iff.1 hkinds
  obtain ⟨colon, fs, rfl, hcolon, hfs⟩ := List.map_eq_cons_iff.1 hkinds
  rw [List.append_assoc] at hst
  refine ⟨mark, colon, us ++ colon :: (fs ++ rest), fs ++ rest, hmark, hcolon,
    ⟨⟨cs, ?_, hcs⟩, hfits.1⟩, fun st' htokens hvar hscopes =>
      .of_eq htokens hus hfits.2.1 hvar hscopes, fun st' htokens hvar hscopes =>
      .of_eq htokens hfs hfits.2.2 hvar hscopes⟩
  rw [hst, List.cons_append, List.append_assoc, List.cons_append]

theorem Starts.group (h : Starts (.group p) st rest) :
    ∃ mark closing tail, mark.kind = .punct .leftParen ∧ closing.kind = .punct .rightParen ∧
      st.tokens = mark :: tail ∧ Starts p { st with tokens := tail } (closing :: rest) := by
  obtain ⟨⟨ts, hst, hkinds⟩, hfits⟩ := h
  obtain ⟨mark, ts', rfl, hmark, hkinds⟩ := List.map_eq_cons_iff.1 hkinds
  obtain ⟨ps, ts', rfl, hps, hkinds⟩ := List.map_eq_append_iff.1 hkinds
  obtain ⟨closing, ts', rfl, hclosing, hkinds⟩ := List.map_eq_cons_iff.1 hkinds
  obtain rfl := List.map_eq_nil_iff.1 hkinds
  refine ⟨mark, closing, ps ++ closing :: rest, hmark, hclosing, ?_, ⟨ps, rfl, hps⟩, hfits⟩
  rw [hst, List.cons_append, List.append_assoc]
  rfl

theorem Starts.prefixed {op : UnaryOp} (h : Starts (.prefixed op p) st rest) :
    ∃ mark tail, mark.kind = .punct op.mark ∧ st.tokens = mark :: tail ∧
      Starts p { st with tokens := tail } rest := by
  obtain ⟨⟨ts, hst, hkinds⟩, hfits⟩ := h
  obtain ⟨mark, ps, rfl, hmark, hps⟩ := List.map_eq_cons_iff.1 hkinds
  exact ⟨mark, ps ++ rest, hmark, hst, ⟨ps, rfl, hps⟩, hfits⟩

theorem Starts.stepped {op : UnaryOp} (h : Starts (.stepped op p) st rest) :
    ∃ mark, mark.kind = .punct op.mark ∧ Starts p st (mark :: rest) := by
  obtain ⟨⟨ts, hst, hkinds⟩, hfits⟩ := h
  obtain ⟨ps, ts', rfl, hps, hkinds⟩ := List.map_eq_append_iff.1 hkinds
  obtain ⟨mark, ts', rfl, hmark, hkinds⟩ := List.map_eq_cons_iff.1 hkinds
  obtain rfl := List.map_eq_nil_iff.1 hkinds
  refine ⟨mark, hmark, ⟨ps, ?_, hps⟩, hfits⟩
  rw [hst, List.append_assoc]
  rfl

theorem Starts.swizzle {name : String} (h : Starts (.swizzle p name) st rest) :
    ∃ dot word, dot.kind = .punct .dot ∧ word.kind = .ident name ∧
      Starts p st (dot :: word :: rest) ∧
      ∀ v ∈ p.tree.vars, ∀ id, (st.shader.var v).type ≠ .declared id := by
  obtain ⟨⟨ts, hst, hkinds⟩, hfits⟩ := h
  obtain ⟨ps, ts', rfl, hps, hkinds⟩ := List.map_eq_append_iff.1 hkinds
  obtain ⟨dot, ts', rfl, hdot, hkinds⟩ := List.map_eq_cons_iff.1 hkinds
  obtain ⟨word, ts', rfl, hword, hkinds⟩ := List.map_eq_cons_iff.1 hkinds
  obtain rfl := List.map_eq_nil_iff.1 hkinds
  refine ⟨dot, word, hdot, hword, ⟨⟨ps, ?_, hps⟩, hfits.1⟩, hfits.2⟩
  rw [hst, List.append_assoc]
  rfl

/-! ### Operands -/

theorem exists_continues (hlevel : p.level = 15) {st : ParserState}
    (h : ∃ id st', Yields p.tree st id st' rest ∧ ∀ fuel, 4 * p.length ≤ fuel →
      (operand fuel ends).run st = .ok (id, st')) :
    ∃ first st₁ id st', Yields p.tree st id st' rest ∧
      (∀ fuel, 4 * p.length ≤ fuel → (operand fuel ends).run st = .ok (first, st₁)) ∧
      Continues ends p first st₁ id st' := by
  obtain ⟨id, st', hyields, hoperand⟩ := h
  exact ⟨id, st', id, st', hyields, hoperand,
    fun fuel level _ _ => ⟨fuel, Nat.le_add_right _ _, rfl⟩, .inl ⟨hlevel, rfl, rfl⟩⟩

theorem run_operand {base : ExprId} {fuel : Nat}
    (h : (primary fuel ends).run st = .ok (base, st')) :
    (operand (fuel + 1) ends).run st = (selections fuel base).run st' :=
  run_bind_of h

theorem Yields.addExpr {t : Tree} (h : Yields t st id st' rest)
    (t' : Tree) {tokens : List Token} {x : Expr} (hsize : t'.size = t.size + 1)
    (hx : ∀ s : Shader, s.Shows t id → s.exprs[(st'.shader.addExpr x).1.index]? = some x →
      s.Shows t' (st'.shader.addExpr x).1) :
    Yields t' st (st'.shader.addExpr x).1
      { st' with tokens := tokens, shader := (st'.shader.addExpr x).2 } tokens where
  tokens := rfl
  scopes := h.scopes
  calls := h.calls
  adds := hsize ▸ h.adds.trans (.addExpr _ _)
  shows := hx _ (h.shows.of_adds (.addExpr _ _)) (Shader.getElem?_addExpr _ _)

theorem readsClosed_literal (c : Constant) : ReadsClosed (.literal c) := by
  intro st rest ends hst _
  obtain ⟨⟨ts, htokens, hkinds⟩, _⟩ := hst
  obtain ⟨t, ts, rfl, ht, hkinds⟩ := List.map_eq_cons_iff.1 hkinds
  obtain rfl := List.map_eq_nil_iff.1 hkinds
  refine ⟨(st.shader.addExpr (.constant c)).1,
    { st with tokens := rest, shader := (st.shader.addExpr (.constant c)).2 },
    ⟨rfl, rfl, rfl, .addExpr _ _, Shader.getElem?_addExpr _ _⟩, fun fuel hfuel => ?_⟩
  obtain ⟨fuel, rfl⟩ : ∃ n, fuel = n + 2 := ⟨fuel - 2, by simp only [Phrase.length] at hfuel; omega⟩
  exact ⟨fuel + 1, Nat.le_refl _, run_operand (run_primary_literal htokens ht fuel)⟩

theorem readsClosed_var (v : VarId) : ReadsClosed (.var v) := by
  intro st rest ends hst hrest
  obtain ⟨⟨ts, htokens, hkinds⟩, hfits⟩ := hst
  obtain ⟨t, ts, rfl, ht, hkinds⟩ := List.map_eq_cons_iff.1 hkinds
  obtain rfl := List.map_eq_nil_iff.1 hkinds
  refine ⟨(st.shader.addExpr (.var v)).1,
    { st with tokens := rest, shader := (st.shader.addExpr (.var v)).2 },
    ⟨rfl, rfl, rfl, .addExpr _ _, Shader.getElem?_addExpr _ _⟩, fun fuel hfuel => ?_⟩
  obtain ⟨fuel, rfl⟩ : ∃ n, fuel = n + 2 := ⟨fuel - 2, by simp only [Phrase.length] at hfuel; omega⟩
  exact ⟨fuel + 1, Nat.le_refl _, run_operand (run_primary_var htokens ht hrest hfits fuel)⟩

theorem ReadsClosed.exists_run_selections (hp : ReadsClosed p) (ends : List Punct)
    (hst : Starts p st rest) (hrest : kindAt rest ≠ .punct .leftParen) :
    ∃ id st', Yields p.tree st id st' rest ∧ ∀ fuel, 4 * p.length ≤ fuel →
      ∃ fuel', fuel ≤ fuel' + 1 + p.length ∧
        (operand fuel ends).run st = (selections (fuel' + 1) id).run st' := by
  obtain ⟨id, st', hyields, hrun⟩ := hp ends hst hrest
  refine ⟨id, st', hyields, fun fuel hfuel => ?_⟩
  obtain ⟨fuel', hfuel', hrun⟩ := hrun fuel hfuel
  obtain ⟨fuel', rfl⟩ : ∃ n, fuel' = n + 1 := ⟨fuel' - 1, by
    have := p.length_pos
    omega⟩
  exact ⟨fuel', hfuel', hrun⟩

theorem readsClosed_swizzle (name : String) (hp : ReadsClosed p) :
    ReadsClosed (.swizzle p name) := by
  intro st rest ends hst _
  obtain ⟨dot, word, hdot, hword, hst, hvars⟩ := hst.swizzle
  obtain ⟨base, st₁, hbase, hrun⟩ := hp.exists_run_selections ends hst (by
    show dot.kind ≠ _
    rw [hdot]
    exact fun h => by cases h)
  refine ⟨_, _, hbase.addExpr (.swizzle p.tree name) rfl fun s hs hx => ⟨base, hx, hs⟩,
    fun fuel hfuel => ?_⟩
  simp only [Phrase.length] at hfuel
  obtain ⟨fuel', hfuel', hrun⟩ := hrun fuel (by omega)
  refine ⟨fuel', by simp only [Phrase.length]; omega, hrun.trans ?_⟩
  exact run_selections_swizzle hbase.tokens hdot hword
    (Shader.baseTypeOf?_ne_declared hbase.shows (by rwa [hbase.var_eq])) fuel'

theorem exists_run_stepped {op : UnaryOp} (hop : op.isPostfix) (hp : ReadsClosed p)
    (hst : Starts (.stepped op p) st rest) :
    ∃ id st', Yields (Phrase.stepped op p).tree st id st' rest ∧
      ∀ fuel, 4 * (Phrase.stepped op p).length ≤ fuel →
        (operand fuel ends).run st = .ok (id, st') := by
  obtain ⟨mark, hmark, hst⟩ := hst.stepped
  obtain ⟨base, st₁, hbase, hrun⟩ := hp.exists_run_selections ends hst (by
    show mark.kind ≠ _
    rw [hmark]
    cases op <;> exact fun h => by cases h)
  refine ⟨_, _, hbase.addExpr (.unary op p.tree) rfl fun s hs hx => ⟨base, hx, hs⟩,
    fun fuel hfuel => ?_⟩
  simp only [Phrase.length] at hfuel
  obtain ⟨fuel', hfuel', hrun⟩ := hrun fuel (by omega)
  exact hrun.trans (run_selections_step hop hbase.tokens hmark fuel')

theorem exists_run_primary_prefixed (ends : List Punct) {op : UnaryOp} (hop : op.isPostfix = false)
    (hst : Starts (.prefixed op p) st rest)
    (hp : ∀ st, Starts p st rest → ∃ id st', Yields p.tree st id st' rest ∧
      ∀ fuel, 4 * p.length ≤ fuel → (operand fuel ends).run st = .ok (id, st')) :
    ∃ id st', Yields (Phrase.prefixed op p).tree st id st' rest ∧
      ∀ fuel, 4 * p.length < fuel → (primary fuel ends).run st = .ok (id, st') := by
  obtain ⟨mark, tail, hmark, htokens, hst⟩ := hst.prefixed
  obtain ⟨base, st₁, hbase, hrun⟩ := hp _ hst
  have hyields : Yields p.tree st base st₁ rest :=
    ⟨hbase.tokens, hbase.scopes, hbase.calls, hbase.adds, hbase.shows⟩
  refine ⟨_, _, hyields.addExpr (.unary op p.tree) rfl fun s hs hx => ⟨base, hx, hs⟩,
    fun fuel hfuel => ?_⟩
  obtain ⟨fuel, rfl⟩ : ∃ n, fuel = n + 1 := ⟨fuel - 1, by omega⟩
  refine (run_primary_signed hop htokens hmark fuel).trans ?_
  refine (run_bind_of (hrun fuel (by omega))).trans ?_
  rw [← hbase.tokens]
  rfl

theorem stops_of_end (hselection : p.isStepped ∨ isSelection (kindAt rest) = false)
    (hend : infixAt? ends (kindAt rest) = none) : Stops ends p rest :=
  ⟨hselection, fun op n h => by rw [hend] at h; cases h⟩

theorem ReadsPhrase.exists_run_expressionWithin (ends : List Punct) (hp : ReadsPhrase p)
    (hst : Starts p st rest) (hselection : p.isStepped ∨ isSelection (kindAt rest) = false)
    (hend : infixAt? ends (kindAt rest) = none) (hopen : Open ends p) :
    ∃ id st', Yields p.tree st id st' rest ∧
      ∀ fuel, 4 * p.length < fuel → (expressionWithin fuel ends).run st = .ok (id, st') := by
  obtain ⟨first, st₁, id, st', hyields, hoperand, hcontinues⟩ :=
    hp hst (stops_of_end hselection hend) hopen
  refine ⟨id, st', hyields, fun fuel hfuel => ?_⟩
  obtain ⟨fuel, rfl⟩ : ∃ n, fuel = n + 1 := ⟨fuel - 1, by omega⟩
  refine (run_bind_of (hoperand fuel (by omega))).trans ?_
  obtain ⟨fuel', hfuel', hrun⟩ := hcontinues.run fuel 0 (by omega) (Nat.zero_le _)
  obtain ⟨fuel', rfl⟩ : ∃ n, fuel' = n + 1 := ⟨fuel' - 1, by
    have := p.length_pos
    omega⟩
  refine hrun.trans (run_operations_done (fun op n h => ?_) fuel' id)
  rw [hyields.tokens, hend] at h
  cases h

theorem open_of_closing {mark : Punct} (hmark : InfixOp.ofPunct? mark = none) (p : Phrase) :
    Open [mark] p := by
  intro op hop
  rw [← List.mem_singleton.1 hop, InfixOp.ofPunct?_mark] at hmark
  cases hmark

theorem readsClosed_group (hp : ReadsPhrase p) : ReadsClosed (.group p) := by
  intro st rest ends hst _
  obtain ⟨mark, closing, tail, hmark, hclosing, htokens, hst⟩ := hst.group
  have hkind : kindAt (closing :: rest) = .punct .rightParen := hclosing
  obtain ⟨id, st₁, hyields, hrun⟩ := hp.exists_run_expressionWithin [.rightParen] hst
    (.inr (by rw [hkind]; rfl)) (by rw [hkind]; rfl) (open_of_closing rfl p)
  refine ⟨id, { st₁ with tokens := rest }, ⟨rfl, hyields.scopes, hyields.calls, hyields.adds,
    hyields.shows⟩, fun fuel hfuel => ?_⟩
  simp only [Phrase.length] at hfuel
  obtain ⟨fuel, rfl⟩ : ∃ n, fuel = n + 2 := ⟨fuel - 2, by omega⟩
  refine ⟨fuel + 1, by simp only [Phrase.length]; omega, run_operand ?_⟩
  refine (run_primary_group htokens hmark fuel).trans ?_
  refine (run_bind_of (hrun fuel (by omega))).trans ?_
  exact run_bind_of (run_expect hyields.tokens hclosing)

theorem readsClosed_prefixed {op op' : UnaryOp} (hop : op.isPostfix = false)
    (hop' : op'.isPostfix) (hp : ReadsClosed p) :
    ReadsClosed (.prefixed op (.stepped op' p)) := by
  intro st rest ends hst _
  obtain ⟨id, st', hyields, hrun⟩ := exists_run_primary_prefixed ends hop hst
    fun st hst => exists_run_stepped hop' hp hst
  refine ⟨id, st', hyields, fun fuel hfuel => ?_⟩
  simp only [Phrase.length] at hfuel hrun
  obtain ⟨fuel, rfl⟩ : ∃ n, fuel = n + 1 := ⟨fuel - 1, by omega⟩
  exact ⟨fuel, by simp only [Phrase.length]; omega, run_operand (hrun fuel (by omega))⟩

/-! ### Phrases that are operands -/

theorem readsPhrase_closed (hlevel : p.level = 15) (hstepped : p.isStepped = false)
    (hp : ReadsClosed p) : ReadsPhrase p := by
  intro st rest ends hst hstops _
  have hselection := hstops.selection.resolve_left (by rw [hstepped]; exact Bool.false_ne_true)
  refine exists_continues hlevel ?_
  obtain ⟨id, st', hyields, hrun⟩ := hp ends hst (by
    intro hparen
    rw [hparen] at hselection
    cases hselection)
  refine ⟨id, st', hyields, fun fuel hfuel => ?_⟩
  obtain ⟨fuel', hfuel', hrun⟩ := hrun fuel hfuel
  obtain ⟨fuel', rfl⟩ : ∃ n, fuel' = n + 1 := ⟨fuel' - 1, by
    have := p.length_pos
    omega⟩
  exact hrun.trans (run_selections_done (by rwa [hyields.tokens]) fuel' id)

theorem readsPhrase_stepped {op : UnaryOp} (hop : op.isPostfix) (hp : ReadsClosed p) :
    ReadsPhrase (.stepped op p) := by
  intro st rest ends hst _ _
  exact exists_continues rfl (exists_run_stepped hop hp hst)

theorem readsPhrase_prefixed {op : UnaryOp} (hop : op.isPostfix = false) (hlevel : p.level = 15)
    (hp : ReadsPhrase p) : ReadsPhrase (.prefixed op p) := by
  intro st rest ends hst hstops hopen
  have hselection := hstops.selection.resolve_left Bool.false_ne_true
  have hreach : p.reach = (Phrase.prefixed op p).reach := by
    unfold Phrase.reach
    rw [hlevel]
    rfl
  refine exists_continues rfl ?_
  obtain ⟨id, st', hyields, hrun⟩ := exists_run_primary_prefixed ends hop hst (by
    intro st hst
    obtain ⟨first, st₁, id, st', hyields, hrun, hcontinues⟩ := hp hst
      ⟨.inr hselection, fun op n h => hreach ▸ hstops.binding op n h⟩
      fun op hmark => ⟨(hopen op hmark).1, by rw [hlevel]; decide⟩
    obtain ⟨_, rfl, rfl⟩ | ⟨hlt, _⟩ := hcontinues.next
    · exact ⟨first, st₁, hyields, hrun⟩
    · exact absurd hlt (by rw [hlevel]; decide))
  refine ⟨id, st', hyields, fun fuel hfuel => ?_⟩
  simp only [Phrase.length] at hfuel
  obtain ⟨fuel, rfl⟩ : ∃ n, fuel = n + 2 := ⟨fuel - 2, by omega⟩
  exact (run_operand (hrun (fuel + 1) (by omega))).trans
    (run_selections_done (by rwa [hyields.tokens]) fuel id)

/-! ### Operations -/

/-- What may follow an operation binds no more strongly than its operator, and less strongly if
operators group to the right. -/
theorem le_of_le_reach (hop : op ≠ .choice) {n : Nat}
    (hn : n ≤ (Phrase.operation op l r).reach) :
    n ≤ op.binding ∧ (op.isAssign → n ≠ op.binding) := by
  rcases op with op | op | _ | _
  · refine ⟨Nat.le_trans hn (Phrase.reach_le_level _), fun h => ?_⟩
    cases h
  · exact ⟨Nat.le_succ_of_le hn, fun _ => Nat.ne_of_lt (Nat.lt_succ_of_le hn)⟩
  · exact absurd rfl hop
  · refine ⟨hn, fun h => ?_⟩
    cases h

theorem binding_of_isAssign (hop : op.isAssign) : op.binding = 2 := by
  rcases op with op | op | _ | _
  · cases hop
  · rfl
  · cases hop
  · cases hop

theorem isAssign_of_binding (hop : op.binding = 2) : op.isAssign := by
  rcases op with op | op | _ | _
  · cases op <;> cases hop
  · rfl
  · cases hop
  · cases hop

theorem Continues.run_rightOperand {first : ExprId} {st₁ : ParserState} {binding : Nat}
    {toRight : Bool} (h : Continues ends r first st₁ id st')
    (hlevel : if toRight then binding = 2 ∧ 2 ≤ r.level else binding < r.level)
    (hend : ∀ op n, infixAt? ends (kindAt st'.tokens) = some (op, n) →
      n ≤ binding ∧ (toRight → n ≠ binding)) {fuel : Nat} (hfuel : 4 * r.length < fuel) :
    (rightOperand fuel ends toRight binding first).run st₁ = .ok (id, st') := by
  obtain ⟨fuel, rfl⟩ : ∃ n, fuel = n + 2 := ⟨fuel - 2, by
    have := r.length_pos
    omega⟩
  obtain ⟨hoperand, rfl, rfl⟩ | ⟨hlt, op', n, hnext, hle, htwo⟩ := h.next
  · exact run_rightOperand_done hend (fuel + 1) first
  · have htaken : binding < n ∨ toRight ∧ n = binding := by
      cases toRight with
      | false => exact .inl (Nat.lt_of_lt_of_le hlevel hle)
      | true =>
          obtain ⟨rfl, htwo'⟩ := hlevel
          rcases Nat.lt_or_eq_of_le htwo' with hlt | heq
          · exact .inl (Nat.lt_of_lt_of_le hlt hle)
          · exact .inr ⟨rfl, htwo heq.symm⟩
    refine (run_rightOperand_extend hnext htaken (fuel + 1) first).trans ?_
    have hlevel' : (if binding < n then binding + 1 else binding) ≤ r.level := by
      cases toRight with
      | false =>
          have hlevel : binding < r.level := hlevel
          split <;> omega
      | true =>
          obtain ⟨rfl, htwo'⟩ := hlevel
          split
          · have : r.level ≠ 2 := fun h => by
              have := htwo h
              omega
            omega
          · exact htwo'
    obtain ⟨fuel', hfuel', hrun⟩ := h.run (fuel + 1) _ (by omega) hlevel'
    obtain ⟨fuel', rfl⟩ : ∃ n, fuel' = n + 1 := ⟨fuel' - 1, by
      have := r.length_pos
      omega⟩
    refine (run_bind_of (hrun.trans (run_operations_done (fun op k hk => ?_) fuel' id))).trans
      (run_rightOperand_done hend fuel id)
    obtain ⟨hkle, hkne⟩ := hend op k hk
    split
    · exact Nat.lt_succ_of_le hkle
    · next hnlt =>
        exact Nat.lt_of_le_of_ne hkle (hkne (htaken.resolve_left hnlt).1)

theorem exists_run_combine {left right : ExprId} (hop : op ≠ .choice)
    (hleft : st.shader.Shows l.tree left) (hright : st.shader.Shows r.tree right)
    (hsize : l.tree.size ≤ st.shader.exprs.size) {scopes : List (List VarId)}
    (hfits : (Phrase.operation op l r).tree.Fits st.shader.var scopes) :
    ∃ id s', (combine op left right).run st = .ok (id, { st with shader := s' }) ∧
      st.shader.Adds 1 s' ∧ s'.Shows (Phrase.operation op l r).tree id := by
  rcases op with op | op | _ | _
  · exact ⟨_, _, rfl, .addExpr _ _, left, right, Shader.getElem?_addExpr _ _,
      hleft.of_adds (.addExpr _ _), hright.of_adds (.addExpr _ _)⟩
  · obtain ⟨_, _, v, htarget, hinput, himmutable⟩ := hfits
    exact ⟨_, _, run_combine_assign (Shader.targetVariable?_of_shows hleft htarget hsize) hinput
      himmutable, .addExpr _ _, left, right, Shader.getElem?_addExpr _ _,
      hleft.of_adds (.addExpr _ _), hright.of_adds (.addExpr _ _)⟩
  · exact absurd rfl hop
  · exact ⟨_, _, rfl, .addExpr _ _, left, right, Shader.getElem?_addExpr _ _,
      hleft.of_adds (.addExpr _ _), hright.of_adds (.addExpr _ _)⟩

theorem reach_le_right (hop : op ≠ .choice) (hchoice : r.level ≠ 3)
    (hlevel : if op.isAssign then l.level = 15 ∧ 2 ≤ r.level else op.binding < r.level) :
    (Phrase.operation op l r).reach ≤ r.reach := by
  obtain ⟨hle, hne⟩ := le_of_le_reach (l := l) (r := r) hop (Nat.le_refl _)
  split at hlevel
  · next h =>
      have hne := hne h
      rw [binding_of_isAssign h] at hle hne
      exact Phrase.le_reach (by omega) hchoice fun _ => by omega
  · exact Phrase.le_reach (by omega) hchoice fun _ => by omega

theorem Continues.extend {first left : ExprId} {st₁ stl : ParserState}
    (h : Continues ends l first st₁ left stl)
    (hnext : infixAt? ends (kindAt stl.tokens) = some (op, p.level)) (hlt : p.level < 15)
    (hle : p.level ≤ l.level) (hassign : p.level = 2 → l.level = 15) (hlength : l.length < p.length)
    (hstep : ∀ fuel level, 4 * p.length ≤ fuel + 1 + l.length → level ≤ p.level →
      (operations (fuel + 1) ends level left).run stl = (operations fuel ends level id).run st') :
    Continues ends p first st₁ id st' where
  run fuel level hfuel hlevel := by
    obtain ⟨fuel', hfuel', hrun⟩ := h.run fuel level (by omega) (Nat.le_trans hlevel hle)
    obtain ⟨fuel', rfl⟩ : ∃ n, fuel' = n + 1 := ⟨fuel' - 1, by omega⟩
    exact ⟨fuel', by omega, hrun.trans (hstep fuel' level (by omega) hlevel)⟩
  next := by
    refine .inr ⟨hlt, ?_⟩
    obtain ⟨_, rfl, rfl⟩ | ⟨hlt', op', n, hop', hn, _⟩ := h.next
    · exact ⟨op, p.level, hnext, Nat.le_refl _, fun h => h⟩
    · exact ⟨op', n, hop', Nat.le_trans hle hn, fun htwo => absurd (hassign htwo) (by omega)⟩

theorem run_operations_operation {left right first id : ExprId} {t : Token} {tail : List Token}
    {st₁ str : ParserState} {s' : Shader} {fuel level : Nat} (htokens : st.tokens = t :: tail)
    (hnext : infixAt? ends t.kind = some (op, op.binding)) (hop : op ≠ .choice)
    (hle : level ≤ op.binding)
    (hoperand : (operand fuel ends).run { st with tokens := tail } = .ok (first, st₁))
    (hright : (rightOperand fuel ends op.isAssign op.binding first).run st₁ = .ok (right, str))
    (hcombine : (combine op left right).run str = .ok (id, { str with shader := s' })) :
    (operations (fuel + 1) ends level left).run st =
      (operations fuel ends level id).run { str with shader := s' } := by
  rw [run_operations_operator htokens hnext hop hle, run_bind_of hoperand, run_bind_of hright]
  exact run_bind_of hcombine

theorem readsPhrase_operation (hop : op ≠ .choice) (hl : ReadsPhrase l) (hr : ReadsPhrase r)
    (hreach : op.binding ≤ l.reach) (hchoice : r.level ≠ 3)
    (hlevel : if op.isAssign then l.level = 15 ∧ 2 ≤ r.level else op.binding < r.level) :
    ReadsPhrase (.operation op l r) := by
  intro st rest ends hst hstops hopen
  obtain ⟨t, tail, ht, hstl, hstr⟩ := hst.operation
  have hbinding : op.binding ≤ l.level := Nat.le_trans hreach l.reach_le_level
  have hbinding' : op.binding ≤ r.level := by
    split at hlevel
    · next h => rw [binding_of_isAssign h]; exact hlevel.2
    · exact Nat.le_of_lt hlevel
  have hmark : op.mark ∉ ends := fun h => by
    obtain ⟨heq, hlt⟩ := hopen op h
    exact absurd hlt (by rw [← heq]; exact Nat.lt_irrefl _)
  have hnext : infixAt? ends t.kind = some (op, op.binding) := by rw [ht, infixAt?_mark op hmark]
  -- The left operand is read up to the operator, which binds no tighter than the operand reaches.
  obtain ⟨first, st₁, left, stl, hyieldsl, hoperand, hcontinuesl⟩ := hl hstl
    ⟨.inr (by show isSelection t.kind = false; rw [ht, isSelection_mark]), fun op' n h => by
      rw [show kindAt (t :: tail) = t.kind from rfl, hnext] at h
      cases h
      exact hreach⟩
    fun op' h => ⟨(hopen op' h).1, Nat.lt_of_lt_of_le (hopen op' h).2 hbinding⟩
  -- The right operand ends where the phrase does, since what stops the phrase binds no tighter.
  obtain ⟨first', st₂, right, str, hyieldsr, hoperandr, hcontinuesr⟩ :=
    hr (hstr { stl with tokens := tail } rfl hyieldsl.var_eq hyieldsl.scopes)
      ⟨.inr (hstops.selection.resolve_left Bool.false_ne_true), fun op' n h =>
        Nat.le_trans (hstops.binding op' n h) (reach_le_right hop hchoice hlevel)⟩
      fun op' h => ⟨(hopen op' h).1, Nat.lt_of_lt_of_le (hopen op' h).2 hbinding'⟩
  have hright {fuel : Nat} (hfuel : 4 * r.length < fuel) :
      (rightOperand fuel ends op.isAssign op.binding first').run st₂ = .ok (right, str) := by
    refine hcontinuesr.run_rightOperand ?_ (fun op' n h => ?_) hfuel
    · split at hlevel
      · next h =>
          rw [if_pos h]
          exact ⟨binding_of_isAssign h, hlevel.2⟩
      · next h => rwa [if_neg h]
    · rw [hyieldsr.tokens] at h
      exact le_of_le_reach hop (hstops.binding op' n h)
  have hvar : str.shader.var = st.shader.var := hyieldsr.var_eq.trans hyieldsl.var_eq
  have hsizel : l.tree.size ≤ str.shader.exprs.size := by
    have hsizer := hyieldsr.adds.size_eq
    have hsizel := hyieldsl.adds.size_eq
    dsimp only at hsizer
    omega
  obtain ⟨id, s', hcombine, hadds, hshows⟩ := exists_run_combine (r := r) hop
    (hyieldsl.shows.of_adds hyieldsr.adds) hyieldsr.shows hsizel (by rw [hvar]; exact hst.fits)
  have hsize : (Phrase.operation op l r).tree.size = l.tree.size + r.tree.size + 1 := by
    rcases op with op | op | _ | _ <;> rfl
  have hlength : (Phrase.operation op l r).length = l.length + r.length + 1 := rfl
  refine ⟨first, st₁, id, { str with shader := s' }, ⟨hyieldsr.tokens,
    hyieldsr.scopes.trans hyieldsl.scopes, hyieldsr.calls.trans hyieldsl.calls,
    hsize ▸ (hyieldsl.adds.trans hyieldsr.adds).trans hadds, hshows⟩,
    fun fuel hfuel => hoperand fuel (by omega), ?_⟩
  refine hcontinuesl.extend (by rw [hyieldsl.tokens]; exact hnext) op.binding_lt hbinding
    (fun htwo => ?_) (by omega) fun fuel level hfuel hle =>
      run_operations_operation hyieldsl.tokens hnext hop hle (hoperandr fuel (by omega))
        (hright (by omega)) hcombine
  have hassign : op.isAssign := isAssign_of_binding htwo
  rw [if_pos hassign] at hlevel
  exact hlevel.1

theorem readsPhrase_choice {c t f : Phrase} (hc : ReadsPhrase c) (ht : ReadsPhrase t)
    (hf : ReadsPhrase f) (hlevel : 3 < c.level) (hlevel' : 1 < f.level) :
    ReadsPhrase (.choice c t f) := by
  intro st rest ends hst hstops hopen
  obtain ⟨mark, colon, tail, tail', hmark, hcolon, hstc, hstt, hstf⟩ := hst.choice
  have hnext : infixAt? ends mark.kind = some (.choice, 3) := by
    rw [hmark]
    exact infixAt?_mark .choice fun h => absurd (hopen .choice h).1 (by decide)
  -- No operator follows, because a choice takes all that does.
  have hend : infixAt? ends (kindAt rest) = none := by
    cases h : infixAt? ends (kindAt rest) with
    | none => rfl
    | some next => exact absurd (hstops.binding _ _ h) (Nat.not_le.2 (pos_of_infixAt? h))
  obtain ⟨first, st₁, condition, stc, hyieldsc, hoperand, hcontinues⟩ := hc hstc
    ⟨.inr (by show isSelection mark.kind = false; rw [hmark]; rfl), fun op n h => by
      rw [show kindAt (mark :: tail) = mark.kind from rfl, hnext] at h
      cases h
      exact Phrase.le_reach (Nat.le_of_lt hlevel) (by omega) (by omega)⟩
    fun op h => ⟨(hopen op h).1, Nat.lt_trans (hopen op h).2 hlevel⟩
  have hkind : kindAt (colon :: tail') = .punct .colon := hcolon
  obtain ⟨onTrue, stt, hyieldst, hrunt⟩ := ht.exists_run_expressionWithin [.colon]
    (hstt { stc with tokens := tail } rfl hyieldsc.var_eq hyieldsc.scopes)
    (.inr (by rw [hkind]; rfl)) (by rw [hkind]; rfl) (open_of_closing rfl t)
  obtain ⟨onFalse, stf, hyieldsf, hrunf⟩ := hf.exists_run_expressionWithin ends
    (hstf { stt with tokens := tail' } rfl (hyieldst.var_eq.trans hyieldsc.var_eq)
      (hyieldst.scopes.trans hyieldsc.scopes))
    (.inr (hstops.selection.resolve_left Bool.false_ne_true)) hend
    fun op h => ⟨(hopen op h).1, hlevel'⟩
  have hlength : (Phrase.choice c t f).length = c.length + t.length + f.length + 2 := rfl
  refine ⟨first, st₁, (stf.shader.addExpr (.choice condition onTrue onFalse)).1,
    { stf with shader := (stf.shader.addExpr (.choice condition onTrue onFalse)).2 },
    ⟨hyieldsf.tokens, hyieldsf.scopes.trans (hyieldst.scopes.trans hyieldsc.scopes),
      hyieldsf.calls.trans (hyieldst.calls.trans hyieldsc.calls),
      ((hyieldsc.adds.trans hyieldst.adds).trans hyieldsf.adds).trans (.addExpr _ _),
      condition, onTrue, onFalse, Shader.getElem?_addExpr _ _,
      ((hyieldsc.shows.of_adds hyieldst.adds).of_adds hyieldsf.adds).of_adds (.addExpr _ _),
      (hyieldst.shows.of_adds hyieldsf.adds).of_adds (.addExpr _ _),
      hyieldsf.shows.of_adds (.addExpr _ _)⟩,
    fun fuel hfuel => hoperand fuel (by omega), ?_⟩
  refine hcontinues.extend (by rw [hyieldsc.tokens]; exact hnext) (by decide : 3 < 15)
    (Nat.le_of_lt hlevel) (fun htwo => by cases htwo) (by omega) fun fuel level hfuel hle => ?_
  rw [run_operations_choice hyieldsc.tokens hnext hle, run_bind_of (hrunt fuel (by omega)),
    run_bind_of (run_expect hyieldst.tokens hcolon)]
  exact run_bind_of (hrunf fuel (by omega))

/-! ### All phrases -/

/-- Every grouped phrase is read as its tree. What is selected from a closed one is selected from
the whole of it, and so it is where an operator stands in front of a step. -/
theorem reads_of_grouped (hp : p.Grouped) :
    (p.isClosed → ReadsClosed p) ∧ ReadsPhrase p ∧
      (p.isStepped → ∀ op : UnaryOp, op.isPostfix = false → ReadsClosed (.prefixed op p)) := by
  induction p with
  | literal c =>
      have hclosed := readsClosed_literal c
      exact ⟨fun _ => hclosed, readsPhrase_closed rfl rfl hclosed,
        fun h => absurd h Bool.false_ne_true⟩
  | var v =>
      have hclosed := readsClosed_var v
      exact ⟨fun _ => hclosed, readsPhrase_closed rfl rfl hclosed,
        fun h => absurd h Bool.false_ne_true⟩
  | group p ih =>
      have hclosed := readsClosed_group (ih hp).2.1
      exact ⟨fun _ => hclosed, readsPhrase_closed rfl rfl hclosed,
        fun h => absurd h Bool.false_ne_true⟩
  | prefixed op p ih =>
      obtain ⟨hop, hp, hlevel⟩ := hp
      refine ⟨fun hclosed => (ih hp).2.2 ?_ op hop, readsPhrase_prefixed hop hlevel (ih hp).2.1,
        fun h => absurd h Bool.false_ne_true⟩
      cases p with
      | stepped => rfl
      | _ => cases hclosed
  | stepped op p ih =>
      obtain ⟨hop, hp, hclosed⟩ := hp
      have hreads := (ih hp).1 hclosed
      exact ⟨fun h => absurd h Bool.false_ne_true, readsPhrase_stepped hop hreads,
        fun _ _ hprefix => readsClosed_prefixed hprefix hop hreads⟩
  | swizzle p name ih =>
      have hclosed := readsClosed_swizzle name ((ih hp.1).1 hp.2)
      exact ⟨fun _ => hclosed, readsPhrase_closed rfl rfl hclosed,
        fun h => absurd h Bool.false_ne_true⟩
  | operation op l r ihl ihr =>
      obtain ⟨hop, hl, hr, hreach, hchoice, hlevel⟩ := hp
      exact ⟨fun h => absurd h Bool.false_ne_true,
        readsPhrase_operation hop (ihl hl).2.1 (ihr hr).2.1 hreach hchoice hlevel,
        fun h => absurd h Bool.false_ne_true⟩
  | choice c t f ihc iht ihf =>
      obtain ⟨hc, ht, hf, hlevel, hlevel'⟩ := hp
      exact ⟨fun h => absurd h Bool.false_ne_true,
        readsPhrase_choice (ihc hc).2.1 (iht ht).2.1 (ihf hf).2.1 hlevel hlevel',
        fun h => absurd h Bool.false_ne_true⟩

theorem exists_run_expression (hp : p.Grouped) (hst : Starts p st rest)
    (hselection : isSelection (kindAt rest) = false) (hend : infixAt? ends (kindAt rest) = none)
    (hopen : Open ends p) :
    ∃ id st', (expression ends).run st = .ok (id, st') ∧ Yields p.tree st id st' rest := by
  obtain ⟨id, st', hyields, hrun⟩ :=
    (reads_of_grouped hp).2.1.exists_run_expressionWithin ends hst (.inr hselection) hend hopen
  have hfuel : fuel.run st = .ok (8 * st.tokens.length + 16, st) := rfl
  refine ⟨id, st', (run_bind_of hfuel).trans (hrun _ ?_), hyields⟩
  obtain ⟨ts, htokens, hkinds⟩ := hst.tokens
  have hlength : ts.length = p.length := by
    rw [← List.length_map Token.kind, hkinds, Phrase.length_kinds]
  rw [htokens, List.length_append]
  omega

end Parse

end ShaderBridge
