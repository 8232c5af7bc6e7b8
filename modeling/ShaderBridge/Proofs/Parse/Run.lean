import ShaderBridge.Parse.Function

/-!
Runs of the rules of the parser. What a rule does to the state of the parse is put together from a
few small steps, so a relation between states that is kept by these steps, and that holds along two
runs one after the other where it holds along each, holds along every run of the rule. A rule also
leads from a property of the state in front to one of the result and the state behind.
-/

namespace ShaderBridge

namespace Parse

variable {α β γ : Type} {R : ParserState → ParserState → Prop}

/-- Every run of a rule that gives a result goes from a state to a related one. -/
def Along (R : ParserState → ParserState → Prop) (m : ParseM α) : Prop :=
  ∀ st a st', m.run st = .ok (a, st') → R st st'

/-- A rule that only looks at the state. -/
def Reads (m : ParseM α) : Prop :=
  ∀ st a st', m.run st = .ok (a, st') → st' = st

theorem run_bind_ok {m : ParseM α} {f : α → ParseM β} {st st' : ParserState} {b : β} :
    (m >>= f).run st = .ok (b, st') ↔
      ∃ a st₁, m.run st = .ok (a, st₁) ∧ (f a).run st₁ = .ok (b, st') := by
  rw [StateT.run_bind]
  cases m.run st with
  | error e =>
      constructor
      · intro h
        cases h
      · rintro ⟨a, st₁, h, _⟩
        cases h
  | ok r =>
      constructor
      · intro h
        exact ⟨r.1, r.2, rfl, h⟩
      · rintro ⟨a, st₁, h, hf⟩
        cases h
        exact hf

theorem run_bind_of {m : ParseM α} {f : α → ParseM β} {st st' : ParserState} {a : α}
    (h : m.run st = .ok (a, st')) : (m >>= f).run st = (f a).run st' := by
  rw [StateT.run_bind, h]
  rfl

theorem run_repeatWithin_inl {step : α → ParseM (α ⊕ β)} {a b : α} {st st' : ParserState}
    (h : (step a).run st = .ok (.inl b, st')) (n : Nat) :
    (repeatWithin step (n + 1) a).run st = (repeatWithin step n b).run st' :=
  run_bind_of h

theorem run_repeatWithin_inr {step : α → ParseM (α ⊕ β)} {a : α} {b : β} {st st' : ParserState}
    (h : (step a).run st = .ok (.inr b, st')) (n : Nat) :
    (repeatWithin step (n + 1) a).run st = .ok (b, st') :=
  run_bind_of h

/-! ### What comes next -/

theorem run_peek (st : ParserState) : peek.run st = .ok (kindAt st.tokens, st) :=
  rfl

theorem kindAt_of_peek {st st' : ParserState} {kind : TokenKind}
    (h : peek.run st = .ok (kind, st')) :
    kindAt st.tokens = kind :=
  (Prod.mk.inj (Except.ok.inj h)).1

theorem run_atDoubleBracket? (st : ParserState) :
    atDoubleBracket?.run st = .ok (kindAt st.tokens == .punct .leftBracket &&
      kindAt st.tokens.tail == .punct .leftBracket, st) :=
  rfl

theorem run_name? (st : ParserState) :
    name?.run st =
      .ok (match kindAt st.tokens with | .ident name => some name | _ => none, st) := by
  show (match kindAt st.tokens with
    | .ident name => (pure (some name) : ParseM _)
    | _ => pure none).run st = _
  split <;> rfl

theorem run_atAny? (ps : List Punct) (st : ParserState) :
    (atAny? ps).run st =
      .ok (match kindAt st.tokens with | .punct p => ps.contains p | _ => false, st) := by
  show (match kindAt st.tokens with
    | .punct p => (pure (ps.contains p) : ParseM _)
    | _ => pure false).run st = _
  split <;> rfl

theorem run_advance {t : Token} {rest : List Token} (ht : t.kind ≠ .endOfFile) (s : Shader)
    (scopes : List (List VarId)) (calls : List ExprId) :
    advance.run ⟨t :: rest, s, scopes, calls⟩ = .ok ((), ⟨rest, s, scopes, calls⟩) := by
  show Except.ok ((), if t.kind = .endOfFile then _ else _) = _
  rw [if_neg ht]

theorem exists_cons_of_kindAt {tokens : List Token} {kind : TokenKind} (h : kindAt tokens = kind)
    (hkind : kind ≠ .endOfFile) : ∃ t rest, tokens = t :: rest ∧ t.kind = kind := by
  cases tokens with
  | nil => exact absurd h.symm hkind
  | cons t rest => exact ⟨t, rest, rfl, h⟩

theorem run_advance_of {st : ParserState} {t : Token} {rest : List Token}
    (htokens : st.tokens = t :: rest) (ht : t.kind ≠ .endOfFile) :
    advance.run st = .ok ((), { st with tokens := rest }) := by
  obtain ⟨tokens, s, scopes, calls⟩ := st
  subst htokens
  exact run_advance ht s scopes calls

theorem run_evaluate_ok {id id' : ExprId} {st st' : ParserState}
    (h : (evaluate id).run st = .ok (id', st')) :
    ∃ s, (Folding.evaluate id).run.run st.shader = (.ok id', s) ∧
      st' = { st with shader := s } := by
  obtain ⟨r, st₁, hfirst, hrest⟩ := run_bind_ok.1 h
  change Except.ok ((StateT.run (Folding.evaluate id).run st.shader).1,
    { st with shader := (StateT.run (Folding.evaluate id).run st.shader).2 }) =
      .ok (r, st₁) at hfirst
  generalize StateT.run (Folding.evaluate id).run st.shader = result at hfirst ⊢
  rcases result with ⟨_ | r, s⟩
  · cases hfirst
    cases hrest
  · cases hfirst
    cases hrest
    exact ⟨s, rfl, rfl⟩

/-! ### Rules that only look -/

theorem reads_pure (a : α) : Reads (pure a) := by
  intro st b st' h
  cases h
  rfl

theorem reads_get : Reads get := by
  intro st b st' h
  cases h
  rfl

theorem reads_failAt (place : Span) (e : ParseError) : Reads (failAt place e : ParseM α) := by
  intro st b st' h
  cases h

theorem reads_bind {m : ParseM α} {f : α → ParseM β} (hm : Reads m) (hf : ∀ a, Reads (f a)) :
    Reads (m >>= f) := by
  intro st b st' h
  obtain ⟨a, st₁, hrun, h⟩ := run_bind_ok.1 h
  rw [hf a st₁ b st' h, hm st a st₁ hrun]

theorem reads_map {m : ParseM α} (f : α → β) (hm : Reads m) : Reads (f <$> m) := by
  rw [← bind_pure_comp]
  exact reads_bind hm fun a => reads_pure (f a)

theorem reads_peek : Reads peek :=
  reads_bind reads_get fun _ => reads_pure _

theorem reads_peekSecond : Reads peekSecond :=
  reads_bind reads_get fun _ => reads_pure _

theorem reads_span : Reads span :=
  reads_bind reads_get fun _ => reads_pure _

theorem reads_fuel : Reads fuel :=
  reads_bind reads_get fun _ => reads_pure _

theorem reads_shader : Reads shader :=
  reads_bind reads_get fun _ => reads_pure _

theorem reads_atEnd : Reads atEnd :=
  reads_bind reads_peek fun _ => reads_pure _

theorem reads_at? (p : Punct) : Reads (at? p) :=
  reads_bind reads_peek fun _ => reads_pure _

theorem reads_atKeyword? (k : Keyword) : Reads (atKeyword? k) :=
  reads_bind reads_peek fun _ => reads_pure _

theorem reads_atAny? (ps : List Punct) : Reads (atAny? ps) := by
  refine reads_bind reads_peek fun kind => ?_
  split
  · exact reads_pure _
  · exact reads_pure _

theorem reads_name? : Reads name? := by
  refine reads_bind reads_peek fun kind => ?_
  split
  · exact reads_pure _
  · exact reads_pure _

theorem reads_fail (e : ParseError) : Reads (fail e : ParseM α) :=
  reads_bind reads_span fun _ => reads_bind reads_atEnd fun _ => reads_failAt _ _

theorem reads_isConstant (id : ExprId) : Reads (isConstant id) :=
  reads_bind reads_shader fun _ => reads_pure _

theorem reads_findVariable? (name : String) : Reads (findVariable? name) :=
  reads_bind reads_get fun _ => reads_pure _

theorem reads_findType? (name : String) : Reads (findType? name) :=
  reads_bind reads_shader fun _ => reads_pure _

/-! ### Relations along runs -/

theorem along_bind_read {m : ParseM α} {f : α → ParseM β} (hm : Reads m)
    (hf : ∀ a, Along R (f a)) : Along R (m >>= f) := by
  intro st b st' h
  obtain ⟨a, st₁, hrun, h⟩ := run_bind_ok.1 h
  rw [← hm st a st₁ hrun]
  exact hf a st₁ b st' h

theorem along_bind_look {m : ParseM α} {f : α → ParseM β} (hm : Reads m)
    (hf : ∀ st a, m.run st = .ok (a, st) → ∀ b st', (f a).run st = .ok (b, st') → R st st') :
    Along R (m >>= f) := by
  intro st b st' h
  obtain ⟨a, st₁, hrun, hrest⟩ := run_bind_ok.1 h
  have hst := hm st a st₁ hrun
  subst hst
  exact hf st₁ a hrun b st' hrest

theorem along_failAt (place : Span) (e : ParseError) : Along R (failAt place e : ParseM α) := by
  intro st a st' h
  cases h

theorem along_fail (e : ParseError) : Along R (fail e : ParseM α) := by
  intro st a st' h
  cases h

theorem along_ite {c : Prop} [Decidable c] {m n : ParseM α} (hm : Along R m) (hn : Along R n) :
    Along R (if c then m else n) := by
  split
  · exact hm
  · exact hn

theorem along_fail_bind (e : ParseError) (f : α → ParseM β) :
    Along R ((fail e : ParseM α) >>= f) := by
  intro st b st' h
  obtain ⟨a, st₁, hrun, _⟩ := run_bind_ok.1 h
  cases hrun

theorem along_unfinished : Along R (do failAt (← span) .unfinished : ParseM α) :=
  along_bind_read reads_span fun _ => along_failAt _ _

/-- A relation that holds along a run if it holds along the parts of the run. -/
class Frame (R : ParserState → ParserState → Prop) : Prop where
  refl (st : ParserState) : R st st
  trans {st₁ st₂ st₃ : ParserState} : R st₁ st₂ → R st₂ st₃ → R st₁ st₃
  advance : Along R advance

variable [Frame R]

theorem Reads.along {m : ParseM α} (hm : Reads m) : Along R m := by
  intro st a st' h
  rw [hm st a st' h]
  exact Frame.refl st

theorem along_pure (a : α) : Along R (pure a : ParseM α) :=
  (reads_pure a).along

theorem along_bind {m : ParseM α} {f : α → ParseM β} (hm : Along R m) (hf : ∀ a, Along R (f a)) :
    Along R (m >>= f) := by
  intro st b st' h
  obtain ⟨a, st₁, hrun, h⟩ := run_bind_ok.1 h
  exact Frame.trans (hm st a st₁ hrun) (hf a st₁ b st' h)

theorem along_map {m : ParseM α} (f : α → β) (hm : Along R m) : Along R (f <$> m) := by
  rw [← bind_pure_comp]
  exact along_bind hm fun a => along_pure (f a)

theorem along_mapM {f : α → ParseM β} (hf : ∀ a, Along R (f a)) (l : List α) :
    Along R (l.mapM f) := by
  induction l with
  | nil => exact along_pure _
  | cons a rest ih =>
      rw [List.mapM_cons]
      exact along_bind (hf a) fun b => along_bind ih fun bs => along_pure _

theorem along_forM {f : α → ParseM PUnit} (hf : ∀ a, Along R (f a)) (l : List α) :
    Along R (l.forM f) := by
  induction l with
  | nil => exact along_pure _
  | cons a rest ih => exact along_bind (hf a) fun _ => ih

theorem along_take? (p : Punct) : Along R (take? p) := by
  refine along_bind_read (reads_at? p) fun found => ?_
  split
  · exact along_bind Frame.advance fun _ => along_pure true
  · exact along_pure false

theorem along_expect (p : Punct) (what : Expected) : Along R (expect p what) := by
  refine along_bind (along_take? p) fun found => ?_
  split
  · exact along_pure _
  · exact along_fail _

theorem along_repeatWithin {step : α → ParseM (α ⊕ β)} (hstep : ∀ a, Along R (step a)) (n : Nat)
    (a : α) : Along R (repeatWithin step n a) := by
  induction n generalizing a with
  | zero => exact along_unfinished
  | succ n ih =>
      refine along_bind (hstep a) fun next => ?_
      cases next with
      | inl a => exact ih a
      | inr b => exact along_pure b

theorem along_repeatSteps {step : α → ParseM (α ⊕ β)} (hstep : ∀ a, Along R (step a)) (a : α) :
    Along R (repeatSteps step a) :=
  along_bind_read reads_get fun _ => along_repeatWithin hstep _ a

theorem along_commaSeparated {item : ParseM α} (hitem : Along R item) (closing : List Punct)
    (separator : ParseError) : Along R (commaSeparated closing separator item) := by
  refine along_repeatSteps (fun found => ?_) []
  refine along_bind_read (reads_atAny? closing) fun atClosing => ?_
  split
  · exact along_bind Frame.advance fun _ => along_pure _
  · refine along_bind hitem fun a => along_bind (along_take? .comma) fun atComma => ?_
    split
    · exact along_pure _
    · refine along_bind_read (reads_atAny? closing) fun atClosing => ?_
      split
      · exact along_pure _
      · exact along_bind (along_fail separator) fun _ => along_pure _

end Parse

/-! ### From states to results -/

namespace Parse

variable {α β : Type} {P : ParserState → Prop} {Q : α → ParserState → Prop}
  {S : β → ParserState → Prop}

/-- A rule leads from states with a property to results and states that go together. -/
def Leads (P : ParserState → Prop) (m : ParseM α) (Q : α → ParserState → Prop) : Prop :=
  ∀ st a st', P st → m.run st = .ok (a, st') → Q a st'

theorem leads_pure {a : α} (h : ∀ st, P st → Q a st) : Leads P (pure a) Q := by
  intro st b st' hP hrun
  cases hrun
  exact h st hP

theorem leads_bind {m : ParseM α} {f : α → ParseM β} (hm : Leads P m Q)
    (hf : ∀ a, Leads (Q a) (f a) S) : Leads P (m >>= f) S := by
  intro st b st' hP hrun
  obtain ⟨a, st₁, hfirst, hrest⟩ := run_bind_ok.1 hrun
  exact hf a st₁ b st' (hm st a st₁ hP hfirst) hrest

theorem leads_bind_look {m : ParseM α} {f : α → ParseM β} (hm : Reads m)
    (hf : ∀ a, Leads (fun st => P st ∧ m.run st = .ok (a, st)) (f a) S) : Leads P (m >>= f) S := by
  intro st b st' hP hrun
  obtain ⟨a, st₁, hfirst, hrest⟩ := run_bind_ok.1 hrun
  have hst := hm st a st₁ hfirst
  subst hst
  exact hf a st₁ b st' ⟨hP, hfirst⟩ hrest

theorem leads_bind_read {m : ParseM α} {f : α → ParseM β} (hm : Reads m)
    (hf : ∀ a, Leads P (f a) S) : Leads P (m >>= f) S :=
  leads_bind_look hm fun a st b st' hP hrun => hf a st b st' hP.1 hrun

theorem leads_imp {P' : ParserState → Prop} {m : ParseM α} (hm : Leads P m Q)
    (h : ∀ st, P' st → P st) : Leads P' m Q :=
  fun st a st' hP hrun => hm st a st' (h st hP) hrun

theorem leads_weaken {Q' : α → ParserState → Prop} {m : ParseM α} (hm : Leads P m Q)
    (h : ∀ a st, Q a st → Q' a st) : Leads P m Q' :=
  fun st a st' hP hrun => h a st' (hm st a st' hP hrun)

theorem leads_map {m : ParseM α} (f : α → β) (hm : Leads P m fun a => S (f a)) :
    Leads P (f <$> m) S := by
  rw [← bind_pure_comp]
  exact leads_bind hm fun a => leads_pure fun st h => h

theorem Leads.along {R : ParserState → ParserState → Prop} [Frame R] {st₀ : ParserState}
    {m : ParseM α} (hm : Leads P m Q) (hR : Along R m) :
    Leads (fun st => P st ∧ R st₀ st) m fun a st => Q a st ∧ R st₀ st :=
  fun st a st' h hrun => ⟨hm st a st' h.1 hrun, Frame.trans h.2 (hR st a st' hrun)⟩

theorem leads_of_and {φ : Prop} {m : ParseM α} (h : φ → Leads P m Q) :
    Leads (fun st => P st ∧ φ) m Q :=
  fun st a st' hP hrun => h hP.2 st a st' hP.1 hrun

theorem leads_absurd {m : ParseM α} (h : ∀ st, ¬ P st) : Leads P m Q :=
  fun st _ _ hP _ => absurd hP (h st)

theorem leads_after {m : ParseM α} {f : α → ParseM β} (hf : ∀ a, Leads (fun _ => True) (f a) S) :
    Leads (fun _ => True) (m >>= f) S :=
  leads_bind (Q := fun _ _ => True) (fun _ _ _ _ _ => trivial) hf

theorem leads_ite {c : Prop} [Decidable c] {m n : ParseM α} (hm : c → Leads P m Q)
    (hn : ¬c → Leads P n Q) : Leads P (if c then m else n) Q := by
  split
  · next hc => exact hm hc
  · next hc => exact hn hc

theorem leads_fail (e : ParseError) : Leads P (fail e : ParseM α) Q := by
  intro st a st' _ hrun
  cases hrun

theorem leads_failAt (place : Span) (e : ParseError) : Leads P (failAt place e : ParseM α) Q := by
  intro st a st' _ hrun
  cases hrun

theorem leads_failAt_bind (place : Span) (e : ParseError) (f : α → ParseM β) :
    Leads P ((failAt place e : ParseM α) >>= f) S := by
  intro st b st' _ hrun
  cases hrun

theorem leads_fail_bind (e : ParseError) (f : α → ParseM β) :
    Leads P ((fail e : ParseM α) >>= f) S := by
  intro st b st' _ hrun
  obtain ⟨a, st₁, hfirst, _⟩ := run_bind_ok.1 hrun
  cases hfirst

theorem leads_unfinished : Leads P (do failAt (← span) .unfinished : ParseM α) Q := by
  intro st a st' _ hrun
  cases hrun

theorem leads_repeatSteps {step : α → ParseM (α ⊕ β)} {I : α → ParserState → Prop}
    (hstep : ∀ a, Leads (I a) (step a) fun next st => next.elim (I · st) (S · st)) (a : α) :
    Leads (I a) (repeatSteps step a) S := by
  have hwithin (n : Nat) (a : α) : Leads (I a) (repeatWithin step n a) S := by
    induction n generalizing a with
    | zero => exact leads_unfinished
    | succ n ih =>
        refine leads_bind (hstep a) fun next => ?_
        cases next with
        | inl a => exact ih a
        | inr b => exact leads_pure fun st h => h
  exact leads_bind_read reads_get fun _ => hwithin _ a

theorem leads_forM {f : α → ParseM PUnit} (l : List α)
    (hf : ∀ a ∈ l, Leads P (f a) fun _ => P) : Leads P (l.forM f) fun _ => P := by
  induction l with
  | nil => exact leads_pure fun st h => h
  | cons a rest ih =>
      exact leads_bind (hf a List.mem_cons_self) fun _ =>
        ih fun b hb => hf b (List.mem_cons_of_mem _ hb)

/-! ### Attempts -/

/-- The open scopes are those of before, and variables have been added to the innermost one and
calls to those seen so far, the latest in front. -/
structure Pushes (st st' : ParserState) : Prop where
  scopes : ∃ added, st'.scopes = st.scopes.modifyHead (added ++ ·)
  calls : st.calls <:+ st'.calls

theorem earliest_length_append (added entries : List α) :
    earliest entries.length (added ++ entries) = entries := by
  rw [earliest, List.length_append, Nat.add_sub_cancel, List.drop_left]

/-- What has only been pushed onto lists is dropped by cutting them to the lengths that they had. -/
theorem Pushes.run_attempt_none {rule : ParseM (Option α)} {st st' : ParserState}
    (h : Pushes st st') (hrun : rule.run st = .ok (none, st')) :
    (attempt rule).run st = .ok (none, ⟨st.tokens,
      st'.shader.truncate st.shader.exprs.size st.shader.vars.size, st.scopes, st.calls⟩) := by
  obtain ⟨added, hscopes⟩ := h.scopes
  obtain ⟨pushed, hcalls⟩ := h.calls
  have hcut : st'.scopes.modifyHead (earliest (st.scopes.headD []).length) = st.scopes := by
    rw [hscopes]
    cases st.scopes with
    | nil => rfl
    | cons scope outer => exact congrArg (· :: outer) (earliest_length_append added scope)
  refine (run_bind_of rfl).trans ((run_bind_of hrun).trans ((run_bind_of rfl).trans ?_))
  dsimp only
  rw [hcut, ← hcalls, earliest_length_append]
  rfl

theorem run_attempt_ok {rule : ParseM (Option α)} (hpushes : Along Pushes rule) {r : Option α}
    {st st' : ParserState} (h : (attempt rule).run st = .ok (r, st')) :
    ∃ st₁, rule.run st = .ok (r, st₁) ∧ st' = r.elim ⟨st.tokens,
      st₁.shader.truncate st.shader.exprs.size st.shader.vars.size, st.scopes, st.calls⟩
        fun _ => st₁ := by
  obtain ⟨_, _, hmark, hrun⟩ := run_bind_ok.1 h
  cases hmark
  obtain ⟨r', st₁, hrule, hrun⟩ := run_bind_ok.1 hrun
  cases r' with
  | some a =>
      cases hrun
      exact ⟨_, hrule, rfl⟩
  | none =>
      rw [(hpushes _ _ _ hrule).run_attempt_none hrule] at h
      cases h
      exact ⟨_, hrule, rfl⟩

/-- Where a rule does not apply, the tables are those of before up to what has been replaced. -/
theorem leads_attempt {rule : ParseM (Option α)} (hpushes : Along Pushes rule)
    {N : ParserState → Prop} (h : ∀ st₀, P st₀ → Leads (· = st₀) rule fun r st =>
      r.elim (N ⟨st₀.tokens, st.shader.truncate st₀.shader.exprs.size st₀.shader.vars.size,
        st₀.scopes, st₀.calls⟩) (Q · st)) :
    Leads P (attempt rule) fun r st => r.elim (N st) (Q · st) := by
  intro st₀ r st' hP hrun
  obtain ⟨st, hrule, rfl⟩ := run_attempt_ok hpushes hrun
  have hr := h st₀ hP st₀ r st rfl hrule
  cases r <;> exact hr

end Parse

end ShaderBridge
