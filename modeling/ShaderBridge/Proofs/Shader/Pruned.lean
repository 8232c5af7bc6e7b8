import ShaderBridge.Proofs.Parse.Prototypes
import ShaderBridge.Proofs.Parse.Structure
import ShaderBridge.Proofs.Shader.Binding
import ShaderBridge.Proofs.Shader.Endings

/-!
Pruned shaders. The lists keep what can be reached, and besides it functions of the language, which
mention nothing that could be missed.

Seen from within the pruned shader, the entry point is the same, and so are the types of all
expressions that can be reached: a call that may reach any function of a name keeps them all.
-/

/-! ## What is kept -/

namespace ShaderBridge

namespace Shader

open Relation

variable {s : Shader}

/-! ### Functions of the language -/

theorem func_modifyFunc (s : Shader) (g : Function → Function) (id f : FuncId) :
    (s.modifyFunc id g).func f = s.func f ∨ f = id ∧ (s.modifyFunc id g).func f = g (s.func f) := by
  simp only [Shader.modifyFunc, Shader.func, Array.getD_eq_getD_getElem?, Array.getElem?_modify]
  by_cases hindex : id.index = f.index
  · rw [if_pos hindex]
    cases s.funcs[f.index]? with
    | none => exact .inl rfl
    | some old => exact .inr ⟨by cases id; cases f; exact congrArg FuncId.mk hindex.symm, rfl⟩
  · rw [if_neg hindex]
    exact .inl rfl

/-- A function is the same up to a prototype that announces it, which only a definition has. -/
def SameUnlinked (f g : Function) : Prop :=
  g = f ∨ f.isPrototype = false ∧ ∃ prototype, g = { f with prototype }

theorem linkPrototypes_eq (s : Shader) :
    ∃ funcs, s.linkPrototypes = { s with funcs } ∧
      ∀ f, SameUnlinked (s.func f) (s.linkPrototypes.func f) := by
  unfold linkPrototypes
  rw [← Array.foldl_toList]
  refine List.foldlRecOn (motive := fun linked : Shader =>
    ∃ funcs, linked = { s with funcs } ∧ ∀ f, SameUnlinked (s.func f) (linked.func f))
    _ _ ⟨s.funcs, rfl, fun f => .inl rfl⟩ ?_
  rintro linked ⟨funcs, rfl, ih⟩ id _
  split
  · exact ⟨funcs, rfl, ih⟩
  next hdefinition =>
    split
    · next p _ =>
        refine ⟨_, rfl, fun f => ?_⟩
        rcases func_modifyFunc { s with funcs } (fun g => { g with prototype := some p }) id f with
          hsame | ⟨rfl, hlink⟩
        · rw [hsame]
          exact ih f
        · refine .inr ⟨by simpa using hdefinition, some p, ?_⟩
          rw [hlink]
          rcases ih f with ih | ⟨_, q, ih⟩ <;> rw [ih]
    · exact ⟨funcs, rfl, ih⟩

theorem isAnnounced_of_builtin {prototypes tokens : List Token} {stage : Stage}
    (h : Parse.shaderWith prototypes stage tokens = .ok s)
    (hprototypes : Parse.Announces prototypes)
    (htokens : ¬ Parse.UsesBuiltin tokens) {f : FuncId} (hf : (s.func f).builtin) :
    s.IsAnnounced (s.func f) ∧ ∀ p ∈ (s.func f).params, p ∉ s.globals := by
  obtain ⟨st, hrun, rfl⟩ := Parse.exists_run_of_shaderWith h
  obtain ⟨_, st₀, hprelude, hrun⟩ := Parse.run_bind_ok.1 hrun
  obtain ⟨st₀', hannounced, hprelude'⟩ := Parse.exists_run_prelude stage hprototypes
  rw [hprelude'] at hprelude
  cases hprelude
  have hbeyond := Parse.beyond_source htokens hrun
  obtain ⟨funcs, hlink, hfuncs⟩ := linkPrototypes_eq st.shader
  obtain ⟨exprs, hbound⟩ := sameRest_bindCalls st.shader.linkPrototypes st.calls.reverse
  rw [hbound] at hf ⊢
  change (st.shader.linkPrototypes.func f).builtin = true at hf
  change IsAnnounced _ (st.shader.linkPrototypes.func f) ∧
    ∀ p ∈ (st.shader.linkPrototypes.func f).params, p ∉ _
  have hbuiltin : (st.shader.func f).builtin = true := by
    rcases hfuncs f with hsame | ⟨_, prototype, hsame⟩ <;> rwa [hsame] at hf
  have hlt : f.index < st₀.shader.funcs.size := by
    by_contra hle
    rw [hbeyond.own f (Nat.le_of_not_lt hle)] at hbuiltin
    cases hbuiltin
  have hfunc := hannounced.funcs f hlt
  rw [← hbeyond.func f hlt] at hfunc
  have hsame : st.shader.linkPrototypes.func f = st.shader.func f := by
    refine (hfuncs f).resolve_right fun hdefinition => ?_
    have := hdefinition.1
    rw [Function.isPrototype, hfunc.body] at this
    cases this
  have hparam : ∀ p ∈ (st.shader.func f).params, st.shader.IsPlainParam p ∧
    p ∉ st.shader.globals := by
    intro p hp
    have hplain := hfunc.params p hp
    obtain ⟨flags, hvar⟩ := hbeyond.var p hplain.lt_size
    refine ⟨?_, fun hglobal => ?_⟩
    · rw [IsPlainParam, hvar]
      exact hplain
    · rcases hbeyond.globals p hglobal with hglobal | hle
      · obtain ⟨info, hrole⟩ := hannounced.globals p hglobal
        obtain ⟨t, q, _, _, hrole'⟩ := hplain
        rw [hrole] at hrole'
        cases hrole'
      · exact absurd hplain.lt_size (Nat.not_lt.2 hle)
  rw [hsame]
  have hvar (p : VarId) : ({ st.shader.linkPrototypes with exprs } : Shader).var p =
      st.shader.var p := by
    rw [hlink]
    rfl
  refine ⟨⟨hfunc.returnType, fun p hp => ?_, hfunc.body, hfunc.prototype⟩, fun p hp => ?_⟩
  · rw [IsPlainParam, hvar]
    exact (hparam p hp).1
  · rw [hlink]
    exact (hparam p hp).2

/-! ### What is kept -/

/-- An item refers to another one. A prototype does not refer to the definitions that it announces.
-/
def Refers (s : Shader) (x y : Item) : Prop :=
  y ∈ s.mentions [] x

theorem mem_mentions_of_refers {x y : Item} (h : s.Refers x y) : y ∈ s.mentions s.announced x := by
  cases x with
  | func f =>
      simp only [Refers, mentions, mentionedByFunc, List.filter_nil, List.map_nil, List.append_nil,
        List.mem_append] at h ⊢
      tauto
  | _ => exact h

theorem Reachable.of_refers {x y : Item} (hx : s.Reachable x) (h : ReflTransGen s.Refers x y) :
    s.Reachable y := by
  induction h with
  | refl => exact hx
  | tail _ hstep ih => exact ih.mentioned (mem_mentions_of_refers hstep)

theorem eq_or_param_of_refers {f : FuncId} (hf : s.IsAnnounced (s.func f)) {y : Item}
    (h : ReflTransGen s.Refers (.func f) y) :
    y = .func f ∨ ∃ p ∈ (s.func f).params, y = .var p := by
  induction h with
  | refl => exact .inl rfl
  | @tail x y _ hstep ih =>
      right
      rcases ih with rfl | ⟨p, hp, rfl⟩
      · obtain ⟨t, ht⟩ := hf.returnType
        simpa [Refers, mentions, mentionedByFunc, ht, hf.body, hf.prototype, Item.ofType?,
          eq_comm] using hstep
      · obtain ⟨t, q, htype, hdims, hrole⟩ := hf.params p hp
        have hinitial : (s.var p).initial? = none := by
          simp [Variable.initial?, hrole]
        simp [Refers, mentions, mentionedByVar, htype, hdims, hinitial, Item.ofType?,
          Variable.global?, hrole, layoutItems] at hstep

open Classical in
/-- The shader with all that cannot be reached taken out of its lists. -/
noncomputable def keepReachable (s : Shader) : Shader :=
  { s with
    globals := s.globals.filter fun v => s.Reachable (.var v)
    structures := s.structures.filter fun d => s.Reachable (.struct d)
    structureNames := s.structureNames.filter fun entry => s.Reachable (.struct entry.2)
    functions :=
      if s.main?.isSome then
        s.functions.filter fun f => (s.func f).builtin ∨ s.Reachable (.func f)
      else s.functions
    functionNames :=
      if s.main?.isSome then
        s.functionNames.retain fun f => (s.func f).builtin ∨ s.Reachable (.func f)
      else s.functionNames }

/-- The shader with only the given items left in its lists, besides functions of the language, and
all functions where there is no `main`. -/
def keepOnly (s : Shader) (keep : Item → Bool) : Shader :=
  { s with
    globals := s.globals.filter fun v => keep (.var v)
    structures := s.structures.filter fun d => keep (.struct d)
    structureNames := s.structureNames.filter fun entry => keep (.struct entry.2)
    functions :=
      if s.main?.isSome then s.functions.filter fun f => (s.func f).builtin || keep (.func f)
      else s.functions
    functionNames :=
      if s.main?.isSome then s.functionNames.retain fun f => (s.func f).builtin || keep (.func f)
      else s.functionNames }

theorem filter_eq_filter {α : Type} {xs : Array α} {p q : α → Bool} (h : ∀ a ∈ xs, p a = q a) :
    xs.filter p = xs.filter q := by
  refine Array.toList_inj.1 ?_
  rw [Array.toList_filter, Array.toList_filter]
  exact List.filter_congr fun a ha => h a (Array.mem_toList_iff.1 ha)

theorem Linked.keepOnly_congr (h : s.Linked) {keep keep' : Item → Bool}
    (hkeep : ∀ x ∈ s.listed, keep x = keep' x) : s.keepOnly keep = s.keepOnly keep' := by
  simp only [Shader.listed, List.mem_append, List.mem_map, Array.mem_toList_iff] at hkeep
  unfold keepOnly
  congr 1
  · exact filter_eq_filter fun v hv => hkeep _ (by grind)
  · exact filter_eq_filter fun d hd => hkeep _ (by grind)
  · exact List.filter_congr fun entry hentry => hkeep _ (by grind)
  · split
    · refine filter_eq_filter fun f hf => ?_
      rw [hkeep (.func f) (by grind)]
    · rfl
  · split
    · refine FunctionTable.retain_congr fun name f hf => ?_
      have hf : f ∈ s.functionsNamed name := h.indexed.functions name ▸ hf
      have hf := Array.mem_toList_iff.1 (List.mem_of_mem_filter hf)
      rw [hkeep (.func f) (by grind)]
    · rfl

theorem Linked.keepOnly_eq (h : s.Linked) {keep : Item → Bool}
    (hkeep : ∀ x ∈ s.listed, keep x = true ↔ s.Reachable x) :
    s.keepOnly keep = s.keepReachable := by
  classical
  have hreachable : s.keepOnly keep = s.keepOnly fun x => decide (s.Reachable x) :=
    h.keepOnly_congr fun x hx => by rw [Bool.eq_iff_iff, hkeep x hx, decide_eq_true_iff]
  rw [hreachable]
  unfold keepOnly keepReachable
  congr <;> funext f <;> simp

theorem Linked.prune_eq (h : s.Linked) : s.prune = s.keepReachable :=
  h.keepOnly_eq fun x hx => by
    rw [Std.HashSet.contains_iff_mem, h.mem_needed_iff, and_iff_right (h.listed x hx)]

theorem isOnce_of_mem_listed {x : Item} (hx : x ∈ s.listed) : x.isOnce := by
  simp only [Shader.listed, List.mem_append, List.mem_map] at hx
  obtain (((⟨_, _, rfl⟩ | ⟨_, _, rfl⟩) | ⟨_, _, rfl⟩) | ⟨_, _, rfl⟩) | ⟨_, _, rfl⟩ := hx <;> rfl

/-- Where there is a result, no item has been passed over. -/
theorem Linked.prune?_eq_some_iff (h : s.Linked) {p : Shader} :
    s.prune? = some p ↔ s.Prunable ∧ s.prune = p := by
  have hresult {p : Shader} (hp : s.prune? = some p) : s.prune = p := by
    obtain ⟨seen, hseen, rfl⟩ := Option.map_eq_some_iff.1 hp
    refine h.prune_eq.trans (Eq.symm (h.keepOnly_eq fun x hx => ?_))
    rw [Std.HashSet.contains_iff_mem, (marked?_eq_some hseen).2 x (isOnce_of_mem_listed hx)]
  rw [← h.isSome_prune?_iff]
  constructor
  · intro hp
    exact ⟨by rw [hp]; rfl, hresult hp⟩
  · rintro ⟨hsome, rfl⟩
    obtain ⟨p, hp⟩ := Option.isSome_iff_exists.1 hsome
    rw [hp, hresult hp]

theorem mem_listed_keepReachable {x : Item} (hx : x ∈ s.listed) (h : s.Reachable x) :
    x ∈ s.keepReachable.listed := by
  simp only [Shader.listed, keepReachable, List.mem_append, List.mem_map, Array.mem_toList_iff,
    Array.mem_filter, List.mem_filter, decide_eq_true_iff] at hx ⊢
  split <;> grind

theorem reachable_of_mem_listed {x : Item} (hx : x ∈ s.keepReachable.listed) :
    s.Reachable x ∨ ∃ f, x = .func f ∧ (s.func f).builtin := by
  simp only [Shader.listed, keepReachable, List.mem_append, List.mem_map, Array.mem_toList_iff,
    Array.mem_filter, List.mem_filter, decide_eq_true_iff] at hx
  obtain (((⟨v, hv, rfl⟩ | ⟨d, hd, rfl⟩) | ⟨entry, hentry, rfl⟩) | ⟨d, hd, rfl⟩) |
    ⟨f, hf, rfl⟩ := hx
  · exact .inl hv.2
  · exact .inl hd.2
  · exact .inl hentry.2
  · exact .inl (.block hd)
  · split at hf
    · simp only [Array.mem_filter, decide_eq_true_iff] at hf
      exact hf.2.elim (fun hbuiltin => .inr ⟨f, rfl, hbuiltin⟩) .inl
    · next hmain =>
        exact .inl (.function (by simpa using hmain) hf)

/-- Nothing kept refers to something dropped, functions of the language included. -/
theorem mem_keepReachable_of_refers (hbuiltin : ∀ f, (s.func f).builtin →
      s.IsAnnounced (s.func f) ∧ ∀ p ∈ (s.func f).params, p ∉ s.globals)
    {x y : Item} (hx : x ∈ s.keepReachable.listed) (hy : y ∈ s.listed)
    (hxy : ReflTransGen s.Refers x y) : y ∈ s.keepReachable.listed := by
  rcases reachable_of_mem_listed hx with hreach | ⟨f, rfl, hf⟩
  · exact mem_listed_keepReachable hy (hreach.of_refers hxy)
  · obtain ⟨hannounced, hparams⟩ := hbuiltin f hf
    rcases eq_or_param_of_refers hannounced hxy with rfl | ⟨p, hp, rfl⟩
    · exact hx
    · refine absurd ?_ (hparams p hp)
      simpa [Shader.listed] using hy

/-- Pruning has a result where all that can be reached is there and no expression leads back to
itself. It keeps what can be reached and the functions of the language, and nothing that it keeps
refers to anything that it drops. -/
theorem pruning_of_parse {text : String} {stage : Stage} (h : parse text stage = .ok s)
    (htext : ∀ tokens, tokenize text = .ok tokens → ¬ Parse.UsesBuiltin tokens) :
    (s.prune?.isSome ↔ s.Prunable) ∧ ((s.Ambiguous → s.ItemsLeadAway) → s.Prunable) ∧
      ∀ p, s.prune? = some p → p = s.keepReachable ∧
        ∀ x ∈ p.listed, ∀ y ∈ s.listed, ReflTransGen s.Refers x y → y ∈ p.listed := by
  have haccepted := Parse.accepted_of_parse h
  have hlinked := haccepted.consistent.linked
  refine ⟨hlinked.isSome_prune?_iff,
    fun haway => (haccepted.wellFormed_iff.2 haway).prunable hlinked.indexed, fun p hp => ?_⟩
  obtain ⟨tokens, htokens, hshader⟩ := Parse.exists_tokens_of_parse h
  obtain rfl := (hlinked.prune?_eq_some_iff.1 hp).2
  rw [hlinked.prune_eq]
  refine ⟨rfl, fun x hx y hy hxy => mem_keepReachable_of_refers (fun f hf => ?_) hx hy hxy⟩
  exact isAnnounced_of_builtin hshader Parse.announces_prototypeTokens (htext tokens htokens) hf

/-- The tokens of a text with a function that `main` does not need. -/
def unneededTokens : List Token :=
  [⟨.keyword (.type .void), ⟨0, 4⟩⟩, ⟨.ident "f", ⟨5, 6⟩⟩, ⟨.punct .leftParen, ⟨6, 7⟩⟩,
    ⟨.punct .rightParen, ⟨7, 8⟩⟩, ⟨.punct .leftBrace, ⟨9, 10⟩⟩, ⟨.punct .rightBrace, ⟨10, 11⟩⟩,
    ⟨.keyword (.type .void), ⟨12, 16⟩⟩, ⟨.ident "main", ⟨17, 21⟩⟩, ⟨.punct .leftParen, ⟨21, 22⟩⟩,
    ⟨.punct .rightParen, ⟨22, 23⟩⟩, ⟨.punct .leftBrace, ⟨24, 25⟩⟩, ⟨.punct .rightBrace, ⟨25, 26⟩⟩,
    ⟨.endOfFile, ⟨26, 26⟩⟩]

theorem tokenize_unneeded :
    tokenize "void f() \x7b\x7d void main() \x7b\x7d" = .ok unneededTokens := by
  have htokens : (tokenize "void f() \x7b\x7d void main() \x7b\x7d").toOption =
    some unneededTokens := by
    decide +kernel
  cases h : tokenize "void f() \x7b\x7d void main() \x7b\x7d" with
  | error e =>
      rw [h] at htokens
      cases htokens
  | ok tokens =>
      rw [h] at htokens
      exact congrArg _ (Option.some.inj htokens)

theorem not_usesBuiltin_unneeded (tokens : List Token)
    (h : tokenize "void f() \x7b\x7d void main() \x7b\x7d" = .ok tokens) :
    ¬ Parse.UsesBuiltin tokens := by
  rw [tokenize_unneeded] at h
  cases h
  unfold Parse.UsesBuiltin Parse.MarksBuiltin
  decide

theorem exists_run_unneeded (st : ParserState) :
    ∃ st', (Parse.source unneededTokens).run st = .ok ((), st') ∧
      st'.shader.stmts = st.shader.stmts := by
  obtain ⟨tokens, ⟨stage⟩, scopes, calls⟩ := st
  cases stage <;> exact ⟨_, rfl, rfl⟩

theorem exists_parse_unneeded (stage : Stage) :
    ∃ s, parse "void f() \x7b\x7d void main() \x7b\x7d" stage = .ok s ∧ s.stmts = #[] := by
  obtain ⟨st, honly, hprelude⟩ := Parse.exists_run_prelude stage Parse.announces_prototypeTokens
  obtain ⟨st', hsource, hstmts⟩ := exists_run_unneeded st
  have hrun : (do Parse.prelude stage Parse.prototypeTokens; Parse.source unneededTokens :
      ParseM Unit).run { shader := { stage } } = .ok ((), st') :=
    (Parse.run_bind_of hprelude).trans hsource
  obtain ⟨funcs, hlink, -⟩ := linkPrototypes_eq st'.shader
  obtain ⟨exprs, hbound⟩ := sameRest_bindCalls st'.shader.linkPrototypes st'.calls.reverse
  refine ⟨st'.shader.linkPrototypes.bindCalls st'.calls.reverse, ?_, ?_⟩
  · rw [parse, tokenize_unneeded]
    change (Parse.shaderWith Parse.prototypeTokens stage unneededTokens).mapError _ = _
    unfold Parse.shaderWith
    dsimp only
    rw [hrun]
    rfl
  · rw [hbound, hlink]
    exact hstmts.trans honly.stmts

theorem exists_pruning_of_parse :
    ∃ s, parse "void f() \x7b\x7d void main() \x7b\x7d" .vertex = .ok s ∧
      (∀ tokens, tokenize "void f() \x7b\x7d void main() \x7b\x7d" = .ok tokens →
        ¬ Parse.UsesBuiltin tokens) ∧
      s.prune?.isSome ∧ ∀ p, s.prune? = some p → p = s.keepReachable ∧
        ∀ x ∈ p.listed, ∀ y ∈ s.listed, ReflTransGen s.Refers x y → y ∈ p.listed := by
  obtain ⟨s, hs, hstmts⟩ := exists_parse_unneeded .vertex
  obtain ⟨hresult, hprunable, hpruned⟩ := pruning_of_parse hs not_usesBuiltin_unneeded
  have hambiguous := not_ambiguous_of_stmts hstmts
  exact ⟨s, hs, not_usesBuiltin_unneeded, hresult.2 (hprunable fun h => absurd h hambiguous),
    hpruned⟩

theorem Linked.prune?_eq_none (h : s.Linked) {x : Item} (hx : s.Reachable x) (hhas : ¬ s.has x) :
    s.prune? = none := by
  rw [← Option.isNone_iff_eq_none, ← Option.not_isSome, Bool.not_eq_true', ← Bool.not_eq_true,
    h.isSome_prune?_iff]
  exact fun hprunable => hhas (hprunable.has x hx)

/-- Where an item of the first value of a variable of `main` is gone, pruning has no result. -/
theorem Accepted.prune?_eq_none_of_operand (h : s.Accepted) {f : FuncId} {body : List StmtId}
    {t : StmtId} {v : VarId} {e d : ExprId} (hmain : s.main? = some f)
    (hbody : (s.func f).body = some body) (ht : t ∈ body) (hv : .var v ∈ (s.stmt t).references)
    (he : (s.var v).initial? = some e) (hd : d ∈ (s.expr e).operands)
    (hhas : s.has (.expr d) = false) : s.prune? = none := by
  have hstmt : s.Reachable (.stmt t) := .body (.main hmain) hbody ht
  have hexpr : s.Reachable (.expr d) := ((hstmt.part hv).initial he).operand hd
  exact h.consistent.linked.prune?_eq_none hexpr (by simp [hhas])

/-- The tokens of a sum of eight ones. -/
def sumOfOnes : List TokenKind :=
  (List.replicate 7 [TokenKind.number (.integer .int 1), .punct .plus]).flatten ++
    [.number (.integer .int 1)]

/-- The tokens of `void main() { const vec2 v = vec2(1 + … + 1, 2); float[v](v.x, 2.0); }`. -/
def vectorOfSum : List TokenKind :=
  [TokenKind.keyword (.type .void), .ident "main", .punct .leftParen, .punct .rightParen,
    .punct .leftBrace, .keyword (.storage .constant), .keyword (.type (.vector .float .two)),
    .ident "v", .punct .eq, .keyword (.type (.vector .float .two)), .punct .leftParen] ++
  sumOfOnes ++
  [.punct .comma, .number (.integer .int 2), .punct .rightParen, .punct .semicolon,
    .keyword (.type (.scalar .float)), .punct .leftBracket, .ident "v", .punct .rightBracket,
    .punct .leftParen, .ident "v", .punct .dot, .ident "x", .punct .comma,
    .number (.real .float 0x40000000), .punct .rightParen, .punct .semicolon, .punct .rightBrace,
    .endOfFile]

/-- The literal that the sum was folded to is gone with the attempt to read a declaration, and
nothing stands where it stood when `main` is followed to it. -/
theorem exists_prune_none : ∃ s : Shader, s.Accepted ∧ s.prune? = none := by
  obtain ⟨s, hs, hentries⟩ := Parse.exists_accepted
    (f := fun s => decide (s.main? = some ⟨0⟩ ∧ (s.func ⟨0⟩).body = some [⟨0⟩, ⟨1⟩] ∧
      (s.stmt ⟨0⟩).references = [.var ⟨36⟩] ∧ (s.var ⟨36⟩).initial? = some ⟨32⟩ ∧
      (s.expr ⟨32⟩).operands = [⟨40⟩, ⟨31⟩] ∧ s.has (.expr ⟨40⟩) = false))
    (show (Parse.plainShader? .fragment vectorOfSum).map _ = some true by decide +kernel)
  obtain ⟨hmain, hbody, hstmt, hinitial, hoperands, hhas⟩ := of_decide_eq_true hentries
  have hv : .var ⟨36⟩ ∈ (s.stmt ⟨0⟩).references := by simp [hstmt]
  have hd : ⟨40⟩ ∈ (s.expr ⟨32⟩).operands := by simp [hoperands]
  exact ⟨s, hs, hs.prune?_eq_none_of_operand hmain hbody List.mem_cons_self hv hinitial hd hhas⟩

end Shader

end ShaderBridge

/-! ## Within the pruned shader -/

namespace ShaderBridge

namespace Shader

open Relation

variable {s : Shader}

/-! ### Entries -/

@[simp]
theorem expr_keepReachable (s : Shader) (e : ExprId) : s.keepReachable.expr e = s.expr e :=
  rfl

open Classical in
theorem overloads_keepReachable_eq (s : Shader) (name : String) :
    s.keepReachable.overloads name = if s.main?.isSome then
      (s.overloads name).filter fun f => (s.func f).builtin ∨ s.Reachable (.func f)
      else s.overloads name := by
  unfold overloads keepReachable
  dsimp only
  split
  · exact FunctionTable.find_retain _ _
  · rfl

end Shader

end ShaderBridge
