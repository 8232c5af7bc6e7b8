import ShaderBridge.Proofs.Constant.Replacing
import ShaderBridge.Proofs.Layout.Leaves
import ShaderBridge.Proofs.Parse.Accepted
import ShaderBridge.Proofs.Shader.Following
import ShaderBridge.Proofs.Shader.Marking

namespace ShaderBridge

namespace Folding

open Shader

variable {α β : Type} {height : ExprId → Nat} {s s' : Shader} {e : ExprId}

/-- Expressions lead to lower ones, and what is still to be added is at the bottom. -/
structure Ranked (height : ExprId → Nat) (s : Shader) : Prop where
  descends : s.Descends height
  absent : ∀ d : ExprId, s.exprs.size ≤ d.index → height d = 0

theorem leadsTo_setExpr {id : ExprId} {y : Expr} (hid : id.index < s.exprs.size)
    (hy : ∀ v, y ≠ .var v) {e d : ExprId} (hd : (s.setExpr id y).LeadsTo e d) :
    e = id ∧ d ∈ y.operands ∨ s.LeadsTo e d := by
  have hexpr := expr_setExpr s y id e hid
  split at hexpr
  · next heq =>
      cases hd with
      | operand ho => exact .inl ⟨heq, hexpr ▸ ho⟩
      | initial hvar => exact absurd (hexpr.symm.trans hvar) (hy _)
  · right
    cases hd with
    | operand ho => exact .operand (hexpr ▸ ho)
    | initial hvar hinitial => exact .initial (hexpr ▸ hvar) hinitial

namespace Ranked

theorem addConstant (h : Ranked height s) (v : Constant) :
    Ranked height (s.addExpr (.constant v)).2 := by
  refine ⟨fun e d hd => h.descends e d ?_, fun d hd => h.absent d ?_⟩
  · have hexpr := expr_addExpr s (.constant v) e
    split at hexpr
    · cases hd with
      | operand ho => rw [hexpr] at ho; cases ho
      | initial hvar => rw [hexpr] at hvar; cases hvar
    · cases hd with
      | operand ho => exact .operand (hexpr ▸ ho)
      | initial hvar hinitial => exact .initial (hexpr ▸ hvar) hinitial
  · have hsize : (s.addExpr (.constant v)).2.exprs.size = s.exprs.size + 1 := by
      simp [Shader.addExpr]
    omega

theorem setExpr (h : Ranked height s) {id : ExprId} {y : Expr} (hvar : ∀ v, y ≠ .var v)
    (hlower : ∀ a ∈ y.operands, height a < height id) : Ranked height (s.setExpr id y) := by
  by_cases hid : id.index < s.exprs.size
  · refine ⟨fun e d hd => ?_, fun d hd => h.absent d (by simpa [Shader.setExpr] using hd)⟩
    rcases leadsTo_setExpr hid hvar hd with ⟨rfl, hitem⟩ | hd
    · exact hlower d hitem
    · exact h.descends e d hd
  · rw [setExpr_of_size_le y (Nat.not_lt.1 hid)]
    exact h

end Ranked

/-! ### Runs that agree -/

/-- Two computations agree, and their result and the shader that they leave have a property. -/
def Agree (s : Shader) (m m' : FoldM α) (P : α → Shader → Prop) : Prop :=
  m.run.run s = m'.run.run s ∧ ∀ a s', m.run.run s = (.ok a, s') → P a s'

variable {m m' : FoldM α} {P : α → Shader → Prop}

theorem agree_self (h : ∀ a s', m.run.run s = (.ok a, s') → P a s') : Agree s m m P :=
  ⟨rfl, h⟩

theorem agree_bind {f f' : α → FoldM β} {Q : β → Shader → Prop} (hm : Agree s m m' P)
    (hf : ∀ a s', P a s' → Agree s' (f a) (f' a) Q) : Agree s (m >>= f) (m' >>= f') Q := by
  obtain ⟨heq, hP⟩ := hm
  refine ⟨?_, fun b s' hb => ?_⟩
  · rw [run_bind, run_bind, ← heq]
    cases hrun : m.run.run s with
    | mk result s₁ =>
        cases result with
        | error => rfl
        | ok a => exact (hf a s₁ (hP a s₁ hrun)).1
  · obtain ⟨a, s₁, hrun, hb⟩ := run_bind_ok.1 hb
    exact (hf a s₁ (hP a s₁ hrun)).2 b s' hb

theorem agree_get {f f' : Shader → FoldM β} {Q : β → Shader → Prop}
    (hf : Agree s (f s) (f' s) Q) : Agree s (get >>= f) (get >>= f') Q :=
  agree_bind (P := fun a s' => a = s ∧ s' = s)
    (agree_self fun a s' h => by cases h; exact ⟨rfl, rfl⟩) (by rintro a s' ⟨rfl, rfl⟩; exact hf)

/-- A way of folding gives something not higher than what is folded, from any shader. -/
def AgreeAt (height : ExprId → Nat) (f f' : ExprId → FoldM ExprId) (e : ExprId) : Prop :=
  ∀ s, Ranked height s →
    Agree s (f e) (f' e) fun d s' => Ranked height s' ∧ height d ≤ height e

theorem agree_mapM {f f' : ExprId → FoldM ExprId} {ids : List ExprId} {k : Nat}
    (hs : Ranked height s) (hf : ∀ a ∈ ids, AgreeAt height f f' a) (hk : ∀ a ∈ ids, height a < k) :
    Agree s (ids.mapM f) (ids.mapM f') fun ds s' =>
      Ranked height s' ∧ ∀ d ∈ ds, height d < k := by
  induction ids generalizing s with
  | nil =>
      refine agree_self fun a s' h => ?_
      cases h
      exact ⟨hs, List.forall_mem_nil _⟩
  | cons id rest ih =>
      rw [List.mapM_cons, List.mapM_cons]
      obtain ⟨hfirst, hrest⟩ := List.forall_mem_cons.1 hf
      obtain ⟨hlt, hbelow⟩ := List.forall_mem_cons.1 hk
      refine agree_bind (hfirst s hs) fun d s₁ ⟨hs₁, hd⟩ => ?_
      refine agree_bind (ih hs₁ hrest hbelow) fun ds s₂ ⟨hs₂, hds⟩ => agree_self fun a s' h => ?_
      cases h
      exact ⟨hs₂, List.forall_mem_cons.2 ⟨hd.trans_lt hlt, hds⟩⟩

theorem agree_addConstant (hs : Ranked height s) (v : Constant) (e : ExprId) :
    Agree s (addConstant v) (addConstant v) fun d s' => Ranked height s' ∧ height d ≤ height e := by
  refine agree_self fun d s' h => ?_
  rw [run_addConstant] at h
  cases h
  exact ⟨hs.addConstant v, (hs.absent ⟨s.exprs.size⟩ (Nat.le_refl _)).trans_le (Nat.zero_le _)⟩

theorem agree_literal (s : Shader) (id : ExprId) :
    Agree s (literal id) (literal id) fun _ s' => s' = s :=
  agree_self fun _ _ h => run_literal h

theorem agree_liftExcept (s : Shader) (r : Except FoldError Constant) :
    Agree s (evaluateWithin.liftExcept r) (evaluateWithin.liftExcept r) fun _ s' => s' = s :=
  agree_self fun _ _ h => run_liftExcept h

theorem Agree.not_higher {m m' : FoldM ExprId} {d : ExprId} (h : Agree s m m' fun x s' =>
    Ranked height s' ∧ height x ≤ height d) (hd : height d < height e) :
    Agree s m m' fun x s' => Ranked height s' ∧ height x ≤ height e :=
  ⟨h.1, fun a s' ha => ⟨(h.2 a s' ha).1, (h.2 a s' ha).2.trans hd.le⟩⟩

theorem agree_items {f f' : ExprId → FoldM ExprId} {wrap : List ExprId → Expr}
    (hwrap : HoldsItems wrap) {items : List ExprId} (hs : Ranked height s)
    (hexpr : s.expr e = wrap items) (hf : ∀ a ∈ items, AgreeAt height f f' a) :
    Agree s
      (do
        let items ← items.mapM f
        modify (Shader.setExpr e (wrap items))
        return e : FoldM ExprId)
      (do
        let items ← items.mapM f'
        modify (Shader.setExpr e (wrap items))
        return e : FoldM ExprId)
      fun d s' => Ranked height s' ∧ height d ≤ height e := by
  have hbelow : ∀ a ∈ items, height a < height e := fun a ha =>
    hs.descends.operand (by rwa [hexpr, hwrap.operands_eq])
  refine agree_bind (agree_mapM hs hf hbelow) fun items' s₁ ⟨hs₁, hlower⟩ => ?_
  refine agree_self fun d s' h => ?_
  cases h
  exact ⟨hs₁.setExpr (hwrap.ne_var items') (by rwa [hwrap.operands_eq]), Nat.le_refl _⟩

theorem agreeAt_evaluateWithin {n n' : Nat} (hn : height e < n) (hn' : height e < n') :
    AgreeAt height (evaluateWithin n) (evaluateWithin n') e := by
  -- Folding goes from each expression to lower ones, so that it ends before a depth is used up.
  induction n generalizing n' e with
  | zero => omega
  | succ n ih =>
      cases n' with
      | zero => omega
      | succ n' =>
          intro s hs
          have hpart {d : ExprId} (hd : height d < height e) :
              AgreeAt height (evaluateWithin n) (evaluateWithin n') d :=
            ih (by omega) (by omega)
          have hoperand {y : Expr} (hexpr : s.expr e = y) (o : ExprId) (ho : o ∈ y.operands) :
              height o < height e :=
            hs.descends.operand (hexpr ▸ ho)
          unfold evaluateWithin
          refine agree_get ?_
          cases hexpr : s.expr e with
          | constant | sequence =>
              refine agree_self fun d s' h => ?_
              cases h
              exact ⟨hs, Nat.le_refl _⟩
          | var v =>
              refine agree_get ?_
              cases hinitial : (s.var v).initial? with
              | none => exact agree_self fun d s' h => by cases h
              | some initial =>
                  have hlt := hs.descends e initial (.initial hexpr hinitial)
                  exact (hpart hlt s hs).not_higher hlt
          | unary op operand =>
              have hlt := hoperand hexpr operand (by simp [Expr.operands])
              refine agree_bind (hpart hlt s hs) fun operand' s₁ hs₁ => ?_
              refine agree_bind (agree_literal s₁ operand') ?_
              rintro v s₂ rfl
              refine agree_bind (agree_liftExcept s₂ _) ?_
              rintro v s₃ rfl
              exact agree_addConstant hs₁.1 v e
          | binary op left right =>
              have hleft := hoperand hexpr left (by simp [Expr.operands])
              have hright := hoperand hexpr right (by simp [Expr.operands])
              refine agree_bind (hpart hleft s hs) fun left' s₁ hs₁ => ?_
              refine agree_bind (hpart hright s₁ hs₁.1) fun right' s₂ hs₂ => ?_
              refine agree_bind (agree_literal s₂ left') ?_
              rintro a s₃ rfl
              refine agree_bind (agree_literal s₃ right') ?_
              rintro b s₄ rfl
              refine agree_bind (agree_liftExcept s₄ _) ?_
              rintro v s₅ rfl
              exact agree_addConstant hs₂.1 v e
          | choice condition onTrue onFalse =>
              have hcondition := hoperand hexpr condition (by simp [Expr.operands])
              have honTrue := hoperand hexpr onTrue (by simp [Expr.operands])
              have honFalse := hoperand hexpr onFalse (by simp [Expr.operands])
              refine agree_bind (hpart hcondition s hs) fun condition' s₁ hs₁ => ?_
              refine agree_bind (agree_literal s₁ condition') ?_
              rintro v s₂ rfl
              split
              · exact (hpart honTrue s₂ hs₁.1).not_higher honTrue
              · exact (hpart honFalse s₂ hs₁.1).not_higher honFalse
              · exact agree_self fun d s' h => by cases h
          | construct type args =>
              exact agree_items (.construct type) hs hexpr fun a ha => hpart (hoperand hexpr a ha)
          | aggregate items =>
              exact agree_items .aggregate hs hexpr fun a ha => hpart (hoperand hexpr a ha)
          | member | subscript | call | assign => exact agree_self fun d s' h => by cases h

/-- Folding is never cut off where nothing leads back to itself. -/
theorem run_evaluateWithin_eq (hs : s.WellFormed) {n : Nat} (hn : s.foldingDepth ≤ n) (e : ExprId) :
    (evaluateWithin n e).run.run s = (evaluate e).run.run s := by
  obtain ⟨height, hdescends, hle, hzero⟩ := hs.exists_height
  have hlt : height e < s.foldingDepth := by
    have := hle e
    unfold foldingDepth
    omega
  exact (agreeAt_evaluateWithin (hlt.trans_le hn) hlt s ⟨hdescends, hzero⟩).1

end Folding

namespace Shader

open Relation

variable {s : Shader}

/-- Greater depths make no difference, and what is needed is looked for among what is there. -/
structure FollowedToTheEnd (s : Shader) : Prop where
  isConstant : ∀ n ≥ s.foldingDepth, ∀ e, s.isConstantWithin n e = s.isConstant e
  evaluate : ∀ n ≥ s.foldingDepth, ∀ e,
    (Folding.evaluateWithin n e).run.run s = (Folding.evaluate e).run.run s
  typeOf : ∀ n > s.exprs.size, ∀ e, s.typeWithin? n e = s.typeOf? e
  atomicCalls : ∀ n > s.exprs.size, ∀ e, s.atomicCallsWithin n e = s.atomicCalls e
  access : ∀ buffers, ∀ n > s.exprs.size, ∀ e, s.accessWithin? buffers n e = s.access? buffers e
  subscripted : ∀ n ≥ s.exprs.size, ∀ e, s.subscripted n e = s.subscripted s.exprs.size e
  size : ∀ n ≥ s.structDepth, ∀ d, s.has (.struct d) →
    s.sizeWithin n (.declared d) = s.sizeOfType (.declared d)
  leaves : ∀ n ≥ s.structDepth, ∀ d, s.has (.struct d) →
    s.leavesWithin n (.declared d) = s.leaves (.declared d) []
  lowerExpr : ∀ buffers, ∀ n > s.exprs.size, ∀ e, s.lowerWithin buffers n e = s.lowerExpr buffers e
  lowerStmt : ∀ buffers, ∀ n > s.stmts.size, ∀ t,
    s.lowerStmtWithin buffers n t = s.lowerStmt buffers t
  roots : ∀ x ∈ s.roots, s.has x
  mentions : ∀ x, s.has x → ∀ y ∈ s.mentions s.announced x, s.has y
  prune : s.prune?.isSome

theorem Function.mentioned_subset (s : Shader) (id : FuncId) {y : Item}
    (hy : y ∈ s.mentionedByFunc s.announced id) :
    y ∈ (s.func id).references ∨ ∃ f ∈ s.functions, y = .func f := by
  simp only [mentionedByFunc, Function.references, announced, List.mem_append, List.mem_map,
    List.mem_filter, Array.mem_toList_iff] at hy ⊢
  grind

theorem Indexed.mentionedByExpr_subset (h : s.Indexed) (id : ExprId) {y : Item}
    (hy : y ∈ s.mentionedByExpr id) :
    y ∈ (s.expr id).references ∨ ∃ f ∈ s.functions, y = .func f := by
  unfold mentionedByExpr at hy
  cases hexpr : s.expr id with
  | call name args target =>
      rw [hexpr] at hy
      cases target <;>
        simp only [Expr.references, Expr.links, Expr.items, h.functions, functionsNamed,
          List.mem_append, List.mem_map, List.mem_filter, List.mem_cons, Array.mem_toList_iff,
          Option.toList_some, Option.toList_none] at hy ⊢ <;>
        grind
  | _ =>
      rw [hexpr] at hy
      simp_all [Expr.references, Expr.links, Expr.items]

theorem WellFormed.has_of_mentions (h : s.WellFormed) (hindexed : s.Indexed) {x y : Item}
    (hx : s.has x) (hy : y ∈ s.mentions s.announced x) : s.has y := by
  have hfunc {f : FuncId} (hf : f ∈ s.functions) : s.has (.func f) :=
    h.listed _ (by simp [Shader.listed, hf])
  cases x with
  | expr id =>
      rcases hindexed.mentionedByExpr_subset id hy with hy | ⟨f, hf, rfl⟩
      · exact h.references _ hx y hy
      · exact hfunc hf
  | func id =>
      rcases Function.mentioned_subset s id hy with hy | ⟨f, hf, rfl⟩
      · exact h.references _ hx y hy
      · exact hfunc hf
  | stmt id => exact h.references _ hx y hy
  | var id => exact h.references _ hx y hy
  | struct id => exact h.references _ hx y hy

theorem WellFormed.has_of_roots (h : s.WellFormed) (hindexed : s.Indexed) {x : Item}
    (hx : x ∈ s.roots) : s.has x := by
  refine h.listed x ?_
  simp only [roots, Shader.listed, List.mem_append, List.mem_map, List.mem_filter] at hx ⊢
  rcases hx with (hx | ⟨v, ⟨hv, _⟩, rfl⟩) | hx
  · exact .inl (.inr hx)
  · exact .inl (.inl (.inl (.inl ⟨v, hv, rfl⟩)))
  · split at hx
    · next f hmain =>
        rw [List.mem_singleton.1 hx]
        have hf := List.mem_of_find?_eq_some hmain
        rw [hindexed.functions] at hf
        exact .inr ⟨f, List.mem_of_mem_filter hf, rfl⟩
    · exact .inr (List.mem_map.1 hx)

theorem WellFormed.prunable (h : s.WellFormed) (hindexed : s.Indexed) : s.Prunable where
  has _ hx := hx.induction (fun _ => h.has_of_roots hindexed) fun _ _ => h.has_of_mentions hindexed
  noLoop e _ hloop := h.exprs e (TransGen.mono (fun _ _ => .operand) _ _ hloop)

theorem WellFormed.followedToTheEnd (h : s.WellFormed) (hlinked : s.Linked)
    (hfields : s.OwnsFields []) : s.FollowedToTheEnd := by
  obtain ⟨height, hdescends, hle, -⟩ := h.exists_height
  have hlt (e : ExprId) : height e < s.exprs.size + 1 := Nat.lt_succ_of_le (hle e)
  have hfolding (e : ExprId) : height e < s.foldingDepth := by
    have := hle e
    unfold foldingDepth
    omega
  have hstruct {n : Nat} (hn : s.structDepth ≤ n) {d : StructId} (hd : s.has (.struct d))
      (id : StructId) (hid : TypeRef.declared d = .declared id) :
      id.index < n ∧ id.index < s.structDepth := by
    cases hid
    simp only [has, decide_eq_true_eq] at hd
    unfold structDepth at hn ⊢
    omega
  have hstmt (t u : StmtId) (hu : .stmt u ∈ (s.stmt t).references) : u.index < s.stmts.size := by
    have ht : s.has (.stmt t) := by
      rw [has, decide_eq_true_eq]
      by_contra hsize
      unfold stmt at hu
      rw [Array.getD_eq_getD_getElem?, Array.getElem?_eq_none (Nat.le_of_not_lt hsize)] at hu
      cases hu
    simpa [has] using h.references _ ht _ hu
  obtain ⟨level, hstmts, hlevel, -⟩ := ShaderBridge.exists_height StmtId.index
    (fun a b hab => by cases a; cases b; simp_all) hstmt h.stmts
  exact {
    isConstant := fun n hn e =>
      hdescends.isConstantWithin_eq ((hfolding e).trans_le hn) (hfolding e)
    evaluate := fun n hn e => Folding.run_evaluateWithin_eq h hn e
    typeOf := fun n hn e => hdescends.typeWithin?_eq ((hlt e).trans_le hn) (hlt e)
    atomicCalls := fun n hn e => hdescends.atomicCallsWithin_eq ((hlt e).trans_le hn) (hlt e)
    access := fun buffers n hn e =>
      hdescends.accessWithin?_eq buffers ((hlt e).trans_le hn) (hlt e)
    subscripted := fun n hn e => hdescends.subscripted_eq ((hle e).trans hn) (hle e)
    size := fun n hn d hd => sizeWithin_eq hfields (hstruct hn hd)
    leaves := fun n hn d hd => leavesWithin_eq hfields (hstruct hn hd)
    lowerExpr := fun buffers n hn e =>
      hdescends.lowerWithin_eq buffers ((hlt e).trans_le hn) (hlt e)
    lowerStmt := fun buffers n hn t =>
      lowerStmtWithin_eq hstmts buffers ((Nat.lt_succ_of_le (hlevel t)).trans_le hn)
        (Nat.lt_succ_of_le (hlevel t))
    roots := fun x => h.has_of_roots hlinked.indexed
    mentions := fun x hx y => h.has_of_mentions hlinked.indexed hx
    prune := hlinked.isSome_prune?_iff.2 (h.prunable hlinked.indexed) }

/-- An accepted shader is well formed, and all that is asked of it comes to an end, unless a
statement has been taken for a declaration first and items that were folded on the way are gone or
lead back. -/
theorem Accepted.wellFormed_followedToTheEnd (h : s.Accepted) :
    (s.WellFormed ↔ (s.Ambiguous → s.ItemsLeadAway)) ∧ (s.WellFormed → s.FollowedToTheEnd) :=
  ⟨h.wellFormed_iff, fun hwell => hwell.followedToTheEnd h.consistent.linked h.ownsFields⟩

end Shader

/-- The tokens of `const vec2 v = vec2(1 + 1, 2);`. -/
def constantVector : List TokenKind :=
  [.keyword (.storage .constant), .keyword (.type (.vector .float .two)), .ident "v", .punct .eq,
    .keyword (.type (.vector .float .two)), .punct .leftParen, .number (.integer .int 1),
    .punct .plus, .number (.integer .int 1), .punct .comma, .number (.integer .int 2),
    .punct .rightParen, .punct .semicolon]

theorem Shader.exists_wellFormed :
    ∃ s : Shader, s.Accepted ∧ s.globals.contains ⟨36⟩ ∧ s.WellFormed ∧ s.FollowedToTheEnd := by
  obtain ⟨s, hs, hfacts⟩ := Parse.exists_accepted
    (f := fun s => (s.stmts, s.globals.contains ⟨36⟩))
    (show (Parse.plainShader? .fragment (constantVector ++ [.endOfFile])).map _ =
      some (#[], true) by
      decide +kernel)
  rw [Prod.mk.injEq] at hfacts
  obtain ⟨hstmts, hglobal⟩ := hfacts
  obtain ⟨hwell, hfollowed⟩ := Accepted.wellFormed_followedToTheEnd hs
  have hwellFormed : s.WellFormed :=
    hwell.2 fun hambiguous => absurd hambiguous (not_ambiguous_of_stmts hstmts)
  exact ⟨s, hs, hglobal, hwellFormed, hfollowed hwellFormed⟩

/-- The tokens of `void f() { const vec2 v = vec2(1 + 1, 2); float[v](v.x, 2.0); }`. -/
def arrayOfVector : List TokenKind :=
  [TokenKind.keyword (.type .void), .ident "f", .punct .leftParen, .punct .rightParen,
    .punct .leftBrace] ++
    constantVector ++
    [TokenKind.keyword (.type (.scalar .float)), .punct .leftBracket, .ident "v",
      .punct .rightBracket, .punct .leftParen, .ident "v", .punct .dot, .ident "x", .punct .comma,
      .number (.real .float 0x40000000), .punct .rightParen, .punct .semicolon, .punct .rightBrace,
      .endOfFile]

/-- Folding has replaced the sum by a literal that is taken back with the attempt to read a
declaration, and the variable itself takes its place. -/
theorem Shader.exists_not_wellFormed : ∃ s : Shader, s.Accepted ∧ ¬ s.WellFormed := by
  obtain ⟨s, hs, hentries⟩ := Parse.exists_accepted
    (f := fun s => (s.expr ⟨20⟩, s.expr ⟨22⟩, (s.var ⟨36⟩).initial?))
    (show (Parse.plainShader? .fragment arrayOfVector).map _ =
        some (.construct (.builtin (.vector .float .two)) [⟨22⟩, ⟨19⟩], .var ⟨36⟩, some ⟨20⟩) by
      decide +kernel)
  simp only [Prod.mk.injEq] at hentries
  obtain ⟨hconstruct, hvar, hinitial⟩ := hentries
  refine ⟨s, hs, fun hwell => hwell.exprs ⟨20⟩ (.tail (.single ?_) (.initial hvar hinitial))⟩
  exact .operand (by simp [hconstruct, Expr.operands])

end ShaderBridge
