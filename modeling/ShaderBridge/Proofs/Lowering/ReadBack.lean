import ShaderBridge.Hlsl.Render
import ShaderBridge.Proofs.Lowering.Run
import ShaderBridge.Proofs.Parse.Printed
import ShaderBridge.Proofs.Shader.References

namespace ShaderBridge

/-! ### Types of scalars and vectors -/

namespace BuiltinType

/-- Scalars and vectors. -/
def IsRow (b : BuiltinType) : Prop :=
  b.isScalar ∨ b.isVector

variable {a b c : BuiltinType}

theorem IsRow.not_matrix (h : b.IsRow) : b.matrixExtents? = none := by
  cases b with
  | scalar | vector => rfl
  | _ => rcases h with h | h <;> cases h

theorem IsRow.vectorOf? (h : b.IsRow) {n : Nat} (hc : b.component.vectorOf? n = some c) :
    c.IsRow := by
  have hscalar : ∃ x, b.component = .scalar x := by
    cases b with
    | scalar x | vector x n => exact ⟨x, rfl⟩
    | _ => rcases h with h | h <;> cases h
  obtain ⟨x, hx⟩ := hscalar
  rw [hx, BuiltinType.vectorOf?] at hc
  split at hc
  · cases hc
    exact .inl rfl
  · obtain ⟨n, -, rfl⟩ := Option.map_eq_some_iff.1 hc
    exact .inr rfl

theorem componentwise?_eq (h : a.componentwise? b = some c) : c = a ∨ c = b := by
  unfold componentwise? at h
  dsimp only at h
  repeat' split at h
  all_goals simp_all

theorem IsRow.resultType? (ha : a.IsRow) (hb : b.IsRow) {op : BinaryOp} {t : TypeRef}
    (h : op.resultType? (.builtin a) (.builtin b) = some t) : ∃ c, t = .builtin c ∧ c.IsRow := by
  have hproduct : a.matrixProduct? b = none := by
    rw [matrixProduct?, matrixDims?, matrixDims?, ha.not_matrix, hb.not_matrix]
    rfl
  unfold BinaryOp.resultType? at h
  split at h
  · cases h
    exact ⟨_, rfl, .inl rfl⟩
  · split at h
    · cases h
      exact ⟨a, rfl, ha⟩
    · dsimp only at h
      rw [hproduct, ite_self] at h
      obtain ⟨c, hc, rfl⟩ := Option.map_eq_some_iff.1 h
      rcases componentwise?_eq hc with rfl | rfl
      · exact ⟨_, rfl, ha⟩
      · exact ⟨_, rfl, hb⟩

end BuiltinType

namespace Shader

variable {s : Shader} {t t' : Tree} {e : ExprId}

theorem typeWithin?_isRow (ht : t.IsPlain s) (hshows : s.Shows t e) {n : Nat} {type : ExprType}
    (h : s.typeWithin? n e = some type) : ∃ b, type.type = .builtin b ∧ b.IsRow := by
  induction t generalizing e n type with
  | literal c =>
      cases n with
      | zero => cases h
      | succ n =>
          rw [typeWithin?, expr_of_getElem? hshows] at h
          cases h
          exact ⟨_, rfl, .inl rfl⟩
  | var v =>
      cases n with
      | zero => cases h
      | succ n =>
          rw [typeWithin?, expr_of_getElem? hshows] at h
          cases h
          exact ht
  | unary op t ih =>
      obtain ⟨o, hexpr, ho⟩ := hshows
      cases n with
      | zero => cases h
      | succ n =>
          rw [typeWithin?, expr_of_getElem? hexpr] at h
          exact ih ht ho h
  | binary op l r ihl ihr =>
      obtain ⟨a, b, hexpr, ha, hb⟩ := hshows
      cases n with
      | zero => cases h
      | succ n =>
          rw [typeWithin?, expr_of_getElem? hexpr] at h
          obtain ⟨left, hleft, h⟩ := Option.bind_eq_some_iff.1 h
          obtain ⟨right, hright, h⟩ := Option.bind_eq_some_iff.1 h
          obtain ⟨result, hresult, h⟩ := Option.bind_eq_some_iff.1 h
          cases h
          obtain ⟨x, hx, hrow⟩ := ihl ht.2.1 ha hleft
          obtain ⟨y, hy, hrow'⟩ := ihr ht.2.2 hb hright
          rw [hx, hy] at hresult
          exact hrow.resultType? hrow' hresult
  | assign op l r ihl ihr =>
      obtain ⟨a, b, hexpr, ha, hb⟩ := hshows
      cases n with
      | zero => cases h
      | succ n =>
          rw [typeWithin?, expr_of_getElem? hexpr] at h
          exact ihl ht.2.1 ha h
  | sequence l r ihl ihr =>
      obtain ⟨a, b, hexpr, ha, hb⟩ := hshows
      cases n with
      | zero => cases h
      | succ n =>
          rw [typeWithin?, expr_of_getElem? hexpr] at h
          exact ihr ht.2 hb h
  | choice c t f ihc iht ihf =>
      obtain ⟨a, b, d, hexpr, ha, hb, hd⟩ := hshows
      cases n with
      | zero => cases h
      | succ n =>
          rw [typeWithin?, expr_of_getElem? hexpr] at h
          exact iht ht.2.1 hb h
  | swizzle t name ih =>
      obtain ⟨o, hexpr, ho⟩ := hshows
      cases n with
      | zero => cases h
      | succ n =>
          rw [typeWithin?, expr_of_getElem? hexpr] at h
          obtain ⟨operand, hoperand, h⟩ := Option.bind_eq_some_iff.1 h
          obtain ⟨b, hb, h⟩ := Option.bind_eq_some_iff.1 h
          obtain ⟨vector, hvector, h⟩ := Option.bind_eq_some_iff.1 h
          cases h
          obtain ⟨b', hb', hrow⟩ := ih ht.2.2 ho hoperand
          rw [hb'] at hb
          cases hb
          exact ⟨vector, rfl, hrow.vectorOf? hvector⟩

theorem isMatrixTimesVector_eq_false (ht : t.IsPlain s) (hshows : s.Shows t e) (op : BinaryOp)
    (right : ExprId) : s.isMatrixTimesVector op e right = false := by
  have hmatrix : ((s.baseTypeOf? e).bind TypeRef.builtin?).any BuiltinType.isMatrix = false := by
    cases htype : s.typeOf? e with
    | none => rw [baseTypeOf?, htype]; rfl
    | some type =>
        obtain ⟨b, hb, hrow⟩ := typeWithin?_isRow ht hshows htype
        rw [baseTypeOf?, htype, Option.map_some, hb]
        show b.matrixExtents?.isSome = false
        rw [hrow.not_matrix]
        rfl
  rw [isMatrixTimesVector, hmatrix, Bool.false_and, Bool.and_false]

/-! ### Depth -/

theorem Shows.unique (h : s.Shows t e) (h' : s.Shows t' e) : t = t' := by
  induction t generalizing t' e with
  | literal | var => cases t' <;> simp_all [Shows]
  | unary _ t ih | swizzle t _ ih =>
      obtain ⟨o, hexpr, ho⟩ := h
      cases t' <;> first
        | (obtain ⟨o', hexpr', ho'⟩ := h'
           cases hexpr.symm.trans hexpr'
           rw [ih ho ho'])
        | simp_all [Shows]
  | binary _ l r ihl ihr | assign _ l r ihl ihr | sequence l r ihl ihr =>
      obtain ⟨a, b, hexpr, ha, hb⟩ := h
      cases t' <;> first
        | (obtain ⟨a', b', hexpr', ha', hb'⟩ := h'
           cases hexpr.symm.trans hexpr'
           rw [ihl ha ha', ihr hb hb'])
        | simp_all [Shows]
  | choice c t f ihc iht ihf =>
      obtain ⟨a, b, d, hexpr, ha, hb, hd⟩ := h
      cases t' <;> first
        | (obtain ⟨a', b', d', hexpr', ha', hb', hd'⟩ := h'
           cases hexpr.symm.trans hexpr'
           rw [ihc ha ha', iht hb hb', ihf hd hd'])
        | simp_all [Shows]

theorem Shows.lt_size (h : s.Shows t e) : e.index < s.exprs.size := by
  have hlt {x : Expr} (hx : s.exprs[e.index]? = some x) : e.index < s.exprs.size :=
    (Array.getElem?_eq_some_iff.1 hx).1
  cases t with
  | literal | var => exact hlt h
  | unary | swizzle => obtain ⟨o, hexpr, -⟩ := h; exact hlt hexpr
  | binary | assign | sequence => obtain ⟨a, b, hexpr, -⟩ := h; exact hlt hexpr
  | choice => obtain ⟨a, b, d, hexpr, -⟩ := h; exact hlt hexpr

end Shader

/-- How deep a tree is. -/
def Tree.height : Tree → Nat
  | literal _ | var _ => 0
  | unary _ t | swizzle t _ => t.height + 1
  | binary _ l r | assign _ l r | sequence l r => max l.height r.height + 1
  | choice c t f => max c.height (max t.height f.height) + 1

namespace Shader

variable {s : Shader} {t : Tree} {e : ExprId}

theorem Shows.exists_of_le (h : s.Shows t e) {k : Nat} (hk : k ≤ t.height) :
    ∃ e' t', s.Shows t' e' ∧ t'.height = k := by
  induction t generalizing e with
  | literal | var =>
      obtain rfl := Nat.le_zero.1 hk
      exact ⟨e, _, h, rfl⟩
  | unary op t ih | swizzle t name ih =>
      rcases Nat.lt_or_eq_of_le hk with hlt | rfl
      · obtain ⟨o, -, ho⟩ := h
        exact ih ho (Nat.le_of_lt_succ hlt)
      · exact ⟨e, _, h, rfl⟩
  | binary op l r ihl ihr | assign op l r ihl ihr | sequence l r ihl ihr =>
      rcases Nat.lt_or_eq_of_le hk with hlt | rfl
      · obtain ⟨a, b, -, ha, hb⟩ := h
        exact (le_max_iff.1 (Nat.le_of_lt_succ hlt)).elim (ihl ha) (ihr hb)
      · exact ⟨e, _, h, rfl⟩
  | choice c t f ihc iht ihf =>
      rcases Nat.lt_or_eq_of_le hk with hlt | rfl
      · obtain ⟨a, b, d, -, ha, hb, hd⟩ := h
        exact (le_max_iff.1 (Nat.le_of_lt_succ hlt)).elim (ihc ha) fun h =>
          (le_max_iff.1 h).elim (iht hb) (ihf hd)
      · exact ⟨e, _, h, rfl⟩

theorem Shows.height_lt (h : s.Shows t e) : t.height < s.exprs.size := by
  refine height_le_of_levels (fun i k => ∃ t', s.Shows t' ⟨i⟩ ∧ t'.height = k) ?_ fun k hk => ?_
  · rintro i _ _ ⟨t₁, h₁, rfl⟩ ⟨t₂, h₂, rfl⟩
    rw [h₁.unique h₂]
  · obtain ⟨e', t', h', rfl⟩ := h.exists_of_le (Nat.le_of_lt_succ hk)
    exact ⟨e'.index, h'.lt_size, t', h', rfl⟩

end Shader

/-! ### What is printed -/

open Hlsl

/-- The expression that a tree is lowered to. -/
def Tree.lowered (name : VarId → String) : Tree → Hlsl.Expr
  | literal c => .literal c
  | var v => .name (name v)
  | unary .minus t => .group (.unary .minus (t.lowered name))
  | unary op t => .unary op (t.lowered name)
  | binary op l r => .group (.binary op (l.lowered name).asOperand (r.lowered name).asOperand)
  | assign op l r => .assign op (l.lowered name) (r.lowered name)
  | sequence l r => .group (.sequence (l.lowered name) (r.lowered name))
  | choice c t f => .group (.choice (c.lowered name).asOperand (t.lowered name).asOperand
    (f.lowered name).asOperand)
  | swizzle t field => .member (t.lowered name) field

theorem Hlsl.run_bind_of_run {α β : Type} {m : LowerM α} {f : α → LowerM β} {σ σ' : LoweringState}
    {a : α} (hm : m.run σ = (a, σ')) : (m >>= f).run σ = (f a).run σ' := by
  rw [StateT.run_bind, hm]
  rfl

theorem Hlsl.run_map_of_run {α β : Type} {m : LowerM α} {f : α → β} {σ σ' : LoweringState} {a : α}
    (hm : m.run σ = (a, σ')) : (f <$> m).run σ = (f a, σ') := by
  rw [StateT.run_map, hm]
  rfl

namespace Shader

variable {s : Shader} {buffers : List ByteBuffer} {t : Tree} {e : ExprId} {σ : LoweringState}

theorem lookup_eq_none (hdone : ∀ c ∈ σ.done, ∃ name args f, s.expr c = .call name args f)
    (he : ∀ name args f, s.expr e ≠ .call name args f) : σ.hoisted.lookup e = none := by
  have hnot : σ.done.contains e = false := by
    by_contra h
    obtain ⟨name, args, f, hcall⟩ := hdone e (by simpa using h)
    exact he name args f hcall
  rw [← isSome_lookup_hoisted] at hnot
  simpa using hnot

theorem bufferOf?_eq_none (hvars : ∀ v ∈ t.vars, ∀ buffer ∈ buffers, buffer.field ≠ v)
    (hshows : s.Shows t e) : s.bufferOf? buffers e = none := by
  have hnone (h : s.namedVar? e = none) : s.bufferOf? buffers e = none := by
    rw [bufferOf?, h]
    rfl
  cases t with
  | var v =>
      have hnamed : s.namedVar? e = some v := by rw [namedVar?, expr_of_getElem? hshows]
      rw [bufferOf?, hnamed]
      exact List.find?_eq_none.2 fun buffer hbuffer => by
        simpa using hvars v List.mem_cons_self buffer hbuffer
  | literal => exact hnone (by rw [namedVar?, expr_of_getElem? hshows])
  | unary | swizzle =>
      obtain ⟨o, hexpr, -⟩ := hshows
      exact hnone (by rw [namedVar?, expr_of_getElem? hexpr])
  | binary | assign | sequence =>
      obtain ⟨a, b, hexpr, -⟩ := hshows
      exact hnone (by rw [namedVar?, expr_of_getElem? hexpr])
  | choice =>
      obtain ⟨a, b, d, hexpr, -⟩ := hshows
      exact hnone (by rw [namedVar?, expr_of_getElem? hexpr])

theorem accessWithin?_eq_none {v : VarId} (htarget : t.target? = some v)
    (hvars : ∀ v ∈ t.vars, ∀ buffer ∈ buffers, buffer.field ≠ v) (hshows : s.Shows t e)
    (n : Nat) : s.accessWithin? buffers n e = none := by
  induction t generalizing e n with
  | var w =>
      cases n with
      | zero => rfl
      | succ n =>
          rw [accessWithin?, bufferOf?_eq_none hvars hshows, expr_of_getElem? hshows]
  | swizzle t name ih =>
      obtain ⟨o, hexpr, ho⟩ := id hshows
      cases n with
      | zero => rfl
      | succ n =>
          rw [accessWithin?, bufferOf?_eq_none hvars hshows, expr_of_getElem? hexpr]
          dsimp only
          rw [ih htarget hvars ho]
          rfl
  | _ => cases htarget

theorem run_lowerWithin (ht : t.IsPlain s) (hshows : s.Shows t e)
    (hvars : ∀ v ∈ t.vars, ∀ buffer ∈ buffers, buffer.field ≠ v)
    (hdone : ∀ c ∈ σ.done, ∃ name args f, s.expr c = .call name args f) {n : Nat}
    (hn : t.height < n) :
    (s.lowerWithin buffers n e).run σ = (t.lowered fun v => (s.var v).name, σ) := by
  -- Only calls are hoisted, and the tree has none, so that each part is written where it stands.
  have hnone {e : ExprId} {x : Expr} (hexpr : s.exprs[e.index]? = some x)
      (hx : ∀ name args f, x ≠ .call name args f) : σ.hoisted.lookup e = none :=
    lookup_eq_none hdone (by rw [expr_of_getElem? hexpr]; exact hx)
  induction t generalizing e n with
  | literal c =>
      obtain ⟨n, rfl⟩ : ∃ m, n = m + 1 := ⟨n - 1, by omega⟩
      have hlookup := hnone hshows (by intros; exact Expr.noConfusion)
      simp only [lowerWithin, StateT.run_bind, StateT.run_get, pure_bind, hlookup,
        expr_of_getElem? hshows]
      rfl
  | var v =>
      obtain ⟨n, rfl⟩ : ∃ m, n = m + 1 := ⟨n - 1, by omega⟩
      have hlookup := hnone hshows (by intros; exact Expr.noConfusion)
      simp only [lowerWithin, StateT.run_bind, StateT.run_get, pure_bind, hlookup,
        expr_of_getElem? hshows, bufferOf?_eq_none hvars hshows]
      rfl
  | unary op t ih =>
      obtain ⟨n, rfl⟩ : ∃ m, n = m + 1 := ⟨n - 1, by omega⟩
      obtain ⟨o, hexpr, ho⟩ := hshows
      have hlookup := hnone hexpr (by intros; exact Expr.noConfusion)
      have ih := ih ht ho hvars (Nat.lt_of_succ_lt_succ hn)
      cases op <;>
      · simp only [lowerWithin, StateT.run_bind, StateT.run_get, pure_bind, hlookup,
          expr_of_getElem? hexpr, ih]
        rfl
  | swizzle t name ih =>
      have hbuffer := bufferOf?_eq_none hvars hshows
      obtain ⟨n, rfl⟩ : ∃ m, n = m + 1 := ⟨n - 1, by omega⟩
      obtain ⟨o, hexpr, ho⟩ := hshows
      have hlookup := hnone hexpr (by intros; exact Expr.noConfusion)
      have ih := ih ht.2.2 ho hvars (Nat.lt_of_succ_lt_succ hn)
      simp only [lowerWithin, StateT.run_bind, StateT.run_get, pure_bind, hlookup,
        expr_of_getElem? hexpr, hbuffer, ih]
      rfl
  | binary op l r ihl ihr =>
      obtain ⟨n, rfl⟩ : ∃ m, n = m + 1 := ⟨n - 1, by omega⟩
      obtain ⟨a, b, hexpr, ha, hb⟩ := hshows
      have hlookup := hnone hexpr (by intros; exact Expr.noConfusion)
      have hn := Nat.lt_of_succ_lt_succ hn
      have ihl := ihl ht.2.1 ha (fun v hv => hvars v (List.mem_append_left _ hv))
        (Nat.lt_of_le_of_lt (Nat.le_max_left _ _) hn)
      have ihr := ihr ht.2.2 hb (fun v hv => hvars v (List.mem_append_right _ hv))
        (Nat.lt_of_le_of_lt (Nat.le_max_right _ _) hn)
      have hop : lowerBinaryOp op = op := by
        cases op <;> first | rfl | exact absurd rfl ht.1
      simp only [lowerWithin, StateT.run_bind, StateT.run_get, pure_bind, hlookup,
        expr_of_getElem? hexpr, isMatrixTimesVector_eq_false ht.2.1 ha, hop, Bool.false_eq_true,
        if_false, run_bind_of_run (run_map_of_run ihl), run_bind_of_run (run_map_of_run ihr)]
      rfl
  | assign op l r ihl ihr =>
      obtain ⟨n, rfl⟩ : ∃ m, n = m + 1 := ⟨n - 1, by omega⟩
      obtain ⟨a, b, hexpr, ha, hb⟩ := hshows
      obtain ⟨⟨v, htarget, -⟩, hl, hr⟩ := ht
      have hlookup := hnone hexpr (by intros; exact Expr.noConfusion)
      have hn := Nat.lt_of_succ_lt_succ hn
      have hvarsl := fun v hv => hvars v (List.mem_append_left _ hv)
      have ihl := ihl hl ha hvarsl (Nat.lt_of_le_of_lt (Nat.le_max_left _ _) hn)
      have ihr := ihr hr hb (fun v hv => hvars v (List.mem_append_right _ hv))
        (Nat.lt_of_le_of_lt (Nat.le_max_right _ _) hn)
      have haccess : s.access? buffers a = none := accessWithin?_eq_none htarget hvarsl ha _
      simp only [lowerWithin, StateT.run_bind, StateT.run_get, pure_bind, hlookup,
        expr_of_getElem? hexpr, haccess, run_bind_of_run ihl, run_bind_of_run ihr]
      rfl
  | sequence l r ihl ihr =>
      obtain ⟨n, rfl⟩ : ∃ m, n = m + 1 := ⟨n - 1, by omega⟩
      obtain ⟨a, b, hexpr, ha, hb⟩ := hshows
      have hlookup := hnone hexpr (by intros; exact Expr.noConfusion)
      have hn := Nat.lt_of_succ_lt_succ hn
      have ihl := ihl ht.1 ha (fun v hv => hvars v (List.mem_append_left _ hv))
        (Nat.lt_of_le_of_lt (Nat.le_max_left _ _) hn)
      have ihr := ihr ht.2 hb (fun v hv => hvars v (List.mem_append_right _ hv))
        (Nat.lt_of_le_of_lt (Nat.le_max_right _ _) hn)
      simp only [lowerWithin, StateT.run_bind, StateT.run_get, pure_bind, hlookup,
        expr_of_getElem? hexpr, run_bind_of_run ihl, run_bind_of_run ihr]
      rfl
  | choice c t f ihc iht ihf =>
      obtain ⟨n, rfl⟩ : ∃ m, n = m + 1 := ⟨n - 1, by omega⟩
      obtain ⟨a, b, d, hexpr, ha, hb, hd⟩ := hshows
      have hlookup := hnone hexpr (by intros; exact Expr.noConfusion)
      have hn : max c.height (max t.height f.height) < n := Nat.lt_of_succ_lt_succ hn
      have ihc := ihc ht.1 ha (fun v hv => hvars v
        (List.mem_append_left _ (List.mem_append_left _ hv))) (by omega : c.height < n)
      have iht := iht ht.2.1 hb (fun v hv => hvars v
        (List.mem_append_left _ (List.mem_append_right _ hv))) (by omega : t.height < n)
      have ihf := ihf ht.2.2 hd (fun v hv => hvars v (List.mem_append_right _ hv))
        (by omega : f.height < n)
      simp only [lowerWithin, StateT.run_bind, StateT.run_get, pure_bind, hlookup,
        expr_of_getElem? hexpr, run_bind_of_run (run_map_of_run ihc),
        run_bind_of_run (run_map_of_run iht), run_bind_of_run (run_map_of_run ihf)]
      rfl

/-- The bounds on depth that lowering has do not matter. -/
theorem run_lowerExpr (ht : t.IsPlain s) (hshows : s.Shows t e)
    (hvars : ∀ v ∈ t.vars, ∀ buffer ∈ buffers, buffer.field ≠ v)
    (hdone : ∀ c ∈ σ.done, ∃ name args f, s.expr c = .call name args f) :
    (s.lowerExpr buffers e).run σ = (t.lowered fun v => (s.var v).name, σ) :=
  run_lowerWithin ht hshows hvars hdone (Nat.lt_succ_of_lt hshows.height_lt)

end Shader

namespace Tree

variable {s : Shader} {t : Tree} {name : VarId → String} {indent : String}

theorem asOperand_lowered (t : Tree) : (t.lowered name).asOperand =
    if t.isAssignment then .group (t.lowered name) else t.lowered name := by
  cases t with
  | unary op t => cases op <;> rfl
  | _ => rfl

theorem text_closeIf (close : Bool) (p : Phrase) : (p.closeIf close).text name =
    if close then '(' :: (p.text name ++ [')']) else p.text name := by
  cases close <;> rfl

theorem toList_render_asOperand
    (h : ((t.lowered name).render indent).toList = t.printed.text name) :
    ((t.lowered name).asOperand.render indent).toList =
      (t.printed.closeIf t.isAssignment).text name := by
  rw [asOperand_lowered, text_closeIf]
  split
  · simp only [Hlsl.Expr.render, String.toList_append, h]
    rfl
  · exact h

theorem toList_render_lowered (ht : t.IsPlain s) :
    ((t.lowered name).render indent).toList = t.printed.text name := by
  induction t with
  | literal c =>
      cases c with
      | integer k bits =>
          rw [lowered, Hlsl.Expr.render, String.toList_ofList, printed]
          split
          · next hneg => exact Constant.literalText_of_isNegative hneg
          · next hneg => exact Constant.unsignedText_of_nonneg (by simpa using hneg)
      | bool | real => cases ht
  | var v => rfl
  | unary op t ih =>
      have ih := ih ht
      cases op <;>
        simp [lowered, Hlsl.Expr.render, unaryText, printed, Phrase.text, UnaryOp.isPostfix,
          UnaryOp.mark, Punct.spelling, ih]
  | swizzle t field ih =>
      simp [lowered, Hlsl.Expr.render, printed, Phrase.text, ih ht.2.2]
  | binary op l r ihl ihr =>
      have hl := toList_render_asOperand (ihl ht.2.1)
      have hr := toList_render_asOperand (ihr ht.2.2)
      have hop : op.spelling = op.mark.spelling := by cases op <;> rfl
      simp [lowered, Hlsl.Expr.render, printed, Phrase.text, hl, hr, hop, InfixOp.mark]
  | assign op l r ihl ihr =>
      have hop : op.spelling = op.mark.spelling := by cases op <;> rfl
      simp [lowered, Hlsl.Expr.render, printed, Phrase.text, ihl ht.2.1, ihr ht.2.2, hop,
        InfixOp.mark]
  | sequence l r ihl ihr =>
      simp [lowered, Hlsl.Expr.render, printed, Phrase.text, ihl ht.1, ihr ht.2]
  | choice c t f ihc iht ihf =>
      have hc := toList_render_asOperand (ihc ht.1)
      have ht' := toList_render_asOperand (iht ht.2.1)
      have hf := toList_render_asOperand (ihf ht.2.2)
      simp [lowered, Hlsl.Expr.render, printed, Phrase.text, hc, ht', hf]

/-! ### Reading back -/

theorem vars_signed (t : Tree) : t.signed.vars = t.vars := by
  induction t with
  | literal c =>
      unfold signed
      split <;> rfl
  | var => rfl
  | _ => simp_all [signed, vars]

theorem target?_signed (t : Tree) : t.signed.target? = t.target? := by
  induction t with
  | literal c =>
      unfold signed
      split <;> rfl
  | swizzle t name ih => exact ih
  | _ => rfl

theorem IsPlain.ne_declared (ht : t.IsPlain s) {v : VarId} (hv : v ∈ t.vars) (id : StructId) :
    (s.var v).type ≠ .declared id := by
  induction t with
  | literal => cases hv
  | var w =>
      obtain rfl := List.mem_singleton.1 hv
      obtain ⟨b, hb, -⟩ := ht
      rw [hb]
      exact TypeRef.noConfusion
  | unary op t ih => exact ih ht hv
  | swizzle t name ih => exact ih ht.2.2 hv
  | binary op l r ihl ihr | assign op l r ihl ihr =>
      exact (List.mem_append.1 hv).elim (ihl ht.2.1) (ihr ht.2.2)
  | sequence l r ihl ihr => exact (List.mem_append.1 hv).elim (ihl ht.1) (ihr ht.2)
  | choice c t f ihc iht ihf =>
      exact (List.mem_append.1 hv).elim
        (fun hv => (List.mem_append.1 hv).elim (ihc ht.1) (iht ht.2.1)) (ihf ht.2.2)

theorem IsPlain.fits_signed {scopes : List (List VarId)} (ht : t.IsPlain s)
    (hvars : ∀ v ∈ t.vars, s.IsNamed scopes v) : t.signed.Fits s.var scopes := by
  induction t with
  | literal c =>
      unfold signed
      split <;> trivial
  | var v => exact (hvars v List.mem_cons_self).found
  | unary op t ih => exact ih ht hvars
  | swizzle t name ih =>
      refine ⟨ih ht.2.2 hvars, fun v hv => ?_⟩
      rw [vars_signed] at hv
      exact ht.2.2.ne_declared hv
  | binary op l r ihl ihr =>
      exact ⟨ihl ht.2.1 fun v hv => hvars v (List.mem_append_left _ hv),
        ihr ht.2.2 fun v hv => hvars v (List.mem_append_right _ hv)⟩
  | assign op l r ihl ihr =>
      obtain ⟨⟨v, htarget, hwritable⟩, hl, hr⟩ := ht
      exact ⟨ihl hl fun v hv => hvars v (List.mem_append_left _ hv),
        ihr hr fun v hv => hvars v (List.mem_append_right _ hv), v,
        (target?_signed l).trans htarget, hwritable⟩
  | sequence l r ihl ihr =>
      exact ⟨ihl ht.1 fun v hv => hvars v (List.mem_append_left _ hv),
        ihr ht.2 fun v hv => hvars v (List.mem_append_right _ hv)⟩
  | choice c t f ihc iht ihf =>
      exact ⟨ihc ht.1 fun v hv => hvars v (List.mem_append_left _ (List.mem_append_left _ hv)),
        iht ht.2.1 fun v hv => hvars v (List.mem_append_left _ (List.mem_append_right _ hv)),
        ihf ht.2.2 fun v hv => hvars v (List.mem_append_right _ hv)⟩

end Tree

namespace Parse

variable {s : Shader} {scopes : List (List VarId)} {t t' : Tree} {text : String}

/-- From a text an expression of the shape of a tree is read, wherever it may end that is not in the
middle of a sequence. -/
def ReadsBack (s : Shader) (scopes : List (List VarId)) (text : String) (t : Tree) : Prop :=
  ∃ tokens place, tokenize text = .ok (tokens ++ [⟨.endOfFile, place⟩]) ∧
    ∀ ends rest calls, (∀ p ∈ ends, p = .comma ∨ p ∈ closingMarks) → IsEnd ends rest →
      ∃ id s', (expression ends).run ⟨tokens ++ rest, s, scopes, calls⟩ =
          .ok (id, ⟨rest, s', scopes, calls⟩) ∧ s'.Shows t id ∧ s.Adds t.size s'

theorem ReadsBack.unique (h : ReadsBack s scopes text t) (h' : ReadsBack s scopes text t') :
    t = t' := by
  obtain ⟨tokens, place, htokens, h⟩ := h
  obtain ⟨tokens', place', htokens', h'⟩ := h'
  obtain rfl : tokens = tokens' :=
    (List.append_inj' (Except.ok.inj (htokens.symm.trans htokens')) rfl).1
  obtain ⟨id, s', hrun, hshows, -⟩ := h [] [] [] (by simp) (.inl rfl)
  obtain ⟨id', s'', hrun', hshows', -⟩ := h' [] [] [] (by simp) (.inl rfl)
  cases hrun.symm.trans hrun'
  exact hshows.unique hshows'

/-- A printed phrase is read back as its tree, if its operators take the operands that they are
meant to take. -/
theorem readsBack_text {p : Phrase} (hgrouped : p.Grouped) (hlevel : 1 < p.level)
    (hapart : p.Apart fun v => (s.var v).name) (hfits : p.tree.Fits s.var scopes) :
    ReadsBack s scopes (String.ofList (p.text fun v => (s.var v).name)) p.tree := by
  have hends : p.Ends [] := fun x hx => by cases hx
  have hlexes := hapart.lexes_text hends lexes_nil
  obtain ⟨_, htokens, tokens, _, rfl, hkinds, place, rfl⟩ := hlexes 0
  rw [List.append_nil] at htokens
  refine ⟨tokens, place, by rw [tokenize, String.toList_ofList]; exact htokens, ?_⟩
  intro ends rest calls hends hrest
  have hst : Starts p ⟨tokens ++ rest, s, scopes, calls⟩ rest := ⟨⟨tokens, rfl, hkinds⟩, hfits⟩
  have hselection : isSelection (kindAt rest) = false := by
    rcases hrest with hrest | ⟨mark, hmark, hrest⟩
    · rw [hrest]
      rfl
    · rw [hrest]
      rcases hends mark hmark with rfl | hclosing
      · rfl
      · exact (ofPunct?_closing hclosing).2
  have hopen : Open ends p := by
    intro op hop
    rcases hends op.mark hop with hcomma | hclosing
    · exact ⟨InfixOp.binding_eq_one_of_mark hcomma, hlevel⟩
    · have hnone := (ofPunct?_closing hclosing).1
      rw [InfixOp.ofPunct?_mark] at hnone
      cases hnone
  obtain ⟨id, ⟨_, s', _, _⟩, hrun, hyields⟩ :=
    exists_run_expression hgrouped hst hselection hrest.infixAt? hopen
  obtain ⟨rfl, rfl, rfl, hadds, hshows⟩ := hyields
  exact ⟨id, s', hrun, hshows, hadds⟩

theorem readsBack_printed (ht : t.IsPlain s) (hclear : t.isClear)
    (hvars : ∀ v ∈ t.vars, s.IsNamed scopes v) (close : Bool) :
    ReadsBack s scopes
      (String.ofList ((t.printed.closeIf close).text fun v => (s.var v).name)) t.signed := by
  have hlevel : 1 < (t.printed.closeIf close).level := by
    rw [Phrase.level_closeIf, Tree.level_printed]
    split
    · decide
    · split <;> decide
  have htree : (t.printed.closeIf close).tree = t.signed := by
    rw [Phrase.tree_closeIf, Tree.tree_printed]
  rw [← htree]
  exact readsBack_text (Phrase.grouped_closeIf (Tree.grouped_printed ht hclear) _) hlevel
    (Tree.apart_closeIf (Tree.apart_printed ht hclear hvars) _)
    (by rw [htree]; exact ht.fits_signed hvars)

/-- An expression of integers, scalars and vectors that do not lie in storage blocks is printed so
that it is read back as it is, if its tree is clear. Where it is an operand, an assignment has
parentheses around it. -/
theorem readsBack_of_isClear {buffers : List ByteBuffer} {e : ExprId} {σ : LoweringState}
    (ht : t.IsPlain s) (hclear : t.isClear) (hvars : ∀ v ∈ t.vars, s.IsNamed scopes v)
    (hfields : ∀ v ∈ t.vars, ∀ buffer ∈ buffers, buffer.field ≠ v) (hshows : s.Shows t e)
    (hdone : ∀ c ∈ σ.done, ∃ name args f, s.expr c = .call name args f) (indent : String) :
    ∃ x, (s.lowerExpr buffers e).run σ = (x, σ) ∧
      ReadsBack s scopes (x.render indent) t.signed ∧
      ReadsBack s scopes (x.asOperand.render indent) t.signed := by
  have htext : ((t.lowered fun v => (s.var v).name).render indent).toList =
      t.printed.text fun v => (s.var v).name := Tree.toList_render_lowered ht
  have hoperand := Tree.toList_render_asOperand htext
  refine ⟨_, Shader.run_lowerExpr ht hshows hfields hdone, ?_, ?_⟩
  · have h := readsBack_printed ht hclear hvars false
    rwa [Phrase.closeIf, if_neg Bool.false_ne_true, ← htext, String.ofList_toList] at h
  · have h := readsBack_printed ht hclear hvars t.isAssignment
    rwa [← hoperand, String.ofList_toList] at h

/-- The expressions `v.x += -a++ * -3` and `+ +a` of two variables. -/
def pairAndNumber : Shader :=
  { stage := .fragment
    vars := #[{ name := "v", type := .builtin (.vector .int .two), role := .localVar none },
      { name := "a", type := .builtin (.scalar .int), role := .localVar none }]
    exprs := #[.var ⟨0⟩, .member ⟨0⟩ "x" none, .var ⟨1⟩, .unary .postIncrement ⟨2⟩,
      .unary .minus ⟨3⟩, .constant (.int (-3)), .binary .mul ⟨4⟩ ⟨5⟩, .assign .add ⟨1⟩ ⟨6⟩,
      .unary .plus ⟨2⟩, .unary .plus ⟨8⟩] }

def addedProduct : Tree :=
  .assign .add (.swizzle (.var ⟨0⟩) "x") (.binary .mul (.unary .minus
    (.unary .postIncrement (.var ⟨1⟩))) (.literal (.int (-3))))

theorem isNamed_pairAndNumber {v : VarId} (hv : v ∈ [(⟨0⟩ : VarId), ⟨1⟩]) :
    pairAndNumber.IsNamed [[⟨1⟩, ⟨0⟩]] v := by
  rcases List.mem_pair.1 hv with rfl | rfl
  · exact ⟨by decide, by decide, by decide +kernel⟩
  · exact ⟨by decide, by decide, by decide +kernel⟩

theorem readsBack_addedProduct :
    addedProduct.IsPlain pairAndNumber ∧ addedProduct.isClear ∧
      pairAndNumber.Shows addedProduct ⟨7⟩ ∧
      ∃ x, (pairAndNumber.lowerExpr [] ⟨7⟩).run {} = (x, {}) ∧
        ReadsBack pairAndNumber [[⟨1⟩, ⟨0⟩]] (x.render "") addedProduct.signed ∧
        ReadsBack pairAndNumber [[⟨1⟩, ⟨0⟩]] (x.asOperand.render "") addedProduct.signed := by
  have hplain : addedProduct.IsPlain pairAndNumber :=
    ⟨⟨⟨0⟩, rfl, by decide, by decide⟩, ⟨by decide, by decide +kernel, _, rfl, .inr rfl⟩,
      by decide, ⟨_, rfl, .inl rfl⟩, rfl⟩
  have hshows : pairAndNumber.Shows addedProduct ⟨7⟩ :=
    ⟨⟨1⟩, ⟨6⟩, rfl, ⟨⟨0⟩, rfl, rfl⟩, ⟨4⟩, ⟨5⟩, rfl, ⟨⟨3⟩, rfl, ⟨2⟩, rfl, rfl⟩, rfl⟩
  have hclear : addedProduct.isClear := by decide
  exact ⟨hplain, hclear, hshows, readsBack_of_isClear hplain hclear
    (fun v hv => isNamed_pairAndNumber hv) (fun _ _ _ h => by cases h) hshows
    (fun _ h => by cases h) ""⟩

def twicePlus : Tree :=
  .unary .plus (.unary .plus (.var ⟨1⟩))

/-- Two plus signs run together: what is printed is read back as an increment. -/
theorem not_readsBack_twicePlus :
    twicePlus.IsPlain pairAndNumber ∧ pairAndNumber.Shows twicePlus ⟨9⟩ ∧
      ReadsBack pairAndNumber [[⟨1⟩, ⟨0⟩]]
        (((pairAndNumber.lowerExpr [] ⟨9⟩).run {}).1.render "")
        (.unary .preIncrement (.var ⟨1⟩)) ∧
      ¬ ReadsBack pairAndNumber [[⟨1⟩, ⟨0⟩]]
        (((pairAndNumber.lowerExpr [] ⟨9⟩).run {}).1.render "") twicePlus.signed := by
  have hplain : twicePlus.IsPlain pairAndNumber := ⟨_, rfl, .inl rfl⟩
  have hshows : pairAndNumber.Shows twicePlus ⟨9⟩ := ⟨⟨8⟩, rfl, ⟨2⟩, rfl, rfl⟩
  have hrun : (pairAndNumber.lowerExpr [] ⟨9⟩).run {} = _ :=
    Shader.run_lowerExpr hplain hshows (fun _ _ _ h => by cases h) fun _ h => by cases h
  have hincrement : ReadsBack pairAndNumber [[⟨1⟩, ⟨0⟩]]
      (((pairAndNumber.lowerExpr [] ⟨9⟩).run {}).1.render "")
      (.unary .preIncrement (.var ⟨1⟩)) := by
    rw [hrun]
    exact readsBack_printed (t := .unary .preIncrement (.var ⟨1⟩)) ⟨_, rfl, .inl rfl⟩ rfl
      (fun v hv => isNamed_pairAndNumber (List.mem_cons_of_mem _ hv)) false
  refine ⟨hplain, hshows, hincrement, fun h => ?_⟩
  exact absurd (h.unique hincrement) (by decide)

end Parse

end ShaderBridge
