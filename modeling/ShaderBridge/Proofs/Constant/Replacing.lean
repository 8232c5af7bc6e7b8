import ShaderBridge.Proofs.Constant.Run
import ShaderBridge.Proofs.Shader.Linked
import ShaderBridge.Proofs.Shader.Members
import ShaderBridge.Proofs.Shader.Resolved

namespace ShaderBridge

namespace Folding

open Shader

variable {α β : Type} {s s' : Shader}

/-- What folding does to a shader. -/
structure Folded (s s' : Shader) : Prop where
  grows : s.Grows s'
  vars : s'.vars = s.vars
  linked : s.Linked → s'.Linked
  items : s.Linked → s.ItemsBelow → s'.ItemsBelow
  /-- Nothing but literals is added. -/
  literals : ∀ id : ExprId, s.exprs.size ≤ id.index → ∃ value, s'.expr id = .constant value

theorem Folded.refl (s : Shader) : Folded s s :=
  ⟨.refl s, rfl, fun h => h, fun _ h => h, fun _ hid => ⟨_, expr_of_size_le hid⟩⟩

theorem Folded.trans {s'' : Shader} (h : Folded s s') (h' : Folded s' s'') : Folded s s'' where
  grows := h.grows.trans h'.grows
  vars := h'.vars.trans h.vars
  linked hs := h'.linked (h.linked hs)
  items hs hi := h'.items (h.linked hs) (h.items hs hi)
  literals id hid := by
    by_cases hlt : id.index < s'.exprs.size
    · obtain ⟨value, hvalue⟩ := h.literals id hid
      have hsame := h'.grows.expr id hlt
      rw [hvalue] at hsame
      generalize s''.expr id = e at hsame
      cases hsame
      exact ⟨value, rfl⟩
    · exact h'.literals id (Nat.not_lt.1 hlt)

/-- What an expression has been folded to stands in front of it, if it is not the expression itself
or a literal. -/
def Lowers (s s' : Shader) (id id' : ExprId) : Prop :=
  s.Linked → s.has (.expr id) → s'.has (.expr id') ∧ (s.ItemsBelow → s'.rank id' ≤ s.rank id)

theorem lowers_addConstant {s₀ : Shader} {id id' : ExprId} {v : Constant}
    (h : (addConstant v).run.run s = (.ok id', s')) : Folded s s' ∧ Lowers s₀ s' id id' := by
  rw [run_addConstant] at h
  cases h
  refine
    ⟨⟨.addExpr s (.constant v), rfl, fun hs => hs.addExpr (List.forall_mem_nil _), fun _ hi => ?_,
    fun j hj => ?_⟩, fun _ _ => ⟨?_, fun _ => ?_⟩⟩
  · exact hi.addExpr (List.forall_mem_nil _)
  · change ∃ value, (s.addExpr (.constant v)).2.expr j = .constant value
    rw [expr_addExpr]
    split
    · exact ⟨v, rfl⟩
    · exact ⟨_, expr_of_size_le hj⟩
  · simp [Shader.has]
  · simp [rank, constant?, Shader.expr]

/-- A way of folding expressions. -/
def Evaluates (m : ExprId → FoldM ExprId) : Prop :=
  ∀ id s id' s', (m id).run.run s = (.ok id', s') → Folded s s' ∧ Lowers s s' id id'

theorem evaluates_mapM {m : ExprId → FoldM ExprId} (hm : Evaluates m) {ids ids' : List ExprId}
    (h : (ids.mapM m).run.run s = (.ok ids', s')) :
    Folded s s' ∧ ∀ n, s.Linked → s.ItemsBelow →
      (∀ a ∈ ids, a.index < s.exprs.size ∧ s.rank a ≤ n) →
        ∀ a ∈ ids', a.index < s'.exprs.size ∧ s'.rank a ≤ n := by
  induction ids generalizing s ids' with
  | nil =>
      cases h
      exact ⟨.refl _, fun n _ _ _ a ha => absurd ha List.not_mem_nil⟩
  | cons id rest ih =>
      rw [List.mapM_cons] at h
      obtain ⟨id', s₁, hfirst, h⟩ := run_bind_ok.1 h
      obtain ⟨rest', s₂, hrest, h⟩ := run_bind_ok.1 h
      cases h
      obtain ⟨hfolded, hlowers⟩ := hm id s id' s₁ hfirst
      obtain ⟨hfolded', hrest'⟩ := ih hrest
      refine ⟨hfolded.trans hfolded', fun n hs hi hn => ?_⟩
      obtain ⟨hid, hbelow⟩ := List.forall_mem_cons.1 hn
      obtain ⟨hhas, hrank⟩ := hlowers hs (by simpa [has] using hid.1)
      have hlt : id'.index < s₁.exprs.size := by simpa [has] using hhas
      refine List.forall_mem_cons.2 ⟨⟨Nat.lt_of_lt_of_le hlt hfolded'.grows.exprs, ?_⟩, ?_⟩
      · rw [hfolded'.grows.rank_eq hlt]
        exact (hrank hi).trans hid.2
      · refine hrest' n (hfolded.linked hs) (hfolded.items hs hi) fun a ha => ?_
        obtain ⟨hlt, hle⟩ := hbelow a ha
        exact ⟨Nat.lt_of_lt_of_le hlt hfolded.grows.exprs, by rwa [hfolded.grows.rank_eq hlt]⟩

section

variable {wrap : List ExprId → Expr}

theorem HoldsItems.refolds (h : HoldsItems wrap) (items items' : List ExprId) :
    (wrap items).Refolds (wrap items') := by
  cases h with
  | construct type => exact .construct type items items'
  | aggregate => exact .aggregate items items'

theorem HoldsItems.items_eq (h : HoldsItems wrap) (items : List ExprId) :
    (wrap items).items = items := by
  cases h <;> rfl

theorem HoldsItems.operands_eq (h : HoldsItems wrap) (items : List ExprId) :
    (wrap items).operands = items := by
  cases h <;> rfl

theorem HoldsItems.isFolded (h : HoldsItems wrap) (items : List ExprId) :
    (wrap items).isFolded := by
  cases h <;> rfl

theorem HoldsItems.ne_var (h : HoldsItems wrap) (items : List ExprId) (v : VarId) :
    wrap items ≠ .var v := by
  cases h <;> exact Expr.noConfusion

theorem HoldsItems.ne_default (h : HoldsItems wrap) (items : List ExprId) :
    wrap items ≠ default := by
  cases h <;> exact Expr.noConfusion

end

theorem evaluates_items {m : ExprId → FoldM ExprId} (hm : Evaluates m) {e : ExprId}
    {wrap : List ExprId → Expr} (hwrap : HoldsItems wrap) {items items' : List ExprId} {s₁ : Shader}
    (hexpr : s.expr e = wrap items) (hrun : (items.mapM m).run.run s = (.ok items', s₁)) :
    Folded s (s₁.setExpr e (wrap items')) ∧ Lowers s (s₁.setExpr e (wrap items')) e e := by
  obtain ⟨hfolded, hbelow⟩ := evaluates_mapM hm hrun
  have he : e.index < s.exprs.size := index_lt_of_expr hexpr (hwrap.ne_default items)
  have he₁ := Nat.lt_of_lt_of_le he hfolded.grows.exprs
  -- The expression may have been reached again from its items, and then they have changed since.
  have hrefolds : (s₁.expr e).Refolds (wrap items') :=
    (hfolded.grows.expr e he).symm.trans (hexpr ▸ hwrap.refolds items items')
  have hset : s₁.Grows (s₁.setExpr e (wrap items')) := .setExpr hrefolds
  have hsize : (s₁.setExpr e (wrap items')).exprs.size = s₁.exprs.size := by simp [Shader.setExpr]
  refine ⟨⟨hfolded.grows.trans hset, hfolded.vars, fun hs => ?_, fun hs hi => ?_, fun j hj => ?_⟩,
    fun _ _ => ⟨?_, fun _ => ?_⟩⟩
  · exact (hfolded.linked hs).grows hset hsize rfl
  · refine (hfolded.items hs hi).setExpr he₁ hrefolds fun a ha => ?_
    rw [hwrap.items_eq] at ha
    refine hbelow e.index hs hi (fun a ha => hi e a ?_) a ha
    rwa [hexpr, hwrap.items_eq]
  · rw [expr_setExpr _ _ _ _ he₁, if_neg fun heq => ?_]
    · exact hfolded.literals j hj
    · rw [heq] at hj
      exact absurd he (Nat.not_lt.2 hj)
  · simpa [Shader.has, hsize] using he₁
  · rw [(hfolded.grows.trans hset).rank_eq he]

theorem Lowers.of_before {s₀ : Shader} {id d r : ExprId} (hd : d ∈ s.before (s.expr id))
    (hhas : s.Linked → s.has (.expr d)) (hfolded : Folded s s₀) (h : Lowers s₀ s' d r) :
    Lowers s s' id r := by
  intro hs _
  obtain ⟨hhas', hrank⟩ := h (hfolded.linked hs) (hfolded.grows.keeps.has (hhas hs))
  refine ⟨hhas', fun hi => (hrank (hfolded.items hs hi)).trans ?_⟩
  rw [hfolded.grows.rank_eq (by simpa [Shader.has] using hhas hs)]
  have hlt := hs.before id d hd
  have hconstant : s.constant? id = none := by
    unfold constant?
    split
    · next heq => rw [heq] at hd; cases hd
    · rfl
  unfold rank
  rw [hconstant]
  split
  · exact Nat.zero_le _
  · simpa using hlt.le

theorem evaluates_of_stepsTo {m : ExprId → FoldM ExprId} (hm : Evaluates m) {e r : ExprId}
    (h : StepsTo m s e r s') : Folded s s' ∧ Lowers s s' e r := by
  have hfront (d : ExprId) (hd : d ∈ s.before (s.expr e)) (hhas : s.Linked → s.has (.expr d))
      (s₀ : Shader) (hfolded : Folded s s₀) : Lowers s₀ s' d r → Lowers s s' e r :=
    .of_before hd hhas hfolded
  cases h with
  | literal | sequence => exact ⟨.refl s, fun _ he => ⟨he, fun _ => Nat.le_refl _⟩⟩
  | @var v initial _ _ hexpr hinitial hrun =>
      obtain ⟨hfolded, hlowers⟩ := hm initial s r s' hrun
      have hd : initial ∈ s.before (s.expr e) := by simp [before, hexpr, hinitial]
      refine ⟨hfolded, hfront initial hd (fun hs => ?_) s (.refl s) hlowers⟩
      exact hs.var v _ (by simp [Variable.references, hinitial])
  | unary hexpr hoperand hadd =>
      obtain ⟨hadded, hlowers⟩ := lowers_addConstant hadd
      exact ⟨(hm _ s _ _ hoperand).1.trans hadded, hlowers⟩
  | binary hexpr hleft hright hadd =>
      obtain ⟨hadded, hlowers⟩ := lowers_addConstant hadd
      exact ⟨((hm _ s _ _ hleft).1.trans (hm _ _ _ _ hright).1).trans hadded, hlowers⟩
  | @choice condition onTrue onFalse _ branch _ s₁ _ hexpr hcondition hbranch hrun =>
      have hfolded := (hm condition s _ s₁ hcondition).1
      obtain ⟨hfolded', hlowers⟩ := hm branch s₁ r s' hrun
      have hd : branch ∈ (s.expr e).operands := by
        rw [hexpr]
        simpa [Expr.operands] using .inr hbranch
      refine ⟨hfolded.trans hfolded', hfront branch ?_ (fun hs => ?_) s₁ hfolded hlowers⟩
      · simpa [before, hexpr] using hd
      · refine hs.expr e _ ?_
        rw [hexpr] at hd ⊢
        simpa [Expr.links, Expr.operands] using hd
  | items hwrap hexpr hrun => exact evaluates_items hm hwrap hexpr hrun

theorem evaluates_evaluateWithin (depth : Nat) : Evaluates (evaluateWithin depth) := by
  induction depth with
  | zero =>
      intro e s r s' h
      cases h
  | succ depth ih => exact fun e s r s' h => evaluates_of_stepsTo ih (stepsTo_of_run h)

theorem evaluates_evaluate : Evaluates evaluate := by
  intro id s id' s' h
  obtain ⟨_, _, hget, h⟩ := run_bind_ok.1 h
  cases hget
  exact evaluates_evaluateWithin _ id s id' s' h

end Folding

end ShaderBridge

namespace ShaderBridge

namespace Folding

open Shader

variable {s s' : Shader} {id id' : ExprId}

theorem Folded.resolved (h : Folded s s') (hs : s.Resolved) (hlinked : s.Linked) : s'.Resolved := by
  refine hs.grows hlinked h.grows (fun e he => ?_) fun v hv => ?_
  · obtain ⟨value, hvalue⟩ := h.literals e he
    rw [hvalue]
    exact ⟨rfl, guardsTarget_of_not_isAssign rfl⟩
  · rw [show s'.var v = s.var v by rw [Shader.var, h.vars]; rfl]
    exact Resolved.resolvedVar_of_size_le hv

theorem Folded.members (h : Folded s s') (hs : s.MembersSelected) (hlinked : s.Linked) :
    s'.MembersSelected :=
  hs.grows hlinked h.grows fun e he => by
    obtain ⟨value, hvalue⟩ := h.literals e he
    rw [hvalue]
    rfl

theorem isFolded_addConstant {value : Constant}
    (h : (addConstant value).run.run s = (.ok id', s')) : (s'.expr id').isFolded := by
  rw [run_addConstant] at h
  cases h
  exact congrArg Expr.isFolded (expr_addExpr_self s (.constant value))

theorem isFolded_evaluateWithin {depth : Nat}
    (h : (evaluateWithin depth id).run.run s = (.ok id', s')) : (s'.expr id').isFolded := by
  induction depth generalizing id s with
  | zero => cases h
  | succ depth ih =>
      cases stepsTo_of_run h with
      | literal hexpr | sequence hexpr =>
          rw [hexpr]
          rfl
      | var _ _ hrun | choice _ _ _ hrun => exact ih hrun
      | unary _ _ hadd | binary _ _ _ hadd => exact isFolded_addConstant hadd
      | items hwrap hexpr hrun =>
          have hgrows := (evaluates_mapM (evaluates_evaluateWithin depth) hrun).1.grows
          have hid := Nat.lt_of_lt_of_le (index_lt_of_expr hexpr (hwrap.ne_default _)) hgrows.exprs
          rw [expr_setExpr _ _ _ _ hid, if_pos rfl]
          exact hwrap.isFolded _

theorem hasFolded_evaluate (hlinked : s.Linked) (hid : s.has (.expr id))
    (h : (evaluate id).run.run s = (.ok id', s')) : s'.HasFolded id' := by
  have hhas := ((evaluates_evaluate id s id' s' h).2 hlinked hid).1
  obtain ⟨_, _, hget, h⟩ := run_bind_ok.1 h
  cases hget
  exact ⟨by simpa [has] using hhas, isFolded_evaluateWithin h⟩

end Folding

end ShaderBridge
