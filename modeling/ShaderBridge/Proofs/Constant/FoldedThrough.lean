import ShaderBridge.Proofs.Constant.Replacing

namespace ShaderBridge

namespace Shader

open Relation

/-- The expressions that have to be folded in order to fold an expression. -/
def foldedFirst (s : Shader) (e : ExprId) : List ExprId :=
  match s.expr e with
  | .var v => if (s.var v).isImmutable then (s.var v).initial?.toList else []
  | .sequence .. | .member .. | .subscript .. | .call .. | .assign .. => []
  | x => x.operands

/-- All items that are met in order to fold an expression have been folded. -/
def FoldedThrough (s : Shader) (e : ExprId) : Prop :=
  ∀ d, ReflTransGen (fun a b => b ∈ s.foldedFirst a) e d → ∀ a ∈ (s.expr d).items, s.HasFolded a

/-- An expression that is no part of a shader, or in which everything has been folded. -/
def Harmless (s : Shader) (e : ExprId) : Prop :=
  s.exprs.size ≤ e.index ∨ s.FoldedThrough e

/-- A variable that is no part of a shader, or whose value may be folded without harm. -/
def HarmlessVar (s : Shader) (v : VarId) : Prop :=
  s.vars.size ≤ v.index ∨ ((s.var v).isImmutable → ∀ e ∈ (s.var v).initial?, s.Harmless e)

/-- What is in the first shader is in the second one as it is, and what has been added there rests
on what is harmless. -/
structure KeptBy (s₀ s : Shader) : Prop where
  grows : s₀.Grows s
  kept : ∀ e : ExprId, e.index < s₀.exprs.size → s.expr e = s₀.expr e
  operands : ∀ e : ExprId, s₀.exprs.size ≤ e.index → ∀ o ∈ (s.expr e).operands, s₀.Harmless o
  named : ∀ (e : ExprId) (v : VarId), s₀.exprs.size ≤ e.index → s.expr e = .var v →
    s₀.HarmlessVar v
  initials : ∀ v : VarId, s₀.vars.size ≤ v.index → ∀ e ∈ (s.var v).initial?, s₀.Harmless e

variable {s₀ s : Shader} {e d : ExprId}

theorem FoldedThrough.foldedFirst (h : s.FoldedThrough e) (hd : d ∈ s.foldedFirst e) :
    s.FoldedThrough d :=
  fun a ha => h a (.head hd ha)

theorem FoldedThrough.items (h : s.FoldedThrough e) : ∀ a ∈ (s.expr e).items, s.HasFolded a :=
  h e .refl

theorem items_subset_foldedFirst (s : Shader) (e : ExprId) :
    (s.expr e).items ⊆ s.foldedFirst e := by
  unfold foldedFirst
  cases s.expr e <;> simp [Expr.items, Expr.operands]

theorem foldedThrough_of_literals
    (h : ∀ a ∈ s.foldedFirst e, a.index < s.exprs.size ∧ (s.constant? a).isSome) :
    s.FoldedThrough e := by
  have hliteral (a : ExprId) (ha : a ∈ s.foldedFirst e) : ∃ c, s.expr a = .constant c := by
    have hsome := (h a ha).2
    unfold constant? at hsome
    split at hsome
    · next c hc => exact ⟨c, hc⟩
    · cases hsome
  intro d hd a ha
  rcases ReflTransGen.cases_head hd with rfl | ⟨b, hb, hbd⟩
  · have hfirst := items_subset_foldedFirst s e ha
    obtain ⟨c, hc⟩ := hliteral a hfirst
    exact ⟨(h a hfirst).1, by rw [hc]; rfl⟩
  · obtain ⟨c, hc⟩ := hliteral b hb
    have hnone (x : ExprId) : x ∉ s.foldedFirst b := by simp [foldedFirst, hc, Expr.operands]
    rcases ReflTransGen.cases_head hbd with rfl | ⟨x, hx, _⟩
    · rw [hc] at ha
      cases ha
    · exact absurd hx (hnone x)

theorem foldedFirst_congr {s' : Shader} (he : s'.expr e = s.expr e)
    (hvar : ∀ v, s'.var v = s.var v) : s'.foldedFirst e = s.foldedFirst e := by
  simp only [Shader.foldedFirst, he, hvar]

theorem setExpr_self {x : Expr} (he : s.expr e = x) : s.setExpr e x = s := by
  subst he
  unfold setExpr
  congr
  refine Array.ext (by simp) fun i hi hi' => ?_
  rw [Array.getElem_setIfInBounds (by simpa using hi)]
  split
  · next heq => subst heq; simp [Shader.expr, hi']
  · rfl

theorem Grows.vars_truncate {s s' : Shader} (h : s.Grows s') (exprs : Nat) :
    (s'.truncate exprs s.vars.size).vars = s.vars := by
  refine Array.ext (by simp [Shader.truncate, h.vars]) fun i hi hi' => ?_
  have hlt := Nat.lt_of_lt_of_le hi' h.vars
  have hkept := h.var ⟨i⟩ hi'
  simpa [Shader.truncate, Shader.var, hi', hlt] using hkept

namespace KeptBy

theorem refl (s : Shader) : s.KeptBy s where
  grows := .refl s
  kept _ _ := rfl
  operands e he o ho := by
    rw [expr_of_size_le he] at ho
    cases ho
  named e v he hv := by
    rw [expr_of_size_le he] at hv
    cases hv
  initials v hv e he := by
    rw [var_of_size_le hv] at he
    cases he

theorem truncate (h : s₀.KeptBy s) : s.truncate s₀.exprs.size s₀.vars.size = s₀ := by
  have hcut := h.grows.truncate
  have hexprs : (s.truncate s₀.exprs.size s₀.vars.size).exprs = s₀.exprs := by
    refine Array.ext (by simp [Shader.truncate, h.grows.exprs]) fun i hi hi' => ?_
    have hlt := Nat.lt_of_lt_of_le hi' h.grows.exprs
    have hkept := h.kept ⟨i⟩ hi'
    simpa [Shader.truncate, Shader.expr, hi', hlt] using hkept
  rw [hcut.rest, hexprs, h.grows.vars_truncate]

theorem addExpr (h : s₀.KeptBy s) {x : Expr} (hx : ∀ o ∈ x.operands, s₀.Harmless o)
    (hv : ∀ v, x = .var v → s₀.HarmlessVar v) : s₀.KeptBy (s.addExpr x).2 where
  grows := h.grows.trans (.addExpr s x)
  kept e he := by
    rw [expr_addExpr, if_neg (Nat.ne_of_lt (Nat.lt_of_lt_of_le he h.grows.exprs)), h.kept e he]
  operands e he := by
    rw [expr_addExpr]
    split
    · exact hx
    · exact h.operands e he
  named e v he := by
    rw [expr_addExpr]
    split
    · exact hv v
    · exact h.named e v he
  initials := h.initials

theorem addVar (h : s₀.KeptBy s) {v : Variable} (hv : ∀ e ∈ v.initial?, s₀.Harmless e) :
    s₀.KeptBy (s.addVar v).2 where
  grows := h.grows.trans (.addVar s v)
  kept := h.kept
  operands := h.operands
  named := h.named
  initials w hw := by
    rw [var_addVar]
    split
    · exact hv
    · exact h.initials w hw

theorem setItems (h : s₀.KeptBy s) (he : s₀.exprs.size ≤ e.index) {x : Expr}
    (hx : (s.expr e).Refolds x) (hitems : ∀ o ∈ x.operands, s₀.Harmless o)
    (hv : ∀ v, x ≠ .var v) : s₀.KeptBy (s.setExpr e x) := by
  by_cases hlt : e.index < s.exprs.size
  · exact
      { grows := h.grows.trans (.setExpr hx)
        kept := fun d hd => by
          have hne : d ≠ e := fun heq => absurd (heq ▸ hd) (Nat.not_lt.2 he)
          rw [expr_setExpr _ _ _ _ hlt, if_neg hne, h.kept d hd]
        operands := fun d hd => by
          rw [expr_setExpr _ _ _ _ hlt]
          split
          · exact hitems
          · exact h.operands d hd
        named := fun d v hd hvar => by
          rw [expr_setExpr _ _ _ _ hlt] at hvar
          split at hvar
          · exact absurd hvar (hv v)
          · exact h.named d v hd hvar
        initials := h.initials }
  · rwa [setExpr_of_size_le x (Nat.not_lt.1 hlt)]

theorem harmless_initial (h : s₀.KeptBy s) {v : VarId} (hv : s₀.HarmlessVar v)
    (himmutable : (s.var v).isImmutable) : ∀ e ∈ (s.var v).initial?, s₀.Harmless e := by
  by_cases hlt : v.index < s₀.vars.size
  · rw [h.grows.var v hlt] at himmutable ⊢
    exact hv.resolve_left (Nat.not_le.2 hlt) himmutable
  · exact h.initials v (Nat.not_lt.1 hlt)

theorem harmless_foldedFirst (h : s₀.KeptBy s) (he : s₀.Harmless e) (hd : d ∈ s.foldedFirst e) :
    s₀.Harmless d := by
  by_cases hlt : e.index < s₀.exprs.size
  · have hexpr := h.kept e hlt
    have hthrough := he.resolve_left (Nat.not_le.2 hlt)
    cases hkind : s₀.expr e with
    | var v =>
        rw [foldedFirst, hexpr, hkind] at hd
        dsimp only at hd
        split at hd
        · next himmutable =>
            by_cases hv : v.index < s₀.vars.size
            · rw [h.grows.var v hv] at hd himmutable
              refine .inr (hthrough.foldedFirst ?_)
              simpa [foldedFirst, hkind, himmutable] using hd
            · exact h.initials v (Nat.not_lt.1 hv) d (by simpa using hd)
        · cases hd
    | _ =>
        refine .inr (hthrough.foldedFirst ?_)
        simpa only [foldedFirst, hexpr, hkind] using hd
  · have he := Nat.not_lt.1 hlt
    have hoperands := h.operands e he
    cases hkind : s.expr e with
    | var v =>
        rw [foldedFirst, hkind] at hd
        dsimp only at hd
        split at hd
        · next himmutable =>
            exact h.harmless_initial (h.named e v he hkind) himmutable d (by simpa using hd)
        · cases hd
    | _ =>
        rw [foldedFirst, hkind] at hd
        rw [hkind] at hoperands
        first | exact hoperands d hd | cases hd

end KeptBy

end Shader

namespace Folding

open Shader

/-- Some expressions that may be folded without harm, and with them all that this takes. What is no
part of the shader yet is among them. -/
structure Confined (X : ExprId → Prop) (s₀ s : Shader) : Prop where
  kept : s₀.KeptBy s
  harmless : ∀ e, X e → s₀.Harmless e
  closed : ∀ e, X e → ∀ d ∈ s.foldedFirst e, X d
  immutable : ∀ e v, X e → s.expr e = .var v → (s.var v).isImmutable
  added : ∀ e : ExprId, s.exprs.size ≤ e.index → X e

/-- A way of folding expressions that stays with those expressions, and that leaves what has been
folded alone. -/
def StaysIn (X : ExprId → Prop) (s₀ : Shader) (m : ExprId → FoldM ExprId) : Prop :=
  ∀ e s e' s', X e → Confined X s₀ s → (m e).run.run s = (.ok e', s') →
    Confined X s₀ s' ∧ X e' ∧ (s₀.HasFolded e → e' = e)

variable {X : ExprId → Prop} {s₀ s s' : Shader} {e e' : ExprId}

theorem Confined.addExpr_constant (h : Confined X s₀ s) (v : Constant) :
    Confined X s₀ (s.addExpr (.constant v)).2 where
  kept := h.kept.addExpr (List.forall_mem_nil _) fun _ => Expr.noConfusion
  harmless := h.harmless
  closed d hd := by
    by_cases hsize : d.index = s.exprs.size
    · simp [foldedFirst, expr_addExpr, hsize, Expr.operands]
    · rw [foldedFirst_congr ((expr_addExpr s _ d).trans (if_neg hsize)) fun _ => rfl]
      exact h.closed d hd
  immutable d v hd hvar := by
    rw [expr_addExpr] at hvar
    split at hvar
    · cases hvar
    · exact h.immutable d v hd hvar
  added d hd := by
    refine h.added d (Nat.le_of_lt (Nat.lt_of_lt_of_le ?_ hd))
    simp [Shader.addExpr]

theorem Confined.addConstant (h : Confined X s₀ s) {v : Constant}
    (hrun : (addConstant v).run.run s = (.ok e', s')) : Confined X s₀ s' ∧ X e' := by
  rw [run_addConstant] at hrun
  cases hrun
  exact ⟨h.addExpr_constant v, h.added _ (Nat.le_refl _)⟩

theorem StaysIn.mapM {m : ExprId → FoldM ExprId} (hm : StaysIn X s₀ m) {es es' : List ExprId}
    (hes : ∀ e ∈ es, X e) (h : Confined X s₀ s) (hrun : (es.mapM m).run.run s = (.ok es', s')) :
    Confined X s₀ s' ∧ (∀ e ∈ es', X e) ∧ ((∀ e ∈ es, s₀.HasFolded e) → es' = es) := by
  induction es generalizing s es' with
  | nil =>
      cases hrun
      exact ⟨h, hes, fun _ => rfl⟩
  | cons e rest ih =>
      obtain ⟨he, hrest⟩ := List.forall_mem_cons.1 hes
      rw [List.mapM_cons] at hrun
      obtain ⟨e', s₁, hfirst, hrun⟩ := run_bind_ok.1 hrun
      obtain ⟨rest', s₂, hothers, hrun⟩ := run_bind_ok.1 hrun
      cases hrun
      obtain ⟨h₁, he', hsame⟩ := hm e s e' s₁ he h hfirst
      obtain ⟨h₂, hrest', hsames⟩ := ih hrest h₁ hothers
      refine ⟨h₂, List.forall_mem_cons.2 ⟨he', hrest'⟩, fun hfolded => ?_⟩
      obtain ⟨hone, hmore⟩ := List.forall_mem_cons.1 hfolded
      rw [hsame hone, hsames hmore]

theorem Confined.setItems (h : Confined X s₀ s) (he : s₀.exprs.size ≤ e.index)
    (hlt : e.index < s.exprs.size) {x : Expr} (hx : (s.expr e).Refolds x) (hvar : ∀ v, x ≠ .var v)
    (hitems : ∀ o ∈ x.operands, X o) : Confined X s₀ (s.setExpr e x) where
  kept := h.kept.setItems he hx (fun o ho => h.harmless o (hitems o ho)) hvar
  harmless := h.harmless
  closed d hd a ha := by
    by_cases hde : d = e
    · subst hde
      refine hitems a ?_
      rw [foldedFirst, expr_setExpr _ _ _ _ hlt, if_pos rfl] at ha
      split at ha
      · next v => exact absurd rfl (hvar v)
      all_goals first | cases ha | exact ha
    · have hsame : (s.setExpr e x).foldedFirst d = s.foldedFirst d :=
        foldedFirst_congr (by rw [expr_setExpr _ _ _ _ hlt, if_neg hde]) fun _ => rfl
      exact h.closed d hd a (hsame ▸ ha)
  immutable d v hd hv := by
    rw [expr_setExpr _ _ _ _ hlt] at hv
    split at hv
    · exact absurd hv (hvar v)
    · exact h.immutable d v hd hv
  added d hd := h.added d (by simpa [Shader.setExpr] using hd)

theorem StaysIn.items {m : ExprId → FoldM ExprId} (hm : StaysIn X s₀ m) (hfolds : Evaluates m)
    {wrap : List ExprId → Expr} (hwrap : HoldsItems wrap) {items items' : List ExprId}
    {s₁ : Shader} (hexpr : s.expr e = wrap items) (he : X e) (h : Confined X s₀ s)
    (hrun : (items.mapM m).run.run s = (.ok items', s₁)) :
    Confined X s₀ (s₁.setExpr e (wrap items')) := by
  have hfirst : ∀ a ∈ items, X a := fun a ha => h.closed e he a <| by
    cases hwrap <;> simpa [foldedFirst, hexpr, Expr.operands] using ha
  obtain ⟨h₁, hX, hsame⟩ := hm.mapM hfirst h hrun
  have hgrows := (evaluates_mapM hfolds hrun).1.grows
  have hlt := index_lt_of_expr hexpr (hwrap.ne_default items)
  by_cases hold : e.index < s₀.exprs.size
  · -- What was there before has been folded through, so its items stay the same.
    have hthrough := (h.harmless e he).resolve_left (Nat.not_le.2 hold)
    have hkept : s₀.expr e = wrap items := (h.kept.kept e hold).symm.trans hexpr
    have hitems' : items' = items := hsame <| by
      have hall := hthrough.items
      rwa [hkept, hwrap.items_eq] at hall
    have hunchanged : s₁.setExpr e (wrap items') = s₁ := by
      rw [hitems']
      exact setExpr_self ((h₁.kept.kept e hold).trans hkept)
    exact hunchanged.symm ▸ h₁
  · refine h₁.setItems (Nat.not_lt.1 hold) (Nat.lt_of_lt_of_le hlt hgrows.exprs) ?_
      (hwrap.ne_var items') ?_
    · exact (hgrows.expr e hlt).symm.trans (hexpr ▸ hwrap.refolds items items')
    · rw [hwrap.operands_eq]
      exact hX

theorem staysIn_of_stepsTo {m : ExprId → FoldM ExprId} (hm : StaysIn X s₀ m) (hfolds : Evaluates m)
    (he : X e) (h : Confined X s₀ s) (hstep : StepsTo m s e e' s') :
    Confined X s₀ s' ∧ X e' ∧ (s₀.HasFolded e → e' = e) := by
  have hfirst := h.closed e he
  have hfolded (hold : s₀.HasFolded e) : (s.expr e).isFolded :=
    (h.kept.kept e hold.1) ▸ hold.2
  cases hstep with
  | literal | sequence => exact ⟨h, he, fun _ => rfl⟩
  | @var v initial _ _ hexpr hinitial hrun =>
      rw [hexpr] at hfolded
      have hX : X initial := hfirst initial <| by
        simp [foldedFirst, hexpr, h.immutable e v he hexpr, hinitial]
      obtain ⟨h', he', _⟩ := hm initial s e' s' hX h hrun
      exact ⟨h', he', fun hold => absurd (hfolded hold) Bool.false_ne_true⟩
  | @unary op operand operand' _ _ s₁ _ hexpr hoperand hadd =>
      rw [hexpr] at hfolded
      have hX : X operand := hfirst operand (by simp [foldedFirst, hexpr, Expr.operands])
      obtain ⟨h', he'⟩ := (hm operand s operand' s₁ hX h hoperand).1.addConstant hadd
      exact ⟨h', he', fun hold => absurd (hfolded hold) Bool.false_ne_true⟩
  | @binary op left right left' right' _ _ s₁ s₂ _ hexpr hleft hright hadd =>
      rw [hexpr] at hfolded
      have hXleft : X left := hfirst left (by simp [foldedFirst, hexpr, Expr.operands])
      have hXright : X right := hfirst right (by simp [foldedFirst, hexpr, Expr.operands])
      have h₁ := (hm left s left' s₁ hXleft h hleft).1
      obtain ⟨h', he'⟩ := (hm right s₁ right' s₂ hXright h₁ hright).1.addConstant hadd
      exact ⟨h', he', fun hold => absurd (hfolded hold) Bool.false_ne_true⟩
  | @choice condition onTrue onFalse condition' branch _ s₁ _ hexpr hcondition hbranch hrun =>
      rw [hexpr] at hfolded
      have hXcondition : X condition := hfirst condition <| by
        simp [foldedFirst, hexpr, Expr.operands]
      have hXbranch : X branch := hfirst branch <| by
        simpa [foldedFirst, hexpr, Expr.operands] using .inr hbranch
      have h₁ := (hm condition s condition' s₁ hXcondition h hcondition).1
      obtain ⟨h', he', _⟩ := hm branch s₁ e' s' hXbranch h₁ hrun
      exact ⟨h', he', fun hold => absurd (hfolded hold) Bool.false_ne_true⟩
  | items hwrap hexpr hrun => exact ⟨hm.items hfolds hwrap hexpr he h hrun, he, fun _ => rfl⟩

theorem staysIn_evaluateWithin (depth : Nat) : StaysIn X s₀ (evaluateWithin depth) := by
  induction depth with
  | zero =>
      intro e s e' s' _ _ hrun
      cases hrun
  | succ depth ih =>
      exact fun e s e' s' he h hrun =>
        staysIn_of_stepsTo ih (evaluates_evaluateWithin depth) he h (stepsTo_of_run hrun)

theorem isConstantWithin_of_mem_foldedFirst {depth : Nat} {d : ExprId}
    (h : s.isConstantWithin depth e) (hd : d ∈ s.foldedFirst e) :
    ∃ depth, s.isConstantWithin depth d := by
  cases depth with
  | zero => cases h
  | succ depth =>
      refine ⟨depth, ?_⟩
      unfold isConstantWithin at h
      unfold foldedFirst at hd
      cases hexpr : s.expr e with
      | var v =>
          rw [hexpr] at h hd
          obtain ⟨himmutable, hinitial⟩ := Bool.and_eq_true _ _ ▸ h
          dsimp only at hd
          rw [if_pos himmutable, Option.mem_toList] at hd
          rw [hd] at hinitial
          exact hinitial
      | construct type args | aggregate args =>
          rw [hexpr] at h hd
          exact List.all_eq_true.1 h d hd
      | unary | binary | choice | constant =>
          rw [hexpr] at h hd
          grind [Expr.operands]
      | sequence | member | subscript | call | assign =>
          rw [hexpr] at hd
          cases hd

theorem isImmutable_of_isConstantWithin {depth : Nat} {v : VarId}
    (h : s.isConstantWithin depth e) (hv : s.expr e = .var v) : (s.var v).isImmutable := by
  cases depth with
  | zero => cases h
  | succ depth =>
      rw [isConstantWithin, hv] at h
      exact (Bool.and_eq_true _ _ ▸ h).1

theorem keptBy_evaluate (h : s₀.KeptBy s) (he : s₀.Harmless e) (hconstant : s.isConstant e)
    (hrun : (evaluate e).run.run s = (.ok e', s')) : s₀.KeptBy s' ∧ s₀.Harmless e' := by
  let X : ExprId → Prop := fun a => s.exprs.size ≤ a.index ∨
    s₀.Harmless a ∧ ∃ depth, s.isConstantWithin depth a
  have hconfined : Confined X s₀ s := by
    refine ⟨h, fun a ha => ha.elim (fun ha => .inl (h.grows.exprs.trans ha)) And.left,
      fun a ha d hd => ?_, fun a v ha hv => ?_, fun a ha => .inl ha⟩
    · rcases ha with ha | ⟨ha, depth, hdepth⟩
      · rw [foldedFirst, expr_of_size_le ha] at hd
        cases hd
      · exact .inr ⟨h.harmless_foldedFirst ha hd, isConstantWithin_of_mem_foldedFirst hdepth hd⟩
    · rcases ha with ha | ⟨_, depth, hdepth⟩
      · rw [expr_of_size_le ha] at hv
        cases hv
      · exact isImmutable_of_isConstantWithin hdepth hv
  obtain ⟨_, _, hget, hrun⟩ := run_bind_ok.1 hrun
  cases hget
  have hX : X e := .inr ⟨he, _, hconstant⟩
  obtain ⟨h', he', _⟩ := staysIn_evaluateWithin _ e s e' s' hX hconfined hrun
  exact ⟨h'.kept, h'.harmless e' he'⟩

end Folding

end ShaderBridge
