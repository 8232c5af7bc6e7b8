import Mathlib.Data.List.Forall2
import Mathlib.Data.List.Zip
import ShaderBridge.Proofs.Constant.Run
import ShaderBridge.Proofs.Shader.Following
import ShaderBridge.Proofs.Shader.Linked
import ShaderBridge.Shader.Binding

/-! ## Overloads -/

namespace ShaderBridge

namespace Shader

/-- The first function of a list that has a property. -/
def IsFirst (p : FuncId → Prop) (functions : List FuncId) (f : FuncId) : Prop :=
  p f ∧ ∃ before after, functions = before ++ f :: after ∧ ∀ g ∈ before, ¬ p g

/-- The first definition that has a property, or the first prototype if no definition has it. -/
inductive IsPreferred (s : Shader) (p : FuncId → Prop) (functions : List FuncId) (f : FuncId) :
    Prop where
  | definition : IsFirst (fun g => p g ∧ (s.func g).isPrototype = false) functions f →
      IsPreferred s p functions f
  | prototype : (∀ g ∈ functions, p g → (s.func g).isPrototype = true) → IsFirst p functions f →
      IsPreferred s p functions f

/-- The parameters of a function accept arguments of the given types, one by one. -/
def Accepts (s : Shader) (types : List TypeRef) (f : FuncId) : Prop :=
  List.Forall₂ (fun arg param => arg.isCompatible param = true) types (s.paramTypes f)

/-- What a call of a name with some arguments is bound to. -/
inductive Binds (s : Shader) (name : String) (args : List ExprId) : Option FuncId → Prop where
  | unknown : s.overloads name = [] → Binds s name args none
  | only {f : FuncId} : s.overloads name = [f] → Binds s name args (some f)
  | untyped : 2 ≤ (s.overloads name).length → (∃ a ∈ args, s.baseTypeOf? a = none) →
      Binds s name args none
  | same {types : List TypeRef} {f : FuncId} : 2 ≤ (s.overloads name).length →
      args.map s.baseTypeOf? = types.map some →
      s.IsPreferred (fun g => s.paramTypes g = types) (s.overloads name) f →
      Binds s name args (some f)
  | converted {types : List TypeRef} {f : FuncId} : 2 ≤ (s.overloads name).length →
      args.map s.baseTypeOf? = types.map some →
      (∀ g ∈ s.overloads name, s.paramTypes g ≠ types) →
      s.IsPreferred (s.Accepts types) (s.overloads name) f → Binds s name args (some f)
  | unfit {types : List TypeRef} : 2 ≤ (s.overloads name).length →
      args.map s.baseTypeOf? = types.map some →
      (∀ g ∈ s.overloads name, s.paramTypes g ≠ types ∧ ¬ s.Accepts types g) →
      Binds s name args none

variable {s : Shader} {overloads : List FuncId} {types : List TypeRef} {f : FuncId}

theorem IsPreferred.holds {p : FuncId → Prop} (h : s.IsPreferred p overloads f) : p f := by
  cases h with
  | definition hfirst => exact hfirst.1.1
  | prototype _ hfirst => exact hfirst.1

section

variable {p : FuncId → Bool} {q : FuncId → Prop}

theorem isFirst_of_find? (hq : ∀ g, q g ↔ p g = true) (h : overloads.find? p = some f) :
    IsFirst q overloads f := by
  obtain ⟨hf, before, after, hsplit, hbefore⟩ := List.find?_eq_some_iff_append.1 h
  refine ⟨(hq f).2 hf, before, after, hsplit, fun g hg => ?_⟩
  rw [hq]
  simpa using hbefore g hg

theorem isPreferred_of_preferred? (hq : ∀ g, q g ↔ p g = true)
    (h : s.preferred? (overloads.filter p) = some f) : s.IsPreferred q overloads f := by
  unfold preferred? at h
  rw [List.find?_filter, List.head?_filter] at h
  cases hfind : overloads.find? fun g => decide (p g = true ∧ (!(s.func g).isPrototype) = true) with
  | some g =>
      rw [hfind] at h
      cases h
      exact .definition (isFirst_of_find? (by simp [hq]) hfind)
  | none =>
      rw [hfind] at h
      refine .prototype (fun g hg hqg => ?_) (isFirst_of_find? hq h)
      simpa [(hq g).1 hqg] using List.find?_eq_none.1 hfind g hg

theorem not_of_preferred? (hq : ∀ g, q g ↔ p g = true)
    (h : s.preferred? (overloads.filter p) = none) : ∀ g ∈ overloads, ¬ q g := by
  unfold preferred? at h
  rw [Option.or_eq_none_iff, List.head?_filter] at h
  intro g hg
  rw [hq]
  exact List.find?_eq_none.1 h.2 g hg

end

theorem forall₂_iff {accepts : TypeRef → TypeRef → Bool} {params : List TypeRef} :
    List.Forall₂ (fun arg param => accepts arg param = true) types params ↔
      (params.length == types.length &&
        (types.zip params).all fun (arg, param) => accepts arg param) = true := by
  rw [List.forall₂_iff_zip, Bool.and_eq_true, beq_iff_eq, List.all_eq_true, eq_comm]
  simp only [Prod.forall]

theorem paramTypes_eq_iff :
    s.paramTypes f = types ↔
      ((s.paramTypes f).length == types.length &&
        (types.zip (s.paramTypes f)).all fun (arg, param) => arg == param) = true := by
  rw [← forall₂_iff]
  simp only [beq_iff_eq]
  rw [List.forall₂_eq_eq_eq, eq_comm]

theorem mapM_eq_none_or_some {α β : Type} (g : α → Option β) (l : List α) :
    (l.mapM g = none ∧ ∃ a ∈ l, g a = none) ∨ ∃ bs, l.mapM g = some bs ∧ l.map g = bs.map some := by
  induction l with
  | nil => exact .inr ⟨[], rfl, rfl⟩
  | cons a l ih =>
      rw [List.mapM_cons]
      cases ha : g a with
      | none => exact .inl ⟨rfl, a, List.mem_cons_self, ha⟩
      | some b =>
          rcases ih with ⟨hnone, c, hc, hgc⟩ | ⟨bs, hsome, hmap⟩
          · exact .inl ⟨by rw [hnone]; rfl, c, List.mem_cons_of_mem a hc, hgc⟩
          · exact .inr ⟨b :: bs, by rw [hsome]; rfl, by rw [List.map_cons, ha, hmap]; rfl⟩

theorem binds_selectOverload? (s : Shader) (name : String) (args : List ExprId) :
    s.Binds name args (s.selectOverload? name args) := by
  unfold selectOverload?
  split
  · next only honly => exact .only honly
  next hmany =>
    rcases hoverloads : s.overloads name with _ | ⟨f, _ | ⟨g, rest⟩⟩
    · have hnone : (do
          let types ← args.mapM s.baseTypeOf?
          (s.preferred? (s.candidates [] types (· == ·))).or
            (s.preferred? (s.candidates [] types TypeRef.isCompatible))) = none := by
        cases args.mapM s.baseTypeOf? <;> rfl
      rw [hnone]
      exact .unknown hoverloads
    · exact absurd hoverloads (hmany f)
    rw [← hoverloads]
    have hlength : 2 ≤ (s.overloads name).length := by simp [hoverloads]
    rcases mapM_eq_none_or_some s.baseTypeOf? args with ⟨hnone, huntyped⟩ | ⟨types, hsome, htypes⟩
    · rw [hnone]
      exact .untyped hlength huntyped
    rw [hsome, Option.bind_eq_bind, Option.bind_some]
    have hequal (g : FuncId) : s.paramTypes g = types ↔ _ := paramTypes_eq_iff
    have haccepts (g : FuncId) : s.Accepts types g ↔ _ := forall₂_iff
    cases hsame : s.preferred? (s.candidates (s.overloads name) types (· == ·)) with
    | some f => exact .same hlength htypes (isPreferred_of_preferred? hequal hsame)
    | none =>
        have hdiffer := not_of_preferred? hequal hsame
        rw [Option.none_or]
        cases hfit : s.preferred? (s.candidates (s.overloads name) types TypeRef.isCompatible) with
        | some f =>
            exact .converted hlength htypes hdiffer (isPreferred_of_preferred? haccepts hfit)
        | none =>
            exact .unfit hlength htypes fun g hg =>
              ⟨hdiffer g hg, not_of_preferred? haccepts hfit g hg⟩

end Shader

end ShaderBridge

/-! ## Calls inside of calls -/

namespace ShaderBridge

/-- Entries that differ in what a call is bound to only. -/
inductive Expr.Rebinds : Expr → Expr → Prop where
  | same (e : Expr) : Rebinds e e
  | call (name : String) (args : List ExprId) (target target' : Option FuncId) :
      Rebinds (.call name args target) (.call name args target')

namespace Expr.Rebinds

variable {e e' e'' : Expr}

theorem trans (h : e.Rebinds e') (h' : e'.Rebinds e'') : e.Rebinds e'' := by
  cases h with
  | same => exact h'
  | call => cases h' <;> exact .call ..

theorem isCall (h : e.Rebinds e') : e'.isCall = e.isCall := by
  cases h <;> rfl

theorem eq_of_not_call (h : e.Rebinds e') (he : e.isCall = false) : e' = e := by
  cases h with
  | same => rfl
  | call => cases he

end Expr.Rebinds

namespace Shader

open Relation

/-- The type of an expression is made up of that of another one. -/
def TypedBy (s : Shader) (e d : ExprId) : Prop :=
  d ∈ (s.expr e).typedBy

/-- The types of the arguments of a call do not depend on what later calls are bound to. -/
def ArgumentsFirst (s : Shader) (call : ExprId) : Prop :=
  ∀ c, TransGen s.TypedBy call c → (s.expr c).isCall = true → c.index < call.index

variable {s s' : Shader}

/-! ### Types -/

theorem typeWithin?_congr {depth : Nat} {e : ExprId}
    (h : ∀ d, ReflTransGen s.TypedBy e d → s.TypedAlike s' d) :
    s'.typeWithin? depth e = s.typeWithin? depth e := by
  induction depth generalizing e with
  | zero => rfl
  | succ depth ih => exact (h e .refl).typeWithin?_succ fun d hd => ih fun w hw => h w (.head hd hw)

theorem typeWithin?_congr_of_lt {n m : Nat} {e : ExprId}
    (h : ∀ d, ReflTransGen s.TypedBy e d →
      s.TypedAlike s' d ∧ ∀ c ∈ (s.expr d).typedBy, c.index < d.index)
    (hn : e.index < n) (hm : e.index < m) : s'.typeWithin? m e = s.typeWithin? n e := by
  induction n generalizing e m with
  | zero => exact absurd hn (Nat.not_lt_zero _)
  | succ n ih =>
      obtain ⟨m, rfl⟩ := Nat.exists_eq_succ_of_ne_zero (Nat.ne_zero_of_lt hm)
      obtain ⟨halike, hlt⟩ := h e .refl
      refine halike.typeWithin?_succ fun d hd => ih (fun w hw => h w (.head hd hw)) ?_ ?_
      · exact Nat.lt_of_lt_of_le (hlt d hd) (Nat.le_of_lt_succ hn)
      · exact Nat.lt_of_lt_of_le (hlt d hd) (Nat.le_of_lt_succ hm)

theorem selectOverload?_congr (hrest : s.SameRest s') (hsize : s'.exprs.size = s.exprs.size)
    (name : String) {args : List ExprId}
    (h : ∀ a ∈ args, ∀ d, ReflTransGen s.TypedBy a d → s'.expr d = s.expr d) :
    s'.selectOverload? name args = s.selectOverload? name args := by
  obtain ⟨exprs, rfl⟩ := hrest
  have htypes : args.mapM { s with exprs }.baseTypeOf? = args.mapM s.baseTypeOf? := by
    refine mapM_congr fun a ha => ?_
    have htype : ({ s with exprs } : Shader).typeWithin? (s.exprs.size + 1) a =
        s.typeWithin? (s.exprs.size + 1) a := by
      exact typeWithin?_congr fun d hd => .of_expr (h a ha d hd) (fun _ => rfl) (fun _ => rfl)
        (fun _ => rfl) fun _ _ _ => rfl
    unfold baseTypeOf? typeOf?
    rw [hsize, htype]
  unfold selectOverload?
  rw [htypes]
  rfl

/-! ### One call -/

theorem sameRest_bindCall (s : Shader) (id : ExprId) : s.SameRest (s.bindCall id) := by
  unfold bindCall
  split
  · split
    · exact .setExpr s id _
    · exact .refl s
  · exact .refl s

theorem expr_bindCall_self {call : ExprId} {name : String} {args : List ExprId}
    (h : s.expr call = .call name args none) :
    (s.bindCall call).expr call = .call name args (s.selectOverload? name args) := by
  unfold bindCall
  rw [h]
  dsimp only
  split
  · next f hf =>
      rw [expr_setExpr _ _ _ _ (index_lt_of_expr h Expr.noConfusion), if_pos rfl, hf]
  · next hnone => rw [h, hnone]

theorem expr_bindCall_of_ne {call id : ExprId} (hne : id ≠ call) :
    (s.bindCall call).expr id = s.expr id := by
  unfold bindCall
  split
  · next hcall =>
      split
      · rw [expr_setExpr _ _ _ _ (index_lt_of_expr hcall Expr.noConfusion), if_neg hne]
      · rfl
  · rfl

theorem rebinds_bindCall (s : Shader) (call id : ExprId) :
    (s.expr id).Rebinds ((s.bindCall call).expr id) := by
  by_cases hid : id = call
  · subst hid
    unfold bindCall
    split
    · next name args target hcall =>
        split
        · rw [expr_setExpr _ _ _ _ (index_lt_of_expr hcall Expr.noConfusion), if_pos rfl, hcall]
          exact .call ..
        · exact .same _
    · exact .same _
  · rw [expr_bindCall_of_ne hid]
    exact .same _

theorem size_bindCall (s : Shader) (call : ExprId) :
    (s.bindCall call).exprs.size = s.exprs.size := by
  unfold bindCall
  split
  · split <;> simp [setExpr]
  · rfl

theorem setExpr_expr (s : Shader) (id : ExprId) : s.setExpr id (s.expr id) = s := by
  have hexprs : s.exprs.setIfInBounds id.index (s.exprs.getD id.index default) = s.exprs := by
    refine Array.ext (by simp) fun i hi hi' => ?_
    rw [Array.getElem_setIfInBounds (by simpa using hi)]
    split
    · next heq => subst heq; simp [hi']
    · rfl
  unfold setExpr expr
  rw [hexprs]

theorem bindCall_eq_self {call : ExprId}
    (h : ∀ name args target, s.expr call = .call name args target →
      target = s.selectOverload? name args) : s.bindCall call = s := by
  unfold bindCall
  split
  · next name args target hcall =>
      split
      · next f hf =>
          rw [← hf, ← h name args target hcall, ← hcall]
          exact setExpr_expr s call
      · rfl
  · rfl

/-! ### All calls -/

theorem bindCalls_cons (s : Shader) (call : ExprId) (calls : List ExprId) :
    s.bindCalls (call :: calls) = (s.bindCall call).bindCalls calls :=
  rfl

theorem bindCalls_append (s : Shader) (calls calls' : List ExprId) :
    s.bindCalls (calls ++ calls') = (s.bindCalls calls).bindCalls calls' :=
  List.foldl_append

theorem sameRest_bindCalls (s : Shader) (calls : List ExprId) : s.SameRest (s.bindCalls calls) := by
  induction calls generalizing s with
  | nil => exact .refl s
  | cons call rest ih => exact (sameRest_bindCall s call).trans (ih _)

theorem size_bindCalls (s : Shader) (calls : List ExprId) :
    (s.bindCalls calls).exprs.size = s.exprs.size := by
  induction calls generalizing s with
  | nil => rfl
  | cons call rest ih => rw [bindCalls_cons, ih, size_bindCall]

theorem rebinds_bindCalls (s : Shader) (calls : List ExprId) (id : ExprId) :
    (s.expr id).Rebinds ((s.bindCalls calls).expr id) := by
  induction calls generalizing s with
  | nil => exact .same _
  | cons call rest ih => exact (rebinds_bindCall s call id).trans (ih _)

theorem expr_bindCalls_of_notMem {calls : List ExprId} {id : ExprId} (hid : id ∉ calls) :
    (s.bindCalls calls).expr id = s.expr id := by
  induction calls generalizing s with
  | nil => rfl
  | cons call rest ih =>
      obtain ⟨hne, hrest⟩ := List.ne_and_not_mem_of_not_mem_cons hid
      rw [bindCalls_cons, ih hrest, expr_bindCall_of_ne hne]

/-- Calls on record, the latest first: they are all the calls that there are, and none of them has
been bound. -/
structure Recorded (s : Shader) (calls : List ExprId) : Prop where
  latestFirst : calls.Pairwise fun c d => d.index < c.index
  mem_iff : ∀ c, c ∈ calls ↔ (s.expr c).isCall = true
  unbound : ∀ c name args target, s.expr c = .call name args target → target = none

/-- A call is bound to what is selected for it in the end, if the types of its arguments do not
depend on later calls. -/
theorem Recorded.target_eq {calls : List ExprId} (h : s.Recorded calls) {call : ExprId}
    {name : String} {args : List ExprId} {target : Option FuncId}
    (hcall : (s.bindCalls calls.reverse).expr call = .call name args target)
    (hfirst : (s.bindCalls calls.reverse).ArgumentsFirst call) :
    target = (s.bindCalls calls.reverse).selectOverload? name args := by
  have hmem : call ∈ calls := by
    rw [h.mem_iff, ← (rebinds_bindCalls s calls.reverse call).isCall, hcall]
    rfl
  obtain ⟨later, earlier, rfl⟩ := List.append_of_mem hmem
  obtain ⟨-, hearlier, hlater⟩ := List.pairwise_append.1 h.latestFirst
  have hearlier := (List.pairwise_cons.1 hearlier).1
  -- The earlier calls have been bound when this one is, the later ones have not.
  have hsplit : s.bindCalls (later ++ call :: earlier).reverse =
      (s.bindCalls earlier.reverse).bindCalls (call :: later.reverse) := by
    rw [List.reverse_append, List.reverse_cons, List.append_assoc, bindCalls_append]
    rfl
  rw [hsplit] at hcall hfirst ⊢
  have hstart : (s.bindCalls earlier.reverse).expr call = s.expr call :=
    expr_bindCalls_of_notMem fun hin => (hearlier call (List.mem_reverse.1 hin)).false
  generalize s.bindCalls earlier.reverse = s₁ at hcall hfirst hstart ⊢
  have hunchanged (d : ExprId) (hd : d.index < call.index) :
      (s₁.bindCalls (call :: later.reverse)).expr d = s₁.expr d := by
    refine expr_bindCalls_of_notMem fun hin => ?_
    rcases List.mem_cons.1 hin with rfl | hin
    · exact hd.false
    · exact (hd.trans (hlater d (List.mem_reverse.1 hin) call List.mem_cons_self)).false
  have hselected : target = s₁.selectOverload? name args := by
    rw [bindCalls_cons, expr_bindCalls_of_notMem fun hin =>
      (hlater call (List.mem_reverse.1 hin) call List.mem_cons_self).false] at hcall
    have hsame := rebinds_bindCall s₁ call call
    rw [hcall] at hsame
    cases hexpr : s₁.expr call with
    | call name' args' target' =>
        have hnone := h.unbound call name' args' target' (hstart ▸ hexpr)
        subst hnone
        rw [expr_bindCall_self hexpr] at hcall
        cases hcall
        rfl
    | _ =>
        rw [hexpr] at hsame
        cases hsame
  rw [hselected]
  refine selectOverload?_congr (sameRest_bindCalls s₁ _).symm (size_bindCalls s₁ _).symm name
    fun a ha d hd => ?_
  cases hd' : (s₁.expr d).isCall with
  | false => exact ((rebinds_bindCalls s₁ _ d).eq_of_not_call hd').symm
  | true =>
      refine (hunchanged d (hfirst d (.head' ?_ hd) ?_)).symm
      · rw [TypedBy, hcall]
        exact ha
      · rw [(rebinds_bindCalls s₁ _ d).isCall, hd']

end Shader

end ShaderBridge
