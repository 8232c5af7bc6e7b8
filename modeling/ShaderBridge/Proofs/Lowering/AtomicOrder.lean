import Mathlib.Data.List.Pairwise
import ShaderBridge.Proofs.Lowering.CallNames
import ShaderBridge.Proofs.Lowering.Carrying

/-!
The order of atomic calls. In an expression that is a tree every atomic call is collected once,
after the calls in its own arguments and otherwise from left to right. The collector and the
lowering follow an expression by different recursions, and the lowering takes detours through
addresses and stores. But it never leaves the expression, so whatever it comes across has been
collected, and reads a temporary that is declared by then.
-/

namespace ShaderBridge

open Hlsl

/-! ### Trees -/

namespace Shader

variable (s : Shader)

/-- No node of an expression stands in two places. -/
def IsTree (e : ExprId) : Prop :=
  (s.nodes e).Nodup

/-- An expression holds another one, at whatever level. -/
def Includes (e w : ExprId) : Prop :=
  ∃ level, s.Holds level e w

variable {s} {e o v w x : ExprId} {depth k l : Nat}

theorem Includes.refl (e : ExprId) : s.Includes e e :=
  ⟨0, .here e⟩

theorem Includes.trans (h : s.Includes e x) (h' : s.Includes x w) : s.Includes e w :=
  h.elim fun _ h => h'.elim fun _ h' => ⟨_, h.trans h'⟩

theorem Includes.operand (ho : o ∈ (s.expr e).operands) : s.Includes e o :=
  ⟨1, .operand ho (.here o)⟩

theorem level_unique (h : (s.nodesWithin depth e).Nodup) (hk : s.Holds k e w) (hl : s.Holds l e w)
    (hkd : k < depth) (hld : l < depth) : k = l := by
  induction depth generalizing e k l with
  | zero => exact absurd hkd (Nat.not_lt_zero k)
  | succ depth ih =>
      rw [nodesWithin, List.nodup_cons, List.nodup_flatMap] at h
      obtain ⟨hself, heach, hapart⟩ := h
      have hinside {level : Nat} {o : ExprId} (ho : o ∈ (s.expr e).operands)
          (hw : s.Holds level o w) (hlevel : level < depth) : w ∈ s.nodesWithin depth o :=
        mem_nodesWithin_iff.2 ⟨level, hlevel, hw⟩
      cases hk with
      | here =>
          cases hl with
          | here => rfl
          | operand ho hw =>
              exact absurd (List.mem_flatMap.2 ⟨_, ho, hinside ho hw (Nat.lt_of_succ_lt_succ hld)⟩)
                hself
      | @operand k _ o _ ho hw =>
          cases hl with
          | here =>
              exact absurd (List.mem_flatMap.2 ⟨_, ho, hinside ho hw (Nat.lt_of_succ_lt_succ hkd)⟩)
                hself
          | @operand l _ o' _ ho' hw' =>
              have hk' := Nat.lt_of_succ_lt_succ hkd
              have hl' := Nat.lt_of_succ_lt_succ hld
              by_cases hsame : o = o'
              · subst hsame
                rw [ih (heach o ho) hw hw' hk' hl']
              · have : Std.Symm (Function.onFun List.Disjoint (s.nodesWithin depth)) :=
                  ⟨fun _ _ hdisjoint => hdisjoint.symm⟩
                exact absurd (hinside ho' hw' hl') (hapart.forall ho ho' hsame (hinside ho hw hk'))

/-- Nothing in an expression is as deep as a given depth. -/
def EndsWithin (s : Shader) (depth : Nat) (e : ExprId) : Prop :=
  ∀ w, ¬ s.Holds depth e w

theorem EndsWithin.operand (h : s.EndsWithin (depth + 1) e) (ho : o ∈ (s.expr e).operands) :
    s.EndsWithin depth o :=
  fun w hw => h w (.operand ho hw)

theorem EndsWithin.lt {level : Nat} (h : s.EndsWithin depth e) (hw : s.Holds level e w) :
    level < depth := by
  by_contra hle
  obtain ⟨x, hx, -⟩ := hw.exists_level (Nat.le_of_not_lt hle)
  exact h x hx

theorem IsTree.endsWithin (h : s.IsTree e) : s.EndsWithin (s.exprs.size + 1) e := by
  intro w hw
  refine absurd ?_ (Nat.not_succ_le_self s.exprs.size)
  apply height_le_of_levels fun i k => k < s.exprs.size + 1 ∧ s.Holds k e ⟨i⟩
  · rintro i k l ⟨hk, hholds⟩ ⟨hl, hholds'⟩
    exact level_unique h hholds hholds' hk hl
  · intro k hk
    obtain ⟨x, hx, hrest⟩ := hw.exists_level (Nat.le_of_lt hk)
    obtain ⟨level, hlevel⟩ := Nat.exists_eq_succ_of_ne_zero (Nat.sub_ne_zero_of_lt hk)
    rw [hlevel] at hrest
    refine ⟨x.index, ?_, hk, hx⟩
    cases hrest with
    | operand ho =>
        refine index_lt_of_expr rfl fun hdefault => ?_
        rw [hdefault] at ho
        cases ho

/-! ### What is collected -/

theorem atomicCallsWithin_eq_append (depth : Nat) (e : ExprId) :
    s.atomicCallsWithin (depth + 1) e =
      (s.expr e).operands.flatMap (s.atomicCallsWithin depth) ++
        if s.isAtomicCall e then [e] else [] := by
  rw [atomicCallsWithin_succ, isAtomicCall]
  cases s.expr e <;> rfl

theorem atomicCallsWithin_perm (depth : Nat) (e : ExprId) :
    (s.atomicCallsWithin depth e).Perm ((s.nodesWithin depth e).filter s.isAtomicCall) := by
  induction depth generalizing e with
  | zero => exact .nil
  | succ depth ih =>
      have hinside : ((s.expr e).operands.flatMap (s.atomicCallsWithin depth)).Perm
          (((s.expr e).operands.flatMap (s.nodesWithin depth)).filter s.isAtomicCall) := by
        rw [List.filter_flatMap]
        exact List.Perm.flatMap_left _ fun o _ => ih o
      rw [atomicCallsWithin_eq_append, nodesWithin, List.filter_cons]
      refine List.perm_append_comm.trans ?_
      split
      · exact hinside.cons e
      · exact hinside

theorem mem_atomicCalls_iff : w ∈ s.atomicCalls e ↔ s.isAtomicCall w ∧ s.Includes e w := by
  have hnodes : w ∈ s.atomicCalls e ↔ w ∈ s.nodes e ∧ s.isAtomicCall w := by
    rw [atomicCalls, (atomicCallsWithin_perm _ e).mem_iff, List.mem_filter]
    rfl
  rw [hnodes, and_comm]
  refine and_congr_right fun hcall => ⟨fun hw => ?_, fun ⟨level, hholds⟩ => ?_⟩
  · obtain ⟨level, -, hholds⟩ := mem_nodesWithin_iff.1 hw
    exact ⟨level, hholds⟩
  · have hindex : w.index < s.exprs.size := by
      refine index_lt_of_expr rfl fun hdefault => ?_
      rw [isAtomicCall, hdefault] at hcall
      cases hcall
    obtain ⟨level, hlevel, hholds⟩ := hholds.exists_lt hindex
    exact mem_nodesWithin_iff.2 ⟨level, Nat.lt_succ_of_lt hlevel, hholds⟩

theorem EndsWithin.mem_atomicCallsWithin (h : s.EndsWithin depth e) (hw : s.Includes e w)
    (hcall : s.isAtomicCall w) : w ∈ s.atomicCallsWithin depth e := by
  obtain ⟨level, hholds⟩ := hw
  exact Shader.mem_atomicCallsWithin (mem_nodesWithin_iff.2 ⟨level, h.lt hholds, hholds⟩) hcall

/-- What comes first where an expression is evaluated: the arguments of an operation come before it,
and what stands in one of them comes before what stands in a later one. -/
inductive EvaluatedBefore (s : Shader) (e : ExprId) : ExprId → ExprId → Prop where
  | inside {x o v : ExprId} :
      s.Includes e x → o ∈ (s.expr x).operands → s.Includes o v → EvaluatedBefore s e v x
  | leftOf {x a b v w : ExprId} {before between after : List ExprId} :
      s.Includes e x → (s.expr x).operands = before ++ a :: (between ++ b :: after) →
      s.Includes a v → s.Includes b w → EvaluatedBefore s e v w

/-- What comes first in an expression does so in one of its operands, or because of the expression
itself. -/
theorem EvaluatedBefore.cases_top (h : s.EvaluatedBefore e v w) :
    (∃ o ∈ (s.expr e).operands, s.EvaluatedBefore o v w) ∨
    (w = e ∧ ∃ o ∈ (s.expr e).operands, s.Includes o v) ∨
    ∃ before a between b after, (s.expr e).operands = before ++ a :: (between ++ b :: after) ∧
      s.Includes a v ∧ s.Includes b w := by
  cases h with
  | inside hx ho hv =>
      obtain ⟨_, hx⟩ := hx
      cases hx with
      | here => exact .inr (.inl ⟨rfl, _, ho, hv⟩)
      | operand hy hx => exact .inl ⟨_, hy, .inside ⟨_, hx⟩ ho hv⟩
  | leftOf hx hoperands hv hw =>
      obtain ⟨_, hx⟩ := hx
      cases hx with
      | here => exact .inr (.inr ⟨_, _, _, _, _, hoperands, hv, hw⟩)
      | operand hy hx => exact .inl ⟨_, hy, .leftOf ⟨_, hx⟩ hoperands hv hw⟩

theorem EndsWithin.sublist_atomicCallsWithin (h : s.EndsWithin depth e) (hv : s.isAtomicCall v)
    (hw : s.isAtomicCall w) (hbefore : s.EvaluatedBefore e v w) :
    [v, w].Sublist (s.atomicCallsWithin depth e) := by
  induction depth generalizing e with
  | zero => exact absurd (.here e) (h e)
  | succ depth ih =>
      have hfound {o u : ExprId} (ho : o ∈ (s.expr e).operands) (hu : s.Includes o u)
          (hcall : s.isAtomicCall u) : [u].Sublist (s.atomicCallsWithin depth o) :=
        List.singleton_sublist.2 ((h.operand ho).mem_atomicCallsWithin hu hcall)
      rw [atomicCallsWithin_eq_append]
      rcases hbefore.cases_top with ⟨o, ho, hinside⟩ | ⟨rfl, o, ho, hinside⟩ | hapart
      · have hsub := (ih (h.operand ho) hinside).trans
          (List.sublist_flatten_of_mem (List.mem_map_of_mem ho))
        exact hsub.trans (List.sublist_append_left _ _)
      · rw [if_pos hw]
        exact ((hfound ho hinside hv).trans
          (List.sublist_flatten_of_mem (List.mem_map_of_mem ho))).append (List.Sublist.refl [w])
      · obtain ⟨before, a, between, b, after, hoperands, ha, hb⟩ := hapart
        have hfirst := hfound (by rw [hoperands]; simp) ha hv
        have hsecond := hfound (by rw [hoperands]; simp) hb hw
        rw [hoperands]
        simp only [List.flatMap_append, List.flatMap_cons]
        have hlater := (hsecond.trans (List.sublist_append_left _
          (after.flatMap (s.atomicCallsWithin depth)))).trans
            (List.sublist_append_right (between.flatMap (s.atomicCallsWithin depth)) _)
        exact ((hfirst.append hlater).trans (List.sublist_append_right _ _)).trans
          (List.sublist_append_left _ _)

/-- Every atomic call of an expression is listed once, in the order of evaluation. -/
structure CollectsInOrder (s : Shader) (e : ExprId) : Prop where
  once : (s.atomicCalls e).Nodup
  every : ∀ w, w ∈ s.atomicCalls e ↔ s.isAtomicCall w ∧ s.Includes e w
  ordered : ∀ v w, s.isAtomicCall v → s.isAtomicCall w → s.EvaluatedBefore e v w →
    [v, w].Sublist (s.atomicCalls e)

theorem IsTree.collectsInOrder (h : s.IsTree e) : s.CollectsInOrder e where
  once := (atomicCallsWithin_perm _ e).nodup_iff.2 (h.filter _)
  every _ := mem_atomicCalls_iff
  ordered _ _ hv hw hbefore := h.endsWithin.sublist_atomicCallsWithin hv hw hbefore

end Shader

/-! ### What a lowered expression calls and reads -/

namespace Hlsl

/-- The expressions that an expression is made of. -/
def Expr.parts : Expr → List Expr
  | .literal _ | .bytes _ | .name _ | .temp _ => []
  | .member e _ | .group e | .load _ e | .unary _ e => [e]
  | .index a b | .binary _ a b | .sequence a b | .assign _ a b => [a, b]
  | .call _ args | .cast _ args | .list args | .aggregate args => args
  | .choice c a b => [c, a, b]
  | .store _ _ value address _ _ => [value, address]

/-- Whether an expression calls a function or reads a temporary itself. -/
def Expr.callsOrReads : Expr → Bool
  | .temp _ | .call .. => true
  | _ => false

/-- An expression stands in another one. -/
inductive Expr.Contains : Expr → Expr → Prop where
  | here (x : Expr) : Contains x x
  | part {x p y : Expr} : p ∈ x.parts → Contains p y → Contains x y

/-- The functions that carry out the calls of an intrinsic, on their own or for a resource. -/
def PerformedBy (name function : String) : Prop :=
  ∃ target, function = Shader.atomicFunction name target ∨
    ∃ resource : String, function = resource ++ "." ++ Shader.atomicFunction name target

/-- The functions that carry out atomic calls. -/
def IsAtomicFunction (function : String) : Prop :=
  ∃ name, Intrinsic.isAtomic name = true ∧ PerformedBy name function

/-- The temporary that a statement leaves the result of a call in. -/
def Stmt.result? : Stmt → Option Nat
  | .atomic temp .. => some temp
  | _ => none

theorem mem_toList_of_isAtomicFunction {function : String} (h : IsAtomicFunction function) :
    'k' ∈ function.toList := by
  obtain ⟨name, hatomic, target, hfunction⟩ := h
  have hname : 'k' ∈ (functionName name).toList := by
    simp only [Intrinsic.isAtomic, Intrinsic.atomics, List.contains_iff_mem, List.mem_cons,
      List.not_mem_nil, or_false] at hatomic
    rcases hatomic with rfl | rfl | rfl | rfl | rfl | rfl | rfl | rfl <;> decide
  have hcarrier : 'k' ∈ (Shader.atomicFunction name target).toList := by
    unfold Shader.atomicFunction
    dsimp only
    split
    · decide
    · exact hname
  rcases hfunction with rfl | ⟨resource, rfl⟩
  · exact hcarrier
  · rw [String.toList_append]
    exact List.mem_append_right _ hcarrier

theorem not_isAtomicFunction_hlslName (t : BuiltinType) : ¬ IsAtomicFunction t.hlslName := by
  have hdigit (n : Extent) : 'k' ∉ n.digit.toList := by cases n <;> decide
  have hscalar (a : Scalar) : 'k' ∉ a.hlslName.toList := by cases a <;> decide
  have hvector (a : Scalar) : 'k' ∉ a.hlslVectorName.toList := by cases a <;> decide
  have htexture (a : ShaderBridge.Shape) : 'k' ∉ a.hlslTexture.toList := by cases a <;> decide
  have himage (a : ShaderBridge.Shape) : 'k' ∉ a.hlslImage.toList := by cases a <;> decide
  have hsuffix (ms : Bool) : 'k' ∉ (multisampledSuffix ms).toList := by cases ms <;> decide
  refine fun h => absurd (mem_toList_of_isAtomicFunction h) ?_
  cases t with
  | void | samplerState | comparisonState | accelerationStructure | rayQuery => decide
  | _ =>
      simp only [BuiltinType.hlslName, String.toList_append, List.mem_append, not_or]
      simp [hdigit, hscalar, hvector, htexture, himage, hsuffix]

theorem isAtomic_of_functionName {name : String} (h : IsAtomicFunction (functionName name))
    (hname : functionName name ≠ name) : Intrinsic.isAtomic name = true := by
  have hrenamed : ∀ entry ∈ Intrinsic.renamed,
      Intrinsic.isAtomic entry.1 = true ∨ 'k' ∉ entry.2.toList := by decide
  cases htarget : Intrinsic.targetName? name with
  | none => exact absurd (functionName_eq_iff.2 htarget) hname
  | some target =>
      obtain ⟨before, after, hsplit, -⟩ := List.lookup_eq_some_iff.1 htarget
      refine (hrenamed (name, target) (by rw [hsplit]; simp)).resolve_right (not_not_intro ?_)
      have hk := mem_toList_of_isAtomicFunction h
      rwa [functionName, htarget] at hk

end Hlsl

namespace Shader

variable (s : Shader) (entries : List (ExprId × Nat))

/-- Why an expression calls a function or reads a temporary, where the results of calls lie in
temporaries as `entries` say. -/
inductive Explains (e : ExprId) : Hlsl.Expr → Prop where
  | result {w : ExprId} {temp : Nat} :
      s.Includes e w → entries.lookup w = some temp → Explains e (.temp temp)
  | call {w : ExprId} {name : String} {args : List ExprId} {target : Option FuncId}
      (xs : List Hlsl.Expr) : s.Includes e w → s.expr w = .call name args target →
      entries.lookup w = none → Explains e (.call (functionName name) xs)
  | construct (t : BuiltinType) (xs : List Hlsl.Expr) : Explains e (.call t.hlslName xs)
  | product (xs : List Hlsl.Expr) : Explains e (.call "mul" xs)
  | other {x : Hlsl.Expr} : x.callsOrReads = false → Explains e x

/-- All that stands in an expression of the target language is there for a given one. -/
def ExplainsAll (e : ExprId) (x : Hlsl.Expr) : Prop :=
  ∀ y, x.Contains y → s.Explains entries e y

variable {s entries} {e o : ExprId} {x : Hlsl.Expr}

theorem Explains.of_includes (ho : s.Includes e o) (h : s.Explains entries o x) :
    s.Explains entries e x := by
  cases h with
  | result hw hlookup => exact .result (ho.trans hw) hlookup
  | call xs hw hexpr hlookup => exact .call xs (ho.trans hw) hexpr hlookup
  | construct t xs => exact .construct t xs
  | product xs => exact .product xs
  | other hx => exact .other hx

theorem ExplainsAll.of_parts (h : s.Explains entries e x)
    (hparts : ∀ p ∈ x.parts, s.ExplainsAll entries e p) :
    s.ExplainsAll entries e x := by
  intro y hy
  cases hy with
  | here => exact h
  | part hp hy => exact hparts _ hp y hy

theorem ExplainsAll.leaf (hx : x.callsOrReads = false) (hparts : x.parts = []) :
    s.ExplainsAll entries e x :=
  .of_parts (.other hx) (by simp [hparts])

theorem ExplainsAll.single {p : Hlsl.Expr} (hx : x.callsOrReads = false) (hparts : x.parts = [p])
    (hp : s.ExplainsAll entries e p) : s.ExplainsAll entries e x :=
  .of_parts (.other hx) (by simpa [hparts] using hp)

theorem ExplainsAll.pair {p q : Hlsl.Expr} (hx : x.callsOrReads = false) (hparts : x.parts = [p, q])
    (hp : s.ExplainsAll entries e p) (hq : s.ExplainsAll entries e q) : s.ExplainsAll entries e x :=
  .of_parts (.other hx) (by simpa [hparts] using ⟨hp, hq⟩)

theorem ExplainsAll.asOperand (h : s.ExplainsAll entries e x) :
    s.ExplainsAll entries e x.asOperand := by
  cases x with
  | assign => exact .single rfl rfl h
  | _ => exact h

theorem explainsAll_of_passes {args os : List ExprId} {xs ys : List Hlsl.Expr}
    (h : s.Passes args os xs ys) (hxs : ∀ x ∈ xs, s.ExplainsAll entries e x) :
    ∀ y ∈ ys, s.ExplainsAll entries e y := by
  have hname (n : String) : s.ExplainsAll entries e (.name n) := .leaf rfl rfl
  induction h with
  | nil => exact hxs
  | plain _ _ ih =>
      rw [List.forall_mem_cons] at hxs ⊢
      exact ⟨hxs.1, ih hxs.2⟩
  | whole _ _ ih =>
      simp only [List.forall_mem_cons] at hxs ⊢
      exact ⟨hxs.1, hname _, ih hxs.2⟩
  | element _ _ ih =>
      simp only [List.forall_mem_cons] at hxs ⊢
      exact ⟨hxs.1, .pair rfl rfl (hname _) hxs.2.1, ih hxs.2.2⟩

theorem ExplainsAll.stored {access : Access} {left : ExprId} {temp : Nat} {value : Hlsl.Expr}
    {indices : List Hlsl.Expr}
    (hvalue : s.ExplainsAll entries e value) (hindices : ∀ i ∈ indices, s.ExplainsAll entries e i) :
    s.ExplainsAll entries e (s.stored access left temp value indices) :=
  .pair rfl rfl hvalue (Access.expr_of_indices (fun _ => .leaf rfl rfl)
    (fun _ _ _ ha hb => .pair rfl rfl ha hb) hindices)

theorem explainsAll_of_forms {buffers : List ByteBuffer} {temp : Nat} {os : List ExprId}
    {xs : List Hlsl.Expr} (h : s.Forms buffers e temp os xs x) (he : entries.lookup e = none)
    (hxs : ∀ y ∈ xs, s.ExplainsAll entries e y) : s.ExplainsAll entries e x := by
  cases h with
  | literal | name => exact .leaf rfl rfl
  | whole | field => exact .single rfl rfl (.leaf rfl rfl)
  | call hexpr hpasses =>
      exact .of_parts (.call _ (.refl e) hexpr he) (explainsAll_of_passes hpasses hxs)
  | cast | sampler | aggregate => exact .of_parts (.other rfl) hxs
  | construct => exact .of_parts (.construct _ _) hxs
  | product => exact .of_parts (.product _) hxs
  | splat x =>
      have hx := List.forall_mem_singleton.1 hxs
      have hgroup (b : Bool) : s.ExplainsAll entries e (if b then .group x else x) := by
        cases b with
        | true => exact .single rfl rfl hx
        | false => exact hx
      refine .of_parts (.construct _ _) (List.forall_mem_singleton.2 ?_)
      exact .single rfl rfl (hgroup _)
  | minus => exact .single rfl rfl (.single rfl rfl (List.forall_mem_singleton.1 hxs))
  | member | element | unary => exact .single rfl rfl (List.forall_mem_singleton.1 hxs)
  | subscript | assign => exact .of_parts (.other rfl) hxs
  | sequence => exact .single rfl rfl (.of_parts (.other rfl) hxs)
  | binary =>
      simp only [List.forall_mem_cons] at hxs
      exact .single rfl rfl (.pair rfl rfl hxs.1.asOperand hxs.2.1.asOperand)
  | choice =>
      refine .single rfl rfl (.of_parts (.other rfl) ?_)
      simp only [Expr.parts, List.forall_mem_cons] at hxs ⊢
      exact ⟨hxs.1.asOperand, hxs.2.1.asOperand, hxs.2.2.1.asOperand, hxs.2.2.2⟩
  | store =>
      rw [List.forall_mem_cons] at hxs
      exact hxs.1.stored hxs.2
  | update =>
      simp only [List.forall_mem_cons] at hxs
      exact ExplainsAll.stored (.single rfl rfl (.pair rfl rfl hxs.1 hxs.2.1)) hxs.2.2

end Shader

namespace Hlsl

variable {α β : Type} {s : Shader} {buffers : List ByteBuffer} {entries : List (ExprId × Nat)}

/-- Where the results of calls lie in temporaries as `entries` say, the result of a computation and
the places of the results of calls behind it are related. -/
def Moves (entries : List (ExprId × Nat)) (m : LowerM α) (Q : α → List (ExprId × Nat) → Prop) :
    Prop :=
  ∀ σ : LoweringState, σ.hoisted = entries → Q (m.run σ).1 (m.run σ).2.hoisted

/-- A computation gives a result with a property, and carries out nothing. -/
def Reads (entries : List (ExprId × Nat)) (m : LowerM α) (P : α → Prop) : Prop :=
  Moves entries m fun a entries' => P a ∧ entries' = entries

theorem moves_pure {Q : α → List (ExprId × Nat) → Prop} {a : α} (h : Q a entries) :
    Moves entries (pure a) Q :=
  fun _ hσ => hσ ▸ h

theorem moves_bind {P : α → List (ExprId × Nat) → Prop} {Q : β → List (ExprId × Nat) → Prop}
    {m : LowerM α} {f : α → LowerM β} (hm : Moves entries m P)
    (hf : ∀ a entries', P a entries' → Moves entries' (f a) Q) : Moves entries (m >>= f) Q :=
  fun σ hσ => hf _ _ (hm σ hσ) _ rfl

theorem moves_bind_reads {P : α → Prop} {Q : β → List (ExprId × Nat) → Prop} {m : LowerM α}
    {f : α → LowerM β} (hm : Reads entries m P) (hf : ∀ a, P a → Moves entries (f a) Q) :
    Moves entries (m >>= f) Q :=
  moves_bind hm fun a _ h => h.2 ▸ hf a h.1

theorem reads_pure {P : α → Prop} {a : α} (h : P a) : Reads entries (pure a) P :=
  moves_pure ⟨h, rfl⟩

theorem reads_bind {P : α → Prop} {Q : β → Prop} {m : LowerM α} {f : α → LowerM β}
    (hm : Reads entries m P) (hf : ∀ a, P a → Reads entries (f a) Q) : Reads entries (m >>= f) Q :=
  moves_bind_reads hm hf

theorem reads_get {P : α → Prop} {f : LoweringState → LowerM α}
    (hf : ∀ σ, σ.hoisted = entries → Reads entries (f σ) P) : Reads entries (get >>= f) P :=
  fun σ hσ => hf σ hσ σ hσ

theorem reads_freshTemp : Reads entries freshTemp fun _ => True :=
  fun _ hσ => ⟨trivial, hσ⟩

theorem reads_mapM {f : α → LowerM β} {P : β → Prop} {l : List α}
    (hf : ∀ a ∈ l, Reads entries (f a) P) : Reads entries (l.mapM f) fun bs => ∀ b ∈ bs, P b := by
  induction l with
  | nil => exact reads_pure (by simp)
  | cons a l ih =>
      rw [List.mapM_cons]
      refine reads_bind (hf a List.mem_cons_self) fun b hb => ?_
      refine reads_bind (ih fun c hc => hf c (List.mem_cons_of_mem _ hc)) fun bs hbs => ?_
      exact reads_pure (List.forall_mem_cons.2 ⟨hb, hbs⟩)

theorem reads_tempFor (e : ExprId) : Reads entries (s.tempFor buffers e) fun _ => True := by
  unfold Shader.tempFor
  split
  · exact reads_freshTemp
  · exact reads_pure trivial

/-- Whatever the depth, an expression is lowered to what is there for it. -/
theorem reads_lowerWithin (depth : Nat) (e : ExprId) :
    Reads entries (s.lowerWithin buffers depth e) (s.ExplainsAll entries e) := by
  induction depth generalizing e with
  | zero => exact reads_pure (.leaf rfl rfl)
  | succ depth ih =>
      have hlower (o : ExprId) (ho : o ∈ s.lowered buffers e) :
          Reads entries (s.lowerWithin buffers depth o) (s.ExplainsAll entries e) := by
        obtain ⟨p, hp, hholds⟩ := Shader.exists_operand_of_mem_lowered ho
        have hincludes : s.Includes e o := (Shader.Includes.operand hp).trans hholds
        exact fun σ hσ =>
          ⟨fun y hy => .of_includes hincludes ((ih o σ hσ).1 y hy), (ih o σ hσ).2⟩
      rw [Shader.lowerWithin_succ]
      refine reads_get fun σ hσ => ?_
      rw [hσ]
      cases hlookup : entries.lookup e with
      | some temp => exact reads_pure (.of_parts (.result (.refl e) hlookup) (by simp [Expr.parts]))
      | none =>
          refine reads_bind (reads_tempFor e) fun temp _ τ hτ => ?_
          obtain ⟨hxs, hhoisted⟩ := reads_mapM hlower τ hτ
          have hlength := length_mapM (s.lowerWithin buffers depth) (s.lowered buffers e) τ
          exact ⟨Shader.explainsAll_of_forms (Shader.forms_assembled temp hlength) hlookup hxs,
            hhoisted⟩

theorem reads_lowerExpr (e : ExprId) :
    Reads entries (s.lowerExpr buffers e) (s.ExplainsAll entries e) :=
  reads_lowerWithin _ e

theorem lowerExpr_of_lookup {e : ExprId} {temp : Nat} {σ : LoweringState}
    (h : σ.hoisted.lookup e = some temp) : ((s.lowerExpr buffers e).run σ).1 = .temp temp := by
  have hread : Reads σ.hoisted (s.lowerExpr buffers e) (· = .temp temp) := by
    unfold Shader.lowerExpr Shader.lowerWithin
    refine reads_get fun τ hτ => ?_
    rw [hτ, h]
    exact reads_pure rfl
  exact (hread σ rfl).1

end Hlsl

/-! ### Calls that are carried out ahead -/

namespace Shader

variable (s : Shader)

/-- The source calls a function that is no atomic one by the given name. -/
def CallsByName (e : ExprId) (function : String) : Prop :=
  ∃ w args target, s.Includes e w ∧ s.expr w = .call function args target ∧
    Intrinsic.isAtomic function = false

/-- What is written for an expression reads only temporaries that have been declared, and calls no
atomic function; a function that the source declares under such a name is none. -/
structure Plain (declared : List Nat) (e : ExprId) (x : Hlsl.Expr) : Prop where
  temps : ∀ temp, x.Contains (.temp temp) → temp ∈ declared
  calls : ∀ function xs, x.Contains (.call function xs) → IsAtomicFunction function →
    s.CallsByName e function

/-- Calls are carried out one after the other, each by a statement that declares the temporary of
its result and reads no temporaries but those declared before. -/
inductive CarriedInTurn : List (ExprId × Nat) → List ExprId → List Hlsl.Stmt →
    List (ExprId × Nat) → Prop where
  | nil (entries : List (ExprId × Nat)) : CarriedInTurn entries [] [] entries
  | cons {entries entries' : List (ExprId × Nat)} {call : ExprId} {calls args : List ExprId}
      {name type function : String} {target : Option FuncId} {temp : Nat} {xs : List Hlsl.Expr}
      {ts : List Hlsl.Stmt} :
      s.expr call = .call name args target → Hlsl.PerformedBy name function →
      (∀ x ∈ xs, s.Plain (entries.map Prod.snd) call x) →
      CarriedInTurn ((call, temp) :: entries) calls ts entries' →
      CarriedInTurn entries (call :: calls) (.atomic temp type function xs :: ts) entries'

variable {s} {entries entries' : List (ExprId × Nat)} {calls : List ExprId} {ts : List Hlsl.Stmt}
  {e o w : ExprId} {x : Hlsl.Expr} {declared declared' : List Nat}

theorem Plain.of_includes (ho : s.Includes e o) (h : s.Plain declared o x)
    (hdeclared : declared ⊆ declared') : s.Plain declared' e x where
  temps temp htemp := hdeclared (h.temps temp htemp)
  calls function xs hcall hatomic := by
    obtain ⟨w, args, target, hw, hname⟩ := h.calls function xs hcall hatomic
    exact ⟨w, args, target, ho.trans hw, hname⟩

theorem isSome_lookup (h : w ∈ entries.map Prod.fst) : ∃ temp, entries.lookup w = some temp := by
  rw [← Option.isSome_iff_exists]
  have hdone := isSome_lookup_hoisted { hoisted := entries } w
  rw [hdone]
  exact List.contains_iff_mem.2 h

theorem mem_of_lookup {temp : Nat} (h : entries.lookup w = some temp) : (w, temp) ∈ entries := by
  obtain ⟨before, after, hentries, -⟩ := List.lookup_eq_some_iff.1 h
  rw [hentries]
  simp

theorem ExplainsAll.plain (h : s.ExplainsAll entries e x)
    (hdone : ∀ w, s.Includes e w → s.isAtomicCall w → w ∈ entries.map Prod.fst) :
    s.Plain (entries.map Prod.snd) e x where
  temps temp htemp := by
    cases h _ htemp with
    | result hw hlookup => exact List.mem_map_of_mem (mem_of_lookup hlookup)
    | other hx => cases hx
  calls function xs hcall hatomic := by
    cases h _ hcall with
    | @call w name args target _ hw hexpr hlookup =>
        have hnone : Intrinsic.isAtomic name = false := by
          by_contra hname
          have hcallee : s.isAtomicCall w := by
            rw [isAtomicCall, hexpr]
            exact eq_true_of_ne_false hname
          obtain ⟨temp, htemp⟩ := isSome_lookup (hdone w hw hcallee)
          rw [hlookup] at htemp
          cases htemp
        have hself : functionName name = name := by
          by_contra hname
          rw [isAtomic_of_functionName hatomic hname] at hnone
          cases hnone
        rw [hself]
        exact ⟨w, args, target, hw, hexpr, hnone⟩
    | construct t => exact absurd hatomic (not_isAtomicFunction_hlslName t)
    | product => exact absurd (mem_toList_of_isAtomicFunction hatomic) (by decide)
    | other hx => cases hx

theorem CarriedInTurn.exists_new (h : s.CarriedInTurn entries calls ts entries') :
    ∃ new, entries' = new ++ entries ∧ new.map Prod.fst = calls.reverse ∧
      new.map Prod.snd = (ts.filterMap Stmt.result?).reverse := by
  induction h with
  | nil entries => exact ⟨[], rfl, rfl, rfl⟩
  | @cons _ _ call _ _ _ _ _ _ temp _ _ _ _ _ _ ih =>
      obtain ⟨new, rfl, hcalls, htemps⟩ := ih
      refine ⟨new ++ [(call, temp)], by simp, ?_, ?_⟩
      · rw [List.map_append, hcalls]
        exact (List.reverse_cons ..).symm
      · rw [List.map_append, htemps]
        exact (List.reverse_cons ..).symm

end Shader

namespace Hlsl

variable {s : Shader} {buffers : List ByteBuffer} {entries : List (ExprId × Nat)}

/-- What is written for a call calls a function that carries it out, with arguments that are there
for those in the source. From then on its result lies in the temporary that the statement declares.
-/
inductive WrittenAhead (s : Shader) (entries : List (ExprId × Nat)) (call : ExprId) (name : String)
    (args : List ExprId) : Stmt → List (ExprId × Nat) → Prop where
  | intro {temp : Nat} {type function : String} {xs : List Expr} :
      PerformedBy name function → (∀ x ∈ xs, ∃ arg ∈ args, s.ExplainsAll entries arg x) →
      WrittenAhead s entries call name args (.atomic temp type function xs)
        ((call, temp) :: entries)

theorem moves_hoistCall (call : ExprId) (name : String) (args : List ExprId) :
    Moves entries (s.hoistCall buffers call name args) (WrittenAhead s entries call name args) := by
  have hlower (arg : ExprId) (harg : arg ∈ args) : Reads entries (s.lowerExpr buffers arg)
      fun x => ∃ arg ∈ args, s.ExplainsAll entries arg x :=
    fun σ hσ => ⟨⟨arg, harg, (reads_lowerExpr arg σ hσ).1⟩, (reads_lowerExpr arg σ hσ).2⟩
  unfold Shader.hoistCall
  refine moves_bind_reads reads_freshTemp fun temp _ => ?_
  have hrecord {type function : String} {xs : List Expr} (hfunction : PerformedBy name function)
      (hxs : ∀ x ∈ xs, ∃ arg ∈ args, s.ExplainsAll entries arg x) : Moves entries (do
        modify fun state : LoweringState => { state with hoisted := (call, temp) :: state.hoisted }
        return Stmt.atomic temp type function xs) (WrittenAhead s entries call name args) := by
    rintro σ rfl
    exact .intro hfunction hxs
  dsimp only
  cases haccess : args.head?.bind (s.access? buffers) with
  | none =>
      refine moves_bind_reads (reads_mapM hlower) fun xs hxs => ?_
      exact moves_bind_reads (reads_pure rfl) fun t ht => ht ▸ hrecord ⟨_, .inl rfl⟩ hxs
  | some access =>
      obtain ⟨first, hfirst, haccess⟩ := Option.bind_eq_some_iff.1 haccess
      have hfirst := List.mem_of_head? hfirst
      have hterm : ∀ term ∈ access.terms, Reads entries (do
          return Expr.binary .mul (.bytes term.2) (← s.lowerExpr buffers term.1))
          (s.ExplainsAll entries first) := by
        intro term hterm
        refine reads_bind (reads_lowerExpr term.1) fun x hx => reads_pure ?_
        have hindex : s.Includes first term.1 := Shader.holds_of_mem_terms haccess hterm
        exact .pair rfl rfl (.leaf rfl rfl) fun y hy => .of_includes hindex (hx y hy)
      refine moves_bind_reads (reads_mapM hterm) fun terms hterms => ?_
      refine moves_bind_reads (reads_mapM fun arg harg => hlower arg (List.mem_of_mem_tail harg))
        fun values hvalues => ?_
      refine moves_bind_reads (reads_pure rfl) fun t ht => ht ▸ hrecord ⟨_, .inr ⟨_, rfl⟩⟩ ?_
      refine List.forall_mem_cons.2 ⟨⟨first, hfirst, ?_⟩, hvalues⟩
      exact atomicAddress_of_terms (fun _ => .leaf rfl rfl)
        (fun _ _ _ ha hb => .pair rfl rfl ha hb) hterms _

/-- Calls are carried out in turn where those in the arguments of each come before it. -/
theorem moves_hoistCalls {calls : List ExprId} (hcalls : ∀ call ∈ calls, s.isAtomicCall call)
    (hnested : ∀ before call after, calls = before ++ call :: after →
      ∀ o ∈ (s.expr call).operands, ∀ w, s.Includes o w → s.isAtomicCall w →
        w ∈ before ∨ w ∈ entries.map Prod.fst) :
    Moves entries (calls.mapM fun call => do
      match s.expr call with
      | .call name args _ => return [← s.hoistCall buffers call name args]
      | _ => return []) fun tss entries' => s.CarriedInTurn entries calls tss.flatten entries' := by
  induction calls generalizing entries with
  | nil => exact moves_pure (.nil entries)
  | cons call calls ih =>
      obtain ⟨hcall, hcalls⟩ := List.forall_mem_cons.1 hcalls
      rw [Shader.isAtomicCall] at hcall
      cases hexpr : s.expr call with
      | call name args target =>
          have hdone : ∀ arg ∈ args, ∀ w, s.Includes arg w → s.isAtomicCall w →
              w ∈ entries.map Prod.fst := fun arg harg w hw hatomic =>
            (hnested [] call calls rfl arg (by rwa [hexpr]) w hw hatomic).resolve_left
              List.not_mem_nil
          have hone : Moves entries (do return [← s.hoistCall buffers call name args])
              fun ts entries' =>
                ∃ t, ts = [t] ∧ WrittenAhead s entries call name args t entries' :=
            moves_bind (moves_hoistCall call name args) fun t _ ht => moves_pure ⟨t, rfl, ht⟩
          rw [List.mapM_cons]
          simp only [hexpr]
          refine moves_bind hone ?_
          rintro _ _ ⟨_, rfl, hfunction, hxs⟩
          refine moves_bind (ih hcalls fun before c after hsplit o ho w hw hatomic => ?_)
            fun tss entries' hrest => moves_pure (.cons hexpr hfunction (fun x hx => ?_) hrest)
          · have hmem := hnested (call :: before) c after (by rw [hsplit]; rfl) o ho w hw hatomic
            rw [List.map_cons, List.mem_cons]
            rw [List.mem_cons] at hmem
            tauto
          · obtain ⟨arg, harg, hshown⟩ := hxs x hx
            have hincluded : s.Includes call arg := .operand (by rwa [hexpr])
            exact (hshown.plain (hdone arg harg)).of_includes hincluded (List.Subset.refl _)
      | _ =>
          rw [hexpr] at hcall
          cases hcall

end Hlsl

namespace Shader

variable {s : Shader} {e : ExprId} {v w : ExprId}

theorem mem_before_of_sublist {before after : List ExprId}
    (h : [v, w].Sublist (before ++ w :: after)) (hnodup : (before ++ w :: after).Nodup) :
    v ∈ before := by
  obtain ⟨first, second, hsplit, hfirst, hsecond⟩ := List.sublist_append_iff.1 h
  cases first with
  | nil =>
      rw [List.nil_append] at hsplit
      rw [← hsplit] at hsecond
      have hagain : w ∈ after := List.singleton_sublist.1 hsecond.tail
      exact absurd hagain (List.nodup_cons.1 hnodup.of_append_right).1
  | cons u first =>
      rw [List.cons_append] at hsplit
      rw [(List.cons.inj hsplit).1]
      exact hfirst.subset List.mem_cons_self

/-- The statements `ts` of the calls of an expression are written in turn. Wherever the expression
or a part of it is lowered behind them, calls are read from the temporaries that these declare. -/
structure HoistsInOrder (s : Shader) (buffers : List ByteBuffer) (e : ExprId) (σ : LoweringState)
    (ts : List Hlsl.Stmt) (σ' : LoweringState) : Prop where
  carried : s.CarriedInTurn σ.hoisted (s.atomicCalls e) ts σ'.hoisted
  read : ∀ call ∈ s.atomicCalls e, ∃ temp ∈ ts.filterMap Hlsl.Stmt.result?,
    ((s.lowerExpr buffers call).run σ').1 = .temp temp
  plain : ∀ x, s.Includes e x →
    s.Plain (ts.filterMap Hlsl.Stmt.result? ++ σ.hoisted.map Prod.snd) x
      ((s.lowerExpr buffers x).run σ').1

theorem IsTree.carriedInTurn (h : s.IsTree e) (buffers : List ByteBuffer) (σ : LoweringState) :
    s.CarriedInTurn σ.hoisted (s.atomicCalls e) ((s.hoistAtomics buffers e).run σ).1
      ((s.hoistAtomics buffers e).run σ).2.hoisted := by
  obtain ⟨honce, hevery, hordered⟩ := h.collectsInOrder
  have hcalls : ∀ call ∈ s.atomicCalls e, s.isAtomicCall call := fun call hcall =>
    ((hevery call).1 hcall).1
  have hnested : ∀ before call after, s.atomicCalls e = before ++ call :: after →
      ∀ o ∈ (s.expr call).operands, ∀ v, s.Includes o v → s.isAtomicCall v →
        v ∈ before ∨ v ∈ σ.hoisted.map Prod.fst := by
    intro before call after hsplit o ho v hv hatomic
    obtain ⟨hcall, hincluded⟩ := (hevery call).1 (by rw [hsplit]; simp)
    have hsub := hordered v call hatomic hcall (.inside hincluded ho hv)
    rw [hsplit] at hsub honce
    exact .inl (mem_before_of_sublist hsub honce)
  exact moves_bind (moves_hoistCalls hcalls hnested)
    (fun tss entries' htss => moves_pure htss) σ rfl

theorem CarriedInTurn.hoistsInOrder {σ σ' : LoweringState} {ts : List Hlsl.Stmt}
    (h : s.CarriedInTurn σ.hoisted (s.atomicCalls e) ts σ'.hoisted) (buffers : List ByteBuffer) :
    s.HoistsInOrder buffers e σ ts σ' := by
  obtain ⟨new, hnew, hcalls, htemps⟩ := h.exists_new
  have hcall {w : ExprId} (hw : w ∈ s.atomicCalls e) : w ∈ new.map Prod.fst := by
    rwa [hcalls, List.mem_reverse]
  have htemp {temp : Nat} (h : temp ∈ new.map Prod.snd) : temp ∈ ts.filterMap Stmt.result? := by
    rwa [htemps, List.mem_reverse] at h
  refine ⟨h, fun call hmem => ?_, fun x hx => ?_⟩
  · obtain ⟨temp, hlookup⟩ := isSome_lookup (hcall hmem)
    refine ⟨temp, htemp (List.mem_map_of_mem (mem_of_lookup hlookup)), lowerExpr_of_lookup ?_⟩
    rw [hnew, List.lookup_append, hlookup, Option.some_or]
  · have hdone : ∀ w, s.Includes x w → s.isAtomicCall w → w ∈ σ'.hoisted.map Prod.fst := by
      intro w hw hatomic
      rw [hnew, List.map_append]
      exact List.mem_append_left _ (hcall (mem_atomicCalls_iff.2 ⟨hatomic, hx.trans hw⟩))
    have hplain : s.Plain (σ'.hoisted.map Prod.snd) x ((s.lowerExpr buffers x).run σ').1 :=
      (reads_lowerExpr x σ' rfl).1.plain hdone
    refine hplain.of_includes (.refl x) fun temp hmem => ?_
    rw [hnew, List.map_append] at hmem
    exact List.mem_append.2 ((List.mem_append.1 hmem).imp_left htemp)

/-- In a tree all atomic calls are collected once, in the order of their evaluation. Carried out in
this order ahead of the tree, they read only what has been declared, and so does the tree, in which
no call of an atomic function is left. -/
theorem atomics_in_order (h : s.IsTree e) :
    s.CollectsInOrder e ∧ ∀ buffers σ, s.HoistsInOrder buffers e σ
      ((s.hoistAtomics buffers e).run σ).1 ((s.hoistAtomics buffers e).run σ).2 :=
  ⟨h.collectsInOrder, fun buffers σ => (h.carriedInTurn buffers σ).hoistsInOrder buffers⟩

/-- The expression `atomicAdd(s, 1u) + atomicOr(s, atomicAdd(s, 1u))`, with a variable of its own
for each target. -/
def sumOfAtomics : Shader where
  stage := .compute
  exprs := #[.var ⟨0⟩, .constant (.uint 1), .call "atomicAdd" [⟨0⟩, ⟨1⟩] none, .var ⟨0⟩, .var ⟨0⟩,
    .constant (.uint 1), .call "atomicAdd" [⟨4⟩, ⟨5⟩] none, .call "atomicOr" [⟨3⟩, ⟨6⟩] none,
    .binary .add ⟨2⟩ ⟨7⟩]
  vars := #[{ name := "s", type := .builtin (.scalar .uint), role := .localVar none }]

theorem sumOfAtomics_in_order : sumOfAtomics.IsTree ⟨8⟩ ∧
    sumOfAtomics.atomicCalls ⟨8⟩ = [⟨2⟩, ⟨6⟩, ⟨7⟩] ∧ sumOfAtomics.CollectsInOrder ⟨8⟩ ∧
    sumOfAtomics.HoistsInOrder [] ⟨8⟩ {} ((sumOfAtomics.hoistAtomics [] ⟨8⟩).run {}).1
      ((sumOfAtomics.hoistAtomics [] ⟨8⟩).run {}).2 := by
  have htree : sumOfAtomics.IsTree ⟨8⟩ := by
    unfold IsTree
    decide
  exact ⟨htree, rfl, (atomics_in_order htree).1, (atomics_in_order htree).2 [] {}⟩

end Shader

end ShaderBridge
