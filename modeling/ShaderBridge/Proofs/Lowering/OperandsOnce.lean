import ShaderBridge.Proofs.Lowering.Emission
import ShaderBridge.Proofs.Lowering.Matching
import ShaderBridge.Proofs.Parse.Accepted
import ShaderBridge.Proofs.Shader.WellFormed

/-!
Assignments to storage fields whose operands are evaluated once. All calls, assignments and steps in
a statement are written once where nothing is dropped and nothing is repeated on the way. The field
of an element of an array of blocks drops the index of the block, the element of a combined sampler
as an argument repeats its index for the state, and a compound assignment repeats its target, whose
old value is read first.
-/

namespace ShaderBridge

open Hlsl

/-! ### Calls that are carried out ahead -/

namespace Shader

/-- What is written for an expression: the statement of a call that is carried out ahead, or what
the expression is lowered to. -/
inductive WrittenAs (s : Shader) : ExprId → Event → Prop where
  | ahead {call : ExprId} {name function type : String} {args : List ExprId}
      {target : Option FuncId} {state : LoweringState} {temp : Nat} {values : List Hlsl.Expr} :
      s.expr call = .call name args target →
      ((s.hoistCall s.storageFields call name args).run state).1 =
        .atomic temp type function values →
      WrittenAs s call (.carry temp type function values)
  | inPlace {e : ExprId} {x : Hlsl.Expr} : s.LowersTo e x → WrittenAs s e (.evaluate x)

/-- What all that is written for a statement comes from, its atomic calls first. -/
def emittedFor (s : Shader) (e : ExprId) : List ExprId :=
  (s.atomicCalls e).flatMap (fun call => call :: (s.expr call).operands.flatMap s.emitted) ++
    s.emitted e

variable {s : Shader} {done : List ExprId} {e o w : ExprId}

theorem writtenAs_of_lowersTo {es : List ExprId} {xs : List Hlsl.Expr}
    (h : List.Forall₂ s.LowersTo es xs) : List.Forall₂ s.WrittenAs es (xs.map .evaluate) :=
  List.forall₂_map_right_iff.2 (h.imp fun _ _ => .inPlace)

theorem WellFormed.mem_nodes_iff (h : s.WellFormed) :
    w ∈ s.nodes e ↔ ∃ level, s.Holds level e w := by
  constructor
  · intro hw
    obtain ⟨level, -, hholds⟩ := mem_nodesWithin_iff.1 hw
    exact ⟨level, hholds⟩
  · rintro ⟨level, hholds⟩
    induction hholds with
    | here e =>
        rw [h.nodes_eq]
        exact List.mem_cons_self
    | operand ho _ ih =>
        rw [h.nodes_eq]
        exact List.mem_cons_of_mem _ (List.mem_flatMap.2 ⟨_, ho, ih⟩)

theorem WellFormed.mem_atomicCalls_iff (h : s.WellFormed) :
    w ∈ s.atomicCalls e ↔ w ∈ s.nodes e ∧ s.isAtomicCall w := by
  refine ⟨fun hw => ⟨?_, ?_⟩, fun ⟨hw, hcall⟩ => mem_atomicCallsWithin hw hcall⟩
  · exact h.mem_nodes_iff.2 (holds_of_mem_atomicCallsWithin hw)
  · obtain ⟨-, name, args, target, hexpr, hatomic⟩ := atomicCall_of_mem hw
    rw [isAtomicCall, hexpr]
    exact hatomic

/-- Where the calls before another have been carried out, all calls in its arguments have been. -/
theorem WellFormed.callsDone_before (h : s.WellFormed) (hnew : List.Disjoint done (s.nodes e))
    {before after : List ExprId} {call : ExprId}
    (hcalls : s.atomicCalls e = before ++ call :: after) (ho : o ∈ (s.expr call).operands) :
    s.CallsDone (before.reverse ++ done) o := by
  intro level w hw
  rw [List.mem_append, List.mem_reverse]
  constructor
  · rintro (hbefore | hdone)
    · have hmem : w ∈ s.atomicCalls e := hcalls ▸ List.mem_append_left _ hbefore
      exact (h.mem_atomicCalls_iff.1 hmem).2
    · have hcall : call ∈ s.atomicCalls e := hcalls ▸ by simp
      obtain ⟨level', hholds⟩ := holds_of_mem_atomicCallsWithin hcall
      exact (hnew hdone (h.mem_nodes_iff.2 ⟨_, hholds.trans (.operand ho hw)⟩)).elim
  · intro hcall
    have hmem := h.mem_atomicCalls_iff.2 ⟨h.mem_nodes_iff.2 ⟨level, hw⟩, hcall⟩
    exact .inl (h.atomicCalls_nested hcalls o ho w hmem)

theorem WellFormed.callsDone_doneBy (h : s.WellFormed) (hnew : List.Disjoint done (s.nodes e)) :
    s.CallsDone (s.doneBy e done) e := by
  intro level w hw
  have hnode : w ∈ s.nodes e := h.mem_nodes_iff.2 ⟨level, hw⟩
  rw [doneBy, List.mem_append, List.mem_reverse, h.mem_atomicCalls_iff, and_iff_right hnode]
  exact or_iff_left fun hdone => hnew hdone hnode

end Shader

namespace Hlsl

open Shader

variable {s : Shader} {done : List ExprId}

theorem gives_written_hoistCall (h : s.WellFormed) {call : ExprId} {name : String}
    {args : List ExprId} {target : Option FuncId} (hexpr : s.expr call = .call name args target)
    (hargs : ∀ arg ∈ args, s.CallsDone done arg) :
    Gives (s.hoistCall s.storageFields call name args) done (call :: done) fun t =>
      List.Forall₂ s.WrittenAs (call :: args.flatMap s.emitted) t.acts := by
  have hrecord {temp : Nat} {type function : String} {values : List Expr}
      (hvalues : List.Forall₂ s.LowersTo (args.flatMap s.emitted) (values.flatMap Expr.acts)) :
      Gives (do
        modify fun state : LoweringState => { state with hoisted := (call, temp) :: state.hoisted }
        return .atomic temp type function values) done (call :: done) fun t : Stmt =>
          (∃ state, ((s.hoistCall s.storageFields call name args).run state).1 = t) →
            List.Forall₂ s.WrittenAs (call :: args.flatMap s.emitted) t.acts := by
    intro state hstate
    refine ⟨fun ⟨state', hrun⟩ => ?_, by rw [← hstate]; rfl⟩
    have hacts : (Stmt.atomic temp type function values).acts =
        .carry temp type function values :: (values.flatMap Expr.acts).map .evaluate := by
      simp [Stmt.acts, Stmt.events, Event.acts]
    show List.Forall₂ _ _ (Stmt.atomic temp type function values).acts
    rw [hacts]
    exact .cons (.ahead hexpr hrun) (writtenAs_of_lowersTo hvalues)
  have hmain : Gives (s.hoistCall s.storageFields call name args) done (call :: done) fun t =>
      (∃ state, ((s.hoistCall s.storageFields call name args).run state).1 = t) →
        List.Forall₂ s.WrittenAs (call :: args.flatMap s.emitted) t.acts := by
    unfold Shader.hoistCall at hrecord ⊢
    apply gives_bind gives_freshTemp
    intro temp _
    dsimp only
    cases haccess : args.head?.bind (s.access? s.storageFields) with
    | none =>
        apply gives_bind (gives_mapM fun arg harg => gives_emits h arg (hargs arg harg))
        intro values hvalues
        simp only [haccess] at hrecord
        exact gives_bind (gives_pure rfl) fun t ht => ht ▸ hrecord (forall₂_acts hvalues)
    | some access =>
        obtain ⟨head, hhead, hterms⟩ := Option.bind_eq_some_iff.1 haccess
        obtain ⟨tail, rfl⟩ := List.head?_eq_some_iff.1 hhead
        have hterm : ∀ term ∈ access.terms, Gives (do
            return .binary .mul (.bytes term.2) (← s.lowerExpr s.storageFields term.1) :
              LowerM Expr)
            done done fun x => List.Forall₂ s.LowersTo (s.emitted term.1) x.acts := by
          intro term hmem
          obtain ⟨level, hholds⟩ := holds_of_mem_terms hterms hmem
          apply gives_bind (gives_emits h _ ((hargs head List.mem_cons_self).of_holds hholds))
          intro x hx
          exact gives_pure hx.acts
        apply gives_bind (gives_mapM hterm)
        intro terms haddress
        apply gives_bind (gives_mapM fun arg harg =>
          gives_emits h arg (hargs arg (List.mem_cons_of_mem _ harg)))
        intro values hvalues
        simp only [haccess] at hrecord
        refine gives_bind (gives_pure rfl) fun t ht => ht ▸ hrecord ?_
        rw [List.flatMap_cons, List.flatMap_cons, acts_atomicAddress, h.emitted_of_access hterms]
        exact List.rel_append (forall₂_flatMap haddress fun _ _ hx => hx) (forall₂_acts hvalues)
  exact (hmain.and fun state _ => ⟨state, rfl⟩).imp fun t ht => ht.2 ht.1

theorem gives_written_hoistCalls (h : s.WellFormed) {e : ExprId} {before calls : List ExprId}
    (hnew : List.Disjoint done (s.nodes e)) (hcalls : s.atomicCalls e = before ++ calls) :
    Gives (calls.mapM fun call => do
      match s.expr call with
      | .call name args _ => return [← s.hoistCall s.storageFields call name args]
      | _ => return [])
      (before.reverse ++ done) (calls.reverse ++ (before.reverse ++ done)) fun ts =>
        List.Forall₂ s.WrittenAs
          (calls.flatMap fun call => call :: (s.expr call).operands.flatMap s.emitted)
          (ts.flatten.flatMap Stmt.acts) := by
  induction calls generalizing before with
  | nil => exact gives_pure .nil
  | cons call rest ih =>
      have hmem : call ∈ s.atomicCalls e := hcalls ▸ by simp
      obtain ⟨name, args, target, hexpr⟩ := isCall_of_mem_atomicCallsWithin hmem
      have hargs : ∀ arg ∈ args, s.CallsDone (before.reverse ++ done) arg := fun arg harg =>
        h.callsDone_before hnew hcalls (by rwa [hexpr])
      have hsplit : s.atomicCalls e = (before ++ [call]) ++ rest := by simpa using hcalls
      have hrest := ih hsplit
      rw [List.reverse_append, List.reverse_singleton, List.singleton_append, List.cons_append]
        at hrest
      rw [List.mapM_cons, List.reverse_cons, List.append_assoc, List.singleton_append]
      simp only [hexpr]
      apply gives_bind (P := fun ts : List Stmt => List.Forall₂ s.WrittenAs
        (call :: args.flatMap s.emitted) (ts.flatMap Stmt.acts))
      · apply gives_bind (gives_written_hoistCall h hexpr hargs)
        intro t ht
        apply gives_pure
        simpa using ht
      intro ts hts
      apply gives_bind hrest
      intro tss htss
      apply gives_pure
      rw [List.flatMap_cons, hexpr, List.flatten_cons, List.flatMap_append]
      exact List.rel_append hts htss

theorem gives_written_hoistAtomics (h : s.WellFormed) {e : ExprId}
    (hnew : List.Disjoint done (s.nodes e)) :
    Gives (s.hoistAtomics s.storageFields e) done (s.doneBy e done) fun calls =>
      List.Forall₂ s.WrittenAs
        ((s.atomicCalls e).flatMap fun call => call :: (s.expr call).operands.flatMap s.emitted)
        (calls.flatMap Stmt.acts) := by
  unfold Shader.hoistAtomics
  have hsplit : s.atomicCalls e = [] ++ s.atomicCalls e := rfl
  apply gives_bind (gives_written_hoistCalls h hnew hsplit)
  intro ts hts
  exact gives_pure hts

end Hlsl

/-! ### What is written once -/

section Lists

variable {α β : Type}

theorem flatMap_subset {f g : α → List β} {l : List α} (h : ∀ a ∈ l, f a ⊆ g a) :
    l.flatMap f ⊆ l.flatMap g := by
  intro x hx
  obtain ⟨a, ha, hx⟩ := List.mem_flatMap.1 hx
  exact List.mem_flatMap.2 ⟨a, ha, h a ha hx⟩

variable [DecidableEq β]

theorem perm_left_of_append {a b l r : List β} (hnodup : (l ++ r).Nodup) (ha : a ⊆ l) (hb : b ⊆ r)
    (h : (a ++ b).Perm (l ++ r)) : a.Perm l := by
  have hapart := (List.nodup_append'.1 hnodup).2.2
  have hcount := List.perm_iff_count.1 h
  simp only [List.count_append] at hcount
  refine List.perm_iff_count.2 fun x => ?_
  by_cases hx : x ∈ l
  · have hnone := List.count_eq_zero_of_not_mem (hapart hx)
    have hnone' := List.count_eq_zero_of_not_mem fun hxb => hapart hx (hb hxb)
    have := hcount x
    omega
  · rw [List.count_eq_zero_of_not_mem hx, List.count_eq_zero_of_not_mem fun hxa => hx (ha hxa)]

theorem perm_of_append {a b l r : List β} (hnodup : (l ++ r).Nodup) (ha : a ⊆ l) (hb : b ⊆ r)
    (h : (a ++ b).Perm (l ++ r)) : a.Perm l ∧ b.Perm r := by
  refine ⟨perm_left_of_append hnodup ha hb h, ?_⟩
  have hswap := (List.perm_append_comm.trans h).trans List.perm_append_comm
  exact perm_left_of_append (List.nodup_append_comm.1 hnodup) hb ha hswap

theorem perm_of_flatMap {f g : α → List β} {l : List α} (hnodup : (l.flatMap g).Nodup)
    (hsubset : ∀ a ∈ l, f a ⊆ g a) (h : (l.flatMap f).Perm (l.flatMap g)) :
    ∀ a ∈ l, (f a).Perm (g a) := by
  induction l with
  | nil => simp
  | cons a l ih =>
      rw [List.flatMap_cons] at hnodup
      rw [List.flatMap_cons, List.flatMap_cons] at h
      obtain ⟨hfirst, hrest⟩ := List.forall_mem_cons.1 hsubset
      obtain ⟨ha, hl⟩ := perm_of_append hnodup hfirst (flatMap_subset hrest) h
      rw [List.forall_mem_cons]
      exact ⟨ha, ih hnodup.of_append_right hrest hl⟩

theorem eq_nil_of_perm_twice {a l : List β} (hnodup : l.Nodup) (h : (a ++ a).Perm l) : l = [] := by
  refine List.eq_nil_iff_forall_not_mem.2 fun x hx => ?_
  have hcount := List.perm_iff_count.1 h x
  rw [List.count_append, List.count_eq_one_of_mem hnodup hx] at hcount
  omega

end Lists

namespace Shader

/-- The actions in an expression that are not part of an atomic call, given those of what stands in
it. -/
def inPlaceFrom (s : Shader) (inPlace : ExprId → List ExprId) (e : ExprId) : List ExprId :=
  if s.isAtomicCall e then []
  else (if s.isAction e then [e] else []) ++ (s.expr e).operands.flatMap inPlace

def inPlace (s : Shader) : ExprId → List ExprId :=
  s.followed s.inPlaceFrom []

/-- Whether each action in an expression that is not part of an atomic call is written once, given
for which of those in it this is so. There is no action in what a field of a block is selected from,
in the index of an element of a combined sampler that is an argument, and in what is assigned to
where its old value is needed. -/
def emitsOnceFrom (s : Shader) (once : ExprId → Bool) (e : ExprId) : Bool :=
  s.isAtomicCall e ||
    match s.expr e with
    | .member o _ _ =>
      if (s.bufferOf? s.storageFields e).isSome then (s.inPlace o).isEmpty else once o
    | .call _ args _ =>
      args.all fun arg => once arg && (s.samplerIndex? arg).all fun i => (s.inPlace i).isEmpty
    | .assign op l r =>
      once l && once r &&
        ((s.access? s.storageFields l).isNone || op.binary?.isNone || (s.inPlace l).isEmpty)
    | y => y.operands.all once

def emitsOnce (s : Shader) : ExprId → Bool :=
  s.followed s.emitsOnceFrom true

/-- The actions that a lowered expression is written for. -/
def written (s : Shader) (e : ExprId) : List ExprId :=
  (s.emitted e).filter s.isAction

theorem looksInside_inPlaceFrom (s : Shader) : s.LooksInside s.inPlaceFrom := by
  intro f g e hfg
  unfold inPlaceFrom
  rw [List.flatMap_congr fun o ho => hfg o (.single (.operand ho))]

theorem looksInside_emitsOnceFrom (s : Shader) : s.LooksInside s.emitsOnceFrom := by
  intro f g e hfg
  have hoperand {y : Expr} (hexpr : s.expr e = y) (o : ExprId) (ho : o ∈ y.operands) : f o = g o :=
    hfg o (.single (.operand (hexpr ▸ ho)))
  unfold emitsOnceFrom
  refine congrArg (_ || ·) ?_
  cases hexpr : s.expr e with
  | call name args target =>
      exact all_congr_mem fun arg harg => by rw [hoperand hexpr arg harg]
  | construct type args | aggregate args => exact all_congr_mem (hoperand hexpr)
  | _ =>
      have hbelow := hoperand hexpr
      simp_all [Expr.operands]

variable {s : Shader} {e o i : ExprId}

theorem WellFormed.inPlace_eq (h : s.WellFormed) (e : ExprId) :
    s.inPlace e = s.inPlaceFrom s.inPlace e :=
  h.followed_eq s.looksInside_inPlaceFrom e

theorem WellFormed.emitsOnce_eq (h : s.WellFormed) (e : ExprId) :
    s.emitsOnce e = s.emitsOnceFrom s.emitsOnce e :=
  h.followed_eq s.looksInside_emitsOnceFrom e

/-- How the actions that are written for an expression come from those in its operands. -/
inductive WritesFor (s : Shader) (e : ExprId) : Prop where
  /-- An atomic call has been carried out ahead. -/
  | ahead : s.written e = [] → s.inPlace e = [] → s.emitsOnce e → WritesFor s e
  /-- The operand is dropped. -/
  | dropped (o : ExprId) : o ∈ (s.expr e).operands → s.written e = [] → s.inPlace e = s.inPlace o →
      (s.emitsOnce e ↔ s.inPlace o = []) → WritesFor s e
  /-- Arguments may be repeated in part. -/
  | called (args : List ExprId) : (∀ arg ∈ args, arg ∈ (s.expr e).operands) →
      s.written e = e :: args.flatMap (fun arg =>
        s.written arg ++ (s.samplerIndex? arg).toList.flatMap s.written) →
      s.inPlace e = e :: args.flatMap s.inPlace →
      (s.emitsOnce e ↔ ∀ arg ∈ args, s.emitsOnce arg ∧
        ∀ i ∈ s.samplerIndex? arg, s.inPlace i = []) → WritesFor s e
  /-- The first operand is repeated. -/
  | updated (l r : ExprId) : l ∈ (s.expr e).operands → r ∈ (s.expr e).operands →
      s.written e = e :: (s.written l ++ s.written r ++ s.written l) →
      s.inPlace e = e :: (s.inPlace l ++ s.inPlace r) →
      (s.emitsOnce e ↔ s.emitsOnce l ∧ s.emitsOnce r ∧ s.inPlace l = []) → WritesFor s e
  /-- All operands are written once. -/
  | plain (own : List ExprId) :
      (s.written e).Perm (own ++ (s.expr e).operands.flatMap s.written) →
      s.inPlace e = own ++ (s.expr e).operands.flatMap s.inPlace →
      (s.emitsOnce e ↔ ∀ o ∈ (s.expr e).operands, s.emitsOnce o) → WritesFor s e

theorem filter_emitted (s : Shader) (e : ExprId) :
    (s.emitted e).filter s.isAction = s.written e :=
  rfl

theorem filter_flatMap_emitted (s : Shader) (l : List ExprId) :
    (l.flatMap s.emitted).filter s.isAction = l.flatMap s.written := by
  rw [List.filter_flatMap]
  rfl

theorem WellFormed.writesFor (h : s.WellFormed) (e : ExprId) : s.WritesFor e := by
  have hwritten : s.written e = (s.emittedFrom s.emitted e).filter s.isAction := by
    rw [written, h.emitted_eq]
  have hinPlace := h.inPlace_eq e
  have honce := h.emitsOnce_eq e
  have hact := isAction.eq_1 s e
  unfold emittedFrom at hwritten
  unfold inPlaceFrom at hinPlace
  unfold emitsOnceFrom at honce
  by_cases hcall : s.isAtomicCall e
  · exact .ahead (by simpa [hcall] using hwritten) (by simpa [hcall] using hinPlace)
      (by simpa [hcall] using honce)
  simp only [hcall, Bool.false_eq_true, if_false, Bool.false_or] at hwritten hinPlace honce
  -- Atomic calls, fields, calls and updates may drop or repeat an operand; all others are plain.
  have hplain (hperm : (s.written e).Perm
        ((if s.isAction e then [e] else []) ++ (s.expr e).operands.flatMap s.written))
      (hiff : s.emitsOnce e ↔ ∀ o ∈ (s.expr e).operands, s.emitsOnce o) : s.WritesFor e :=
    .plain _ hperm hinPlace hiff
  cases hexpr : s.expr e with
  | member o name field =>
      rw [hexpr] at hwritten hinPlace honce hact hplain
      cases hfield : s.bufferOf? s.storageFields e with
      | some buffer =>
          refine .dropped o ?_ ?_ ?_ ?_
          · simp [hexpr, Expr.operands]
          · simpa [hfield] using hwritten
          · simpa [hact, Expr.operands] using hinPlace
          · simp [honce, hfield]
      | none =>
          refine hplain ?_ ?_
          · simp [hwritten, hfield, hact, Expr.operands, filter_emitted]
          · simp [honce, hfield, Expr.operands]
  | call name args target =>
      rw [hexpr] at hwritten hinPlace honce hact
      refine .called args ?_ ?_ ?_ ?_
      · simp [hexpr, Expr.operands]
      · rw [hwritten, List.filter_cons_of_pos hact, List.filter_flatMap]
        simp only [List.filter_append, filter_flatMap_emitted]
        rfl
      · simpa [hact, Expr.operands] using hinPlace
      · simp [honce, Option.all_eq_true]
  | assign op l r =>
      rw [hexpr] at hwritten hinPlace honce hact hplain
      have hl : l ∈ (s.expr e).operands := by simp [hexpr, Expr.operands]
      have hr : r ∈ (s.expr e).operands := by simp [hexpr, Expr.operands]
      cases haccess : s.access? s.storageFields l with
      | none =>
          refine hplain ?_ ?_
          · simp [hwritten, haccess, hact, Expr.operands, filter_emitted]
          · simp [honce, haccess, Expr.operands]
      | some access =>
          cases hop : op.binary? with
          | none =>
              refine hplain ?_ ?_
              · simp [hwritten, haccess, hop, hact, Expr.operands, filter_emitted,
                  List.perm_append_comm]
              · simp [honce, hop, Expr.operands]
          | some binary =>
              refine .updated l r hl hr ?_ ?_ ?_
              · simp [hwritten, haccess, hop, hact, filter_emitted]
              · simpa [hact, Expr.operands] using hinPlace
              · simp [honce, haccess, hop, and_assoc]
  | binary op l r =>
      rw [hexpr] at hwritten honce hact hplain
      refine hplain ?_ (by simp [honce, Expr.operands])
      cases hproduct : s.isMatrixTimesVector op l r with
      | true =>
          simp [hwritten, hproduct, hact, Expr.operands, filter_emitted, List.perm_append_comm]
      | false => simp [hwritten, hproduct, hact, Expr.operands, filter_emitted]
  | unary op o =>
      rw [hexpr] at hwritten honce hact hplain
      refine hplain ?_ (by simp [honce, Expr.operands])
      cases hstep : op.isStep <;> simp [hwritten, hstep, hact, Expr.operands, filter_emitted]
  | construct type args =>
      rw [hexpr] at hwritten honce hact hplain
      refine hplain ?_ (by simp [honce, Expr.operands])
      rw [hwritten, List.filter_append, filter_flatMap_emitted]
      split <;> simp [hact, Expr.operands]
  | _ =>
      rw [hexpr] at hwritten honce hact hplain
      refine hplain ?_ (by simp [honce, Expr.operands])
      simp [hwritten, hact, filter_flatMap_emitted, Expr.operands, filter_emitted]

theorem WellFormed.eq_of_samplerIndex? (h : s.WellFormed) (hi : s.samplerIndex? o = some i) :
    s.written o = s.written i ∧ s.inPlace o = s.inPlace i := by
  obtain ⟨operand, v, hexpr, hoperand⟩ := exists_of_samplerIndex? hi
  have hvar : s.emitted operand = [] ∧ s.inPlace operand = [] := by
    rw [h.emitted_eq, h.inPlace_eq]
    simp [emittedFrom, inPlaceFrom, isAtomicCall, isAction, hoperand, Expr.operands]
  constructor
  · rw [written, h.emitted_eq, emittedFrom, isAtomicCall, hexpr]
    simp [hvar.1, written]
  · rw [h.inPlace_eq, inPlaceFrom, isAtomicCall, isAction, hexpr]
    simp [hvar.2, Expr.operands]

theorem WellFormed.repeated_subset (h : s.WellFormed) (arg : ExprId) :
    (s.samplerIndex? arg).toList.flatMap s.written ⊆ s.written arg := by
  intro x hx
  obtain ⟨i, hi, hx⟩ := List.mem_flatMap.1 hx
  rwa [(h.eq_of_samplerIndex? (Option.mem_toList.1 hi)).1]

theorem WellFormed.written_subset (h : s.WellFormed) (e : ExprId) : s.written e ⊆ s.inPlace e := by
  induction e using h.induction with
  | _ e ih =>
  have hoperand (o : ExprId) (ho : o ∈ (s.expr e).operands) : s.written o ⊆ s.inPlace o :=
    ih o (.single (.operand ho))
  cases h.writesFor e with
  | ahead hwritten | dropped _ _ hwritten =>
      rw [hwritten]
      exact List.nil_subset _
  | called args hargs hwritten hinPlace =>
      rw [hwritten, hinPlace]
      refine List.cons_subset_cons _ (flatMap_subset fun arg harg => ?_)
      have hown := hoperand arg (hargs arg harg)
      exact List.append_subset.2 ⟨hown, List.Subset.trans (h.repeated_subset arg) hown⟩
  | updated l r hl hr hwritten hinPlace =>
      rw [hwritten, hinPlace]
      refine List.cons_subset_cons _ fun x hx => ?_
      have hleft := @hoperand l hl x
      have hright := @hoperand r hr x
      simp only [List.mem_append] at hx ⊢
      tauto
  | plain own hwritten hinPlace =>
      rw [hinPlace]
      refine List.Subset.trans hwritten.subset (List.append_subset.2 ⟨?_, ?_⟩)
      · exact List.subset_append_left _ _
      · exact List.subset_append_of_subset_right _ (flatMap_subset hoperand)

theorem WellFormed.written_eq_nil (h : s.WellFormed) (he : s.inPlace e = []) : s.written e = [] :=
  List.subset_nil.1 (he ▸ h.written_subset e)

theorem WellFormed.written_perm (h : s.WellFormed) (honce : s.emitsOnce e) :
    (s.written e).Perm (s.inPlace e) := by
  induction e using h.induction with
  | _ e ih =>
  have hoperand (o : ExprId) (ho : o ∈ (s.expr e).operands) (honce : s.emitsOnce o) :
      (s.written o).Perm (s.inPlace o) :=
    ih o (.single (.operand ho)) honce
  cases h.writesFor e with
  | ahead hwritten hinPlace =>
      rw [hwritten, hinPlace]
  | dropped o _ hwritten hinPlace hiff =>
      rw [hwritten, hinPlace, hiff.1 honce]
  | called args hargs hwritten hinPlace hiff =>
      rw [hwritten, hinPlace]
      refine List.Perm.cons _ (List.Perm.flatMap_left _ fun arg harg => ?_)
      obtain ⟨honce, hidle⟩ := hiff.1 honce arg harg
      have hindex : (s.samplerIndex? arg).toList.flatMap s.written = [] := by
        exact List.flatMap_eq_nil_iff.2 fun i hi =>
          h.written_eq_nil (hidle i (Option.mem_toList.1 hi))
      rw [hindex, List.append_nil]
      exact hoperand arg (hargs arg harg) honce
  | updated l r hl hr hwritten hinPlace hiff =>
      obtain ⟨hleft, hright, hidle⟩ := hiff.1 honce
      rw [hwritten, hinPlace, h.written_eq_nil hidle, hidle, List.nil_append, List.append_nil,
        List.nil_append]
      exact (hoperand r hr hright).cons e
  | plain own hwritten hinPlace hiff =>
      rw [hinPlace]
      refine hwritten.trans (List.Perm.append_left _ (List.Perm.flatMap_left _ fun o ho => ?_))
      exact hoperand o ho (hiff.1 honce o ho)

theorem WellFormed.emitsOnce_of_perm (h : s.WellFormed) (hnodup : (s.inPlace e).Nodup)
    (hperm : (s.written e).Perm (s.inPlace e)) : s.emitsOnce e := by
  induction e using h.induction with
  | _ e ih =>
  have hoperand (o : ExprId) (ho : o ∈ (s.expr e).operands) :
      (s.inPlace o).Nodup → (s.written o).Perm (s.inPlace o) → s.emitsOnce o :=
    ih o (.single (.operand ho))
  cases h.writesFor e with
  | ahead _ _ honce => exact honce
  | dropped o _ hwritten hinPlace hiff =>
      rw [hwritten, hinPlace] at hperm
      exact hiff.2 hperm.nil_eq.symm
  | called args hargs hwritten hinPlace hiff =>
      rw [hwritten, hinPlace, List.perm_cons] at hperm
      rw [hinPlace] at hnodup
      have hnodup := (List.nodup_cons.1 hnodup).2
      have hsubset : ∀ arg ∈ args, s.written arg ++ (s.samplerIndex? arg).toList.flatMap s.written ⊆
          s.inPlace arg := fun arg _ => List.append_subset.2 ⟨h.written_subset arg,
        List.Subset.trans (h.repeated_subset arg) (h.written_subset arg)⟩
      refine hiff.2 fun arg harg => ?_
      have honce := hoperand arg (hargs arg harg) ((List.nodup_flatMap.1 hnodup).1 arg harg)
      have hsame := perm_of_flatMap hnodup hsubset hperm arg harg
      cases hindex : s.samplerIndex? arg with
      | none => exact ⟨honce (by simpa [hindex] using hsame), by simp⟩
      | some i =>
          obtain ⟨hwritten, hinPlace⟩ := h.eq_of_samplerIndex? hindex
          have htwice : (s.written arg ++ s.written arg).Perm (s.inPlace arg) := by
            simpa [hindex, hwritten] using hsame
          have hidle := eq_nil_of_perm_twice ((List.nodup_flatMap.1 hnodup).1 arg harg) htwice
          refine ⟨honce ?_, ?_⟩
          · rw [hidle, h.written_eq_nil hidle]
          · rintro _ ⟨⟩
            rw [← hinPlace, hidle]
  | updated l r hl hr hwritten hinPlace hiff =>
      rw [hwritten, hinPlace, List.perm_cons] at hperm
      rw [hinPlace] at hnodup
      have hnodup := (List.nodup_cons.1 hnodup).2
      have hswap : (s.written l ++ s.written l ++ s.written r).Perm
          (s.written l ++ s.written r ++ s.written l) := by
        rw [List.append_assoc, List.append_assoc]
        exact List.perm_append_comm.append_left _
      have htwice : s.written l ++ s.written l ⊆ s.inPlace l :=
        List.append_subset.2 ⟨h.written_subset l, h.written_subset l⟩
      obtain ⟨hleft, hright⟩ :=
        perm_of_append hnodup htwice (h.written_subset r) (hswap.trans hperm)
      have hidle := eq_nil_of_perm_twice hnodup.of_append_left hleft
      refine hiff.2 ⟨hoperand l hl hnodup.of_append_left ?_,
        hoperand r hr hnodup.of_append_right hright, hidle⟩
      rw [hidle, h.written_eq_nil hidle]
  | plain own hwritten hinPlace hiff =>
      rw [hinPlace] at hnodup hperm
      have hoperands := (List.perm_append_left_iff own).1 (hwritten.symm.trans hperm)
      have hnodup := hnodup.of_append_right
      refine hiff.2 fun o ho => hoperand o ho ?_ ?_
      · exact (List.nodup_flatMap.1 hnodup).1 o ho
      · exact perm_of_flatMap hnodup (fun o _ => h.written_subset o) hoperands o ho

/-! ### Statements -/

/-- The calls, assignments and steps in an expression. -/
def actions (s : Shader) (e : ExprId) : List ExprId :=
  (s.nodes e).filter s.isAction

/-- Those that something is written for where the expression is a statement. -/
def actionsWritten (s : Shader) (e : ExprId) : List ExprId :=
  (s.emittedFor e).filter s.isAction

/-- Every call, assignment and step of a statement is written once. -/
structure WritesOnce (s : Shader) (e : ExprId) : Prop where
  same : (s.actionsWritten e).Perm (s.actions e)
  once : (s.actionsWritten e).Nodup

/-- No call, assignment or step of a statement stands in two places, and none of them is dropped or
repeated, neither in the statement itself nor in the arguments of its atomic calls. -/
structure NothingRepeated (s : Shader) (e : ExprId) : Prop where
  apart : (s.actions e).Nodup
  statement : s.emitsOnce e
  calls : ∀ call ∈ s.atomicCalls e, ∀ o ∈ (s.expr call).operands, s.emitsOnce o

theorem isAction_of_isAtomicCall (h : s.isAtomicCall e) : s.isAction e := by
  unfold isAtomicCall at h
  unfold isAction
  split at h
  · next hexpr => rw [hexpr]
  · cases h

theorem WellFormed.actions_perm (h : s.WellFormed) (e : ExprId) :
    (s.actions e).Perm (s.inPlace e ++ (s.atomicCalls e).flatMap fun call =>
      call :: (s.expr call).operands.flatMap s.inPlace) := by
  induction e using h.induction with
  | _ e ih =>
  have hactions : s.actions e = (if s.isAction e then [e] else []) ++
      (s.expr e).operands.flatMap s.actions := by
    rw [actions, h.nodes_eq, List.filter_cons, List.filter_flatMap]
    split <;> rfl
  have hoperands : ((s.expr e).operands.flatMap s.actions).Perm
      ((s.expr e).operands.flatMap s.inPlace ++
        ((s.expr e).operands.flatMap s.atomicCalls).flatMap fun call =>
          call :: (s.expr call).operands.flatMap s.inPlace) := by
    rw [List.flatMap_assoc]
    refine (List.Perm.flatMap_left _ fun o ho => ih o (.single (.operand ho))).trans ?_
    exact (List.flatMap_append_perm _ _ _).symm
  rw [hactions, h.inPlace_eq, inPlaceFrom, h.atomicCalls_eq, List.flatMap_append]
  by_cases hcall : s.isAtomicCall e
  · rw [if_pos hcall, if_pos hcall, if_pos (isAction_of_isAtomicCall hcall), List.nil_append,
      List.flatMap_singleton]
    refine (hoperands.append_left [e]).trans ?_
    rw [List.singleton_append, ← List.cons_append]
    exact List.perm_append_comm
  · rw [if_neg hcall, if_neg hcall, List.flatMap_nil, List.append_nil, List.append_assoc]
    exact hoperands.append_left _

theorem WellFormed.actionsWritten_eq (h : s.WellFormed) (e : ExprId) :
    s.actionsWritten e = ((s.atomicCalls e).flatMap fun call =>
      call :: (s.expr call).operands.flatMap s.written) ++ s.written e := by
  rw [actionsWritten, emittedFor, List.filter_append, List.filter_flatMap, filter_emitted,
    List.flatMap_congr fun call hcall => ?_]
  have hcall := isAction_of_isAtomicCall (h.mem_atomicCalls_iff.1 hcall).2
  rw [List.filter_cons_of_pos hcall, filter_flatMap_emitted]

theorem WellFormed.writesOnce_iff (h : s.WellFormed) (e : ExprId) :
    s.WritesOnce e ↔ s.NothingRepeated e := by
  have hsource := h.actions_perm e
  have hwritten := h.actionsWritten_eq e
  constructor
  · rintro ⟨hsame, honce⟩
    have hapart := hsame.nodup_iff.1 honce
    have hnodup := hsource.nodup_iff.1 hapart
    have hperm := List.perm_append_comm.trans ((hwritten ▸ hsame).trans hsource)
    have hoperands (call : ExprId) : (s.expr call).operands.flatMap s.written ⊆
        (s.expr call).operands.flatMap s.inPlace := flatMap_subset fun o _ => h.written_subset o
    have hahead : ((s.atomicCalls e).flatMap fun call =>
        call :: (s.expr call).operands.flatMap s.written) ⊆ (s.atomicCalls e).flatMap fun call =>
          call :: (s.expr call).operands.flatMap s.inPlace :=
      flatMap_subset fun call _ => List.cons_subset_cons _ (hoperands call)
    obtain ⟨hstatement, hcalls⟩ := perm_of_append hnodup (h.written_subset e) hahead hperm
    refine ⟨hapart, h.emitsOnce_of_perm hnodup.of_append_left hstatement, fun call hcall => ?_⟩
    have hown := ((List.nodup_flatMap.1 hnodup.of_append_right).1 call hcall).of_cons
    have hsame := perm_of_flatMap hnodup.of_append_right
      (fun call _ => List.cons_subset_cons _ (hoperands call)) hcalls call hcall
    have harguments := perm_of_flatMap hown (fun o _ => h.written_subset o) hsame.cons_inv
    exact fun o ho => h.emitsOnce_of_perm ((List.nodup_flatMap.1 hown).1 o ho) (harguments o ho)
  · rintro ⟨hnodup, hstatement, hcalls⟩
    have hsame : (s.actionsWritten e).Perm (s.actions e) := by
      rw [hwritten]
      refine .trans (.trans (.append ?_ (h.written_perm hstatement)) List.perm_append_comm)
        hsource.symm
      refine List.Perm.flatMap_left _ fun call hcall => List.Perm.cons _ ?_
      exact List.Perm.flatMap_left _ fun o ho => h.written_perm (hcalls call hcall o ho)
    exact ⟨hsame, hsame.nodup_iff.2 hnodup⟩

theorem acts_behind (calls : List Hlsl.Stmt) (t : Hlsl.Stmt) :
    (behind calls t).acts = calls.flatMap Stmt.acts ++ t.acts := by
  rw [Stmt.acts, events_behind, List.flatMap_append, eventsAll_eq_flatMap, List.flatMap_assoc]
  rfl

theorem forall_standsAlone_iff {terms : List (ExprId × Nat)} {indices : List Hlsl.Expr}
    (h : List.Forall₂ (fun term => s.Emits term.1) terms indices) :
    (∀ index ∈ indices, index.standsAlone) ↔ ∀ term ∈ terms, s.standsAlone term.1 := by
  induction h with
  | nil => simp
  | cons hindex _ ih => rw [List.forall_mem_cons, List.forall_mem_cons, ih, hindex.alone]

theorem WellFormed.exists_store (h : s.WellFormed) {t : StmtId} {left right : ExprId}
    {op : AssignOp} {a : Access} (ht : s.stmt t = .expression e)
    (he : s.expr e = .assign op left right) (ha : s.access? s.storageFields left = some a)
    (state : LoweringState) (hstate : List.Disjoint state.done (s.nodes e)) :
    ∃ calls temp type value indices leaves,
      ((s.lowerStmt s.storageFields t).run state).1 = behind calls
        (.expression (.store temp type value (a.expr indices) a.buffer.resource leaves)) ∧
      List.Forall₂ (fun term x => s.LowersTo term.1 x ∧ s.Emits term.1 x) a.terms indices ∧
      List.Forall₂ s.WrittenAs (s.emittedFor e)
        ((s.lowerStmt s.storageFields t).run state).1.acts := by
  have hdone := h.callsDone_doneBy hstate
  have hnew : e ∉ s.doneBy e state.done := by
    rw [hdone 0 e (.here e), isAtomicCall, he]
    exact Bool.false_ne_true
  have hlower : ∀ o ∈ left :: right :: a.terms.map Prod.fst,
      Gives (s.lowerWithin s.storageFields s.exprs.size o) (s.doneBy e state.done)
        (s.doneBy e state.done) fun x => s.LowersTo o x ∧ s.Emits o x := by
    intro o ho
    obtain ⟨level, hholds⟩ : ∃ level, s.Holds (level + 1) e o := by
      have hleft : left ∈ (s.expr e).operands := by simp [he, Expr.operands]
      have hright : right ∈ (s.expr e).operands := by simp [he, Expr.operands]
      simp only [List.mem_cons, List.mem_map] at ho
      rcases ho with rfl | rfl | ⟨term, hterm, rfl⟩
      · exact ⟨0, .operand hleft (.here o)⟩
      · exact ⟨0, .operand hright (.here o)⟩
      · obtain ⟨level, hlevel⟩ := holds_of_mem_terms ha hterm
        exact ⟨level, .operand hleft hlevel⟩
    rw [h.lowerWithin_eq _ hholds.transGen]
    exact (gives_emits h o (hdone.of_holds hholds)).and fun state _ => ⟨state, rfl⟩
  have hstore := (gives_lowerExpr_store he ha hnew hlower).and fun state hstate =>
    (gives_emits h e hdone state hstate).1
  have hstmt : Gives (s.lowerStmt s.storageFields t) state.done (s.doneBy e state.done) fun u =>
      ∃ calls temp type value indices leaves,
        u = behind calls
          (.expression (.store temp type value (a.expr indices) a.buffer.resource leaves)) ∧
        List.Forall₂ (fun term x => s.LowersTo term.1 x ∧ s.Emits term.1 x) a.terms indices ∧
        List.Forall₂ s.WrittenAs (s.emittedFor e) u.acts := by
    unfold lowerStmt lowerStmtWithin
    rw [ht]
    dsimp only
    apply gives_bind (gives_written_hoistAtomics h hstate)
    intro calls hcalls
    apply gives_bind hstore
    rintro x ⟨hemits, temp, type, value, indices, rfl, hindices, _⟩
    refine gives_pure ⟨calls, temp, type, value, indices, _, rfl, hindices, ?_⟩
    rw [acts_behind, emittedFor]
    refine List.rel_append hcalls ?_
    simpa [Stmt.acts, Stmt.events, Event.acts] using writtenAs_of_lowersTo hemits.acts
  exact (hstmt state rfl).1

/-- Where an assignment statement to a part of a storage field becomes a store, all its calls,
assignments and steps are written once, and each index in the address stands alone as an operand of
its multiplication, if and only if none of the former is dropped or repeated and no index shows an
assignment outside of brackets. -/
theorem WellFormed.operandsOnce_iff (h : s.WellFormed) {t : StmtId} {left right : ExprId}
    {op : AssignOp} {a : Access} (ht : s.stmt t = .expression e)
    (he : s.expr e = .assign op left right) (ha : s.access? s.storageFields left = some a)
    (state : LoweringState) (hstate : List.Disjoint state.done (s.nodes e)) :
    ∃ calls temp type value indices leaves,
      ((s.lowerStmt s.storageFields t).run state).1 = behind calls
        (.expression (.store temp type value (a.expr indices) a.buffer.resource leaves)) ∧
      List.Forall₂ (fun term => s.LowersTo term.1) a.terms indices ∧
      List.Forall₂ s.WrittenAs (s.emittedFor e)
        ((s.lowerStmt s.storageFields t).run state).1.acts ∧
      (s.WritesOnce e ∧ (∀ index ∈ indices, index.standsAlone) ↔
        s.NothingRepeated e ∧ ∀ term ∈ a.terms, s.standsAlone term.1) := by
  obtain ⟨calls, temp, type, value, indices, leaves, hrun, hindices, hacts⟩ :=
    h.exists_store ht he ha state hstate
  refine ⟨calls, temp, type, value, indices, leaves, hrun, hindices.imp fun _ _ h => h.1, hacts, ?_⟩
  rw [h.writesOnce_iff]
  exact and_congr_right fun _ => forall_standsAlone_iff (hindices.imp fun _ _ h => h.2)

/-- The tokens of `buffer B { int x[]; } b; void f(int i) { b.x[i++] = 1; b.x[i = 2] = 1; }`. -/
def indexedStores : List TokenKind :=
  [.keyword (.storage .buffer), .ident "B", .punct .leftBrace, .keyword (.type (.scalar .int)),
    .ident "x", .punct .leftBracket, .punct .rightBracket, .punct .semicolon, .punct .rightBrace,
    .ident "b", .punct .semicolon, .keyword (.type .void), .ident "f", .punct .leftParen,
    .keyword (.type (.scalar .int)), .ident "i", .punct .rightParen, .punct .leftBrace,
    .ident "b", .punct .dot, .ident "x", .punct .leftBracket, .ident "i", .punct .plusPlus,
    .punct .rightBracket, .punct .eq, .number (.integer .int 1), .punct .semicolon,
    .ident "b", .punct .dot, .ident "x", .punct .leftBracket, .ident "i", .punct .eq,
    .number (.integer .int 2), .punct .rightBracket, .punct .eq, .number (.integer .int 1),
    .punct .semicolon, .punct .rightBrace, .endOfFile]

/-- What is written for it. -/
def indexedStoresText : String :=
  "RWByteAddressBuffer x : register(u-1, space0);\n" ++
  "int __load_x(int index) \x7b\n" ++
  "    int ret;\n" ++
  "    ret = x.Load(index * 4 + 0);\n" ++
  "    return ret;\n" ++
  "\x7d\n" ++
  "void f(int i) \x7b\n" ++
  "    int __temp0 = 1;\n" ++
  "    uint __offset0 = i++ * 4 + 0;\n" ++
  "    x.Store(__offset0 + 0, __temp0);\n" ++
  "    int __temp1 = 1;\n" ++
  "    uint __offset1 = i = 2 * 4 + 0;\n" ++
  "    x.Store(__offset1 + 0, __temp1);\n" ++
  "\x7d\n"

/-- An assignment statement to an element of a storage field. -/
structure StoresElement (s : Shader) (t : StmtId) (e left right index : ExprId) (a : Access) :
    Prop where
  statement : s.stmt t = .expression e
  assigns : s.expr e = .assign .assign left right
  target : s.access? s.storageFields left = some a
  address : a.terms = [(index, 4)]

theorem exists_indexedStores :
    ∃ (s : Shader) (a b : Access), s.Accepted ∧ s.WellFormed ∧
      s.StoresElement ⟨0⟩ ⟨22⟩ ⟨20⟩ ⟨21⟩ ⟨19⟩ a ∧ s.StoresElement ⟨1⟩ ⟨30⟩ ⟨28⟩ ⟨29⟩ ⟨27⟩ b ∧
      s.actions ⟨22⟩ = [⟨22⟩, ⟨19⟩] ∧ s.emitsOnce ⟨22⟩ ∧ s.atomicCalls ⟨22⟩ = [] ∧
      s.expr ⟨19⟩ = .unary .postIncrement ⟨18⟩ ∧ s.standsAlone ⟨19⟩ ∧
      s.expr ⟨27⟩ = .assign .assign ⟨25⟩ ⟨26⟩ ∧ s.toHlsl {} = indexedStoresText := by
  obtain ⟨s, hs, hfacts⟩ := Parse.exists_accepted (a := true)
    (f := fun s =>
      decide ([19, 22, 27, 30].map (fun n => s.expr ⟨n⟩) =
        [.unary .postIncrement ⟨18⟩, .assign .assign ⟨20⟩ ⟨21⟩, .assign .assign ⟨25⟩ ⟨26⟩,
          .assign .assign ⟨28⟩ ⟨29⟩]) &&
      decide ([0, 1].map (fun n => s.stmt ⟨n⟩) = [.expression ⟨22⟩, .expression ⟨30⟩]) &&
      decide ([20, 28].map (fun n => (s.access? s.storageFields ⟨n⟩).map Access.terms) =
        [some [(⟨19⟩, 4)], some [(⟨27⟩, 4)]]) &&
      decide (s.actions ⟨22⟩ = [⟨22⟩, ⟨19⟩] ∧ s.emitsOnce ⟨22⟩ ∧ s.atomicCalls ⟨22⟩ = [] ∧
        s.standsAlone ⟨19⟩) &&
      decide (s.toHlsl {} = indexedStoresText) &&
      s.exprs.toList.all fun e => e.items.isEmpty)
    (show (Parse.plainShader? .fragment indexedStores).map _ = _ by decide +kernel)
  simp only [Bool.and_eq_true, decide_eq_true_eq, List.map_cons, List.map_nil, List.cons.injEq,
    and_true, Option.map_eq_some_iff, List.all_eq_true, List.isEmpty_iff] at hfacts
  obtain ⟨⟨⟨⟨⟨⟨hstep, hfirst, hset, hsecond⟩, ht, ht'⟩, ⟨a, ha, hterms⟩, b, hb, hterms'⟩,
    hactions, honce, hcalls, halone⟩, htext⟩, hitems⟩ := hfacts
  exact ⟨s, a, b, hs, hs.wellFormed_iff.2 fun _ => itemsLeadAway_of_noItems hitems,
    ⟨ht, hfirst, ha, hterms⟩, ⟨ht', hsecond, hb, hterms'⟩, hactions, honce, hcalls, hstep,
    halone, hset, htext⟩

/-- A step in the index of a target is written once and stands alone in the address. -/
theorem exists_operands_once :
    ∃ (s : Shader) (a : Access), s.Accepted ∧ s.WellFormed ∧
      s.StoresElement ⟨0⟩ ⟨22⟩ ⟨20⟩ ⟨21⟩ ⟨19⟩ a ∧ s.expr ⟨19⟩ = .unary .postIncrement ⟨18⟩ ∧
      s.WritesOnce ⟨22⟩ ∧ ∃ calls temp type value indices leaves,
        ((s.lowerStmt s.storageFields ⟨0⟩).run {}).1 = behind calls
          (.expression (.store temp type value (a.expr indices) a.buffer.resource leaves)) ∧
        ∀ index ∈ indices, index.standsAlone := by
  obtain ⟨s, a, _, hs, hwell, h, _, hactions, honce, hcalls, hstep, halone, _⟩ :=
    exists_indexedStores
  have hnothing : s.NothingRepeated ⟨22⟩ := by
    refine ⟨?_, honce, ?_⟩
    · rw [hactions]
      decide
    · rw [hcalls]
      exact fun _ hcall => absurd hcall List.not_mem_nil
  have hterms : ∀ term ∈ a.terms, s.standsAlone term.1 := by
    rw [h.address]
    rintro _ (_ | ⟨_, ⟨⟩⟩)
    exact halone
  obtain ⟨calls, temp, type, value, indices, leaves, hrun, _, _, hiff⟩ :=
    hwell.operandsOnce_iff h.statement h.assigns h.target {} (List.disjoint_nil_left _)
  obtain ⟨hwrites, hindices⟩ := hiff.2 ⟨hnothing, hterms⟩
  exact ⟨s, a, hs, hwell, h, hstep, hwrites, calls, temp, type, value, indices, leaves, hrun,
    hindices⟩

/-- An assignment as the index of a target is torn apart by the multiplication in the address. -/
theorem exists_index_regrouped :
    ∃ (s : Shader) (a : Access), s.Accepted ∧ s.WellFormed ∧
      s.StoresElement ⟨1⟩ ⟨30⟩ ⟨28⟩ ⟨29⟩ ⟨27⟩ a ∧ s.expr ⟨27⟩ = .assign .assign ⟨25⟩ ⟨26⟩ ∧
      ∃ calls temp type value indices leaves,
        ((s.lowerStmt s.storageFields ⟨1⟩).run {}).1 = behind calls
          (.expression (.store temp type value (a.expr indices) a.buffer.resource leaves)) ∧
        ¬(∀ index ∈ indices, index.standsAlone) ∧ s.toHlsl {} = indexedStoresText := by
  obtain ⟨s, _, a, hs, hwell, _, h, _, _, _, _, _, hset, htext⟩ := exists_indexedStores
  obtain ⟨calls, temp, type, value, indices, leaves, hrun, hindices, _⟩ :=
    hwell.exists_store h.statement h.assigns h.target {} (List.disjoint_nil_left _)
  refine ⟨s, a, hs, hwell, h, hset, calls, temp, type, value, indices, leaves, hrun, fun hall => ?_,
    htext⟩
  have halone := (forall_standsAlone_iff (hindices.imp fun _ _ h => h.2)).1 hall (⟨27⟩, 4) (by
    rw [h.address]
    exact List.mem_singleton_self _)
  rw [hwell.standsAlone_eq, standsAloneFrom, isAtomicCall, hset] at halone
  exact Bool.false_ne_true halone

end Shader

end ShaderBridge
