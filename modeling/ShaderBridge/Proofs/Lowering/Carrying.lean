import ShaderBridge.Proofs.Lowering.Duties
import ShaderBridge.Proofs.Lowering.Fresh
import ShaderBridge.Proofs.Lowering.Growing
import ShaderBridge.Proofs.Lowering.Program

/-!
Runs of the lowering that carry out atomic calls. A run adds some calls to those that have been
carried out, and what it gives is described by the temporaries where the results lie in the end:
no run takes a call away, so they lie there already when the run begins that reads them.
-/

namespace ShaderBridge

open Hlsl

namespace Shader

/-- What an expression is written as, if its calls are among the known ones. -/
def ShownFrom (s : Shader) (temp : ExprId → Nat) (known : List ExprId) (e : ExprId)
    (x : Hlsl.Expr) : Prop :=
  s.atomicCalls e ⊆ known → s.ShownBy temp e x

variable {s : Shader}

theorem append_eq_append_cons {α : Type} {l l' before after : List α} {a : α}
    (h : l ++ l' = before ++ a :: after) :
    (∃ rest, l = before ++ a :: rest) ∨ ∃ between, before = l ++ between ∧
      l' = between ++ a :: after := by
  rcases List.append_eq_append_iff.1 h with ⟨between, hbefore, hrest⟩ | ⟨between, hl, hrest⟩
  · exact .inr ⟨between, hbefore, hrest⟩
  · cases between with
    | nil => exact .inr ⟨[], by simpa using hl.symm, by simpa using hrest.symm⟩
    | cons b between =>
        obtain ⟨rfl, -⟩ := List.cons.inj hrest
        exact .inl ⟨between, hl⟩

theorem flatMap_eq_append_cons {α β : Type} {f : α → List β} {l : List α} {before after : List β}
    {b : β} (h : l.flatMap f = before ++ b :: after) :
    ∃ a ∈ l, ∃ first rest, f a = first ++ b :: rest ∧ first ⊆ before := by
  induction l generalizing before with
  | nil => simp at h
  | cons a l ih =>
      rw [List.flatMap_cons] at h
      rcases append_eq_append_cons h with ⟨rest, hhere⟩ | ⟨between, hbefore, hrest⟩
      · exact ⟨a, List.mem_cons_self, before, rest, hhere, List.Subset.refl _⟩
      · obtain ⟨a', ha', first, rest, hsplit, hfirst⟩ := ih hrest
        refine ⟨a', List.mem_cons_of_mem _ ha', first, rest, hsplit, fun c hc => ?_⟩
        rw [hbefore]
        exact List.mem_append_right _ (hfirst hc)

theorem WellFormed.atomicCalls_nested (h : s.WellFormed) {e : ExprId} {before after : List ExprId}
    {call : ExprId} (hcalls : s.atomicCalls e = before ++ call :: after) :
    ∀ o ∈ (s.expr call).operands, ∀ c ∈ s.atomicCalls o, c ∈ before := by
  obtain ⟨height, hdescends, hle, -⟩ := h.exists_height
  have hdeep (e : ExprId) : height e < s.exprs.size + 1 := Nat.lt_succ_of_le (hle e)
  have hsucc (e : ExprId) : s.atomicCalls e = s.atomicCallsWithin (s.exprs.size + 1 + 1) e :=
    hdescends.atomicCallsWithin_eq (hdeep e) ((hdeep e).trans (Nat.lt_succ_self _))
  induction hheight : height e using Nat.strong_induction_on generalizing e before after with
  | _ n ih =>
      subst hheight
      rw [hsucc, atomicCallsWithin_succ] at hcalls
      intro o ho c hc
      rcases append_eq_append_cons hcalls with ⟨rest, hinside⟩ | ⟨between, hbefore, hself⟩
      · obtain ⟨operand, hoperand, first, rest, hfirst, hbefore⟩ := flatMap_eq_append_cons hinside
        exact hbefore (ih _ (hdescends.operand hoperand) hfirst rfl o ho c hc)
      · have hcall : call = e := by
          have hmem : call ∈ between ++ call :: after := by simp
          rw [← hself] at hmem
          split at hmem
          · split at hmem
            · exact List.mem_singleton.1 hmem
            · cases hmem
          · cases hmem
        subst hcall
        rw [hbefore]
        exact List.mem_append_left _ (List.mem_flatMap.2 ⟨o, ho, hc⟩)

theorem mem_atomicCallsWithin {depth : Nat} {e call : ExprId} (h : call ∈ s.nodesWithin depth e)
    (hcall : s.isAtomicCall call) : call ∈ s.atomicCallsWithin depth e := by
  induction depth generalizing e with
  | zero => cases h
  | succ depth ih =>
      rw [atomicCallsWithin_succ, List.mem_append]
      rcases List.mem_cons.1 h with rfl | hinside
      · right
        unfold isAtomicCall at hcall
        cases hexpr : s.expr call with
        | call name args target =>
            rw [hexpr] at hcall
            simp only [if_pos hcall, List.mem_singleton]
        | _ =>
            rw [hexpr] at hcall
            cases hcall
      · obtain ⟨o, ho, hinside⟩ := List.mem_flatMap.1 hinside
        exact .inl (List.mem_flatMap.2 ⟨o, ho, ih hinside⟩)

end Shader

namespace Hlsl

variable {α β : Type} {s : Shader} {buffers : List ByteBuffer} {temp : ExprId → Nat}
  {known known' calls calls' : List ExprId}

/-- The results of calls lie in the given temporaries. -/
def LoweringState.Agrees (temp : ExprId → Nat) (σ : LoweringState) : Prop :=
  ∀ entry ∈ σ.hoisted, temp entry.1 = entry.2

theorem LoweringState.Agrees.lookup {σ : LoweringState} (h : σ.Agrees temp) {c : ExprId}
    (hc : c ∈ σ.done) : σ.hoisted.lookup c = some (temp c) := by
  have hsome : (σ.hoisted.lookup c).isSome := by
    rw [isSome_lookup_hoisted]
    exact List.contains_iff_mem.2 hc
  obtain ⟨k, hk⟩ := Option.isSome_iff_exists.1 hsome
  obtain ⟨first, rest, hentries, -⟩ := List.lookup_eq_some_iff.1 hk
  have hmem : (c, k) ∈ σ.hoisted := by rw [hentries]; simp
  rw [hk, h _ hmem]

/-- Where the calls `known` have been carried out, a computation carries out further calls, and its
result has a property if the results of all calls lie in the given temporaries in the end. -/
def Adds (temp : ExprId → Nat) (known : List ExprId) (m : LowerM α) (calls : List ExprId)
    (P : α → Prop) : Prop :=
  ∀ σ : LoweringState, known ⊆ σ.done → ∃ new, new.map Prod.fst = calls.reverse ∧
    (m.run σ).2.hoisted = new ++ σ.hoisted ∧ ((m.run σ).2.Agrees temp → P (m.run σ).1)

theorem adds_pure {P : α → Prop} {a : α} (h : P a) : Adds temp known (pure a) [] P :=
  fun _ _ => ⟨[], rfl, rfl, fun _ => h⟩

theorem adds_bind {m : LowerM α} {f : α → LowerM β} {P : α → Prop} {Q : β → Prop}
    (hm : Adds temp known m calls P)
    (hf : ∀ a, Adds temp (calls ++ known) (f a) calls' fun b => P a → Q b) :
    Adds temp known (m >>= f) (calls ++ calls') Q := by
  intro σ hknown
  obtain ⟨new, hnew, hhoisted, hP⟩ := hm σ hknown
  have hdone : calls ++ known ⊆ (m.run σ).2.done := by
    unfold LoweringState.done
    rw [hhoisted, List.map_append, hnew]
    exact List.append_subset.2 ⟨fun c hc => by simp [hc], fun c hc =>
      List.mem_append_right _ (hknown hc)⟩
  obtain ⟨new', hnew', hhoisted', hQ⟩ := hf _ _ hdone
  refine ⟨new' ++ new, by simp [hnew, hnew'], ?_, fun hagrees => hQ hagrees (hP ?_)⟩
  · rw [List.append_assoc, ← hhoisted]
    exact hhoisted'
  · intro entry hentry
    refine hagrees entry ?_
    rw [show (((m >>= f).run σ).2).hoisted = _ from hhoisted']
    exact List.mem_append_right _ hentry

theorem adds_map {m : LowerM α} {f : α → β} {P : β → Prop}
    (hm : Adds temp known m calls fun a => P (f a)) : Adds temp known (f <$> m) calls P :=
  fun σ hknown => hm σ hknown

theorem Adds.imp {m : LowerM α} {P Q : α → Prop} (hm : Adds temp known m calls P)
    (h : ∀ a, P a → Q a) : Adds temp known m calls Q := by
  intro σ hknown
  obtain ⟨new, hnew, hhoisted, hP⟩ := hm σ hknown
  exact ⟨new, hnew, hhoisted, fun hagrees => h _ (hP hagrees)⟩

theorem Adds.mono {m : LowerM α} {P : α → Prop} (hm : Adds temp known m calls P)
    (h : known ⊆ known') : Adds temp known' m calls P :=
  fun σ hknown => hm σ (List.Subset.trans h hknown)

theorem Adds.and {m : LowerM α} {P Q : α → Prop} (hm : Adds temp known m calls P)
    (h : ∀ σ : LoweringState, known ⊆ σ.done → σ.Agrees temp → Q (m.run σ).1) :
    Adds temp known m calls fun a => Q a ∧ P a := by
  intro σ hknown
  obtain ⟨new, hnew, hhoisted, hP⟩ := hm σ hknown
  refine ⟨new, hnew, hhoisted, fun hagrees => ⟨h σ hknown fun entry hentry => ?_, hP hagrees⟩⟩
  exact hagrees entry (hhoisted ▸ List.mem_append_right _ hentry)

theorem adds_mapM {f : α → LowerM β} {view : α → List ExprId} {P : α → β → Prop} {l : List α}
    (hf : ∀ a ∈ l, Adds temp known (f a) (view a) (P a)) :
    Adds temp known (l.mapM f) (l.flatMap view) (List.Forall₂ P l) := by
  induction l generalizing known with
  | nil => exact adds_pure .nil
  | cons a l ih =>
      have hrest : Adds temp (view a ++ known) (l.mapM f) (l.flatMap view) (List.Forall₂ P l) :=
        ih fun b hb => (hf b (List.mem_cons_of_mem _ hb)).mono (List.subset_append_right _ _)
      rw [List.mapM_cons, List.flatMap_cons, ← List.append_nil (l.flatMap view)]
      exact adds_bind (hf a List.mem_cons_self) fun b => adds_bind hrest fun bs =>
        adds_pure fun hbs hb => .cons hb hbs

theorem adds_values {f : α → LowerM β} {P : α → β → Prop} {l : List α}
    (hf : ∀ a ∈ l, Adds temp known (f a) [] (P a)) :
    Adds temp known (l.mapM f) [] (List.Forall₂ P l) := by
  have h := adds_mapM hf
  rwa [List.flatMap_eq_nil_iff.2 fun _ _ => rfl] at h

theorem adds_option {f : α → LowerM β} {view : α → List ExprId} {P : α → β → Prop} {o : Option α}
    (hf : ∀ a ∈ o, Adds temp known (f a) (view a) (P a)) :
    Adds temp known (o.mapM f) (o.toList.flatMap view)
      fun b => List.Forall₂ P o.toList b.toList := by
  cases o with
  | none => exact adds_pure .nil
  | some a =>
      refine adds_map ?_
      rw [Option.toList_some, List.flatMap_singleton]
      exact (hf a rfl).imp fun b hb => .cons hb .nil

theorem adds_valueOption {f : α → LowerM β} {P : α → β → Prop} {o : Option α}
    (hf : ∀ a ∈ o, Adds temp known (f a) [] (P a)) :
    Adds temp known (o.mapM f) [] fun b => List.Forall₂ P o.toList b.toList := by
  have h := adds_option hf
  rwa [List.flatMap_eq_nil_iff.2 fun _ _ => rfl] at h

/-- A run that carries out nothing adds nothing. -/
theorem adds_of_gives {m : LowerM α} {P : α → Prop} (hgrows : Grows m)
    (hgives : ∀ done, Gives m done done fun _ => True)
    (h : ∀ σ : LoweringState, known ⊆ σ.done → σ.Agrees temp → P (m.run σ).1) :
    Adds temp known m [] P := by
  intro σ hknown
  have hsuffix := (hgrows σ).hoisted
  have hlength : (m.run σ).2.hoisted.length = σ.hoisted.length := by
    have hdone := congrArg List.length (hgives σ.done σ rfl).2
    simpa [LoweringState.done] using hdone
  have hhoisted := hsuffix.eq_of_length hlength.symm
  exact ⟨[], rfl, hhoisted.symm, fun hagrees => h σ hknown fun entry hentry =>
    hagrees entry (hhoisted ▸ hentry)⟩

theorem adds_lowerExpr (e : ExprId) :
    Adds temp known (s.lowerExpr s.storageFields e) [] (s.ShownFrom temp known e) :=
  adds_of_gives (grows_lowerExpr e) (fun _ => (gives_lowerExpr e).imp fun _ _ => trivial)
    fun σ hknown hagrees h => ⟨σ, fun _ hc => hagrees.lookup (hknown (h hc)), .inl rfl⟩

theorem adds_nothing (e : ExprId) : Adds temp known (s.lowerExpr buffers e) [] fun _ => True :=
  adds_of_gives (grows_lowerExpr e) (fun _ => (gives_lowerExpr e).imp fun _ _ => trivial)
    fun _ _ _ => trivial

theorem shownBy_asOperand {e : ExprId} {x : Expr} (h : s.ShownBy temp e x) :
    s.ShownBy temp e x.asOperand := by
  obtain ⟨state, hlookup, rfl | rfl⟩ := h
  · exact ⟨state, hlookup, .inr rfl⟩
  · refine ⟨state, hlookup, .inr ?_⟩
    cases ((s.lowerExpr s.storageFields e).run state).1 <;> rfl

theorem adds_hoistCall {id : ExprId} {name : String} {args : List ExprId} :
    Adds temp known (s.hoistCall buffers id name args) [id] fun t =>
      ∃ type function values, t = .atomic (temp id) type function values := by
  have hrecord (k : Nat) (t : Stmt) (known : List ExprId) : Adds temp known (do
      modify fun state : LoweringState => { state with hoisted := (id, k) :: state.hoisted }
      return t) [id] fun t' => t' = t ∧ temp id = k :=
    fun σ _ => ⟨[(id, k)], rfl, rfl, fun hagrees => ⟨rfl, hagrees (id, k) List.mem_cons_self⟩⟩
  have hfresh : Adds temp known freshTemp [] fun _ => True :=
    fun _ _ => ⟨[], rfl, rfl, fun _ => trivial⟩
  unfold Shader.hoistCall
  refine adds_bind hfresh fun k => ?_
  dsimp only
  split
  · have hterm (term : ExprId × Nat) (known : List ExprId) : Adds temp known (do
        return .binary .mul (.bytes term.2) (← s.lowerExpr buffers term.1) : LowerM Expr) []
        fun _ => True :=
      adds_bind (adds_nothing term.1) fun _ => adds_pure fun _ => trivial
    refine adds_bind (adds_values fun term _ => hterm term _) fun terms =>
      adds_bind (adds_values fun arg _ => adds_nothing arg) fun values => ?_
    refine (hrecord k _ _).imp ?_
    rintro _ ⟨rfl, rfl⟩ - - -
    exact ⟨_, _, _, rfl⟩
  · refine adds_bind (adds_values fun arg _ => adds_nothing arg) fun values => ?_
    refine (hrecord k _ _).imp ?_
    rintro _ ⟨rfl, rfl⟩ - -
    exact ⟨_, _, _, rfl⟩

theorem adds_call {id : ExprId} {name : String} {args : List ExprId} {target : Option FuncId}
    (hexpr : s.expr id = .call name args target)
    (hargs : ∀ arg ∈ args, s.atomicCalls arg ⊆ known) :
    Adds temp known (s.hoistCall s.storageFields id name args) [id] fun t =>
      List.Forall₂ (s.MetBy temp) [.carry id] t.events := by
  have hcarried (σ : LoweringState) (hknown : known ⊆ σ.done) (hagrees : σ.Agrees temp) :
      s.CarriedBy temp id ((s.hoistCall s.storageFields id name args).run σ).1 :=
    ⟨name, args, target, hexpr, σ,
      fun arg harg c hc => hagrees.lookup (hknown (hargs arg harg hc)), rfl⟩
  refine (adds_hoistCall.and hcarried).imp ?_
  rintro _ ⟨hcarried, type, function, values, rfl⟩
  exact .cons (.carry hcarried) .nil

theorem adds_hoistCalls
    (hcalls : ∀ call ∈ calls, ∃ name args target, s.expr call = .call name args target)
    (hnested : ∀ before call after, calls = before ++ call :: after →
      ∀ o ∈ (s.expr call).operands, s.atomicCalls o ⊆ before ++ known) :
    Adds temp known (calls.mapM fun call => do
      match s.expr call with
      | .call name args _ => return [← s.hoistCall s.storageFields call name args]
      | _ => return []) calls fun tss =>
        List.Forall₂ (s.MetBy temp) (calls.map .carry) (Stmt.eventsAll tss.flatten) := by
  induction calls generalizing known with
  | nil => exact adds_pure .nil
  | cons call rest ih =>
      obtain ⟨name, args, target, hexpr⟩ := hcalls call List.mem_cons_self
      have hargs : ∀ arg ∈ args, s.atomicCalls arg ⊆ known := by
        have h := hnested [] call rest rfl
        rwa [hexpr] at h
      have hbefore : ∀ before c after, rest = before ++ c :: after →
          ∀ o ∈ (s.expr c).operands, s.atomicCalls o ⊆ before ++ ([call] ++ known) := by
        intro before c after hsplit o ho c' hc'
        have hmem := hnested (call :: before) c after (by rw [hsplit]; rfl) o ho hc'
        simp only [List.mem_append, List.mem_cons, List.not_mem_nil, or_false] at hmem ⊢
        tauto
      have hfirst : Adds temp known (do
          return [← s.hoistCall s.storageFields call name args]) [call] fun ts =>
            List.Forall₂ (s.MetBy temp) [.carry call] (Stmt.eventsAll ts) := by
        have h := adds_bind (adds_call hexpr hargs) fun t => adds_pure fun ht =>
          show List.Forall₂ (s.MetBy temp) [.carry call] (Stmt.eventsAll [t]) by
            simpa [Stmt.eventsAll] using ht
        exact h
      have hrest := ih (fun c hc => hcalls c (List.mem_cons_of_mem _ hc)) hbefore
      have h := adds_bind hfirst fun ts => adds_bind hrest fun tss => adds_pure fun htss hts =>
        show List.Forall₂ (s.MetBy temp) ((call :: rest).map .carry)
            (Stmt.eventsAll (ts :: tss).flatten) by
          rw [List.flatten_cons, eventsAll_eq_flatMap, List.flatMap_append,
            ← eventsAll_eq_flatMap, ← eventsAll_eq_flatMap]
          exact List.rel_append hts htss
      rw [List.append_nil] at h
      rw [List.mapM_cons]
      simp only [hexpr]
      exact h

theorem adds_hoistAtomics (h : s.WellFormed) (e : ExprId) :
    Adds temp known (s.hoistAtomics s.storageFields e) (s.atomicCalls e) fun ts =>
      ts.isEmpty = (!s.hasAtomics e) ∧
        List.Forall₂ (s.MetBy temp) (s.carries e) (Stmt.eventsAll ts) := by
  have hcalls : ∀ call ∈ s.atomicCalls e,
      ∃ name args target, s.expr call = .call name args target :=
    fun call hcall => Shader.isCall_of_mem_atomicCallsWithin hcall
  have hnested : ∀ before call after, s.atomicCalls e = before ++ call :: after →
      ∀ o ∈ (s.expr call).operands, s.atomicCalls o ⊆ before ++ known :=
    fun before call after hsplit o ho c hc =>
      List.mem_append_left _ (h.atomicCalls_nested hsplit o ho c hc)
  have hall : Adds temp known (s.hoistAtomics s.storageFields e) (s.atomicCalls e ++ []) fun ts =>
      List.Forall₂ (s.MetBy temp) (s.carries e) (Stmt.eventsAll ts) :=
    adds_bind (adds_hoistCalls hcalls hnested) fun tss => adds_pure id
  rw [List.append_nil] at hall
  exact hall.and fun σ _ _ => (gives_hoistAtomics e σ rfl).1.1

end Hlsl

end ShaderBridge
