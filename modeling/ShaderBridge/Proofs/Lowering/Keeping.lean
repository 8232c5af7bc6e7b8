import ShaderBridge.Proofs.Lowering.Reading

namespace ShaderBridge

open Hlsl

namespace Shader

/-- Nothing but calls has been carried out. -/
def OnlyCalls (s : Shader) (done : List ExprId) : Prop :=
  ∀ call ∈ done, ∃ name args target, s.expr call = .call name args target

end Shader

namespace Hlsl

variable {s : Shader} {α β : Type}

/-- Where nothing but calls has been carried out, a computation gives a result with a property, and
carries out nothing but calls. -/
def Keeps (s : Shader) (m : LowerM α) (P : α → Prop) : Prop :=
  ∀ state : LoweringState, s.OnlyCalls state.done →
    P (m.run state).1 ∧ s.OnlyCalls (m.run state).2.done

theorem keeps_of_gives {m : LowerM α} {P : α → Prop}
    (h : ∀ done, s.OnlyCalls done → Gives m done done P) : Keeps s m P := by
  intro state hstate
  obtain ⟨hP, hdone⟩ := h _ hstate state rfl
  rw [hdone]
  exact ⟨hP, hstate⟩

theorem keeps_pure {P : α → Prop} {a : α} (h : P a) : Keeps s (pure a) P := by
  intro state hstate
  exact ⟨h, hstate⟩

theorem keeps_bind {P : α → Prop} {Q : β → Prop} {m : LowerM α} {f : α → LowerM β}
    (hm : Keeps s m P) (hf : ∀ a, P a → Keeps s (f a) Q) : Keeps s (m >>= f) Q := by
  intro state hstate
  obtain ⟨hP, hdone⟩ := hm state hstate
  exact hf _ hP _ hdone

theorem Keeps.imp {P Q : α → Prop} {m : LowerM α} (hm : Keeps s m P) (h : ∀ a, P a → Q a) :
    Keeps s m Q := by
  intro state hstate
  obtain ⟨hP, hdone⟩ := hm state hstate
  exact ⟨h _ hP, hdone⟩

theorem Keeps.and {P Q : α → Prop} {m : LowerM α} (hP : Keeps s m P) (hQ : Keeps s m Q) :
    Keeps s m fun a => P a ∧ Q a := by
  intro state hstate
  exact ⟨⟨(hP state hstate).1, (hQ state hstate).1⟩, (hP state hstate).2⟩

theorem keeps_mapM {l : List α} {f : α → LowerM β} {P : α → β → Prop}
    (hf : ∀ a ∈ l, Keeps s (f a) (P a)) : Keeps s (l.mapM f) (List.Forall₂ P l) := by
  induction l with
  | nil => exact keeps_pure .nil
  | cons a rest ih =>
      rw [List.mapM_cons]
      apply keeps_bind (hf a List.mem_cons_self)
      intro b hb
      apply keeps_bind (ih fun a ha => hf a (List.mem_cons_of_mem _ ha))
      intro bs hbs
      exact keeps_pure (.cons hb hbs)

theorem keeps_option {o : Option α} {f : α → LowerM β} {P : α → β → Prop}
    (hf : ∀ a, Keeps s (f a) (P a)) :
    Keeps s (o.mapM f) fun b => List.Forall₂ P o.toList b.toList := by
  cases o with
  | none => exact keeps_pure .nil
  | some a =>
      intro state hstate
      obtain ⟨hP, hdone⟩ := hf a state hstate
      exact ⟨.cons hP .nil, hdone⟩

/-- At some sites there are no stores, and if some expressions are quiet, the sites only read. -/
structure ReadsAt (s : Shader) (l : List ExprId) (Q : List (Site Expr)) : Prop where
  stores_eq : Q.filterMap storeAt? = []
  tidy : (∀ e ∈ l, s.Quiet e) → ∀ q ∈ Q, isTidy q

theorem readsAt_nil (l : List ExprId) : ReadsAt s l [] :=
  ⟨rfl, fun _ => List.forall_mem_nil _⟩

theorem ReadsAt.append {l l' : List ExprId} {Q Q' : List (Site Expr)} (h : ReadsAt s l Q)
    (h' : ReadsAt s l' Q') : ReadsAt s (l ++ l') (Q ++ Q') := by
  constructor
  · rw [List.filterMap_append, h.stores_eq, h'.stores_eq]
    rfl
  · intro hquiet q hq
    rcases List.mem_append.1 hq with hq | hq
    · exact h.tidy (fun e he => hquiet e (List.mem_append_left _ he)) q hq
    · exact h'.tidy (fun e he => hquiet e (List.mem_append_right _ he)) q hq

theorem ReadsAt.imp {l l' : List ExprId} {Q : List (Site Expr)} (h : ReadsAt s l Q)
    (hl : (∀ e ∈ l', s.Quiet e) → ∀ e ∈ l, s.Quiet e) : ReadsAt s l' Q :=
  ⟨h.stores_eq, fun hquiet => h.tidy (hl hquiet)⟩

/-- Several sites may depend on the same expressions. -/
theorem ReadsAt.join {l : List ExprId} {Q Q' : List (Site Expr)} (h : ReadsAt s l Q)
    (h' : ReadsAt s l Q') : ReadsAt s l (Q ++ Q') := by
  apply (h.append h').imp
  intro hquiet e he
  rcases List.mem_append.1 he with he | he
  · exact hquiet e he
  · exact hquiet e he

theorem readsAt_inside {e : ExprId} {x : Expr} (h : s.Quiet e → x.onlyReads) :
    ReadsAt s [e] [.inside x] := by
  constructor
  · rfl
  · intro hquiet q hq
    rw [List.mem_singleton.1 hq]
    exact h (hquiet e (List.mem_singleton_self e))

theorem readsAt_flatMap {l : List α} {l' : List β} {f : α → List ExprId}
    {g : β → List (Site Expr)} (h : List.Forall₂ (fun a b => ReadsAt s (f a) (g b)) l l') :
    ReadsAt s (l.flatMap f) (l'.flatMap g) := by
  induction h with
  | nil => exact readsAt_nil _
  | cons hab _ ih =>
      rw [List.flatMap_cons, List.flatMap_cons]
      exact hab.append ih

theorem gives_onlyReads {depth : Nat} (hdepth : depth ≤ s.exprs.size + 1) (done : List ExprId)
    (e : ExprId) :
    Gives (s.lowerWithin s.storageFields depth e) done done fun x => s.Quiet e → x.onlyReads := by
  have hwrites : Gives (s.lowerWithin s.storageFields depth e) done done fun x =>
      x.writes Expr.isLoaded =
        s.writesWithin s.storageFields (s.loadedWithin s.storageFields done) done depth e :=
    gives_lowerWithin (fun depth e state hstate => (gives_isLoaded depth e state hstate).1.1)
      depth e
  apply hwrites.imp
  intro x hx hquiet
  unfold Expr.onlyReads
  rw [hx, Shader.writesWithin_of_quiet hdepth hquiet]
  rfl

theorem keeps_lowerExpr (e : ExprId) :
    Keeps s (s.lowerExpr s.storageFields e) fun x => s.Quiet e → x.onlyReads :=
  keeps_of_gives fun done _ => gives_onlyReads (Nat.le_refl _) done e

theorem onlyReads_binary {op : BinaryOp} {a b : Expr} (ha : a.onlyReads) (hb : b.onlyReads) :
    (Expr.binary op a b).onlyReads := by
  unfold Expr.onlyReads at ha hb ⊢
  rw [Expr.writes]
  simp only [Bool.not_eq_true', Bool.or_eq_false_iff] at ha hb ⊢
  exact ⟨ha, hb⟩

/-- A statement carries out an atomic call, whose arguments only read if the call is quiet. -/
def CarriesOut (s : Shader) (call : ExprId) (t : Stmt) : Prop :=
  ∃ temp type function args, t = .atomic temp type function args ∧
    (s.Quiet call → ∀ x ∈ args, x.onlyReads)

theorem onlyReads_of_forall₂ {l : List α} {xs : List Expr} {key : α → ExprId}
    (h : List.Forall₂ (fun a x => s.Quiet (key a) → x.onlyReads) l xs)
    (hquiet : ∀ a ∈ l, s.Quiet (key a)) : ∀ x ∈ xs, x.onlyReads := by
  induction h with
  | nil => simp
  | cons hx _ ih =>
      exact List.forall_mem_cons.2 ⟨hx (hquiet _ List.mem_cons_self),
        ih fun a ha => hquiet a (List.mem_cons_of_mem _ ha)⟩

theorem onlyReads_atomicAddress {terms : List Expr} (h : ∀ x ∈ terms, x.onlyReads)
    (offset : Nat) : (Shader.atomicAddress terms offset).onlyReads :=
  atomicAddress_of_terms (fun _ => rfl) (fun _ _ _ => onlyReads_binary) h offset

theorem keeps_hoistCall {call : ExprId} {name : String} {args : List ExprId}
    {target : Option FuncId} (hcall : s.expr call = .call name args target) :
    Keeps s (s.hoistCall s.storageFields call name args) (CarriesOut s call) := by
  have harg (hquiet : s.Quiet call) : ∀ arg ∈ args, s.Quiet arg := by
    intro arg harg
    apply hquiet.operand
    rw [hcall]
    exact harg
  unfold Shader.hoistCall
  apply keeps_bind (P := fun _ => True) (keeps_of_gives fun _ _ => gives_freshTemp)
  intro temp _
  have hrecord {t : Stmt} (ht : CarriesOut s call t) :
      Keeps s (do
        modify fun state : LoweringState => { state with hoisted := (call, temp) :: state.hoisted }
        return t) (CarriesOut s call) := by
    intro state hstate
    refine ⟨ht, List.forall_mem_cons.2 ⟨⟨name, args, target, hcall⟩, hstate⟩⟩
  dsimp only
  cases haccess : args.head?.bind (s.access? s.storageFields) with
  | none =>
      apply keeps_bind (keeps_mapM fun arg _ => keeps_lowerExpr arg)
      intro values hvalues
      apply hrecord
      exact ⟨temp, _, _, values, rfl, fun hquiet => onlyReads_of_forall₂ hvalues (harg hquiet)⟩
  | some access =>
      obtain ⟨first, hfirst, haccess⟩ := Option.bind_eq_some_iff.1 haccess
      have hmem : first ∈ args := List.mem_of_head? hfirst
      apply keeps_bind
        (P := List.Forall₂ (fun term x => s.Quiet term.1 → x.onlyReads) access.terms)
      · apply keeps_mapM
        intro term _
        apply keeps_bind (keeps_lowerExpr term.1)
        intro x hx
        exact keeps_pure fun hquiet => by simpa [Expr.onlyReads, Expr.writes] using hx hquiet
      intro terms hterms
      apply keeps_bind (keeps_mapM fun arg _ => keeps_lowerExpr arg)
      intro values hvalues
      apply hrecord
      refine ⟨temp, _, _, _, rfl, fun hquiet => List.forall_mem_cons.2 ⟨?_, ?_⟩⟩
      · apply onlyReads_atomicAddress
        apply onlyReads_of_forall₂ hterms
        intro term hterm
        obtain ⟨level, hholds⟩ := Shader.holds_of_mem_terms haccess hterm
        exact (harg hquiet first hmem).of_holds hholds
      · apply onlyReads_of_forall₂ hvalues
        intro arg htail
        exact harg hquiet arg (List.mem_of_mem_tail htail)

theorem sitesAll_eq_flatMap (ts : List Stmt) : Stmt.sitesAll ts = ts.flatMap Stmt.sites := by
  induction ts with
  | nil => rfl
  | cons t rest ih => rw [Stmt.sitesAll, ih, List.flatMap_cons]

theorem sitesAll_append (a b : List Stmt) :
    Stmt.sitesAll (a ++ b) = Stmt.sitesAll a ++ Stmt.sitesAll b := by
  simp only [sitesAll_eq_flatMap, List.flatMap_append]

theorem sitesAll_flatten (ts : List (List Stmt)) :
    Stmt.sitesAll ts.flatten = ts.flatMap Stmt.sitesAll := by
  induction ts with
  | nil => rfl
  | cons t rest ih => rw [List.flatten_cons, sitesAll_append, ih, List.flatMap_cons]

theorem CarriesOut.readsAt {call : ExprId} {t : Stmt} (h : CarriesOut s call t) :
    ReadsAt s [call] t.sites := by
  obtain ⟨temp, type, function, args, rfl, hargs⟩ := h
  constructor
  · rw [Stmt.sites, List.filterMap_map, List.filterMap_eq_nil_iff]
    intro x _
    rfl
  · intro hquiet q hq
    obtain ⟨x, hx, rfl⟩ := List.mem_map.1 hq
    exact hargs (hquiet call (List.mem_singleton_self call)) x hx

theorem keeps_hoistAtomics (e : ExprId) :
    Keeps s (s.hoistAtomics s.storageFields e) fun calls =>
      ReadsAt s (s.atomicCalls e) (Stmt.sitesAll calls) := by
  unfold Shader.hoistAtomics
  apply keeps_bind
    (P := List.Forall₂ (fun call ts => ReadsAt s [call] (Stmt.sitesAll ts)) (s.atomicCalls e))
  · apply keeps_mapM
    intro call hmem
    obtain ⟨name, args, target, hcall⟩ := Shader.isCall_of_mem_atomicCallsWithin hmem
    simp only [hcall]
    apply keeps_bind (keeps_hoistCall hcall)
    intro t ht
    apply keeps_pure
    rw [Stmt.sitesAll, Stmt.sitesAll, List.append_nil]
    exact ht.readsAt
  intro ts hts
  apply keeps_pure
  have hreads := readsAt_flatMap hts
  rw [List.flatMap_singleton'] at hreads
  rw [sitesAll_flatten]
  exact hreads

theorem readsAt_map {l : List ExprId} {xs : List Expr}
    (h : List.Forall₂ (fun e x => s.Quiet e → x.onlyReads) l xs) :
    ReadsAt s l (xs.map .inside) := by
  induction h with
  | nil => exact readsAt_nil _
  | cons hx _ ih => exact (readsAt_inside hx).append ih

theorem keeps_lowerOption (o : Option ExprId) :
    Keeps s (o.mapM (s.lowerExpr s.storageFields)) fun x =>
      ReadsAt s o.toList (x.toList.map .inside) :=
  (keeps_option keeps_lowerExpr).imp fun _ => readsAt_map

theorem keeps_lowerDeclarator (v : VarId) :
    Keeps s (s.lowerDeclarator s.storageFields v) fun d =>
      ReadsAt s (s.declaratorExprs v) (d.exprs.map .inside) := by
  unfold Shader.lowerDeclarator
  have hdims : Keeps s (s.lowerDims s.storageFields (s.var v).dims) (List.Forall₂
      (fun dim x => ReadsAt s dim.toList (x.toList.map .inside)) (s.var v).dims) :=
    keeps_mapM fun dim _ => keeps_lowerOption dim
  apply keeps_bind hdims
  intro dims hdims
  apply keeps_bind (keeps_lowerOption (s.var v).initial?)
  intro initial hinitial
  apply keeps_pure
  rw [Declarator.exprs, List.map_append, List.map_flatMap]
  exact (readsAt_flatMap hdims).append hinitial

theorem keeps_lowerHeader (id : StmtId) :
    Keeps s (s.lowerHeader s.storageFields id) fun header =>
      ReadsAt s (s.headerExprs id) (header.exprs.map .inside) := by
  unfold Shader.lowerHeader Shader.headerExprs
  cases s.stmt id with
  | declaration vars =>
      apply keeps_bind (keeps_mapM fun v _ => keeps_lowerDeclarator v)
      intro ds hds
      apply keeps_pure
      rw [Header.exprs, List.map_flatMap]
      exact readsAt_flatMap hds
  | expression e =>
      apply keeps_bind (keeps_lowerExpr e)
      intro x hx
      exact keeps_pure (readsAt_inside hx)
  | _ => exact keeps_pure (readsAt_nil _)

theorem keeps_lowerStart (start : Option StmtId) :
    Keeps s (s.lowerStart s.storageFields start) fun header =>
      ReadsAt s (start.toList.flatMap s.headerExprs) (header.exprs.map .inside) := by
  cases start with
  | none => exact keeps_pure (readsAt_nil _)
  | some id =>
      rw [Option.toList_some, List.flatMap_singleton]
      exact keeps_lowerHeader id

end Hlsl

end ShaderBridge
