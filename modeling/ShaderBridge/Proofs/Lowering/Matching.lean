import ShaderBridge.Proofs.Lowering.Keeping

namespace ShaderBridge

open Hlsl

namespace Hlsl

variable {s : Shader}

/-- The writes at sites of the source and the stores at sites of a program belong together. -/
structure Matches (s : Shader) (P : List (Site ExprId)) (Q : List (Site Expr)) : Prop where
  length_le : (Q.filterMap storeAt?).length ≤ (s.writesAt P).length
  settled_iff : (∀ site ∈ P, s.Settled site) ↔
    List.Forall₂ s.StoredBy (s.writesAt P) (Q.filterMap storeAt?) ∧ ∀ site ∈ Q, isTidy site

theorem forall₂_append_iff {α β : Type} {R : α → β → Prop} {a b : List α} {c d : List β}
    (hac : c.length ≤ a.length) (hbd : d.length ≤ b.length) :
    List.Forall₂ R (a ++ b) (c ++ d) ↔ List.Forall₂ R a c ∧ List.Forall₂ R b d := by
  constructor
  · intro h
    have hlength := h.length_eq
    rw [List.length_append, List.length_append] at hlength
    have heq : a.length = c.length := by omega
    have htake := List.forall₂_take_append _ c d h
    have hdrop := List.forall₂_drop_append _ c d h
    rw [← heq, List.take_left] at htake
    rw [← heq, List.drop_left] at hdrop
    exact ⟨htake, hdrop⟩
  · rintro ⟨h, h'⟩
    exact List.rel_append h h'

theorem matches_nil : Matches s [] [] :=
  ⟨Nat.le_refl 0, by simp [Shader.writesAt]⟩

theorem Matches.append {P P' : List (Site ExprId)} {Q Q' : List (Site Expr)}
    (h : Matches s P Q) (h' : Matches s P' Q') : Matches s (P ++ P') (Q ++ Q') := by
  have hwrites : s.writesAt (P ++ P') = s.writesAt P ++ s.writesAt P' := List.flatMap_append
  constructor
  · rw [hwrites, List.filterMap_append, List.length_append, List.length_append]
    exact Nat.add_le_add h.length_le h'.length_le
  · rw [hwrites, List.filterMap_append, forall₂_append_iff h.length_le h'.length_le,
      List.forall_mem_append, List.forall_mem_append, h.settled_iff, h'.settled_iff]
    exact and_and_and_comm

theorem matches_flatMap {α β : Type} {l : List α} {l' : List β} {f : α → List (Site ExprId)}
    {g : β → List (Site Expr)} (h : List.Forall₂ (fun a b => Matches s (f a) (g b)) l l') :
    Matches s (l.flatMap f) (l'.flatMap g) := by
  induction h with
  | nil => exact matches_nil
  | cons hab _ ih => exact hab.append ih

theorem ReadsAt.matches_of_settled {l : List ExprId} {P : List (Site ExprId)}
    {Q : List (Site Expr)} (h : ReadsAt s l Q)
    (hwrites : s.writesAt P = [] ↔ ∀ e ∈ l, s.Quiet e)
    (hsettled : (∀ site ∈ P, s.Settled site) ↔ ∀ e ∈ l, s.Quiet e) : Matches s P Q := by
  constructor
  · rw [h.stores_eq]
    exact Nat.zero_le _
  · rw [h.stores_eq, List.forall₂_nil_right_iff, hwrites, hsettled]
    constructor
    · intro hquiet
      exact ⟨hquiet, h.tidy hquiet⟩
    · rintro ⟨hquiet, _⟩
      exact hquiet

theorem ReadsAt.matches {l : List ExprId} {Q : List (Site Expr)} (h : ReadsAt s l Q) :
    Matches s (l.map .inside) Q := by
  apply h.matches_of_settled
  · simp [Shader.writesAt, Site.expr, Shader.writesIn_eq_nil_iff]
  · simp [Shader.Settled, Shader.writesIn_eq_nil_iff]

theorem storedBy_iff {w left right : ExprId} {op : AssignOp} {a : Access} {temp : Nat}
    {type path : String} {value : Expr} {indices : List Expr}
    (hexpr : s.expr w = .assign op left right) (haccess : s.access? s.storageFields left = some a)
    (hindices : List.Forall₂ (fun term => s.LoweredTo term.1) a.terms indices) :
    s.StoredBy w (.store temp type value (a.expr indices) a.buffer.resource
      (s.leaves (s.storedType left) [] path 0).leaves) ↔ s.Reaches left a := by
  have hwritten : s.written? w = some left := by
    unfold Shader.written?
    rw [hexpr]
  have hcovers_iff (b : Nat) :
      (∃ leaf ∈ (s.leaves (s.storedType left) [] path 0).leaves, leaf.Covers b) ↔
        b < s.sizeOfType (s.storedType left) := by
    rw [s.exists_covers_leaves]
    simp [Shader.elementCount]
  constructor
  · rintro ⟨target, a', temp', type', value', indices', leaves, htarget, ha', hstore, _, hcovers⟩
    rw [hwritten, Option.some.injEq] at htarget
    subst htarget
    rw [haccess, Option.some.injEq] at ha'
    subst ha'
    injection hstore with _ _ _ _ _ hleaves
    intro value hvalue r hr
    obtain ⟨hresource, hbytes⟩ := hcovers value hvalue r hr
    refine ⟨hresource, fun p hp => ?_⟩
    obtain ⟨leaf, hleaf, b, hb, hplace⟩ := hbytes p hp
    rw [← hleaves] at hleaf
    exact ⟨b, (hcovers_iff b).1 ⟨leaf, hleaf, hb⟩, hplace⟩
  · intro hreaches
    refine ⟨left, a, temp, type, value, indices, _, hwritten, haccess, rfl, hindices, ?_⟩
    intro value hvalue r hr
    obtain ⟨hresource, hbytes⟩ := hreaches value hvalue r hr
    refine ⟨hresource, fun p hp => ?_⟩
    obtain ⟨b, hb, hplace⟩ := hbytes p hp
    obtain ⟨leaf, hleaf, hcovers⟩ := (hcovers_iff b).2 hb
    exact ⟨leaf, hleaf, b, hcovers, hplace⟩

theorem onlyReads_address {a : Access} {indices : List Expr} (h : ∀ x ∈ indices, x.onlyReads) :
    (a.expr indices).onlyReads :=
  Access.expr_of_indices (fun _ => rfl) (fun _ _ _ => onlyReads_binary) h

theorem gives_lowerExpr_store {e left right : ExprId} {op : AssignOp} {a : Access}
    {done : List ExprId} {P : ExprId → Expr → Prop} (hexpr : s.expr e = .assign op left right)
    (haccess : s.access? s.storageFields left = some a) (he : e ∉ done)
    (hlower : ∀ id ∈ left :: right :: a.terms.map Prod.fst,
      Gives (s.lowerWithin s.storageFields s.exprs.size id) done done (P id)) :
    Gives (s.lowerExpr s.storageFields e) done done fun x =>
      ∃ temp type value indices, x = .store temp type value (a.expr indices) a.buffer.resource
          (s.leaves (s.storedType left) [] (tempName temp) 0).leaves ∧
        List.Forall₂ (fun term => P term.1) a.terms indices ∧
        (op.binary? = none ∧ P right value ∨ ∃ binary l r, op.binary? = some binary ∧
          value = .group (.binary binary l r) ∧ P left l ∧ P right r) := by
  have hlowered {o : ExprId} (ho : o ∈ s.lowered s.storageFields e) :
      o ∈ left :: right :: a.terms.map Prod.fst := by
    simp only [Shader.lowered, hexpr, haccess] at ho
    rcases List.mem_append.1 ho with ho | ho
    · simp_all
    · exact List.mem_cons_of_mem _ ho
  refine gives_of_forms (fun o ho => hlower o (hlowered ho)) (fun hdone _ => ?_)
    fun _ _ os xs x hxs hforms => ?_
  · exact absurd (List.contains_iff_mem.1 hdone) he
  · cases hforms with
    | store value indices hexpr' haccess' hop =>
        cases hexpr.symm.trans hexpr'
        cases haccess.symm.trans haccess'
        obtain _ | ⟨hvalue, hindices⟩ := hxs
        exact ⟨_, _, value, indices, rfl, List.forall₂_map_left_iff.1 hindices,
          .inl ⟨hop, hvalue⟩⟩
    | update l r indices hexpr' haccess' hop =>
        cases hexpr.symm.trans hexpr'
        cases haccess.symm.trans haccess'
        obtain _ | ⟨hl, _ | ⟨hr, hindices⟩⟩ := hxs
        exact ⟨_, _, _, indices, rfl, List.forall₂_map_left_iff.1 hindices,
          .inr ⟨_, l, r, hop, rfl, hl, hr⟩⟩
    | _ => simp_all

theorem keeps_lowerExpr_store {e left right : ExprId} {op : AssignOp} {a : Access}
    (hexpr : s.expr e = .assign op left right)
    (haccess : s.access? s.storageFields left = some a) :
    Keeps s (s.lowerExpr s.storageFields e) fun x =>
      ∃ temp type value indices, x = .store temp type value (a.expr indices) a.buffer.resource
          (s.leaves (s.storedType left) [] (tempName temp) 0).leaves ∧
        List.Forall₂ (fun term => s.LoweredTo term.1) a.terms indices ∧
        ((∀ o ∈ (s.expr e).operands, s.Quiet o) →
          value.onlyReads ∧ (a.expr indices).onlyReads) := by
  apply keeps_of_gives
  intro done hdone
  have hnone : e ∉ done := by
    intro hmem
    obtain ⟨name, args, target, hcall⟩ := hdone e hmem
    rw [hexpr] at hcall
    cases hcall
  have hlower (id : ExprId) : Gives (s.lowerWithin s.storageFields s.exprs.size id) done done
      fun x => s.LoweredTo id x ∧ (s.Quiet id → x.onlyReads) :=
    (gives_onlyReads (Nat.le_succ _) done id).and fun state _ => ⟨state, rfl⟩
  apply (gives_lowerExpr_store hexpr haccess hnone fun id _ => hlower id).imp
  rintro x ⟨temp, type, value, indices, rfl, hindices, hvalue⟩
  refine ⟨temp, type, value, indices, rfl, hindices.imp fun _ _ h => h.1, fun hquiet => ?_⟩
  have hleft : s.Quiet left := hquiet left (by simp [hexpr, Expr.operands])
  have hright : s.Quiet right := hquiet right (by simp [hexpr, Expr.operands])
  constructor
  · rcases hvalue with ⟨_, hvalue⟩ | ⟨binary, l, r, _, rfl, hl, hr⟩
    · exact hvalue.2 hright
    · simpa [Expr.onlyReads, Expr.writes] using And.intro (hl.2 hleft) (hr.2 hright)
  · apply onlyReads_address
    apply onlyReads_of_forall₂ (hindices.imp fun _ _ h => h.2)
    intro term hterm
    obtain ⟨level, hholds⟩ := Shader.holds_of_mem_terms haccess hterm
    exact hleft.of_holds hholds

theorem sites_behind (calls : List Stmt) (t : Stmt) :
    (Shader.behind calls t).sites = Stmt.sitesAll calls ++ t.sites := by
  unfold Shader.behind
  cases calls with
  | nil => rfl
  | cons call rest =>
      rw [List.isEmpty_cons]
      simp only [Bool.false_eq_true, if_false, Stmt.sites, sitesAll_append, Stmt.sitesAll,
        List.append_nil]

theorem ReadsAt.of_calls {e : ExprId} {Q : List (Site Expr)} (h : ReadsAt s (s.atomicCalls e) Q) :
    ReadsAt s [e] Q := by
  apply h.imp
  intro hquiet call hcall
  obtain ⟨level, hholds⟩ := Shader.holds_of_mem_atomicCallsWithin hcall
  exact (hquiet e (List.mem_singleton_self e)).of_holds hholds

theorem ReadsAt.of_assign {e left right : ExprId} {op : AssignOp} {Q : List (Site Expr)}
    (hexpr : s.expr e = .assign op left right) (h : ReadsAt s (s.atomicCalls e) Q) :
    ReadsAt s (s.expr e).operands Q := by
  apply h.imp
  intro hquiet call hcall
  obtain ⟨level, hholds⟩ := Shader.holds_of_mem_atomicCallsWithin hcall
  cases hholds with
  | here =>
      obtain ⟨name, args, target, hself⟩ := Shader.isCall_of_mem_atomicCallsWithin hcall
      rw [hexpr] at hself
      cases hself
  | operand ho hholds => exact (hquiet _ ho).of_holds hholds

theorem readsAt_statement {e : ExprId} {x : Expr} (hstore : x.isStore = false)
    (h : s.Quiet e → x.onlyReads) : ReadsAt s [e] [.statement x] := by
  constructor
  · cases x <;> first | rfl | cases hstore
  · intro hquiet q hq
    rw [List.mem_singleton.1 hq]
    have hreads := h (hquiet e (List.mem_singleton_self e))
    cases x <;> first | exact hreads | cases hstore

theorem matches_statement {e : ExprId} {Q : List (Site Expr)} (h : ReadsAt s [e] Q)
    (hstored : ¬s.isStored s.storageFields e) : Matches s [.statement e] Q := by
  have hnone : ¬∃ op left right a, s.expr e = .assign op left right ∧
      s.access? s.storageFields left = some a ∧ s.Reaches left a := by
    rintro ⟨op, left, right, a, hexpr, haccess, _⟩
    exact hstored (Shader.isStored_iff.2 ⟨op, left, right, a, hexpr, haccess⟩)
  apply h.matches_of_settled
  · simp [Shader.writesAt, Site.expr, Shader.writesIn_eq_nil_iff]
  · rw [List.forall_mem_singleton, List.forall_mem_singleton, Shader.Settled,
      or_iff_left fun h => hnone h.2, Shader.writesIn_eq_nil_iff]

theorem matches_store {e left right : ExprId} {op : AssignOp} {a : Access} {calls : List Stmt}
    {temp : Nat} {type path : String} {value : Expr} {indices : List Expr}
    (hexpr : s.expr e = .assign op left right) (haccess : s.access? s.storageFields left = some a)
    (hindices : List.Forall₂ (fun term => s.LoweredTo term.1) a.terms indices)
    (hreads : (∀ o ∈ (s.expr e).operands, s.Quiet o) →
      value.onlyReads ∧ (a.expr indices).onlyReads)
    (hcalls : ReadsAt s (s.expr e).operands (Stmt.sitesAll calls)) :
    Matches s [.statement e] (Stmt.sitesAll calls ++ [.statement (.store temp type value
      (a.expr indices) a.buffer.resource (s.leaves (s.storedType left) [] path 0).leaves)]) := by
  have hwrite : s.isWrite e := by
    apply Shader.isWrite_of_written? (o := left)
    · unfold Shader.written?
      rw [hexpr]
    · apply Shader.namesFieldWithin_of_access
      exact Option.isSome_of_eq_some haccess
  have hcarried : s.StoredBy e (.store temp type value (a.expr indices) a.buffer.resource
      (s.leaves (s.storedType left) [] path 0).leaves) ↔ s.Reaches left a :=
    storedBy_iff hexpr haccess hindices
  obtain ⟨rest, hwrites⟩ : ∃ rest, s.writesIn e = e :: rest := by
    rw [Shader.writesIn_eq, if_pos hwrite]
    exact ⟨_, rfl⟩
  -- The calls ahead are atomic and store nothing, so the statement is the one store of the sites.
  have hstores : (Stmt.sitesAll calls ++ [Site.statement (Expr.store temp type value
      (a.expr indices) a.buffer.resource
      (s.leaves (s.storedType left) [] path 0).leaves)]).filterMap storeAt? =
        [.store temp type value (a.expr indices) a.buffer.resource
          (s.leaves (s.storedType left) [] path 0).leaves] := by
    rw [List.filterMap_append, hcalls.stores_eq]
    rfl
  have hat : s.writesAt [.statement e] = s.writesIn e := by simp [Shader.writesAt, Site.expr]
  constructor
  · rw [hstores, hat, hwrites]
    simp
  · rw [hstores, hat, List.forall_mem_singleton]
    constructor
    · rintro (hnone | ⟨honly, op', left', right', a', hexpr', haccess', hreaches⟩)
      · rw [hwrites] at hnone
        cases hnone
      · rw [hexpr] at hexpr'
        cases hexpr'
        rw [haccess] at haccess'
        cases haccess'
        have hquiet := (Shader.writesIn_eq_self_iff hwrite).1 honly
        rw [honly]
        refine ⟨.cons (hcarried.2 hreaches) .nil, ?_⟩
        intro q hq
        rcases List.mem_append.1 hq with hq | hq
        · exact hcalls.tidy hquiet q hq
        · rw [List.mem_singleton.1 hq]
          simpa [isTidy] using hreads hquiet
    · rintro ⟨hstored, _⟩
      rw [hwrites] at hstored
      cases hstored with
      | cons hstored hrest =>
          cases hrest
          exact .inr ⟨hwrites, op, left, right, a, hexpr, haccess, hcarried.1 hstored⟩

theorem keeps_statement (e : ExprId) :
    Keeps s (do
      let calls ← s.hoistAtomics s.storageFields e
      return Shader.behind calls (.expression (← s.lowerExpr s.storageFields e)))
      fun t => Matches s [.statement e] t.sites := by
  apply keeps_bind (keeps_hoistAtomics e)
  intro calls hcalls
  by_cases hstored : s.isStored s.storageFields e
  · obtain ⟨op, left, right, a, hexpr, haccess⟩ := Shader.isStored_iff.1 hstored
    apply keeps_bind (keeps_lowerExpr_store hexpr haccess)
    rintro x ⟨temp, type, value, indices, rfl, hindices, hreads⟩
    apply keeps_pure
    rw [sites_behind]
    exact matches_store hexpr haccess hindices hreads (hcalls.of_assign hexpr)
  · have hshape : Keeps s (s.lowerExpr s.storageFields e) fun x =>
        x.isStore → s.isStored s.storageFields e :=
      keeps_of_gives fun done _ => (gives_isLoaded _ e).imp fun _ h => h.2
    apply keeps_bind ((keeps_lowerExpr e).and hshape)
    rintro x ⟨hx, hstore⟩
    apply keeps_pure
    rw [sites_behind]
    apply matches_statement _ hstored
    exact hcalls.of_calls.join (readsAt_statement (Bool.not_eq_true _ ▸ mt hstore hstored) hx)

end Hlsl

end ShaderBridge
