import ShaderBridge.Proofs.Lowering.Duties
import ShaderBridge.Proofs.Lowering.Growing

namespace ShaderBridge

namespace Hlsl

attribute [local simp] Expr.temps Expr.tempsAll Event.temps Event.inBody Stmt.events Stmt.eventsAll

variable {α β : Type} {s : Shader} {buffers : List ByteBuffer} {used : List Nat}

/-- Next to the temporaries that have been declared before, a computation declares new ones, no two
of them the same. -/
def Takes (used : List Nat) (m : LowerM α) (declared : α → List Nat) : Prop :=
  ∀ σ : LoweringState, used.Nodup → (∀ k ∈ used, k < σ.temps) →
    (declared (m.run σ).1).Nodup ∧ ∀ k ∈ declared (m.run σ).1, k < (m.run σ).2.temps

theorem takes_pure {a : α} {declared : α → List Nat} (h : (declared a).Perm used) :
    Takes used (pure a) declared :=
  fun _ hnodup hlt => ⟨h.nodup_iff.2 hnodup, fun k hk => hlt k (h.mem_iff.1 hk)⟩

theorem takes_bind_of {P : α → Prop} {m : LowerM α} {f : α → LowerM β} {declared : α → List Nat}
    {declared' : β → List Nat} (hm : Takes used m declared) (hP : ∀ σ, P (m.run σ).1)
    (hf : ∀ a, P a → Takes (declared a) (f a) declared') : Takes used (m >>= f) declared' := by
  intro σ hnodup hlt
  obtain ⟨hnodup', hlt'⟩ := hm σ hnodup hlt
  exact hf _ (hP σ) _ hnodup' hlt'

theorem takes_bind {m : LowerM α} {f : α → LowerM β} {declared : α → List Nat}
    {declared' : β → List Nat} (hm : Takes used m declared)
    (hf : ∀ a, Takes (declared a) (f a) declared') : Takes used (m >>= f) declared' :=
  takes_bind_of (P := fun _ => True) hm (fun _ => trivial) fun a _ => hf a

theorem takes_map {m : LowerM α} {f : α → β} {declared : β → List Nat}
    (hm : Takes used m fun a => declared (f a)) : Takes used (f <$> m) declared :=
  fun σ hnodup hlt => hm σ hnodup hlt

theorem takes_get {f : LoweringState → LowerM α} {declared : α → List Nat}
    (hf : ∀ σ, Takes used (f σ) declared) : Takes used (get >>= f) declared :=
  fun σ hnodup hlt => hf σ σ hnodup hlt

theorem takes_freshTemp : Takes used freshTemp fun k => k :: used := by
  intro σ hnodup hlt
  refine ⟨List.nodup_cons.2 ⟨fun hmem => Nat.lt_irrefl _ (hlt _ hmem), hnodup⟩, ?_⟩
  exact List.forall_mem_cons.2 ⟨Nat.lt_succ_self _, fun k hk => Nat.lt_succ_of_lt (hlt k hk)⟩

theorem Takes.sublist {m : LowerM α} {declared declared' : α → List Nat}
    (h : Takes used m declared) (hsub : ∀ a, (declared' a).Sublist (declared a)) :
    Takes used m declared' := by
  intro σ hnodup hlt
  obtain ⟨hnodup', hlt'⟩ := h σ hnodup hlt
  exact ⟨hnodup'.sublist (hsub _), fun k hk => hlt' k ((hsub _).subset hk)⟩

theorem takes_mapM {f : α → LowerM β} {declared : β → List Nat}
    (hf : ∀ a used, Takes used (f a) fun b => declared b ++ used) (l : List α) :
    Takes used (l.mapM f) fun bs => bs.flatMap declared ++ used := by
  induction l generalizing used with
  | nil => exact takes_pure (List.Perm.refl _)
  | cons a l ih =>
      rw [List.mapM_cons]
      refine takes_bind (hf a used) fun b => takes_bind ih fun bs => takes_pure ?_
      rw [List.flatMap_cons, List.append_assoc]
      exact List.perm_append_comm_assoc _ _ _

theorem takes_option {f : α → LowerM β} {declared : β → List Nat}
    (hf : ∀ a used, Takes used (f a) fun b => declared b ++ used) (o : Option α) :
    Takes used (o.mapM f) fun b => b.toList.flatMap declared ++ used := by
  cases o with
  | none => exact takes_pure (List.Perm.refl _)
  | some a =>
      refine takes_map ?_
      simpa using hf a used

theorem tempsAll_eq_flatMap (es : List Expr) : Expr.tempsAll es = es.flatMap Expr.temps := by
  induction es with
  | nil => rfl
  | cons e es ih => rw [Expr.tempsAll, ih, List.flatMap_cons]

theorem temps_asOperand (e : Expr) : e.asOperand.temps = e.temps := by
  cases e <;> rfl

/-! ### Expressions -/

theorem temps_of_passes {args os : List ExprId} {xs ys : List Expr} (h : s.Passes args os xs ys) :
    Expr.tempsAll ys = xs.flatMap Expr.temps := by
  induction h with
  | nil => rfl
  | plain _ _ ih => simp [ih]
  | whole _ _ ih => simp [ih]
  | element _ _ ih => simp [ih]

theorem temps_of_forms {temp : Nat} {e : ExprId} {os : List ExprId} {xs : List Expr} {x : Expr}
    (h : s.Forms buffers e temp os xs x) : x.temps.Perm
      (xs.flatMap Expr.temps ++ if s.isStored buffers e then [temp] else []) := by
  have haddress {access : Access} {indices : List Expr}
      (hlength : indices.length = access.terms.length) :
      (access.expr indices).temps = indices.flatMap Expr.temps :=
    Access.collect_expr (fun _ => rfl) (fun _ _ _ => rfl) hlength
  cases h with
  | store x indices hexpr haccess hop hlength | update x y indices hexpr haccess hop hlength =>
      rw [if_pos (Shader.isStored_iff.2 ⟨_, _, _, _, hexpr, haccess⟩), Shader.stored, Expr.temps,
        haddress hlength]
      exact (List.perm_append_singleton temp _).symm.trans (.of_eq (by simp))
  | call hexpr hpasses => simp [Shader.isStored, hexpr, temps_of_passes hpasses]
  | splat x hexpr =>
      rw [Shader.isStored, hexpr]
      split <;> simp
  | _ => simp [*, Shader.isStored, tempsAll_eq_flatMap, temps_asOperand, Shader.loadExpr]

theorem takes_tempFor (e : ExprId) : Takes used (s.tempFor buffers e) fun k =>
    (if s.isStored buffers e then [k] else []) ++ used := by
  unfold Shader.tempFor
  split
  · exact takes_freshTemp
  · exact takes_pure (List.Perm.refl _)

theorem takes_lowerWithin (depth : Nat) (id : ExprId) (used : List Nat) :
    Takes used (s.lowerWithin buffers depth id) fun e => e.temps ++ used := by
  induction depth generalizing id used with
  | zero => exact takes_pure (List.Perm.refl _)
  | succ depth ih =>
      rw [Shader.lowerWithin_succ]
      refine takes_get fun σ => ?_
      split
      · exact takes_pure (List.Perm.refl _)
      · refine takes_bind (takes_tempFor id) fun temp => takes_bind_of
          (P := fun xs => xs.length = (s.lowered buffers id).length) (takes_mapM ih _)
          (length_mapM _ _) fun xs hxs => takes_pure ?_
        rw [← List.append_assoc]
        exact (temps_of_forms (Shader.forms_assembled temp hxs)).append_right used

/-! ### Statements -/

def Stmt.temps (t : Stmt) : List Nat :=
  t.events.flatMap Event.temps

def Declarator.temps (d : Declarator) : List Nat :=
  d.exprs.flatMap Expr.temps

theorem eventsAll_eq_flatMap (ts : List Stmt) : Stmt.eventsAll ts = ts.flatMap Stmt.events := by
  induction ts with
  | nil => rfl
  | cons t rest ih => rw [Stmt.eventsAll, ih, List.flatMap_cons]

theorem temps_eventsAll (ts : List Stmt) :
    (Stmt.eventsAll ts).flatMap Event.temps = ts.flatMap Stmt.temps := by
  rw [eventsAll_eq_flatMap, List.flatMap_assoc]
  rfl

theorem temps_inBody (loose : Bool) (events : List Event) :
    (Event.inBody loose events).flatMap Event.temps = events.flatMap Event.temps := by
  cases loose <;> simp

theorem temps_evaluate (es : List Expr) :
    (es.map Event.evaluate).flatMap Event.temps = es.flatMap Expr.temps := by
  rw [List.flatMap_map]
  rfl

theorem events_behind (calls : List Stmt) (t : Stmt) :
    (Shader.behind calls t).events = Stmt.eventsAll calls ++ t.events := by
  unfold Shader.behind
  cases calls with
  | nil => rfl
  | cons call rest =>
      rw [List.isEmpty_cons]
      simp [eventsAll_eq_flatMap]

theorem temps_behind (calls : List Stmt) (t : Stmt) :
    (Shader.behind calls t).temps = calls.flatMap Stmt.temps ++ t.temps := by
  unfold Stmt.temps
  rw [events_behind, List.flatMap_append, temps_eventsAll]
  rfl

theorem temps_atomicAddress (terms : List Expr) (offset : Nat) :
    (Shader.atomicAddress terms offset).temps = terms.flatMap Expr.temps :=
  collect_atomicAddress (fun _ => rfl) (fun _ _ _ => rfl) terms offset

theorem takes_lowerExpr (e : ExprId) (used : List Nat) :
    Takes used (s.lowerExpr buffers e) fun x => x.temps ++ used :=
  takes_lowerWithin _ e used

theorem takes_hoistCall (id : ExprId) (name : String) (args : List ExprId) :
    Takes used (s.hoistCall buffers id name args) fun t => t.temps ++ used := by
  have hterm (term : ExprId × Nat) (used : List Nat) :
      Takes used (do return .binary .mul (.bytes term.2) (← s.lowerExpr buffers term.1) :
        LowerM Expr) fun e => e.temps ++ used :=
    takes_bind (takes_lowerExpr term.1 used) fun i => takes_pure (List.Perm.refl _)
  have hrecord {declared : List Nat} {temp : Nat} {t : Stmt}
      (ht : (t.temps ++ used).Perm declared) :
      Takes declared (do
        modify fun state : LoweringState => { state with hoisted := (id, temp) :: state.hoisted }
        return t) fun t => t.temps ++ used :=
    fun σ hnodup hlt => takes_pure ht σ hnodup hlt
  unfold Shader.hoistCall
  refine takes_bind takes_freshTemp fun temp => ?_
  dsimp only
  split
  · refine takes_bind (takes_mapM hterm _) fun terms =>
      takes_bind (takes_mapM takes_lowerExpr _) fun values => hrecord ?_
    apply List.perm_iff_count.2
    intro k
    simp only [Stmt.temps, Stmt.events, Event.temps, Expr.tempsAll, temps_atomicAddress,
      tempsAll_eq_flatMap, List.flatMap_cons, List.flatMap_nil, List.append_nil,
      List.count_append, List.count_cons]
    omega
  · refine takes_bind (takes_mapM takes_lowerExpr _) fun values => hrecord ?_
    apply List.perm_iff_count.2
    intro k
    simp only [Stmt.temps, Stmt.events, Event.temps, tempsAll_eq_flatMap, List.flatMap_cons,
      List.flatMap_nil, List.append_nil, List.count_append, List.count_cons]
    omega

theorem takes_hoistAtomics (id : ExprId) (used : List Nat) :
    Takes used (s.hoistAtomics buffers id) fun ts => ts.flatMap Stmt.temps ++ used := by
  refine takes_bind (?_ : Takes used _ fun tss =>
    tss.flatMap (fun ts => ts.flatMap Stmt.temps) ++ used) fun tss => takes_pure ?_
  · refine takes_mapM (fun call used => ?_) _
    split
    · exact takes_bind (takes_hoistCall _ _ _) fun t => takes_pure (by simp)
    · exact takes_pure (by simp)
  · rw [List.flatten_eq_flatMap, List.flatMap_assoc]
    rfl

theorem takes_lowerDims (dims : List (Option ExprId)) :
    Takes used (s.lowerDims buffers dims)
      fun ds => ds.flatMap (fun dim => dim.toList.flatMap Expr.temps) ++ used :=
  takes_mapM (fun dim _ => takes_option takes_lowerExpr dim) dims

theorem takes_lowerDeclarator (v : VarId) (used : List Nat) :
    Takes used (s.lowerDeclarator buffers v) fun d => d.temps ++ used := by
  refine takes_bind (takes_lowerDims _) fun dims =>
    takes_bind (takes_option takes_lowerExpr _) fun initial => takes_pure ?_
  rw [Declarator.temps, Declarator.exprs, List.flatMap_append, List.flatMap_assoc]
  simpa using List.perm_append_comm_assoc _ _ _

theorem temps_declaration (constant : Bool) (type : String) (d : Declarator) :
    (Stmt.declaration constant type d).temps = d.temps :=
  temps_evaluate d.exprs

theorem takes_lowerLocal (v : VarId) (used : List Nat) :
    Takes used (s.lowerLocal buffers v) fun t => t.temps ++ used := by
  have hdeclare (calls : List Stmt) : Takes (calls.flatMap Stmt.temps ++ used) (do
      let declarator ← s.lowerDeclarator buffers v
      return Shader.behind calls (.declaration (s.var v).flags.constant
        (s.hlslDeclaredType (s.var v).type) declarator)) fun t => t.temps ++ used := by
    refine takes_bind (takes_lowerDeclarator v _) fun d => takes_pure ?_
    rw [temps_behind, temps_declaration]
    simpa using List.perm_append_comm_assoc _ _ _
  unfold Shader.lowerLocal
  dsimp only
  split
  · exact takes_bind (takes_hoistAtomics _ used) hdeclare
  · have hnone : Takes used (pure []) fun calls => calls.flatMap Stmt.temps ++ used :=
      takes_pure (List.Perm.refl _)
    exact takes_bind hnone hdeclare

def Header.temps (h : Header) : List Nat :=
  h.exprs.flatMap Expr.temps

theorem takes_lowerHeader (id : StmtId) (used : List Nat) :
    Takes used (s.lowerHeader buffers id) fun h => h.temps ++ used := by
  unfold Shader.lowerHeader
  split
  · refine takes_bind (takes_mapM takes_lowerDeclarator _) fun ds => takes_pure ?_
    rw [Header.temps, Header.exprs, List.flatMap_assoc]
    rfl
  · refine takes_bind (takes_lowerExpr _ used) fun x => takes_pure ?_
    simp [Header.temps, Header.exprs]
  · exact takes_pure (List.Perm.refl _)

theorem takes_lowerStart (start : Option StmtId) :
    Takes used (s.lowerStart buffers start) fun h => h.temps ++ used := by
  cases start with
  | none => exact takes_pure (List.Perm.refl _)
  | some id => exact takes_lowerHeader id used

section

variable {lower : StmtId → LowerM Stmt}
  (hlower : ∀ id used, Takes used (lower id) fun t => t.temps ++ used)
include hlower

theorem takes_lowerBody (id : StmtId) (used : List Nat) :
    Takes used (s.lowerBody lower id) fun t => t.temps ++ used := by
  refine takes_bind (hlower id used) fun t => takes_pure ?_
  split
  · simp [Stmt.temps]
  · exact List.Perm.refl _

theorem takes_lowerGuarded (condition : ExprId) (body : StmtId) :
    Takes used (s.lowerGuarded buffers lower condition body) fun t => t.temps ++ used := by
  refine takes_bind (takes_hoistAtomics condition used) fun calls =>
    takes_bind (takes_lowerExpr condition _) fun test =>
      takes_bind (takes_mapM hlower _) fun body => takes_pure ?_
  have htest : (Stmt.breakUnless test.asOperand).temps = test.temps := by
    simp [Stmt.temps, temps_asOperand]
  have hblock : (Stmt.block (Shader.behind calls (.breakUnless test.asOperand) :: body)).temps =
      (calls.flatMap Stmt.temps ++ test.temps) ++ body.flatMap Stmt.temps := by
    rw [← htest, ← temps_behind, ← List.flatMap_cons, ← temps_eventsAll]
    rfl
  rw [hblock]
  apply List.perm_iff_count.2
  intro k
  simp only [List.count_append]
  omega

end

theorem takes_lowerValue {view : Expr → Stmt} (hview : ∀ x, (view x).temps = x.temps) (e : ExprId)
    (used : List Nat) :
    Takes used (do
      let calls ← s.hoistAtomics buffers e
      return Shader.behind calls (view (← s.lowerExpr buffers e))) fun t => t.temps ++ used := by
  refine takes_bind (takes_hoistAtomics e used) fun calls =>
    takes_bind (takes_lowerExpr e _) fun x => takes_pure ?_
  rw [temps_behind, hview]
  simpa using List.perm_append_comm_assoc _ _ _

theorem takes_values (o : Option ExprId) (used : List Nat) :
    Takes used (o.mapM (s.lowerExpr buffers)) fun x => x.toList.flatMap Expr.temps ++ used :=
  takes_option takes_lowerExpr o

section

variable {depth : Nat} {id : StmtId}
  (ih : ∀ id used, Takes used (s.lowerStmtWithin buffers depth id) fun t => t.temps ++ used)
include ih

theorem takes_branch {hints : FlowHints} {c : ExprId} {onTrue : StmtId} {onFalse : Option StmtId}
    (hstmt : s.stmt id = .branch hints c onTrue onFalse) (used : List Nat) :
    Takes used (s.lowerStmtWithin buffers (depth + 1) id) fun t => t.temps ++ used := by
  unfold Shader.lowerStmtWithin
  rw [hstmt]
  refine takes_bind (takes_hoistAtomics c used) fun calls =>
    takes_bind (takes_lowerExpr c _) fun x => takes_bind (takes_lowerBody ih onTrue _) fun t =>
      takes_bind (takes_option (takes_lowerBody ih) onFalse) fun f => takes_pure ?_
  rw [temps_behind]
  apply List.perm_iff_count.2
  intro k
  cases f with
  | none =>
      simp only [Stmt.temps, Stmt.events, Event.temps, temps_inBody, Option.toList_none,
        List.flatMap_cons, List.flatMap_nil, List.count_append, List.count_nil]
      omega
  | some f =>
      simp only [Stmt.temps, Stmt.events, Event.temps, temps_inBody, Option.toList_some,
        List.flatMap_cons, List.flatMap_nil, List.flatMap_append, List.append_nil,
        List.count_append]
      omega

theorem takes_forLoop {hints : FlowHints} {start : Option StmtId} {c step : Option ExprId}
    {body : StmtId} (hstmt : s.stmt id = .forLoop hints start c step body) (used : List Nat) :
    Takes used (s.lowerStmtWithin buffers (depth + 1) id) fun t => t.temps ++ used := by
  unfold Shader.lowerStmtWithin
  rw [hstmt]
  refine takes_bind (takes_lowerStart start) fun start => ?_
  cases c.filter s.hasAtomics with
  | some e =>
      refine takes_bind (takes_values step _) fun step =>
        takes_bind (takes_lowerGuarded ih e body) fun body => takes_pure ?_
      rw [Stmt.temps, Stmt.events, List.flatMap_append, temps_evaluate, temps_inBody]
      apply List.perm_iff_count.2
      intro k
      simp only [Header.temps, Stmt.temps, Option.toList_none, List.nil_append,
        List.flatMap_append, List.count_append]
      omega
  | none =>
      refine takes_bind (takes_values c _) fun c => takes_bind (takes_values step _) fun step =>
        takes_bind (takes_lowerBody ih body _) fun body => takes_pure ?_
      rw [Stmt.temps, Stmt.events, List.flatMap_append, temps_evaluate, temps_inBody]
      apply List.perm_iff_count.2
      intro k
      simp only [Header.temps, Stmt.temps, List.flatMap_append, List.count_append]
      omega

end

theorem takes_lowerStmtWithin (depth : Nat) (id : StmtId) (used : List Nat) :
    Takes used (s.lowerStmtWithin buffers depth id) fun t => t.temps ++ used := by
  induction depth generalizing id used with
  | zero => exact takes_pure (List.Perm.refl _)
  | succ depth ih =>
      cases hstmt : s.stmt id
      case branch => exact takes_branch ih hstmt used
      case forLoop => exact takes_forLoop ih hstmt used
      all_goals
        unfold Shader.lowerStmtWithin
        rw [hstmt]
        dsimp only
      case block body =>
        refine takes_bind (takes_mapM ih body) fun body => takes_pure ?_
        rw [Stmt.temps, Stmt.events, temps_eventsAll]
      case declaration vars =>
        refine takes_bind (takes_mapM takes_lowerLocal vars) fun vars => takes_pure ?_
        rw [Stmt.temps, Stmt.events, temps_eventsAll]
      case expression e => exact takes_lowerValue (fun x => by simp [Stmt.temps]) e used
      case switch hints subject body =>
        refine takes_bind (takes_hoistAtomics subject used) fun calls =>
          takes_bind (takes_lowerExpr subject _) fun e =>
            takes_bind (takes_mapM ih body) fun body => takes_pure ?_
        rw [temps_behind]
        apply List.perm_iff_count.2
        intro k
        rw [Stmt.temps, Stmt.events, List.flatMap_cons, temps_inBody, temps_eventsAll, Event.temps]
        simp only [List.count_append]
        omega
      case label value =>
        refine takes_bind (takes_values value used) fun e => takes_pure ?_
        rw [Stmt.temps, Stmt.events, temps_evaluate]
      case whileLoop hints c body =>
        cases s.guard? c with
        | some e =>
            refine takes_bind (takes_lowerGuarded ih e body) fun body => takes_pure ?_
            rw [Stmt.temps, Stmt.events, List.flatMap_append, temps_evaluate, temps_inBody]
            exact List.Perm.refl _
        | none =>
            refine takes_bind (takes_lowerHeader c _) fun c =>
              takes_bind (takes_lowerBody ih body _) fun b => takes_pure ?_
            rw [Stmt.temps, Stmt.events, List.flatMap_append, temps_evaluate, temps_inBody]
            simpa [Stmt.temps, Header.temps] using List.perm_append_comm_assoc _ _ _
      case doLoop hints body c =>
        refine takes_bind (takes_lowerBody ih body used) fun b =>
          takes_bind (takes_lowerExpr c _) fun c => takes_pure ?_
        rw [Stmt.temps, Stmt.events, List.flatMap_append, temps_inBody]
        simpa [Stmt.temps] using List.perm_append_comm_assoc _ _ _
      case returnValue value =>
        cases value with
        | none => exact takes_pure (List.Perm.refl _)
        | some e => exact takes_lowerValue (fun x => by simp [Stmt.temps]) e used
      all_goals exact takes_pure (List.Perm.refl _)

/-! ### Functions -/

theorem takes_lowerParam (v : VarId) (used : List Nat) :
    Takes used (s.lowerParam buffers v) fun _ => used :=
  takes_bind ((takes_lowerDims _).sublist fun _ => List.sublist_append_right _ _) fun _ =>
    takes_pure (List.Perm.refl _)

theorem temps_copyInputs : Shader.copyInputs.flatMap Stmt.temps = [] :=
  rfl

theorem takes_functionBody (entry : Bool) (body : List StmtId) (used : List Nat) :
    Takes used (do
      return (if entry then Shader.copyInputs else []) ++ (← body.mapM (s.lowerStmt buffers)))
      fun ts => ts.flatMap Stmt.temps ++ used := by
  refine takes_bind (takes_mapM (takes_lowerStmtWithin _) body) fun ts => takes_pure ?_
  split
  · rw [List.flatMap_append, temps_copyInputs]
    exact List.Perm.refl _
  · exact List.Perm.refl _

theorem takes_lowerFunction (id : FuncId) (used : List Nat) :
    Takes used (s.lowerFunction buffers id) fun p => p.events.flatMap Event.temps ++ used := by
  have hparams : Takes used ((s.func id).params.mapM (s.lowerParam buffers)) fun _ => used := by
    have h : Takes used ((s.func id).params.mapM (s.lowerParam buffers))
        fun ps => ps.flatMap (fun _ => []) ++ used :=
      takes_mapM takes_lowerParam _
    exact h.sublist fun _ => List.sublist_append_right _ _
  unfold Shader.lowerFunction
  dsimp only
  split
  · exact takes_pure (List.Perm.refl _)
  · refine takes_bind hparams fun params =>
      takes_bind (takes_option (takes_functionBody _) _) fun body => takes_pure ?_
    cases body with
    | none => exact List.Perm.refl _
    | some body =>
        rw [Program.events, List.flatMap_singleton, temps_eventsAll, Option.toList_some,
          List.flatMap_singleton]

theorem takes_lowerFunctions (ids : List FuncId) :
    Takes [] (ids.mapM (s.lowerFunction buffers)) fun ps =>
      (ps.flatMap Program.events).flatMap Event.temps := by
  have h : Takes [] (ids.mapM (s.lowerFunction buffers))
      fun ps => ps.flatMap (fun p => p.events.flatMap Event.temps) ++ [] :=
    takes_mapM takes_lowerFunction ids
  simpa only [List.append_nil, List.flatMap_assoc] using h

end Hlsl

end ShaderBridge
