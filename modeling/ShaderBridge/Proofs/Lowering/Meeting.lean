import ShaderBridge.Proofs.Lowering.Carrying
import ShaderBridge.Proofs.Lowering.Growing
import ShaderBridge.Proofs.Lowering.Program

/-! ## Events for duties -/

namespace ShaderBridge

open Hlsl

namespace Shader

variable (s : Shader)

/-- A duty is met, if nothing more is asked of it. -/
def NearlyMet (temp : ExprId → Nat) (d : Duty) (event : Event) : Prop :=
  s.withCalls d = [d] → s.MetBy temp d event

/-- A statement meets duties, and is loose only where it needs atomic calls. -/
def Fulfils (temp : ExprId → Nat) (id : StmtId) (duties : List Duty) (t : Hlsl.Stmt) : Prop :=
  (t.isLoose → s.needsAtomics id) ∧ List.Forall₂ (s.NearlyMet temp) duties t.events

variable {s} {temp : ExprId → Nat} {known : List ExprId}

/-! ### The calls among the duties -/

theorem filterMap_carries (e : ExprId) : (s.carries e).filterMap Duty.call? = s.atomicCalls e := by
  rw [carries, List.filterMap_map]
  exact List.filterMap_some

theorem filterMap_ahead (e : ExprId) : (s.ahead e).filterMap Duty.call? = s.atomicCalls e := by
  rw [ahead, List.filterMap_append, filterMap_carries]
  exact List.append_nil _

theorem filterMap_others {α : Type} {view : α → Duty} (hview : ∀ a, (view a).call? = none)
    (l : List α) : (l.map view).filterMap Duty.call? = [] := by
  rw [List.filterMap_map, List.filterMap_eq_nil_iff]
  exact fun a _ => hview a

theorem filterMap_declaratorDuties (v : VarId) :
    (s.declaratorDuties v).filterMap Duty.call? =
      (s.var v).initial?.toList.flatMap s.atomicCalls := by
  rw [declaratorDuties, List.filterMap_append, List.filterMap_append, List.filterMap_flatMap,
    filterMap_others fun _ => rfl, filterMap_others fun _ => rfl]
  simp only [filterMap_carries, List.append_nil]

theorem filterMap_body (duties : List Duty) :
    (Duty.enter :: (duties ++ [.leave])).filterMap Duty.call? = duties.filterMap Duty.call? := by
  rw [List.filterMap_cons_none rfl, List.filterMap_append]
  exact List.append_nil _

theorem filterMap_guarded (e : ExprId) (duties : List Duty) :
    (Duty.enter :: (s.ahead e ++ (duties ++ [.leave]))).filterMap Duty.call? =
      s.atomicCalls e ++ duties.filterMap Duty.call? := by
  rw [← List.append_assoc, filterMap_body, List.filterMap_append, filterMap_ahead]

/-! ### Duties of expressions -/

theorem MetBy.nearly {d : Duty} {event : Event} (h : s.MetBy temp d event) :
    s.NearlyMet temp d event :=
  fun _ => h

theorem nearlyMet_aside {e : ExprId} {x : Hlsl.Expr} (h : s.ShownFrom temp known e x) :
    s.NearlyMet temp (.aside e) (.evaluate x) := by
  intro hcalls
  have hnone : s.atomicCalls e = [] := by
    simpa [withCalls, carries] using hcalls
  exact .aside (h (hnone ▸ List.nil_subset _))

theorem nearlyMet_asides {es : List ExprId} {xs : List Hlsl.Expr}
    (h : List.Forall₂ (s.ShownFrom temp known) es xs) :
    List.Forall₂ (s.NearlyMet temp) (es.map .aside) (xs.map .evaluate) :=
  List.forall₂_map_left_iff.2 (List.forall₂_map_right_iff.2 (h.imp fun _ _ => nearlyMet_aside))

theorem nearlyMet_evaluate {e : ExprId} {x : Hlsl.Expr} (h : s.ShownFrom temp known e x)
    (hcalls : s.atomicCalls e ⊆ known) : s.NearlyMet temp (.evaluate e) (.evaluate x) :=
  (MetBy.evaluate (h hcalls)).nearly

theorem nearlyMet_evaluates {es : List ExprId} {xs : List Hlsl.Expr}
    (h : List.Forall₂ (s.ShownFrom temp known) es xs)
    (hcalls : ∀ e ∈ es, s.atomicCalls e ⊆ known) :
    List.Forall₂ (s.NearlyMet temp) (es.map .evaluate) (xs.map .evaluate) := by
  induction h with
  | nil => exact .nil
  | cons hx _ ih =>
      obtain ⟨hfirst, hrest⟩ := List.forall_mem_cons.1 hcalls
      exact .cons (nearlyMet_evaluate hx hfirst) (ih hrest)

theorem atomicCalls_of_quiet {e : ExprId} (h : s.hasAtomics e = false) : s.atomicCalls e = [] := by
  simpa [hasAtomics] using h

theorem ahead_of_quiet {e : ExprId} (h : s.hasAtomics e = false) : s.ahead e = [.evaluate e] := by
  rw [ahead, carries, atomicCalls_of_quiet h]
  rfl

theorem nearlyMet_inBody {loose : Bool} {duties : List Duty} {events : List Event}
    (hloose : loose = false) (h : List.Forall₂ (s.NearlyMet temp) duties events) :
    List.Forall₂ (s.NearlyMet temp) (.enter :: (duties ++ [.leave]))
      (Event.inBody loose events) := by
  subst hloose
  exact .cons MetBy.enter.nearly (List.rel_append h (.cons MetBy.leave.nearly .nil))

end Shader

namespace Hlsl

variable {s : Shader} {temp : ExprId → Nat} {known calls : List ExprId}

/-! ### Expressions and declarators -/

theorem Adds.of_calls {α : Type} {m : LowerM α} {P : α → Prop} {calls' : List ExprId}
    (h : Adds temp known m calls P) (hcalls : calls = calls') : Adds temp known m calls' P :=
  hcalls ▸ h

theorem forall₂_flatMap {α β γ δ : Type} {P : α → β → Prop} {R : γ → δ → Prop} {f : α → List γ}
    {g : β → List δ} {l : List α} {l' : List β} (h : List.Forall₂ P l l')
    (hP : ∀ a b, P a b → List.Forall₂ R (f a) (g b)) :
    List.Forall₂ R (l.flatMap f) (l'.flatMap g) := by
  induction h with
  | nil => exact .nil
  | cons hab _ ih =>
      rw [List.flatMap_cons, List.flatMap_cons]
      exact List.rel_append (hP _ _ hab) ih

theorem adds_lowerOption (o : Option ExprId) :
    Adds temp known (o.mapM (s.lowerExpr s.storageFields)) [] fun x =>
      List.Forall₂ (s.ShownFrom temp known) o.toList x.toList :=
  adds_valueOption fun e _ => adds_lowerExpr e

theorem adds_lowerDims (dims : List (Option ExprId)) :
    Adds temp known (s.lowerDims s.storageFields dims) [] fun ds =>
      List.Forall₂ (s.ShownFrom temp known) (dims.flatMap Option.toList)
        (ds.flatMap Option.toList) := by
  have hdims : Adds temp known (s.lowerDims s.storageFields dims) []
      (List.Forall₂ (fun dim d => List.Forall₂ (s.ShownFrom temp known) dim.toList d.toList)
        dims) :=
    adds_values fun dim _ => adds_lowerOption dim
  exact hdims.imp fun ds hds => forall₂_flatMap hds fun _ _ h => h

theorem adds_lowerDeclarator (v : VarId) :
    Adds temp known (s.lowerDeclarator s.storageFields v) [] fun d =>
      List.Forall₂ (s.ShownFrom temp known) ((s.var v).dims.flatMap Option.toList)
        (d.dims.flatMap Option.toList) ∧
      List.Forall₂ (s.ShownFrom temp known) (s.var v).initial?.toList d.initial.toList :=
  adds_bind (adds_lowerDims _) fun _ => adds_bind (adds_lowerOption _) fun _ =>
    adds_pure fun hinitial hdims => ⟨hdims, hinitial⟩

theorem adds_lowerHeader (id : StmtId) :
    Adds temp known (s.lowerHeader s.storageFields id) [] fun header =>
      List.Forall₂ (s.ShownFrom temp known) (s.headerExprs id) header.exprs := by
  unfold Shader.headerExprs Shader.lowerHeader
  cases hstmt : s.stmt id with
  | declaration vars =>
      have hvars : Adds temp known (vars.mapM (s.lowerDeclarator s.storageFields)) [] _ :=
        adds_values fun v _ => adds_lowerDeclarator v
      exact adds_bind hvars fun ds => adds_pure fun hds =>
        forall₂_flatMap hds fun _ _ hd => List.rel_append hd.1 hd.2
  | expression e =>
      exact adds_bind (adds_lowerExpr e) fun x => adds_pure fun hx => .cons hx .nil
  | _ => exact adds_pure .nil

theorem adds_lowerStart (start : Option StmtId) :
    Adds temp known (s.lowerStart s.storageFields start) [] fun header =>
      List.Forall₂ (s.ShownFrom temp known) (start.toList.flatMap s.headerExprs) header.exprs := by
  cases start with
  | none => exact adds_pure .nil
  | some id =>
      rw [Option.toList_some, List.flatMap_singleton]
      exact adds_lowerHeader id

/-! ### Statements behind calls -/

theorem isLoose_behind {hoisted : List Stmt} {t : Stmt} (ht : t.isLoose = false)
    (h : (Shader.behind hoisted t).isLoose) : hoisted.isEmpty = false := by
  unfold Shader.behind at h
  cases hoisted with
  | nil => rw [List.isEmpty_nil, if_pos rfl, ht] at h; cases h
  | cons => rfl

theorem nearlyMet_behind {hoisted : List Stmt} {t : Stmt} {quiet : Bool}
    {carried duties : List Duty}
    (hhoisted : hoisted.isEmpty = quiet ∧
      List.Forall₂ (s.MetBy temp) carried (Stmt.eventsAll hoisted))
    (ht : t.isLoose = false) (hduties : List.Forall₂ (s.NearlyMet temp) duties t.events) :
    ((Shader.behind hoisted t).isLoose → quiet = false) ∧
      List.Forall₂ (s.NearlyMet temp) (carried ++ duties) (Shader.behind hoisted t).events := by
  constructor
  · intro hloose
    rw [← hhoisted.1, isLoose_behind ht hloose]
  · rw [events_behind]
    exact List.rel_append (hhoisted.2.imp fun _ _ => Shader.MetBy.nearly) hduties

theorem fulfils_behind {id : StmtId} {e : ExprId} {hoisted : List Stmt} {t : Stmt}
    {duties : List Duty} (hneeds : s.needsAtomics id = s.hasAtomics e)
    (hhoisted : hoisted.isEmpty = (!s.hasAtomics e) ∧
      List.Forall₂ (s.MetBy temp) (s.carries e) (Stmt.eventsAll hoisted))
    (ht : t.isLoose = false) (hduties : List.Forall₂ (s.NearlyMet temp) duties t.events) :
    s.Fulfils temp id (s.carries e ++ duties) (Shader.behind hoisted t) := by
  obtain ⟨hloose, hmet⟩ := nearlyMet_behind hhoisted ht hduties
  exact ⟨fun h => hneeds.trans (by simpa using hloose h), hmet⟩

theorem fulfils_tight {id : StmtId} {duties : List Duty} {t : Stmt} (ht : t.isLoose = false)
    (hduties : List.Forall₂ (s.NearlyMet temp) duties t.events) : s.Fulfils temp id duties t :=
  ⟨fun hloose => absurd (ht ▸ hloose) Bool.false_ne_true, hduties⟩

theorem adds_lowerLocal (h : s.WellFormed) (v : VarId) :
    Adds temp known (s.lowerLocal s.storageFields v)
      ((s.declaratorDuties v).filterMap Duty.call?) fun t =>
      (t.isLoose → (s.var v).initial?.any s.hasAtomics) ∧
        List.Forall₂ (s.NearlyMet temp) (s.declaratorDuties v) t.events := by
  have hdeclare (hoisted : List Stmt) :
      Adds temp ((s.var v).initial?.toList.flatMap s.atomicCalls ++ known) (do
        let declarator ← s.lowerDeclarator s.storageFields v
        return Shader.behind hoisted (.declaration (s.var v).flags.constant
          (s.hlslDeclaredType (s.var v).type) declarator)) ([] ++ []) fun t =>
      (hoisted.isEmpty = (!(s.var v).initial?.any s.hasAtomics) ∧
        List.Forall₂ (s.MetBy temp) ((s.var v).initial?.toList.flatMap s.carries)
          (Stmt.eventsAll hoisted)) →
      (t.isLoose → (s.var v).initial?.any s.hasAtomics) ∧
        List.Forall₂ (s.NearlyMet temp) (s.declaratorDuties v) t.events := by
    refine adds_bind (adds_lowerDeclarator v) fun d => adds_pure fun hd hhoisted => ?_
    have hinitial : ∀ e ∈ (s.var v).initial?.toList,
        s.atomicCalls e ⊆ (s.var v).initial?.toList.flatMap s.atomicCalls ++ known :=
      fun e he c hc => List.mem_append_left _ (List.mem_flatMap.2 ⟨e, he, hc⟩)
    have hduties : List.Forall₂ (s.NearlyMet temp)
        (((s.var v).dims.flatMap Option.toList).map .aside ++
          (s.var v).initial?.toList.map .evaluate)
        (Stmt.declaration (s.var v).flags.constant
          (s.hlslDeclaredType (s.var v).type) d).events := by
      rw [Stmt.events, Declarator.exprs, List.map_append]
      exact List.rel_append (Shader.nearlyMet_asides hd.1)
        (Shader.nearlyMet_evaluates hd.2 hinitial)
    obtain ⟨hloose, hmet⟩ := nearlyMet_behind hhoisted rfl hduties
    exact ⟨fun hl => by simpa using hloose hl, hmet⟩
  rw [Shader.filterMap_declaratorDuties]
  unfold Shader.lowerLocal
  dsimp only
  cases hinitial : (s.var v).initial? with
  | none =>
      rw [hinitial] at hdeclare
      have hnone : Adds temp known (pure []) [] fun hoisted : List Stmt =>
          hoisted.isEmpty = true ∧ List.Forall₂ (s.MetBy temp) [] (Stmt.eventsAll hoisted) :=
        adds_pure ⟨rfl, .nil⟩
      exact adds_bind hnone hdeclare
  | some e =>
      rw [hinitial] at hdeclare
      simp only [Option.toList_some, List.flatMap_singleton] at hdeclare ⊢
      exact (adds_bind (adds_hoistAtomics h e) hdeclare).of_calls (List.append_nil _)

/-! ### Headers of loops -/

theorem adds_lowerCondition {c : StmtId} (hguard : s.guard? c = none) :
    Adds temp known (s.lowerHeader s.storageFields c)
      ((s.conditionDuties c).filterMap Duty.call?) fun header =>
      List.Forall₂ (s.NearlyMet temp) (s.conditionDuties c) (header.exprs.map .evaluate) := by
  have hheader : Adds temp known (s.lowerHeader s.storageFields c) [] _ := adds_lowerHeader c
  unfold Shader.conditionDuties
  split
  · next e hstmt =>
      have hexprs : s.headerExprs c = [e] := by rw [Shader.headerExprs, hstmt]
      have hquiet : s.hasAtomics e = false := by
        rw [Shader.guard?, hstmt] at hguard
        by_contra hatomics
        simp [hatomics] at hguard
      have hcalls : ∀ e' ∈ [e], s.atomicCalls e' ⊆ known := by
        simp [Shader.atomicCalls_of_quiet hquiet]
      rw [hexprs] at hheader
      rw [Shader.ahead_of_quiet hquiet]
      exact hheader.imp fun header hmet => Shader.nearlyMet_evaluates hmet hcalls
  · rw [Shader.filterMap_others fun _ => rfl]
    exact hheader.imp fun header hmet => Shader.nearlyMet_asides hmet

theorem adds_quietOption {c : Option ExprId} (hguard : c.filter s.hasAtomics = none) :
    Adds temp known (c.mapM (s.lowerExpr s.storageFields))
      ((c.toList.flatMap s.ahead).filterMap Duty.call?) fun x =>
      List.Forall₂ (s.NearlyMet temp) (c.toList.flatMap s.ahead) (x.toList.map .evaluate) := by
  have hquiet : ∀ e ∈ c.toList, s.hasAtomics e = false := fun e he => by
    simpa using Option.filter_eq_none_iff.1 hguard e (Option.mem_toList.1 he)
  have hahead : c.toList.flatMap s.ahead = c.toList.map .evaluate := by
    rw [List.flatMap_congr fun e he => Shader.ahead_of_quiet (hquiet e he), List.map_eq_flatMap]
  have hcalls : ∀ e ∈ c.toList, s.atomicCalls e ⊆ known := fun e he =>
    Shader.atomicCalls_of_quiet (hquiet e he) ▸ List.nil_subset _
  rw [hahead, Shader.filterMap_others fun _ => rfl]
  exact (adds_lowerOption c).imp fun _ hmet => Shader.nearlyMet_evaluates hmet hcalls

theorem adds_start (start : Option StmtId) :
    Adds temp known (s.lowerStart s.storageFields start)
      (((start.toList.flatMap s.headerExprs).map Duty.aside).filterMap Duty.call?)
      fun header => List.Forall₂ (s.NearlyMet temp)
        ((start.toList.flatMap s.headerExprs).map .aside) (header.exprs.map .evaluate) := by
  rw [Shader.filterMap_others fun _ => rfl]
  exact (adds_lowerStart start).imp fun header hmet => Shader.nearlyMet_asides hmet

theorem adds_step (step : Option ExprId) :
    Adds temp known (step.mapM (s.lowerExpr s.storageFields))
      ((step.toList.map Duty.inPlace).filterMap Duty.call?) fun x =>
      List.Forall₂ (s.NearlyMet temp) (step.toList.map .inPlace) (x.toList.map .evaluate) := by
  rw [Shader.filterMap_others fun _ => rfl]
  refine (adds_lowerOption step).imp fun x hx => ?_
  exact List.forall₂_map_left_iff.2 <| List.forall₂_map_right_iff.2 <|
    hx.imp fun _ _ _ => (Shader.MetBy.inPlace _ _).nearly

/-! ### Bodies -/

section

variable {lower : StmtId → LowerM Stmt} {duties : StmtId → List Duty}
  (hlower : ∀ id known,
    Adds temp known (lower id) ((duties id).filterMap Duty.call?) (s.Fulfils temp id (duties id)))
include hlower

theorem adds_lowerBody (id : StmtId) :
    Adds temp known (s.lowerBody lower id)
      ((Duty.enter :: (duties id ++ [.leave])).filterMap Duty.call?) fun t =>
      List.Forall₂ (s.NearlyMet temp) (.enter :: (duties id ++ [.leave]))
        (Event.inBody t.isLoose t.events) := by
  refine (adds_bind (hlower id known) fun t => adds_pure fun ⟨hloose, hmet⟩ => ?_).of_calls
    ?_
  · rw [Shader.filterMap_body, List.append_nil]
  · split
    · refine Shader.nearlyMet_inBody rfl ?_
      rwa [Stmt.events, Stmt.eventsAll, Stmt.eventsAll, List.append_nil]
    · next hneeds =>
        exact Shader.nearlyMet_inBody (by simpa using fun hl => hneeds (hloose hl)) hmet

theorem adds_lowerAll (ids : List StmtId) :
    Adds temp known (ids.mapM lower) ((ids.flatMap duties).filterMap Duty.call?) fun ts =>
      List.Forall₂ (s.NearlyMet temp) (ids.flatMap duties) (Stmt.eventsAll ts) := by
  rw [List.filterMap_flatMap]
  refine (adds_mapM fun id _ => hlower id known).imp
    fun ts hts => ?_
  rw [eventsAll_eq_flatMap]
  exact forall₂_flatMap hts fun _ _ ht => ht.2

theorem adds_lowerGuarded (hwell : s.WellFormed) (e : ExprId) (b : StmtId) :
    Adds temp known (s.lowerGuarded s.storageFields lower e b)
      ((Duty.enter :: (s.ahead e ++ ((s.blockBody b).flatMap duties ++ [.leave]))).filterMap
        Duty.call?) fun t =>
      List.Forall₂ (s.NearlyMet temp)
        (.enter :: (s.ahead e ++ ((s.blockBody b).flatMap duties ++ [.leave])))
        (Event.inBody t.isLoose t.events) := by
  refine (adds_bind (adds_hoistAtomics hwell e) fun hoisted =>
    adds_bind (adds_lowerExpr e) fun test =>
      adds_bind (adds_lowerAll hlower _) fun body => adds_pure
        fun hbody htest hhoisted => ?_).of_calls ?_
  · have htest : List.Forall₂ (s.NearlyMet temp) [.evaluate e]
        (Stmt.breakUnless test.asOperand).events :=
      .cons (Shader.MetBy.evaluate (shownBy_asOperand <| htest <|
        List.subset_append_left _ _)).nearly .nil
    rw [← List.append_assoc]
    have hbehind := (nearlyMet_behind hhoisted rfl htest).2
    exact Shader.nearlyMet_inBody rfl (List.rel_append hbehind hbody)
  · rw [Shader.filterMap_guarded, List.nil_append, List.append_nil]

end

/-! ### Statements -/

theorem isLoose_lines {ts : List Stmt} (h : (Stmt.lines ts).isLoose) : ∃ t ∈ ts, t.isLoose := by
  have hany : Stmt.isLoose.anyLoose ts := h
  induction ts with
  | nil => cases hany
  | cons t ts ih =>
      rw [Stmt.isLoose.anyLoose, Bool.or_eq_true] at hany
      rcases hany with hhere | hrest
      · exact ⟨t, List.mem_cons_self, hhere⟩
      · obtain ⟨u, hu, hloose⟩ := ih hrest hrest
        exact ⟨u, List.mem_cons_of_mem _ hu, hloose⟩

theorem events_branch (hint : Option Hint) (c : Expr) (t : Stmt) (f : Option Stmt) :
    (Stmt.branch hint c t f).events = .evaluate c :: (Event.inBody t.isLoose t.events ++
      f.toList.flatMap fun f => Event.inBody f.isLoose f.events) := by
  cases f <;> simp [Stmt.events]

theorem adds_lowerLocals (h : s.WellFormed) {id : StmtId} {vars : List VarId}
    (hstmt : s.stmt id = .declaration vars) :
    Adds temp known (do return Stmt.lines (← vars.mapM (s.lowerLocal s.storageFields)))
      ((vars.flatMap s.declaratorDuties).filterMap Duty.call?)
      (s.Fulfils temp id (vars.flatMap s.declaratorDuties)) := by
  have hlocals : Adds temp known (vars.mapM (s.lowerLocal s.storageFields))
      (vars.flatMap fun v => (s.declaratorDuties v).filterMap Duty.call?)
      (List.Forall₂ (fun v (t : Stmt) => (t.isLoose → (s.var v).initial?.any s.hasAtomics) ∧
        List.Forall₂ (s.NearlyMet temp) (s.declaratorDuties v) t.events) vars) :=
    adds_mapM fun v _ => adds_lowerLocal h v
  refine (adds_bind hlocals fun ts => adds_pure fun hts => ⟨fun hloose => ?_, ?_⟩).of_calls ?_
  · rw [List.filterMap_flatMap, List.append_nil]
  · obtain ⟨t, ht, hloose⟩ := isLoose_lines hloose
    obtain ⟨v, hv, hlocal⟩ := exists_of_mem_right hts ht
    obtain ⟨e, he, hatomics⟩ := (Option.any_eq_true _ _).1 (hlocal.1 hloose)
    rw [Shader.needsAtomics, hstmt]
    exact List.any_eq_true.2 ⟨e, List.mem_filterMap.2 ⟨v, hv, he⟩, hatomics⟩
  · rw [Stmt.events, eventsAll_eq_flatMap]
    exact forall₂_flatMap hts fun _ _ ht => ht.2

theorem adds_lowerValue (h : s.WellFormed) {id : StmtId} {e : ExprId} {view : Expr → Stmt}
    (hneeds : s.needsAtomics id = s.hasAtomics e) (hview : ∀ x, (view x).isLoose = false)
    (hevents : ∀ x, (view x).events = [.evaluate x]) :
    Adds temp known (do
      let hoisted ← s.hoistAtomics s.storageFields e
      return Shader.behind hoisted (view (← s.lowerExpr s.storageFields e)))
      ((s.ahead e).filterMap Duty.call?) (s.Fulfils temp id (s.ahead e)) := by
  refine (adds_bind (adds_hoistAtomics h e) fun hoisted =>
    adds_bind (adds_lowerExpr e) fun x => adds_pure fun hx hhoisted => ?_).of_calls ?_
  · refine fulfils_behind hneeds hhoisted (hview x) ?_
    rw [hevents]
    exact .cons (Shader.nearlyMet_evaluate hx (List.subset_append_left _ _)) .nil
  · rw [Shader.filterMap_ahead, List.nil_append, List.append_nil]

section

variable {depth : Nat} {id : StmtId}
  (ih : ∀ id known, Adds temp known (s.lowerStmtWithin s.storageFields depth id)
    ((s.dutiesWithin depth id).filterMap Duty.call?)
    (s.Fulfils temp id (s.dutiesWithin depth id)))
include ih

theorem adds_branch (h : s.WellFormed) {hints : FlowHints} {c : ExprId} {onTrue : StmtId}
    {onFalse : Option StmtId} (hstmt : s.stmt id = .branch hints c onTrue onFalse)
    (known : List ExprId) :
    Adds temp known (s.lowerStmtWithin s.storageFields (depth + 1) id)
      ((s.dutiesWithin (depth + 1) id).filterMap Duty.call?)
      (s.Fulfils temp id (s.dutiesWithin (depth + 1) id)) := by
  have hneeds : s.needsAtomics id = s.hasAtomics c := by rw [Shader.needsAtomics, hstmt]
  have hfalse (known : List ExprId) :
      Adds temp known (onFalse.mapM (s.lowerBody (s.lowerStmtWithin s.storageFields depth)))
        _ _ :=
    adds_option fun b _ => adds_lowerBody ih b
  unfold Shader.dutiesWithin Shader.lowerStmtWithin
  rw [hstmt]
  simp only [List.flatMap_singleton]
  refine (adds_bind (adds_hoistAtomics h c) fun hoisted => adds_bind (adds_lowerExpr c)
    fun x => adds_bind (adds_lowerBody ih onTrue) fun t => adds_bind (hfalse _) fun f =>
      adds_pure fun hf ht hx hhoisted => ?_).of_calls ?_
  · rw [Shader.ahead, List.append_assoc]
    refine fulfils_behind hneeds hhoisted rfl ?_
    rw [events_branch]
    exact .cons (Shader.nearlyMet_evaluate hx (List.subset_append_left _ _))
      (List.rel_append ht (forall₂_flatMap hf fun _ _ hb => hb))
  · rw [List.filterMap_append, Shader.filterMap_ahead, List.filterMap_append,
      List.filterMap_flatMap, List.nil_append, List.append_nil]

theorem adds_whileLoop (h : s.WellFormed) {hints : FlowHints} {c b : StmtId}
    (hstmt : s.stmt id = .whileLoop hints c b) (known : List ExprId) :
    Adds temp known (s.lowerStmtWithin s.storageFields (depth + 1) id)
      ((s.dutiesWithin (depth + 1) id).filterMap Duty.call?)
      (s.Fulfils temp id (s.dutiesWithin (depth + 1) id)) := by
  unfold Shader.dutiesWithin Shader.lowerStmtWithin
  rw [hstmt]
  dsimp only
  cases hguard : s.guard? c with
  | some e =>
      refine (adds_bind (adds_lowerGuarded ih h e b) fun t => adds_pure fun ht =>
        fulfils_tight rfl (.cons (Shader.MetBy.given _).nearly ht)).of_calls ?_
      rw [List.append_nil]
      rfl
  | none =>
      simp only [List.flatMap_singleton]
      refine (adds_bind (adds_lowerCondition hguard) fun header =>
        adds_bind (adds_lowerBody ih b) fun t => adds_pure fun ht hheader =>
          fulfils_tight rfl (List.rel_append hheader ht)).of_calls ?_
      rw [List.append_nil, List.filterMap_append]

theorem adds_forLoop (h : s.WellFormed) {hints : FlowHints} {start : Option StmtId}
    {c step : Option ExprId} {b : StmtId} (hstmt : s.stmt id = .forLoop hints start c step b)
    (known : List ExprId) :
    Adds temp known (s.lowerStmtWithin s.storageFields (depth + 1) id)
      ((s.dutiesWithin (depth + 1) id).filterMap Duty.call?)
      (s.Fulfils temp id (s.dutiesWithin (depth + 1) id)) := by
  unfold Shader.dutiesWithin Shader.lowerStmtWithin
  rw [hstmt]
  dsimp only
  cases hguard : c.filter s.hasAtomics with
  | some e =>
      refine (adds_bind (adds_start start) fun start => adds_bind (adds_step step) fun x =>
        adds_bind (adds_lowerGuarded ih h e b) fun t => adds_pure fun ht hx hstart =>
          fulfils_tight rfl ?_).of_calls ?_
      · rw [Stmt.events, List.map_append, List.append_assoc]
        exact List.rel_append hstart (List.rel_append hx ht)
      · dsimp only
        rw [List.filterMap_append, List.filterMap_append, List.append_nil]
  | none =>
      simp only [List.flatMap_singleton]
      refine (adds_bind (adds_start start) fun start =>
        adds_bind (adds_quietOption hguard) fun x => adds_bind (adds_step step) fun y =>
          adds_bind (adds_lowerBody ih b) fun t => adds_pure fun ht hy hx hstart =>
            fulfils_tight rfl ?_).of_calls ?_
      · rw [Stmt.events, List.map_append, List.map_append, List.append_assoc, List.append_assoc]
        exact List.rel_append hstart (List.rel_append hx (List.rel_append hy ht))
      · rw [List.filterMap_append, List.filterMap_append, List.filterMap_append, List.append_nil]

end

theorem adds_lowerStmtWithin (h : s.WellFormed) (depth : Nat) (id : StmtId)
    (known : List ExprId) :
    Adds temp known (s.lowerStmtWithin s.storageFields depth id)
      ((s.dutiesWithin depth id).filterMap Duty.call?)
      (s.Fulfils temp id (s.dutiesWithin depth id)) := by
  induction depth generalizing id known with
  | zero => exact adds_pure (fulfils_tight rfl .nil)
  | succ depth ih =>
      cases hstmt : s.stmt id
      case branch => exact adds_branch ih h hstmt known
      case whileLoop => exact adds_whileLoop ih h hstmt known
      case forLoop => exact adds_forLoop ih h hstmt known
      all_goals
        unfold Shader.dutiesWithin Shader.lowerStmtWithin
        rw [hstmt]
        dsimp only
      case block stmts =>
        exact (adds_bind (adds_lowerAll ih stmts) fun ts => adds_pure fun hts =>
          fulfils_tight rfl hts).of_calls (List.append_nil _)
      case declaration vars => exact adds_lowerLocals h hstmt
      case expression e =>
        have hneeds : s.needsAtomics id = s.hasAtomics e := by rw [Shader.needsAtomics, hstmt]
        exact adds_lowerValue h hneeds (fun _ => rfl) fun _ => rfl
      case returnValue value =>
        cases value with
        | none => exact adds_pure (fulfils_tight rfl .nil)
        | some e =>
            have hneeds : s.needsAtomics id = s.hasAtomics e := by
              rw [Shader.needsAtomics, hstmt]
            exact adds_lowerValue h hneeds (fun _ => rfl) fun _ => rfl
      case switch hints c stmts =>
        have hneeds : s.needsAtomics id = s.hasAtomics c := by rw [Shader.needsAtomics, hstmt]
        refine (adds_bind (adds_hoistAtomics h c) fun hoisted => adds_bind (adds_lowerExpr c)
          fun x => adds_bind (adds_lowerAll ih stmts) fun ts =>
            adds_pure fun hts hx hhoisted => ?_).of_calls ?_
        · rw [Shader.ahead, List.append_assoc]
          exact fulfils_behind hneeds hhoisted rfl <|
            .cons (Shader.nearlyMet_evaluate hx (List.subset_append_left _ _))
              (Shader.nearlyMet_inBody rfl hts)
        · rw [List.filterMap_append, Shader.filterMap_ahead, Shader.filterMap_body,
            List.nil_append, List.append_nil]
      case label value =>
        rw [Shader.filterMap_others fun _ => rfl]
        exact adds_bind (adds_lowerOption value) fun x => adds_pure fun hx =>
          fulfils_tight rfl (Shader.nearlyMet_asides hx)
      case doLoop hints b c =>
        simp only [List.flatMap_singleton]
        refine (adds_bind (adds_lowerBody ih b) fun t => adds_bind (adds_nothing c) fun x =>
          adds_pure fun _ ht => fulfils_tight rfl ?_).of_calls ?_
        · exact List.rel_append ht (.cons (Shader.MetBy.inPlace c x).nearly .nil)
        · rw [List.filterMap_append]
          rfl
      case rayJump j =>
        exact adds_pure (fulfils_tight rfl (.cons (Shader.MetBy.given _).nearly .nil))
      all_goals exact adds_pure (fulfils_tight rfl .nil)

/-! ### Functions -/

theorem nearlyMet_copyInputs :
    List.Forall₂ (s.NearlyMet temp) Shader.inputDuties (Stmt.eventsAll Shader.copyInputs) := by
  have hevents : Stmt.eventsAll Shader.copyInputs =
      (Stmt.sitesAll Shader.copyInputs).map fun site => .evaluate site.expr := rfl
  rw [Shader.inputDuties, hevents, List.forall₂_map_left_iff, List.forall₂_map_right_iff]
  exact List.forall₂_same.2 fun site _ => (Shader.MetBy.given site.expr).nearly

theorem adds_lowerParam (v : VarId) :
    Adds temp known (s.lowerParam s.storageFields v) [] fun _ => True :=
  adds_of_gives (grows_lowerParam v) (fun _ => gives_lowerParam v) fun _ _ _ => trivial

theorem adds_lowerFunctionBody (h : s.WellFormed) (f : Function) (body : List StmtId) :
    Adds temp known (do
      return (if s.isComputeEntry f then Shader.copyInputs else []) ++
        (← body.mapM (s.lowerStmt s.storageFields)))
      ((body.flatMap (s.dutiesWithin (s.stmts.size + 1))).filterMap Duty.call?) fun ts =>
      List.Forall₂ (s.NearlyMet temp) ((if s.isComputeEntry f then Shader.inputDuties else []) ++
        body.flatMap (s.dutiesWithin (s.stmts.size + 1))) (Stmt.eventsAll ts) := by
  have hstmts : Adds temp known (body.mapM (s.lowerStmt s.storageFields)) _ _ :=
    adds_lowerAll (adds_lowerStmtWithin h (s.stmts.size + 1)) body
  refine (adds_bind hstmts fun ts => adds_pure fun hts => ?_).of_calls (List.append_nil _)
  rw [eventsAll_eq_flatMap, List.flatMap_append, ← eventsAll_eq_flatMap, ← eventsAll_eq_flatMap]
  refine List.rel_append ?_ hts
  split
  · exact nearlyMet_copyInputs
  · exact .nil

theorem adds_lowerFunction (h : s.WellFormed) (id : FuncId) :
    Adds temp known (s.lowerFunction s.storageFields id)
      ((s.functionDuties id).filterMap Duty.call?) fun p =>
      List.Forall₂ (s.NearlyMet temp) (s.functionDuties id) p.events := by
  unfold Shader.functionDuties Shader.lowerFunction
  dsimp only
  split
  · exact adds_pure .nil
  · have hparams : Adds temp known ((s.func id).params.mapM (s.lowerParam s.storageFields)) [] _ :=
      adds_values fun v _ => adds_lowerParam v
    cases (s.func id).body with
    | none =>
        have hnone : Adds temp ([] ++ known) (pure none) [] fun body : Option (List Stmt) =>
            body = none := adds_pure rfl
        refine adds_bind hparams fun params => adds_bind hnone fun body => adds_pure ?_
        rintro rfl -
        exact .nil
    | some body =>
        have hstmts : Adds temp ([] ++ known) _ _ _ := adds_lowerFunctionBody h (s.func id) body
        have hsome : Adds temp ([] ++ known) _ _ fun b : Option (List Stmt) =>
            ∃ ts, b = some ts ∧ List.Forall₂ (s.NearlyMet temp) _ (Stmt.eventsAll ts) :=
          adds_map (hstmts.imp fun ts hts => ⟨ts, rfl, hts⟩)
        refine (adds_bind hparams fun params => adds_bind hsome fun body => adds_pure ?_).of_calls
          ?_
        · rintro ⟨ts, rfl, hts⟩ -
          rw [Program.events, List.flatMap_singleton]
          exact hts
        · have hinputs : (if s.isComputeEntry (s.func id) then Shader.inputDuties
              else []).filterMap Duty.call? = [] := by
            split
            · exact Shader.filterMap_others (fun _ => rfl) _
            · rfl
          rw [List.filterMap_append, hinputs]
          simp

end Hlsl

end ShaderBridge

/-! ## Calls that are carried out -/

namespace ShaderBridge

open Hlsl

namespace Shader

variable {s : Shader} {buffers : List ByteBuffer}

end Shader

namespace Hlsl

variable {s : Shader} {calls : List ExprId} {e : ExprId}

end Hlsl

end ShaderBridge
