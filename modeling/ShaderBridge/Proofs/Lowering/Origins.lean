import ShaderBridge.Proofs.Lowering.Mentions
import ShaderBridge.Proofs.Shader.References

namespace ShaderBridge

open Hlsl

/-! ### The source -/

namespace Shader

variable (s : Shader)

def varOrigins (v : VarId) : List Origin :=
  .type (s.var v).type :: (s.declaratorExprs v).map .expr

/-- What a statement is written from. -/
inductive StandsIn : Origin → StmtId → Prop where
  | expr {t : StmtId} {e : ExprId} : .expr e ∈ (s.stmt t).references → StandsIn (.expr e) t
  | declared {t : StmtId} {v : VarId} {o : Origin} :
      .var v ∈ (s.stmt t).references → o ∈ s.varOrigins v → StandsIn o t
  | jump {t : StmtId} {j : RayJump} :
      s.stmt t = .rayJump j → StandsIn (.given (.call j.hlslName [])) t
  | inner {t u : StmtId} {o : Origin} :
      .stmt u ∈ (s.stmt t).references → StandsIn o u → StandsIn o t

/-- What the entry point of a compute shader mentions to copy its inputs. -/
def inputMentions : List Mention :=
  .type inputRecord :: Stmt.mentionsAll copyInputs

/-- What a declaration is written from. -/
def WrittenFrom : Subject → Origin → Prop
  | .fixed _, o => ∃ m ∈ computeDecls.flatMap Decl.mentions, o = .given m
  | .global v, o | .samplerState v, o => o ∈ s.varOrigins v
  | .record d, o | .constants d, o => ∃ f ∈ (s.struct d).fields, o ∈ s.varOrigins f
  | .storage _, _ => False
  | .accessor buffer, o => o = .type (s.var buffer.field).type ∨ o = .buffer buffer
  | .function f, o =>
    o = .type (s.func f).returnType ∨ (∃ p ∈ (s.func f).params, o ∈ s.varOrigins p) ∨
      (∃ body t, (s.func f).body = some body ∧ t ∈ body ∧ s.StandsIn o t) ∨
      s.isComputeEntry (s.func f) = true ∧ ∃ m ∈ inputMentions, o = .given m

end Shader

namespace Hlsl

/-- All mentions are accounted for by parts of the source. -/
def Accounts (s : Shader) (buffers : List ByteBuffer) (P : Origin → Prop) (ms : List Mention) :
    Prop :=
  ∀ m ∈ ms, ∃ o, P o ∧ s.Yields buffers o m

/-- The field that a subject is the accessor of. -/
def Subject.buffer? : Subject → Option ByteBuffer
  | .accessor buffer => some buffer
  | _ => none

/-- A parameter, followed by the state of a combined sampler. The state has no dimensions. -/
def ParamShape (s : Shader) (id : VarId) (params : List Param) : Prop :=
  ∃ texture : Param, texture.dims.length = (s.var id).dims.length ∧
    params = texture :: ((samplerStateType? (s.var id).type).map fun type =>
      ({ type, name := samplerName (s.var id).name } : Param)).toList

/-- What the entry point of a compute shader is passed in front of its own parameters. -/
def entryParams (s : Shader) (f : Function) : List Param :=
  if s.isComputeEntry f then [{ type := Shader.inputRecord, name := Shader.inputParam }] else []

/-- How a sampler state and a function are declared. -/
def Shape (s : Shader) : Subject → Decl → Prop
  | .samplerState id, d => ∃ state declarator register, d = .global [] state declarator register ∧
      (s.var id).global?.isSome ∧ samplerStateType? (s.var id).type = some state ∧
      declarator.dims.length = (s.var id).dims.length
  | .function id, d => ∃ threads returnType name groups body,
      d = .function threads returnType name (entryParams s (s.func id) ++ groups.flatten) body ∧
      List.Forall₂ (ParamShape s) (s.func id).params groups
  | _, _ => True

/-- A declaration belongs to a subject, and mentions what is mentioned for what the subject is
written from. -/
structure Belongs (s : Shader) (buffers : List ByteBuffer) (subject : Subject) (d : Decl) :
    Prop where
  head : d.head = s.headOf subject
  mentions : Accounts s buffers (s.WrittenFrom subject) d.mentions
  shape : Shape s subject d

/-- The declarations of a program belong to the given subjects one by one, where the fields that are
known are those of the accessors in front. -/
inductive Tells (s : Shader) : List ByteBuffer → List Subject → Program → Prop where
  | nil (buffers : List ByteBuffer) : Tells s buffers [] []
  | cons {buffers : List ByteBuffer} {subject : Subject} {subjects : List Subject} {d : Decl}
      {p : Program} :
      Belongs s buffers subject d → Tells s (buffers ++ subject.buffer?.toList) subjects p →
      Tells s buffers (subject :: subjects) (d :: p)

variable {s : Shader} {buffers : List ByteBuffer} {P : Origin → Prop} {α β : Type}

/-! ### What is accounted for -/

theorem accounts_nil : Accounts s buffers P [] :=
  fun _ hm => absurd hm List.not_mem_nil

theorem Accounts.append {ms ms' : List Mention} (h : Accounts s buffers P ms)
    (h' : Accounts s buffers P ms') : Accounts s buffers P (ms ++ ms') :=
  List.forall_mem_append.2 ⟨h, h'⟩

theorem Accounts.cons {o : Origin} {m : Mention} {ms : List Mention} (ho : P o)
    (hm : s.Yields buffers o m) (h : Accounts s buffers P ms) : Accounts s buffers P (m :: ms) :=
  List.forall_mem_cons.2 ⟨⟨o, ho, hm⟩, h⟩

theorem accounts_flatMap {l : List α} {l' : List β} {R : α → β → Prop} {f : β → List Mention}
    (h : List.Forall₂ R l l')
    (hf : ∀ a ∈ l, ∀ b, R a b → Accounts s buffers P (f b)) :
    Accounts s buffers P (l'.flatMap f) := by
  intro m hm
  obtain ⟨b, hb, hm⟩ := List.mem_flatMap.1 hm
  obtain ⟨a, ha, hab⟩ := exists_of_mem_right h hb
  exact hf a ha b hab m hm

theorem WrittenFor.accounts {e : ExprId} {x : Expr} (h : WrittenFor s buffers e x)
    (he : P (.expr e)) : Accounts s buffers P x.mentions :=
  fun m hm => ⟨.expr e, he, h m hm⟩

/-! ### Expressions and declarators -/

theorem always_lowerExpr {e : ExprId} (he : P (.expr e)) :
    Always (s.lowerExpr buffers e) fun x => Accounts s buffers P x.mentions :=
  fun state => (always_writtenFor e state).accounts he

theorem always_lowerOption {o : Option ExprId} (ho : ∀ e ∈ o, P (.expr e)) :
    Always (o.mapM (s.lowerExpr buffers)) fun x =>
      Accounts s buffers P (x.toList.flatMap Expr.mentions) :=
  fun state => accounts_flatMap (always_option (fun e he => always_lowerExpr (ho e he)) state)
    fun _ _ _ h => h

theorem always_lowerDims {dims : List (Option ExprId)}
    (hdims : ∀ e ∈ dims.flatMap Option.toList, P (.expr e)) :
    Always (s.lowerDims buffers dims) fun ds => Accounts s buffers P (dimsMentions ds) := by
  have hdim : ∀ dim ∈ dims, Always (dim.mapM (s.lowerExpr buffers)) fun x =>
      Accounts s buffers P (x.toList.flatMap Expr.mentions) := fun dim hdim =>
    always_lowerOption fun e he => hdims e (List.mem_flatMap.2 ⟨dim, hdim, Option.mem_toList.2 he⟩)
  exact fun state => accounts_flatMap (always_forall₂ hdim state) fun _ _ _ h => h

theorem always_length_lowerDims (dims : List (Option ExprId)) :
    Always (s.lowerDims buffers dims) fun ds => ds.length = dims.length :=
  fun state => (always_forall₂ (P := fun _ _ => True) (fun _ _ _ => trivial) state).length_eq.symm

section

variable {v : VarId} (hv : ∀ o ∈ s.varOrigins v, P o)
include hv

theorem originOfType : P (.type (s.var v).type) :=
  hv _ List.mem_cons_self

theorem originOfExpr {e : ExprId} (he : e ∈ s.declaratorExprs v) : P (.expr e) :=
  hv _ (List.mem_cons_of_mem _ (List.mem_map_of_mem he))

theorem originOfDim {e : ExprId} (he : e ∈ (s.var v).dims.flatMap Option.toList) : P (.expr e) :=
  originOfExpr hv (List.mem_append_left _ he)

theorem always_lowerDeclarator_mentions :
    Always (s.lowerDeclarator buffers v) fun d => Accounts s buffers P d.mentions := by
  have hinitial : ∀ e ∈ (s.var v).initial?, P (.expr e) := fun e he =>
    originOfExpr hv (List.mem_append_right _ (Option.mem_toList.2 he))
  refine always_bind (always_lowerDims fun e => originOfDim hv) fun dims hdims => ?_
  exact always_bind (always_lowerOption hinitial) fun initial hinitial =>
    always_pure (Accounts.append hdims hinitial)

end

/-! ### Atomic calls -/

theorem always_hoistCall {e : ExprId} {name : String} {args : List ExprId} {target : Option FuncId}
    (hexpr : s.expr e = .call name args target) (hatomic : Intrinsic.isAtomic name = true) :
    Always (s.hoistCall buffers e name args) fun t =>
      ∀ m ∈ t.mentions, s.Yields buffers (.expr e) m := by
  have hargs : ∀ a ∈ args, ∃ level, s.Holds level e a := fun a ha =>
    holds_of_operand (by rwa [hexpr, ShaderBridge.Expr.operands])
  have hvalues {es : List ExprId} {xs : List Expr} (hes : es ⊆ args)
      (h : List.Forall₂ (WrittenFor s buffers) es xs) :
      ∀ m ∈ Expr.mentionsAll xs, s.Yields buffers (.expr e) m :=
    yields_of_mem_mentionsAll (fun o ho => hargs o (hes ho)) h
  intro state
  -- Whatever is carried out mentions its arguments besides what it does.
  have hall {temp : Nat} {function : String} {xs : List Expr}
      (ht : ((s.hoistCall buffers e name args).run state).1 =
        .atomic temp (s.hlslDeclaredType (atomicTarget s args)) function xs)
      (hxs : ∀ m ∈ Expr.mentionsAll xs, s.Yields buffers (.expr e) m) :
      ∀ m ∈ ((s.hoistCall buffers e name args).run state).1.mentions,
        s.Yields buffers (.expr e) m := by
    intro m hm
    rw [ht, Stmt.mentions] at hm
    rcases List.mem_cons.1 hm with rfl | hm
    · exact yields_of_makes (.result hexpr hatomic)
    rcases List.mem_cons.1 hm with rfl | hm
    · exact yields_of_makes (.carried state hexpr hatomic ht)
    · exact hxs m hm
  have hcarried : CarriedAs s buffers (WrittenFor s buffers) name args _ :=
    always_carriedAs always_writtenFor e name args state
  generalize ht : ((s.hoistCall buffers e name args).run state).1 = t at hcarried
  cases hcarried with
  | named _ hxs => exact ht ▸ hall ht (hvalues (List.Subset.refl args) hxs)
  | @addressed temp access terms values haccess hterms hxs =>
      obtain ⟨first, hfirst, haccess⟩ := Option.bind_eq_some_iff.1 haccess
      obtain ⟨level, hholds⟩ := hargs first (List.mem_of_head? hfirst)
      refine ht ▸ hall ht fun m hm => ?_
      have haddress : (Shader.atomicAddress terms access.offset).mentions =
          terms.flatMap Expr.mentions :=
        collect_atomicAddress (fun _ => rfl) (fun _ _ _ => rfl) terms _
      rw [Expr.mentionsAll, List.mem_append, haddress] at hm
      rcases hm with hm | hm
      · obtain ⟨x, hx, hm⟩ := List.mem_flatMap.1 hm
        obtain ⟨term, hterm, i, rfl, hi⟩ := exists_of_mem_right hterms hx
        obtain ⟨depth, hterm⟩ := Shader.holds_of_mem_terms haccess hterm
        exact yields_of_holds (hholds.trans hterm) (hi m hm)
      · exact hvalues (List.tail_subset args) hxs m hm

theorem always_hoistAtomics {e : ExprId} (he : P (.expr e)) :
    Always (s.hoistAtomics buffers e) fun ts => Accounts s buffers P (Stmt.mentionsAll ts) := by
  refine always_bind (always_forall₂ (P := fun _ ts =>
      Accounts s buffers P (Stmt.mentionsAll ts)) fun call hmem => ?_)
    fun groups hgroups => always_pure fun m hm => ?_
  · obtain ⟨⟨level, hholds⟩, name, args, target, hexpr, hatomic⟩ := Shader.atomicCall_of_mem hmem
    simp only [hexpr]
    refine always_bind (always_hoistCall hexpr hatomic) fun t ht => always_pure fun m hm => ?_
    rw [Stmt.mentionsAll, Stmt.mentionsAll, List.append_nil] at hm
    exact ⟨.expr e, he, yields_of_holds hholds (ht m hm)⟩
  obtain ⟨t, ht, hm⟩ := mem_stmtMentionsAll.1 hm
  obtain ⟨ts, hts, ht⟩ := List.mem_flatten.1 ht
  obtain ⟨call, -, haccounts⟩ := exists_of_mem_right hgroups hts
  exact haccounts m (mem_stmtMentionsAll.2 ⟨t, ht, hm⟩)

/-! ### Statements -/

theorem Accounts.behind {calls : List Stmt} {t : Stmt}
    (hcalls : Accounts s buffers P (Stmt.mentionsAll calls))
    (ht : Accounts s buffers P t.mentions) :
    Accounts s buffers P (Shader.behind calls t).mentions := by
  unfold Shader.behind
  split
  · exact ht
  · intro m hm
    obtain ⟨u, hu, hm⟩ := mem_stmtMentionsAll.1 hm
    rcases List.mem_append.1 hu with hu | hu
    · exact hcalls m (mem_stmtMentionsAll.2 ⟨u, hu, hm⟩)
    · exact ht m (List.mem_singleton.1 hu ▸ hm)

theorem accounts_statements {ts : List Stmt} (h : ∀ t ∈ ts, Accounts s buffers P t.mentions) :
    Accounts s buffers P (Stmt.mentionsAll ts) := by
  intro m hm
  obtain ⟨t, ht, hm⟩ := mem_stmtMentionsAll.1 hm
  exact h t ht m hm

theorem always_lowerLocal {v : VarId} (hv : ∀ o ∈ s.varOrigins v, P o) :
    Always (s.lowerLocal buffers v) fun t => Accounts s buffers P t.mentions := by
  have hdeclare {calls : List Stmt} (hcalls : Accounts s buffers P (Stmt.mentionsAll calls)) :
      Always (do
        let declarator ← s.lowerDeclarator buffers v
        return Shader.behind calls (.declaration (s.var v).flags.constant
          (s.hlslDeclaredType (s.var v).type) declarator)) fun t =>
        Accounts s buffers P t.mentions :=
    always_bind (always_lowerDeclarator_mentions hv) fun d hd =>
      always_pure (hcalls.behind (hd.cons (originOfType hv) (.type _)))
  unfold Shader.lowerLocal
  dsimp only
  cases hinitial : (s.var v).initial? with
  | none => exact always_bind (always_pure accounts_nil) fun _ => hdeclare
  | some e =>
      have he : P (.expr e) := originOfExpr hv (List.mem_append_right _ (by simp [hinitial]))
      exact always_bind (always_hoistAtomics he) fun _ => hdeclare

theorem always_lowerHeader {t : StmtId} (ht : ∀ o, s.StandsIn o t → P o) :
    Always (s.lowerHeader buffers t) fun h => Accounts s buffers P h.mentions := by
  unfold Shader.lowerHeader
  cases hstmt : s.stmt t with
  | declaration vars =>
      have hvar (v : VarId) (hv : v ∈ vars) (o : Origin) (ho : o ∈ s.varOrigins v) : P o :=
        ht o (.declared (by rw [hstmt]; exact List.mem_map_of_mem hv) ho)
      refine always_bind (always_forall₂ fun v hv => always_lowerDeclarator_mentions (hvar v hv))
        fun ds hds => always_pure ?_
      cases hds with
      | nil => exact accounts_nil
      | @cons v d vars ds hd hrest =>
          refine Accounts.cons (originOfType (hvar v List.mem_cons_self)) (.type _) ?_
          exact hd.append (accounts_flatMap hrest fun _ _ _ h => h)
  | expression e =>
      exact always_lowerExpr (ht _ (.expr (by rw [hstmt]; exact List.mem_singleton_self _)))
  | _ => exact always_pure accounts_nil

theorem always_lowerStart {start : Option StmtId} (h : ∀ t ∈ start, ∀ o, s.StandsIn o t → P o) :
    Always (s.lowerStart buffers start) fun h => Accounts s buffers P h.mentions := by
  cases start with
  | none => exact always_pure accounts_nil
  | some t => exact always_lowerHeader (h t rfl)

section

variable {lower : StmtId → LowerM Stmt} {t : StmtId}

theorem always_lowerBody (h : Always (lower t) fun u => Accounts s buffers P u.mentions) :
    Always (s.lowerBody lower t) fun u => Accounts s buffers P u.mentions := by
  refine always_bind h fun u hu => always_pure ?_
  split
  · exact accounts_statements fun v hv => List.mem_singleton.1 hv ▸ hu
  · exact hu

theorem always_lowerAllStmts {ts : List StmtId}
    (h : ∀ t ∈ ts, Always (lower t) fun u => Accounts s buffers P u.mentions) :
    Always (ts.mapM lower) fun us => Accounts s buffers P (Stmt.mentionsAll us) := by
  refine fun state => accounts_statements fun u hu => ?_
  obtain ⟨t, -, hu⟩ := exists_of_mem_right (always_forall₂ h state) hu
  exact hu

theorem always_lowerGuarded {e : ExprId} (he : P (.expr e))
    (h : ∀ u ∈ s.blockBody t, Always (lower u) fun v => Accounts s buffers P v.mentions) :
    Always (s.lowerGuarded buffers lower e t) fun u => Accounts s buffers P u.mentions := by
  refine always_bind (always_hoistAtomics he) fun calls hcalls => ?_
  refine always_bind (always_lowerExpr he) fun test htest => ?_
  refine always_bind (always_lowerAllStmts h) fun body hbody => always_pure ?_
  refine Accounts.append (hcalls.behind ?_) hbody
  rw [Stmt.mentions, mentions_asOperand]
  exact htest

end

theorem expr_of_guard? {c : StmtId} {e : ExprId} (h : s.guard? c = some e) :
    .expr e ∈ (s.stmt c).references := by
  unfold Shader.guard? at h
  split at h
  · next e' hstmt =>
      split at h
      · cases h
        rw [hstmt]
        exact List.mem_singleton_self _
      · cases h
  · cases h

section

variable {depth : Nat} {t : StmtId}
  (ih : ∀ {t}, (∀ o, s.StandsIn o t → P o) →
    Always (s.lowerStmtWithin buffers depth t) fun u => Accounts s buffers P u.mentions)
  (ht : ∀ o, s.StandsIn o t → P o)
include ih ht

theorem always_lowerInner {u : StmtId} (hu : .stmt u ∈ (s.stmt t).references) :
    Always (s.lowerStmtWithin buffers depth u) fun v => Accounts s buffers P v.mentions :=
  ih fun _ ho => ht _ (.inner hu ho)

theorem always_lowerBlockBody {u : StmtId} (hu : .stmt u ∈ (s.stmt t).references) :
    ∀ v ∈ s.blockBody u,
      Always (s.lowerStmtWithin buffers depth v) fun w => Accounts s buffers P w.mentions := by
  intro v hv
  unfold Shader.blockBody at hv
  split at hv
  · next body hbody =>
      refine ih fun o ho => ht o (.inner hu (.inner ?_ ho))
      rw [hbody]
      exact List.mem_map_of_mem hv
  · exact List.mem_singleton.1 hv ▸ always_lowerInner ih ht hu

theorem always_branch {hints : FlowHints} {c : ExprId} {onTrue : StmtId} {onFalse : Option StmtId}
    (hstmt : s.stmt t = .branch hints c onTrue onFalse) :
    Always (s.lowerStmtWithin buffers (depth + 1) t) fun u => Accounts s buffers P u.mentions := by
  have hc : P (.expr c) := ht _ (.expr (by simp [hstmt, ShaderBridge.Stmt.references]))
  have htrue := always_lowerBody (always_lowerInner ih ht (u := onTrue)
    (by simp [hstmt, ShaderBridge.Stmt.references]))
  have hfalse : Always (onFalse.mapM (s.lowerBody (s.lowerStmtWithin buffers depth)))
      fun u => ∀ v ∈ u, Accounts s buffers P v.mentions := by
    cases onFalse with
    | none => exact always_pure (by simp)
    | some f =>
        refine always_map fun state => ?_
        simpa using always_lowerBody (always_lowerInner ih ht (u := f)
          (by simp [hstmt, ShaderBridge.Stmt.references])) state
  unfold Shader.lowerStmtWithin
  rw [hstmt]
  refine always_bind (always_hoistAtomics hc) fun calls hcalls => ?_
  refine always_bind (always_lowerExpr hc) fun x hx => ?_
  refine always_bind htrue fun y hy => always_bind hfalse fun z hz => always_pure ?_
  refine hcalls.behind ?_
  cases z with
  | none => exact hx.append hy
  | some z => exact hx.append (hy.append (hz z rfl))

theorem always_whileLoop {hints : FlowHints} {c body : StmtId}
    (hstmt : s.stmt t = .whileLoop hints c body) :
    Always (s.lowerStmtWithin buffers (depth + 1) t) fun u => Accounts s buffers P u.mentions := by
  have hbody : .stmt body ∈ (s.stmt t).references := by
    simp [hstmt, ShaderBridge.Stmt.references]
  have hcondition (o : Origin) (ho : s.StandsIn o c) : P o :=
    ht o (.inner (by simp [hstmt, ShaderBridge.Stmt.references]) ho)
  unfold Shader.lowerStmtWithin
  rw [hstmt]
  dsimp only
  cases hguard : s.guard? c with
  | some e =>
      have he : P (.expr e) := hcondition _ (.expr (expr_of_guard? hguard))
      exact always_bind (always_lowerGuarded he (always_lowerBlockBody ih ht hbody))
        fun x hx => always_pure hx
  | none =>
      refine always_bind (always_lowerHeader hcondition) fun h hh => ?_
      exact always_bind (always_lowerBody (always_lowerInner ih ht hbody)) fun x hx =>
        always_pure (hh.append hx)

theorem always_forLoop {hints : FlowHints} {start : Option StmtId} {c step : Option ExprId}
    {body : StmtId} (hstmt : s.stmt t = .forLoop hints start c step body) :
    Always (s.lowerStmtWithin buffers (depth + 1) t) fun u => Accounts s buffers P u.mentions := by
  have hbody : .stmt body ∈ (s.stmt t).references := by
    simp [hstmt, ShaderBridge.Stmt.references]
  have hstart (u : StmtId) (hu : u ∈ start) (o : Origin) (ho : s.StandsIn o u) : P o :=
    ht o (.inner (by simp [hstmt, ShaderBridge.Stmt.references, Option.mem_def.1 hu]) ho)
  have hc (e : ExprId) (he : e ∈ c) : P (.expr e) :=
    ht _ (.expr (by simp [hstmt, ShaderBridge.Stmt.references, Option.mem_def.1 he]))
  have hstep (e : ExprId) (he : e ∈ step) : P (.expr e) :=
    ht _ (.expr (by simp [hstmt, ShaderBridge.Stmt.references, Option.mem_def.1 he]))
  unfold Shader.lowerStmtWithin
  rw [hstmt]
  refine always_bind (always_lowerStart hstart) fun h hh => ?_
  cases hguard : c.filter s.hasAtomics with
  | some e =>
      have he : P (.expr e) := hc e (Option.filter_eq_some_iff.1 hguard).1
      refine always_bind (always_lowerOption hstep) fun x hx => ?_
      exact always_bind (always_lowerGuarded he (always_lowerBlockBody ih ht hbody)) fun y hy =>
        always_pure (hh.append (Accounts.append accounts_nil (hx.append hy)))
  | none =>
      refine always_bind (always_lowerOption hc) fun x hx => ?_
      refine always_bind (always_lowerOption hstep) fun y hy => ?_
      exact always_bind (always_lowerBody (always_lowerInner ih ht hbody)) fun z hz =>
        always_pure (hh.append (hx.append (hy.append hz)))

end

theorem always_lowerStmtWithin (depth : Nat) {t : StmtId} (ht : ∀ o, s.StandsIn o t → P o) :
    Always (s.lowerStmtWithin buffers depth t) fun u => Accounts s buffers P u.mentions := by
  induction depth generalizing t with
  | zero => exact always_pure accounts_nil
  | succ depth ih =>
      have hexpr {y : ShaderBridge.Stmt} (hstmt : s.stmt t = y) (e : ExprId)
          (he : .expr e ∈ y.references) : P (.expr e) :=
        ht _ (.expr (hstmt ▸ he))
      cases hstmt : s.stmt t
      case branch => exact always_branch ih ht hstmt
      case whileLoop => exact always_whileLoop ih ht hstmt
      case forLoop => exact always_forLoop ih ht hstmt
      all_goals
        unfold Shader.lowerStmtWithin
        rw [hstmt]
        dsimp only
      case block body =>
        have hbody (u : StmtId) (hu : u ∈ body) := always_lowerInner ih ht (u := u)
          (by simp [hstmt, ShaderBridge.Stmt.references, hu])
        exact always_bind (always_lowerAllStmts hbody) fun us hus => always_pure hus
      case declaration vars =>
        have hvar (v : VarId) (hv : v ∈ vars) (o : Origin) (ho : o ∈ s.varOrigins v) : P o :=
          ht o (.declared (by simp [hstmt, ShaderBridge.Stmt.references, hv]) ho)
        refine always_bind (always_forall₂ fun v hv => always_lowerLocal (hvar v hv))
          fun us hus => always_pure (accounts_statements fun u hu => ?_)
        obtain ⟨v, -, hu⟩ := exists_of_mem_right hus hu
        exact hu
      case expression e =>
        have he : P (.expr e) := hexpr hstmt e (by simp [ShaderBridge.Stmt.references])
        refine always_bind (always_hoistAtomics he) fun calls hcalls => ?_
        exact always_bind (always_lowerExpr he) fun x hx => always_pure (hcalls.behind hx)
      case switch hints c body =>
        have hc : P (.expr c) := hexpr hstmt c (by simp [ShaderBridge.Stmt.references])
        have hbody (u : StmtId) (hu : u ∈ body) := always_lowerInner ih ht (u := u)
          (by simp [hstmt, ShaderBridge.Stmt.references, hu])
        refine always_bind (always_hoistAtomics hc) fun calls hcalls => ?_
        refine always_bind (always_lowerExpr hc) fun x hx => ?_
        exact always_bind (always_lowerAllStmts hbody) fun us hus =>
          always_pure (hcalls.behind (hx.append hus))
      case label value =>
        have hvalue (e : ExprId) (he : e ∈ value) : P (.expr e) :=
          hexpr hstmt e (by simp [ShaderBridge.Stmt.references, Option.mem_def.1 he])
        exact always_bind (always_lowerOption hvalue) fun x hx => always_pure hx
      case doLoop hints body c =>
        have hc : P (.expr c) := hexpr hstmt c (by simp [ShaderBridge.Stmt.references])
        refine always_bind (always_lowerBody (always_lowerInner ih ht
          (by simp [hstmt, ShaderBridge.Stmt.references]))) fun x hx => ?_
        exact always_bind (always_lowerExpr hc) fun y hy => always_pure (hx.append hy)
      case returnValue value =>
        cases value with
        | none => exact always_pure accounts_nil
        | some e =>
            have he : P (.expr e) := hexpr hstmt e (by simp [ShaderBridge.Stmt.references])
            refine always_bind (always_hoistAtomics he) fun calls hcalls => ?_
            refine always_bind (always_lowerExpr he) fun x hx => always_pure ?_
            exact hcalls.behind (by simpa [Stmt.mentions] using hx)
      case rayJump j =>
        exact always_pure (Accounts.cons (ht _ (.jump hstmt)) (.given _) accounts_nil)
      all_goals exact always_pure accounts_nil

/-! ### Declarations -/

theorem always_lowerField {v : VarId} (hv : ∀ o ∈ s.varOrigins v, P o) :
    Always (s.lowerField buffers v) fun f => Accounts s buffers P f.mentions :=
  always_bind (always_lowerDims fun _ => originOfDim hv) fun _ hdims =>
    always_pure (hdims.cons (originOfType hv) (.type _))

theorem always_lowerFields {fields : List VarId} (h : ∀ v ∈ fields, ∀ o ∈ s.varOrigins v, P o) :
    Always (fields.mapM (s.lowerField buffers)) fun fs =>
      Accounts s buffers P (fs.flatMap Field.mentions) :=
  fun state => accounts_flatMap (always_forall₂ (fun v hv => always_lowerField (h v hv)) state)
    fun _ _ _ h => h

theorem always_belongs_record (id : StructId) :
    Always (s.lowerRecord buffers id) (Belongs s buffers (.record id)) :=
  always_bind (always_lowerFields fun f hf _ ho => ⟨f, hf, ho⟩) fun _ hfields =>
    always_pure ⟨rfl, hfields, trivial⟩

theorem tells_one {subject : Subject} {d : Decl} (h : Belongs s buffers subject d) :
    Tells s buffers [subject] [d] :=
  .cons h (.nil _)

theorem Tells.append {subjects subjects' : List Subject} {p q : Program}
    (hp : Tells s buffers subjects p)
    (hq : Tells s (buffers ++ subjects.filterMap Subject.buffer?) subjects' q) :
    Tells s buffers (subjects ++ subjects') (p ++ q) := by
  induction hp with
  | nil buffers => simpa using hq
  | @cons buffers subject subjects d p hbelongs _ ih =>
      refine .cons hbelongs (ih ?_)
      cases hbuffer : subject.buffer? with
      | none => simpa [hbuffer] using hq
      | some b => simpa [hbuffer] using hq

theorem Tells.behind {subjects subjects' : List Subject} {p q : Program}
    (hp : Tells s buffers subjects p) (hnone : subjects.filterMap Subject.buffer? = [])
    (hq : Tells s buffers subjects' q) : Tells s buffers (subjects ++ subjects') (p ++ q) :=
  hp.append (by rwa [hnone, List.append_nil])

theorem always_tells_mapM {l : List α} {f : α → LowerM Program} {subjects : α → List Subject}
    (hnone : ∀ a, (subjects a).filterMap Subject.buffer? = [])
    (hf : ∀ a, Always (f a) (Tells s buffers (subjects a))) :
    Always (l.mapM f) fun ps => Tells s buffers (l.flatMap subjects) ps.flatten := by
  induction l with
  | nil => exact always_pure (.nil _)
  | cons a rest ih =>
      rw [List.mapM_cons]
      refine always_bind (hf a) fun p hp => always_bind ih fun ps hps => always_pure ?_
      exact hp.behind (hnone a) hps

theorem always_tells_global (id : VarId) :
    Always (s.lowerGlobal buffers id) (Tells s buffers (s.globalSubjects id)) := by
  unfold Shader.lowerGlobal Shader.globalSubjects
  dsimp only
  cases hglobal : (s.var id).global? with
  | none => exact always_pure (.nil _)
  | some g =>
      have hown (o : Origin) (ho : o ∈ s.varOrigins id) : s.WrittenFrom (.global id) o := ho
      have hstate : Always (s.lowerSamplerState buffers (s.var id) g) (Tells s buffers
          ((samplerStateType? (s.var id).type).map fun _ => Subject.samplerState id).toList) := by
        unfold Shader.lowerSamplerState
        cases hstate : samplerStateType? (s.var id).type with
        | none => exact always_pure (.nil _)
        | some state =>
            refine always_bind (always_and (always_length_lowerDims _)
              (always_lowerDims fun _ => originOfDim hown)) fun dims ⟨hlength, hdims⟩ => ?_
            refine always_pure (tells_one
              ⟨rfl, ?_, state, _, _, rfl, by rw [hglobal]; rfl, hstate, hlength⟩)
            exact Accounts.cons (originOfType hown) (.state hstate)
              (Accounts.append hdims accounts_nil)
      refine always_bind (always_and (always_lowerDeclarator id)
        (always_lowerDeclarator_mentions hown)) fun d ⟨hname, hd⟩ => ?_
      refine always_bind hstate fun state hstate => always_pure ?_
      refine .cons ⟨?_, hd.cons (originOfType hown) (.element _ _), trivial⟩
        (by simpa [Subject.buffer?] using hstate)
      simp only [Decl.head, Shader.headOf, hname]

theorem buffers_globalSubjects (id : VarId) :
    (s.globalSubjects id).filterMap Subject.buffer? = [] := by
  unfold Shader.globalSubjects
  cases (s.var id).global? with
  | none => rfl
  | some g => cases samplerStateType? (s.var id).type <;> rfl

theorem tells_accessors (bs : List ByteBuffer) :
    Tells s buffers (bs.map .accessor) (bs.map fun b =>
      .accessor (accessorName (s.var b.field).name) (s.hlslDeclaredType (s.var b.field).type)
        b.resource b.stride (s.elementLeaves b "ret").leaves) := by
  induction bs generalizing buffers with
  | nil => exact .nil _
  | cons b rest ih =>
      refine .cons ⟨rfl, ?_, trivial⟩ ih
      exact Accounts.cons (.inl rfl) (.type _) (Accounts.cons (.inr rfl) (.resource b) accounts_nil)

theorem filterMap_accessors (bs : List ByteBuffer) :
    (bs.map Subject.accessor).filterMap Subject.buffer? = bs := by
  rw [List.filterMap_map]
  exact List.filterMap_some

theorem mentions_bindFirst (fields : List Field) :
    (Shader.bindFirst fields).flatMap Field.mentions = fields.flatMap Field.mentions := by
  cases fields <;> rfl

theorem always_tells_block (id : StructId) :
    Always (s.lowerBlock buffers id) fun r => Tells s buffers (s.blockSubjects id) r.1 ∧
      r.2 = (s.blockSubjects id).filterMap Subject.buffer? := by
  unfold Shader.lowerBlock Shader.blockSubjects
  dsimp only
  cases (s.struct id).block with
  | none => exact always_pure ⟨.nil _, rfl⟩
  | some info =>
  cases hname : (s.struct id).name with
  | none => exact always_pure ⟨.nil _, rfl⟩
  | some name =>
  dsimp only
  cases Shader.sizesGroup info with
  | true => exact always_pure ⟨.nil _, rfl⟩
  | false =>
      simp only [Bool.false_eq_true, if_false]
      cases info.storage with
      | buffer =>
          refine always_pure ⟨.cons ⟨rfl, accounts_nil, trivial⟩ (tells_accessors _), ?_⟩
          rw [List.filterMap_cons_none rfl, filterMap_accessors]
      | uniform =>
          have hown (f : VarId) (hf : f ∈ (s.struct id).fields) (o : Origin)
              (ho : o ∈ s.varOrigins f) : s.WrittenFrom (.constants id) o := ⟨f, hf, ho⟩
          refine always_bind (always_lowerFields hown) fun fields hfields => ?_
          refine always_pure ⟨tells_one ⟨?_, ?_, trivial⟩, rfl⟩
          · simp only [Decl.head, Shader.headOf, hname, Option.getD_some]
          · rw [Decl.mentions, mentions_bindFirst]
            exact hfields
      | _ =>
          exact always_bind (always_belongs_record id) fun d hd => always_pure ⟨tells_one hd, rfl⟩

theorem always_tells_blocks (ids : List StructId) :
    Always (s.lowerBlocks buffers ids) fun r => Tells s buffers (ids.flatMap s.blockSubjects) r.1 ∧
      r.2 = buffers ++ (ids.flatMap s.blockSubjects).filterMap Subject.buffer? := by
  induction ids generalizing buffers with
  | nil => exact always_pure ⟨.nil _, by simp⟩
  | cons id rest ih =>
      unfold Shader.lowerBlocks
      refine always_bind (always_tells_block id) ?_
      rintro ⟨first, added⟩ ⟨hfirst, rfl⟩
      refine always_bind ih ?_
      rintro ⟨others, all⟩ ⟨hothers, rfl⟩
      refine always_pure ⟨hfirst.append hothers, ?_⟩
      rw [List.flatMap_cons, List.filterMap_append, List.append_assoc]

theorem always_lowerParam {v : VarId} (hv : ∀ o ∈ s.varOrigins v, P o) :
    Always (s.lowerParam buffers v) fun ps =>
      ParamShape s v ps ∧ Accounts s buffers P (ps.flatMap Param.mentions) := by
  refine always_bind (always_and (always_length_lowerDims _)
    (always_lowerDims fun _ => originOfDim hv)) fun dims ⟨hlength, hdims⟩ => ?_
  refine always_pure ⟨⟨_, hlength, rfl⟩, ?_⟩
  rw [List.flatMap_cons]
  refine Accounts.append (hdims.cons (originOfType hv) (.type _)) fun m hm => ?_
  cases hstate : samplerStateType? (s.var v).type with
  | none =>
      rw [hstate] at hm
      cases hm
  | some state =>
      rw [hstate] at hm
      exact Accounts.cons (originOfType hv) (.state hstate) accounts_nil m hm

theorem always_tells_function (id : FuncId) :
    Always (s.lowerFunction buffers id) (Tells s buffers (s.functionSubjects id)) := by
  unfold Shader.lowerFunction Shader.functionSubjects
  dsimp only
  cases (s.func id).builtin with
  | true => exact always_pure (.nil _)
  | false =>
      have hparam (p : VarId) (hp : p ∈ (s.func id).params) (o : Origin)
          (ho : o ∈ s.varOrigins p) : s.WrittenFrom (.function id) o :=
        .inr (.inl ⟨p, hp, ho⟩)
      have hinput (hentry : s.isComputeEntry (s.func id) = true) {m : Mention}
          (hm : m ∈ Shader.inputMentions) :
          ∃ o, s.WrittenFrom (.function id) o ∧ s.Yields buffers o m :=
        ⟨.given m, .inr (.inr (.inr ⟨hentry, m, hm, rfl⟩)), .given m⟩
      have hbody : Always ((s.func id).body.mapM fun body => do
          return (if s.isComputeEntry (s.func id) then Shader.copyInputs else []) ++
            (← body.mapM (s.lowerStmt buffers))) fun b =>
          Accounts s buffers (s.WrittenFrom (.function id))
            (b.toList.flatMap Stmt.mentionsAll) := by
        cases hbody : (s.func id).body with
        | none => exact always_pure accounts_nil
        | some body =>
            have hstmt (t : StmtId) (ht : t ∈ body) : Always (s.lowerStmt buffers t) fun u =>
                Accounts s buffers (s.WrittenFrom (.function id)) u.mentions :=
              always_lowerStmtWithin _ fun o ho => .inr (.inr (.inl ⟨body, t, hbody, ht, ho⟩))
            refine always_map fun state m hm => ?_
            rw [Option.toList_some, List.flatMap_singleton] at hm
            obtain ⟨u, hu, hm⟩ := mem_stmtMentionsAll.1 hm
            rcases List.mem_append.1 hu with hu | hu
            · split at hu
              · next hentry =>
                  exact hinput hentry (List.mem_cons_of_mem _ (mem_stmtMentionsAll.2 ⟨u, hu, hm⟩))
              · cases hu
            · exact always_lowerAllStmts hstmt state m (mem_stmtMentionsAll.2 ⟨u, hu, hm⟩)
      refine always_bind (always_forall₂ fun p hp => always_lowerParam (hparam p hp))
        fun params hparams => always_bind hbody fun body hbody => always_pure (tells_one
          ⟨rfl, ?_, _, _, _, params, body, rfl, hparams.imp fun _ _ h => h.1⟩)
      rw [Decl.mentions, List.flatMap_append]
      refine Accounts.cons (.inl rfl) (.type _) (Accounts.append (Accounts.append ?_ ?_) hbody)
      · intro m hm
        split at hm
        · next hentry => exact hinput hentry (List.mem_singleton.1 hm ▸ List.mem_cons_self)
        · cases hm
      · rw [List.flatten_eq_flatMap, List.flatMap_assoc]
        exact accounts_flatMap hparams fun _ _ _ h => h.2

theorem buffers_functionSubjects (id : FuncId) :
    (s.functionSubjects id).filterMap Subject.buffer? = [] := by
  unfold Shader.functionSubjects
  split <;> rfl

/-! ### What does not come from the source -/

/-- What a program mentions by itself. -/
def givenMentions : List Mention :=
  Shader.computeDecls.flatMap Decl.mentions ++ Shader.inputMentions ++
    [RayJump.ignoreIntersection, .terminateRay].map fun j => .call j.hlslName []

/-- What something is written from that is no buffer. -/
inductive Plain (s : Shader) : Origin → Prop where
  | var (v : VarId) : Plain s (.type (s.var v).type)
  | result (f : FuncId) : Plain s (.type (s.func f).returnType)
  | expr (e : ExprId) : Plain s (.expr e)
  | given {m : Mention} : m ∈ givenMentions → Plain s (.given m)

theorem plain_of_mem_varOrigins {v : VarId} {o : Origin} (h : o ∈ s.varOrigins v) : Plain s o := by
  rcases List.mem_cons.1 h with rfl | h
  · exact .var v
  · obtain ⟨e, -, rfl⟩ := List.mem_map.1 h
    exact .expr e

theorem plain_of_standsIn {t : StmtId} {o : Origin} (h : s.StandsIn o t) : Plain s o := by
  induction h with
  | expr => exact .expr _
  | declared _ ho => exact plain_of_mem_varOrigins ho
  | @jump t j =>
      refine .given (List.mem_append_right _ (List.mem_map_of_mem ?_))
      cases j <;> simp
  | inner _ _ ih => exact ih

theorem plain_of_writtenFrom {subject : Subject} {o : Origin} (h : s.WrittenFrom subject o) :
    Plain s o ∨ ∃ b, subject = .accessor b ∧ o = .buffer b := by
  cases subject with
  | fixed =>
      obtain ⟨m, hm, rfl⟩ := h
      exact .inl (.given (List.mem_append_left _ (List.mem_append_left _ hm)))
  | global | samplerState => exact .inl (plain_of_mem_varOrigins h)
  | record | constants =>
      obtain ⟨f, -, ho⟩ := h
      exact .inl (plain_of_mem_varOrigins ho)
  | storage => exact h.elim
  | accessor b =>
      rcases h with rfl | rfl
      · exact .inl (.var _)
      · exact .inr ⟨b, rfl, rfl⟩
  | function f =>
      rcases h with rfl | ⟨p, -, ho⟩ | ⟨body, t, -, -, ht⟩ | ⟨-, m, hm, rfl⟩
      · exact .inl (.result f)
      · exact .inl (plain_of_mem_varOrigins ho)
      · exact .inl (plain_of_standsIn ht)
      · exact .inl (.given (List.mem_append_left _ (List.mem_append_right _ hm)))

theorem mem_givenMentions {subject : Subject} {m : Mention}
    (h : s.WrittenFrom subject (.given m)) : m ∈ givenMentions := by
  rcases plain_of_writtenFrom h with hplain | ⟨_, -, ho⟩
  · cases hplain with
    | given hm => exact hm
  · cases ho

theorem eq_accessor_of_buffer {subject : Subject} {b : ByteBuffer}
    (h : s.WrittenFrom subject (.buffer b)) : subject = .accessor b := by
  rcases plain_of_writtenFrom h with hplain | ⟨b', hsubject, ho⟩
  · cases hplain
  · cases ho
    exact hsubject

/-! ### The whole program -/

theorem tells_fixed {p : Program}
    (h : ∀ d ∈ p, ∀ m ∈ d.mentions, m ∈ Shader.computeDecls.flatMap Decl.mentions) :
    Tells s buffers (p.map fun d => .fixed d.head) p := by
  induction p generalizing buffers with
  | nil => exact .nil _
  | cons d rest ih =>
      obtain ⟨hd, hrest⟩ := List.forall_mem_cons.1 h
      have hmentions : Accounts s buffers (s.WrittenFrom (.fixed d.head)) d.mentions :=
        fun m hm => ⟨.given m, ⟨m, hd m hm, rfl⟩, .given m⟩
      exact .cons ⟨rfl, hmentions, trivial⟩ (ih hrest)

theorem tells_helpers (options : Options) :
    Tells s buffers ((s.helperDecls options).map fun d => .fixed d.head)
      (s.helperDecls options) := by
  refine tells_fixed fun d hd m hm => ?_
  unfold Shader.helperDecls at hd
  split at hd
  · rw [List.mem_singleton.1 hd] at hm
    cases hm
  · cases hd

theorem tells_inputs :
    Tells s buffers (s.inputDecls.map fun d => .fixed d.head) s.inputDecls := by
  refine tells_fixed fun d hd m hm => ?_
  unfold Shader.inputDecls at hd
  split at hd
  · exact List.mem_flatMap.2 ⟨d, hd, hm⟩
  · cases hd

theorem filterMap_fixed (p : Program) :
    (p.map fun d => Subject.fixed d.head).filterMap Subject.buffer? = [] := by
  simp [Subject.buffer?]

theorem filterMap_globals (vars : List VarId) :
    (vars.flatMap s.globalSubjects).filterMap Subject.buffer? = [] := by
  simp [List.filterMap_flatMap, buffers_globalSubjects]

theorem filterMap_records (ids : List StructId) :
    (ids.map Subject.record).filterMap Subject.buffer? = [] := by
  simp [Subject.buffer?]

theorem tells_records {ids : List StructId} {ds : List Decl}
    (h : List.Forall₂ (fun id => Belongs s buffers (.record id)) ids ds) :
    Tells s buffers (ids.map .record) ds := by
  induction h with
  | nil => exact .nil _
  | cons hd _ ih => exact .cons hd (by simpa [Subject.buffer?] using ih)

theorem tells_toProgram (s : Shader) (options : Options) :
    Tells s [] (s.subjects options) (s.toProgram options) := by
  have h : Always (s.lower options) (Tells s [] (s.subjects options)) := by
    refine always_bind (always_tells_mapM buffers_globalSubjects always_tells_global)
      fun plain hplain => ?_
    refine always_bind (always_forall₂ fun id _ => always_belongs_record id)
      fun records hrecords => ?_
    refine always_bind (always_tells_blocks _) ?_
    rintro ⟨blocks, buffers⟩ ⟨hblocks, rfl⟩
    refine always_bind (always_tells_mapM buffers_globalSubjects always_tells_global)
      fun others hothers => ?_
    refine always_bind (always_tells_mapM buffers_functionSubjects always_tells_function)
      fun functions hfunctions => always_pure ?_
    rw [List.nil_append] at hothers hfunctions
    have hglobals := (tells_helpers options).behind (filterMap_fixed _) hplain
    have hrecords := hglobals.behind (by
      simp only [List.filterMap_append, filterMap_fixed, filterMap_globals, List.append_nil])
      (tells_records hrecords)
    have hinputs := hrecords.behind (by
      simp only [List.filterMap_append, filterMap_fixed, filterMap_globals, filterMap_records,
        List.append_nil]) tells_inputs
    have hblocks := hinputs.behind (by
      simp only [List.filterMap_append, filterMap_fixed, filterMap_globals, filterMap_records,
        List.append_nil]) hblocks
    refine Tells.append (Tells.append hblocks ?_) ?_ <;>
      simpa only [List.filterMap_append, filterMap_fixed, filterMap_globals, filterMap_records,
        List.append_nil, List.nil_append]
  exact h {}

theorem Tells.length_eq {subjects : List Subject} {p : Program}
    (h : Tells s buffers subjects p) : subjects.length = p.length := by
  induction h with
  | nil => rfl
  | cons _ _ ih => rw [List.length_cons, List.length_cons, ih]

theorem Tells.belongs {earlier later : List Subject} {subject : Subject} {before after : Program}
    {d : Decl} (h : Tells s buffers (earlier ++ subject :: later) (before ++ d :: after))
    (hlength : before.length = earlier.length) :
    Belongs s (buffers ++ earlier.filterMap Subject.buffer?) subject d := by
  induction earlier generalizing buffers before with
  | nil =>
      rw [List.length_eq_zero_iff.1 hlength] at h
      cases h with
      | cons hbelongs _ => simpa using hbelongs
  | cons first earlier ih =>
      cases before with
      | nil => cases hlength
      | cons d' before =>
          cases h with
          | cons _ hrest =>
              have hbelongs := ih hrest (Nat.succ.inj hlength)
              cases hfirst : first.buffer? with
              | none => simpa [hfirst] using hbelongs
              | some b => simpa [hfirst] using hbelongs

end Hlsl

namespace Shader

variable {s : Shader} {options : Options} {earlier later : List Subject} {subject : Subject}
  {d : Decl}

/-- A declaration of a program, what it declares, and what is declared before it. -/
def DeclaredAs (s : Shader) (options : Options) (earlier : List Subject) (subject : Subject)
    (d : Decl) : Prop :=
  ∃ before after later, s.toProgram options = before ++ d :: after ∧
    s.subjects options = earlier ++ subject :: later ∧ before.length = earlier.length

theorem DeclaredAs.belongs (h : s.DeclaredAs options earlier subject d) :
    Belongs s (earlier.filterMap Subject.buffer?) subject d := by
  obtain ⟨before, after, later, hprogram, hsubjects, hlength⟩ := h
  have htells := tells_toProgram s options
  rw [hprogram, hsubjects] at htells
  exact htells.belongs hlength

theorem exists_declaredAs_of_mem (hd : d ∈ s.toProgram options) :
    ∃ earlier subject, s.DeclaredAs options earlier subject d := by
  obtain ⟨before, after, hprogram⟩ := List.append_of_mem hd
  have hlength := (tells_toProgram s options).length_eq
  have hlt : before.length < (s.subjects options).length := by
    rw [hlength, hprogram]
    simp
  refine ⟨(s.subjects options).take before.length, (s.subjects options)[before.length], before,
    after, (s.subjects options).drop (before.length + 1), hprogram, ?_, ?_⟩
  · rw [List.getElem_cons_drop, List.take_append_drop]
  · rw [List.length_take, Nat.min_eq_left (Nat.le_of_lt hlt)]

theorem exists_declaredAs (h : s.subjects options = earlier ++ subject :: later) :
    ∃ d, s.DeclaredAs options earlier subject d := by
  have hlength := (tells_toProgram s options).length_eq
  have hlt : earlier.length < (s.toProgram options).length := by
    rw [← hlength, h]
    simp
  refine ⟨(s.toProgram options)[earlier.length], (s.toProgram options).take earlier.length,
    (s.toProgram options).drop (earlier.length + 1), later, ?_, h, ?_⟩
  · rw [List.getElem_cons_drop, List.take_append_drop]
  · rw [List.length_take, Nat.min_eq_left (Nat.le_of_lt hlt)]

theorem exists_declaredAs_of_subject (h : subject ∈ s.subjects options) :
    ∃ earlier d, s.DeclaredAs options earlier subject d := by
  obtain ⟨earlier, later, hsubjects⟩ := List.append_of_mem h
  obtain ⟨d, hd⟩ := exists_declaredAs hsubjects
  exact ⟨earlier, d, hd⟩

end Shader

end ShaderBridge
