import ShaderBridge.Proofs.Lowering.Mentions
import ShaderBridge.Proofs.Lowering.ReservedNames
import ShaderBridge.Proofs.Parse.Accepted

/-!
Fresh names. Temporaries and addresses have names of their own, and each of these names is declared
at most once in a whole program. Two things meet here: no number is drawn twice, and nothing that
the source names looks like a name that is made from a number.
-/

namespace ShaderBridge

open Hlsl

namespace Shader

variable (s : Shader)

/-- No name of a shader begins with two underscores. -/
structure PlainNames : Prop where
  vars : ∀ v ∈ s.vars.toList, ¬ IsReserved v.name
  structs : ∀ d ∈ s.structs.toList, ¬ IsReserved (d.name.getD "")
  funcs : ∀ f ∈ s.funcs.toList, ¬ IsReserved f.name

instance : Decidable s.PlainNames :=
  decidable_of_iff ((∀ v ∈ s.vars.toList, ¬ IsReserved v.name) ∧
      (∀ d ∈ s.structs.toList, ¬ IsReserved (d.name.getD "")) ∧
      ∀ f ∈ s.funcs.toList, ¬ IsReserved f.name)
    ⟨fun h => ⟨h.1, h.2.1, h.2.2⟩, fun h => ⟨h.vars, h.structs, h.funcs⟩⟩

variable {s}

theorem forall_getD {α : Type} [Inhabited α] {P : α → Prop} {table : Array α}
    (h : ∀ a ∈ table.toList, P a) (hdefault : P default) (i : Nat) : P (table.getD i default) := by
  rw [Array.getD_eq_getD_getElem?]
  cases hget : table[i]? with
  | none => exact hdefault
  | some a => exact h a (Array.mem_toList_iff.2 (Array.mem_of_getElem? hget))

theorem PlainNames.var (h : s.PlainNames) (id : VarId) : ¬ IsReserved (s.var id).name :=
  forall_getD h.vars (by decide) id.index

theorem PlainNames.struct (h : s.PlainNames) (id : StructId) :
    ¬ IsReserved ((s.struct id).name.getD "") :=
  forall_getD (P := fun d : StructDecl => ¬ IsReserved (d.name.getD "")) h.structs (by decide)
    id.index

theorem PlainNames.func (h : s.PlainNames) (id : FuncId) : ¬ IsReserved (s.func id).name :=
  forall_getD h.funcs (by decide) id.index

variable (s)

/-- What a program of a shader may declare: what is stored comes from the temporary of the store. -/
def MayDeclare : Declaration → Prop
  | .named name => IsOwn name
  | .result _ => True
  | .store k leaves => ∃ type, leaves = (s.leaves type [] (tempName k) 0).leaves

end Shader

namespace Hlsl

variable {α β : Type} {s : Shader} {buffers : List ByteBuffer} {used : List Nat}

def MayDeclareAll (s : Shader) (ds : List Declaration) : Prop :=
  ∀ d ∈ ds, s.MayDeclare d

theorem mayDeclareAll_nil : MayDeclareAll s [] :=
  fun _ hd => absurd hd List.not_mem_nil

theorem MayDeclareAll.cons {d : Declaration} {ds : List Declaration} (hd : s.MayDeclare d)
    (hds : MayDeclareAll s ds) : MayDeclareAll s (d :: ds) :=
  List.forall_mem_cons.2 ⟨hd, hds⟩

theorem MayDeclareAll.append {ds ds' : List Declaration} (h : MayDeclareAll s ds)
    (h' : MayDeclareAll s ds') : MayDeclareAll s (ds ++ ds') :=
  List.forall_mem_append.2 ⟨h, h'⟩

theorem mayDeclareAll_flatMap {l : List β} {declared : β → List Declaration}
    (h : ∀ b ∈ l, MayDeclareAll s (declared b)) : MayDeclareAll s (l.flatMap declared) := by
  intro d hd
  obtain ⟨b, hb, hd⟩ := List.mem_flatMap.1 hd
  exact h b hb d hd

theorem mayDeclareAll_forall₂ {l : List α} {bs : List β} {declared : β → List Declaration}
    (h : List.Forall₂ (fun _ b => MayDeclareAll s (declared b)) l bs) :
    MayDeclareAll s (bs.flatMap declared) :=
  mayDeclareAll_flatMap fun _ hb => (exists_of_mem_right h hb).elim fun _ h => h.2

theorem mayDeclareAll_mapM {f : α → LowerM β} {declared : β → List Declaration}
    (hf : ∀ a, Always (f a) fun b => MayDeclareAll s (declared b)) (l : List α) :
    Always (l.mapM f) fun bs => MayDeclareAll s (bs.flatMap declared) :=
  fun state => mayDeclareAll_forall₂ (always_forall₂ (fun a _ => hf a) state)

theorem mayDeclareAll_option {f : α → LowerM β} {declared : β → List Declaration}
    (hf : ∀ a, Always (f a) fun b => MayDeclareAll s (declared b)) (o : Option α) :
    Always (o.mapM f) fun b => MayDeclareAll s (b.toList.flatMap declared) := by
  cases o with
  | none => exact always_pure mayDeclareAll_nil
  | some a =>
      refine always_map fun state => ?_
      simpa using hf a state

/-! ### Expressions -/

theorem declarationsAll_eq_flatMap (es : List Expr) :
    Expr.declarationsAll es = es.flatMap Expr.declarations := by
  induction es with
  | nil => rfl
  | cons e es ih => rw [Expr.declarationsAll, ih, List.flatMap_cons]

theorem declarations_asOperand (e : Expr) : e.asOperand.declarations = e.declarations := by
  cases e <;> rfl

theorem declarations_of_passes {args os : List ExprId} {xs ys : List Expr}
    (h : s.Passes args os xs ys) : ys.flatMap Expr.declarations = xs.flatMap Expr.declarations := by
  induction h with
  | nil => rfl
  | plain _ _ ih | whole _ _ ih | element _ _ ih => simp [ih, Expr.declarations]

theorem mayDeclareAll_of_forms {temp : Nat} {e : ExprId} {os : List ExprId} {xs : List Expr}
    {x : Expr} (h : s.Forms buffers e temp os xs x)
    (hxs : MayDeclareAll s (xs.flatMap Expr.declarations)) : MayDeclareAll s x.declarations := by
  have haddress {access : Access} {indices : List Expr}
      (hlength : indices.length = access.terms.length) :
      (access.expr indices).declarations = indices.flatMap Expr.declarations :=
    Access.collect_expr (fun _ => rfl) (fun _ _ _ => rfl) hlength
  cases h with
  | call hexpr hpasses =>
      rw [Expr.declarations, declarationsAll_eq_flatMap, declarations_of_passes hpasses]
      exact hxs
  | splat x =>
      rw [Expr.declarations, Expr.declarationsAll, Expr.declarationsAll, List.append_nil]
      split <;> simpa [Expr.declarations] using hxs
  | store x indices hexpr haccess hop hlength | update x y indices hexpr haccess hop hlength =>
      rw [Shader.stored, Expr.declarations, haddress hlength]
      exact .cons ⟨_, rfl⟩ (by simpa [Expr.declarations] using hxs)
  | _ => simpa [Shader.loadExpr, declarations_asOperand, declarationsAll_eq_flatMap,
      Expr.declarations] using hxs

theorem mayDeclareAll_lowerWithin (depth : Nat) (id : ExprId) :
    Always (s.lowerWithin buffers depth id) fun x => MayDeclareAll s x.declarations := by
  induction depth generalizing id with
  | zero => exact always_pure mayDeclareAll_nil
  | succ depth ih =>
      exact always_of_forms (fun o _ => ih o) (fun _ => mayDeclareAll_nil)
        fun _ hxs hforms => mayDeclareAll_of_forms hforms (mayDeclareAll_forall₂ hxs)

theorem mayDeclareAll_lowerExpr (e : ExprId) :
    Always (s.lowerExpr buffers e) fun x => MayDeclareAll s x.declarations :=
  mayDeclareAll_lowerWithin _ e

/-! ### Statements -/

theorem stmtDeclarationsAll_eq_flatMap (ts : List Stmt) :
    Stmt.declarationsAll ts = ts.flatMap Stmt.declarations := by
  induction ts with
  | nil => rfl
  | cons t rest ih => rw [Stmt.declarationsAll, ih, List.flatMap_cons]

theorem MayDeclareAll.behind {calls : List Stmt} {t : Stmt}
    (hcalls : MayDeclareAll s (calls.flatMap Stmt.declarations))
    (ht : MayDeclareAll s t.declarations) :
    MayDeclareAll s (Shader.behind calls t).declarations := by
  unfold Shader.behind
  split
  · exact ht
  · rw [Stmt.declarations, stmtDeclarationsAll_eq_flatMap, List.flatMap_append]
    exact hcalls.append (by simpa using ht)

theorem mayDeclareAll_hoistCall (id : ExprId) (name : String) (args : List ExprId) :
    Always (s.hoistCall buffers id name args) fun t => MayDeclareAll s t.declarations := by
  refine always_imp (always_carriedAs mayDeclareAll_lowerExpr id name args) fun t ht => ?_
  cases ht with
  | named _ hxs => exact .cons trivial (mayDeclareAll_forall₂ hxs)
  | @addressed temp access terms values _ hterms hvalues =>
      have hterms : MayDeclareAll s (terms.flatMap Expr.declarations) :=
        mayDeclareAll_forall₂ (hterms.imp fun term x => fun ⟨i, hx, hi⟩ => hx ▸ hi)
      have haddress : (Shader.atomicAddress terms access.offset).declarations =
          terms.flatMap Expr.declarations :=
        collect_atomicAddress (fun _ => rfl) (fun _ _ _ => rfl) terms _
      refine .cons trivial ?_
      rw [List.flatMap_cons, haddress]
      exact hterms.append (mayDeclareAll_forall₂ hvalues)

theorem mayDeclareAll_hoistAtomics (id : ExprId) :
    Always (s.hoistAtomics buffers id) fun ts =>
      MayDeclareAll s (ts.flatMap Stmt.declarations) := by
  refine always_bind (?_ : Always _ fun tss =>
    MayDeclareAll s (tss.flatMap fun ts => ts.flatMap Stmt.declarations)) fun tss htss =>
      always_pure ?_
  · refine mayDeclareAll_mapM (fun call => ?_) _
    split
    · exact always_bind (mayDeclareAll_hoistCall _ _ _) fun t ht => always_pure (by simpa using ht)
    · exact always_pure mayDeclareAll_nil
  · rw [List.flatten_eq_flatMap, List.flatMap_assoc]
    exact htss

theorem mayDeclareAll_lowerDims (dims : List (Option ExprId)) :
    Always (s.lowerDims buffers dims) fun ds => MayDeclareAll s (dimsDeclarations ds) := by
  unfold dimsDeclarations
  simp only [List.flatMap_assoc]
  exact mayDeclareAll_mapM (fun dim => mayDeclareAll_option mayDeclareAll_lowerExpr dim) dims

/-! Everything from here on declares names of the source. -/

section

variable (hplain : s.PlainNames)
include hplain

theorem mayDeclareAll_lowerDeclarator (v : VarId) :
    Always (s.lowerDeclarator buffers v) fun d => MayDeclareAll s d.declarations := by
  refine always_bind (mayDeclareAll_lowerDims _) fun dims hdims =>
    always_bind (mayDeclareAll_option mayDeclareAll_lowerExpr _) fun initial hinitial =>
      always_pure ?_
  refine MayDeclareAll.cons (isOwn_of_not_isReserved (hplain.var v)) ?_
  rw [Declarator.exprs, List.flatMap_append]
  exact hdims.append hinitial

theorem mayDeclareAll_lowerLocal (v : VarId) :
    Always (s.lowerLocal buffers v) fun t => MayDeclareAll s t.declarations := by
  have hdeclare {calls : List Stmt}
      (hcalls : MayDeclareAll s (calls.flatMap Stmt.declarations)) : Always (do
        let declarator ← s.lowerDeclarator buffers v
        return Shader.behind calls (.declaration (s.var v).flags.constant
          (s.hlslDeclaredType (s.var v).type) declarator))
        fun t => MayDeclareAll s t.declarations :=
    always_bind (mayDeclareAll_lowerDeclarator hplain v) fun d hd => always_pure (hcalls.behind hd)
  unfold Shader.lowerLocal
  dsimp only
  split
  · exact always_bind (mayDeclareAll_hoistAtomics _) fun calls => hdeclare
  · exact always_bind (always_pure mayDeclareAll_nil) fun calls => hdeclare

theorem mayDeclareAll_lowerHeader (id : StmtId) :
    Always (s.lowerHeader buffers id) fun h => MayDeclareAll s h.declarations := by
  unfold Shader.lowerHeader
  split
  · exact always_bind (mayDeclareAll_mapM (mayDeclareAll_lowerDeclarator hplain) _) fun ds hds =>
      always_pure hds
  · exact always_bind (mayDeclareAll_lowerExpr _) fun x hx => always_pure hx
  · exact always_pure mayDeclareAll_nil

theorem mayDeclareAll_lowerStart (start : Option StmtId) :
    Always (s.lowerStart buffers start) fun h => MayDeclareAll s h.declarations := by
  cases start with
  | none => exact always_pure mayDeclareAll_nil
  | some id => exact mayDeclareAll_lowerHeader hplain id

end

section

variable {lower : StmtId → LowerM Stmt}
  (hlower : ∀ id, Always (lower id) fun t => MayDeclareAll s t.declarations)
include hlower

theorem mayDeclareAll_lowerBody (id : StmtId) :
    Always (s.lowerBody lower id) fun t => MayDeclareAll s t.declarations := by
  refine always_bind (hlower id) fun t ht => always_pure ?_
  split
  · exact ht.append mayDeclareAll_nil
  · exact ht

theorem mayDeclareAll_lowerGuarded (condition : ExprId) (body : StmtId) :
    Always (s.lowerGuarded buffers lower condition body)
      fun t => MayDeclareAll s t.declarations := by
  refine always_bind (mayDeclareAll_hoistAtomics condition) fun calls hcalls =>
    always_bind (mayDeclareAll_lowerExpr condition) fun test htest =>
      always_bind (mayDeclareAll_mapM hlower _) fun body hbody => always_pure ?_
  rw [Stmt.declarations, Stmt.declarationsAll, stmtDeclarationsAll_eq_flatMap]
  refine MayDeclareAll.append (hcalls.behind ?_) hbody
  rwa [Stmt.declarations, declarations_asOperand]

end

theorem mayDeclareAll_lowerStmtWithin (hplain : s.PlainNames) (depth : Nat) (id : StmtId) :
    Always (s.lowerStmtWithin buffers depth id) fun t => MayDeclareAll s t.declarations := by
  induction depth generalizing id with
  | zero => exact always_pure mayDeclareAll_nil
  | succ depth ih =>
      have hbody (t : StmtId) :
          Always (s.lowerBody (s.lowerStmtWithin buffers depth) t)
            fun t => MayDeclareAll s t.declarations :=
        mayDeclareAll_lowerBody ih t
      have hvalue (o : Option ExprId) :
          Always (o.mapM (s.lowerExpr buffers))
            fun x => MayDeclareAll s (x.toList.flatMap Expr.declarations) :=
        mayDeclareAll_option mayDeclareAll_lowerExpr o
      have hlines {ts : List Stmt} (hts : MayDeclareAll s (ts.flatMap Stmt.declarations)) :
          MayDeclareAll s (Stmt.declarationsAll ts) :=
        stmtDeclarationsAll_eq_flatMap ts ▸ hts
      unfold Shader.lowerStmtWithin
      dsimp only
      cases s.stmt id with
      | block body =>
          exact always_bind (mayDeclareAll_mapM ih body) fun ts hts => always_pure (hlines hts)
      | declaration vars =>
          exact always_bind (mayDeclareAll_mapM (mayDeclareAll_lowerLocal hplain) vars)
            fun ts hts => always_pure (hlines hts)
      | expression e =>
          exact always_bind (mayDeclareAll_hoistAtomics e) fun calls hcalls =>
            always_bind (mayDeclareAll_lowerExpr e) fun x hx => always_pure (hcalls.behind hx)
      | branch hints c onTrue onFalse =>
          refine always_bind (mayDeclareAll_hoistAtomics c) fun calls hcalls =>
            always_bind (mayDeclareAll_lowerExpr c) fun c hc =>
              always_bind (hbody onTrue) fun t ht =>
                always_bind (mayDeclareAll_option hbody onFalse) fun f hf =>
                  always_pure (hcalls.behind ?_)
          cases f with
          | none => exact hc.append ht
          | some f => exact hc.append (ht.append (by simpa using hf))
      | switch hints subject body =>
          exact always_bind (mayDeclareAll_hoistAtomics subject) fun calls hcalls =>
            always_bind (mayDeclareAll_lowerExpr subject) fun x hx =>
              always_bind (mayDeclareAll_mapM ih body) fun ts hts =>
                always_pure (hcalls.behind (hx.append (hlines hts)))
      | label value => exact always_bind (hvalue value) fun x hx => always_pure hx
      | whileLoop hints c body =>
          dsimp only
          cases s.guard? c with
          | some e =>
              exact always_bind (mayDeclareAll_lowerGuarded ih e body) fun b hb =>
                always_pure (mayDeclareAll_nil.append hb)
          | none =>
              exact always_bind (mayDeclareAll_lowerHeader hplain c) fun c hc =>
                always_bind (hbody body) fun b hb => always_pure (hc.append hb)
      | doLoop hints body c =>
          exact always_bind (hbody body) fun b hb =>
            always_bind (mayDeclareAll_lowerExpr c) fun c hc => always_pure (hb.append hc)
      | forLoop hints start c step body =>
          refine always_bind (mayDeclareAll_lowerStart hplain start) fun start hstart => ?_
          cases c.filter s.hasAtomics with
          | some e =>
              exact always_bind (hvalue step) fun step hstep =>
                always_bind (mayDeclareAll_lowerGuarded ih e body) fun b hb =>
                  always_pure ((hstart.append hstep).append hb)
          | none =>
              refine always_bind (hvalue c) fun c hc => always_bind (hvalue step) fun step hstep =>
                always_bind (hbody body) fun b hb => always_pure ?_
              refine (hstart.append ?_).append hb
              rw [List.flatMap_append]
              exact hc.append hstep
      | returnValue value =>
          cases value with
          | none => exact always_pure mayDeclareAll_nil
          | some e =>
              refine always_bind (mayDeclareAll_hoistAtomics e) fun calls hcalls =>
                always_bind (mayDeclareAll_lowerExpr e) fun x hx => always_pure (hcalls.behind ?_)
              simpa [Stmt.declarations] using hx
      | empty | continueLoop | breakLoop | discard | rayJump =>
          exact always_pure mayDeclareAll_nil

/-! ### Declarations -/

theorem declarations_bindFirst (fields : List Field) :
    (Shader.bindFirst fields).flatMap Field.declarations = fields.flatMap Field.declarations := by
  cases fields <;> rfl

theorem mayDeclareAll_computeDecls :
    MayDeclareAll s (Program.declarations Shader.computeDecls) := by
  let names := Shader.computeInputs.map Shader.ComputeInput.name ++
    (Shader.waveInputs.map Prod.fst ++
      Shader.inputRecord :: Shader.computeInputs.map Shader.ComputeInput.name)
  have hnames : ∀ name ∈ names, ¬ IsReserved name := by decide
  have hdeclarations : Program.declarations Shader.computeDecls = names.map .named := rfl
  rw [hdeclarations]
  exact List.forall_mem_map.2 fun name hname => isOwn_of_not_isReserved (hnames name hname)

section

variable (hplain : s.PlainNames)
include hplain

theorem mayDeclareAll_lowerGlobal (id : VarId) :
    Always (s.lowerGlobal buffers id) fun p => MayDeclareAll s p.declarations := by
  unfold Shader.lowerGlobal
  dsimp only
  split
  · exact always_pure mayDeclareAll_nil
  next g _ =>
    refine always_bind (mayDeclareAll_lowerDeclarator hplain id) fun d hd =>
      always_bind (?_ : Always _ fun p => MayDeclareAll s p.declarations) fun p hp =>
        always_pure (hd.append hp)
    unfold Shader.lowerSamplerState
    split
    · exact always_pure mayDeclareAll_nil
    · refine always_bind (mayDeclareAll_lowerDims _) fun dims hdims => always_pure ?_
      refine MayDeclareAll.append (MayDeclareAll.cons ?_ ?_) mayDeclareAll_nil
      · exact isOwn_samplerName (hplain.var id)
      · simpa [Declarator.exprs, dimsDeclarations] using hdims

theorem mayDeclareAll_lowerField (id : VarId) :
    Always (s.lowerField buffers id) fun f => MayDeclareAll s f.declarations :=
  always_bind (mayDeclareAll_lowerDims _) fun _ hdims =>
    always_pure (hdims.cons (isOwn_of_not_isReserved (hplain.var id)))

theorem mayDeclareAll_lowerRecord (id : StructId) :
    Always (s.lowerRecord buffers id) fun d => MayDeclareAll s d.declarations :=
  always_bind (mayDeclareAll_mapM (mayDeclareAll_lowerField hplain) _) fun _ hfields =>
    always_pure (hfields.cons (isOwn_of_not_isReserved (hplain.struct id)))

theorem isOwn_bufferName (id : StructId) : IsOwn (s.bufferName id) := by
  unfold Shader.bufferName
  split
  · exact isOwn_of_not_isReserved (hplain.var _)
  · exact isOwn_of_not_isReserved (hplain.struct _)

theorem mayDeclareAll_storageDecls (id : StructId) (info : BlockInfo) :
    MayDeclareAll s (Program.declarations (s.storageDecls id info)) := by
  unfold Shader.storageDecls
  refine mayDeclareAll_flatMap ?_
  rw [List.forall_mem_cons, List.forall_mem_map]
  refine ⟨.cons (isOwn_bufferName hplain id) mayDeclareAll_nil, fun buffer _ => ?_⟩
  refine .cons (isOwn_accessorName _) (.cons ?_ (.cons ?_ mayDeclareAll_nil))
  · exact isOwn_of_not_isReserved (by decide)
  · exact isOwn_of_not_isReserved (by decide)

theorem mayDeclareAll_lowerBlock (id : StructId) :
    Always (s.lowerBlock buffers id) fun r => MayDeclareAll s (Program.declarations r.1) := by
  unfold Shader.lowerBlock
  dsimp only
  split
  next info name hinfo hname =>
    split
    · exact always_pure mayDeclareAll_nil
    · split
      · exact always_pure (mayDeclareAll_storageDecls hplain id info)
      · refine always_bind (mayDeclareAll_mapM (mayDeclareAll_lowerField hplain) _)
          fun fields hfields => always_pure ?_
        refine MayDeclareAll.append (.cons ?_ ?_) mayDeclareAll_nil
        · have hstruct := hplain.struct id
          rw [hname] at hstruct
          exact isOwn_of_not_isReserved hstruct
        · rwa [declarations_bindFirst]
      · exact always_bind (mayDeclareAll_lowerRecord hplain id) fun d hd =>
          always_pure (hd.append mayDeclareAll_nil)
  · exact always_pure mayDeclareAll_nil

theorem mayDeclareAll_lowerBlocks (ids : List StructId) :
    Always (s.lowerBlocks buffers ids) fun r => MayDeclareAll s (Program.declarations r.1) := by
  induction ids generalizing buffers with
  | nil => exact always_pure mayDeclareAll_nil
  | cons id rest ih =>
      unfold Shader.lowerBlocks
      refine always_bind (mayDeclareAll_lowerBlock hplain id) ?_
      rintro ⟨first, added⟩ hfirst
      refine always_bind ih ?_
      rintro ⟨others, all⟩ hothers
      refine always_pure ?_
      rw [Program.declarations_append]
      exact hfirst.append hothers

theorem mayDeclareAll_lowerParam (id : VarId) :
    Always (s.lowerParam buffers id) fun ps => MayDeclareAll s (ps.flatMap Param.declarations) := by
  refine always_bind (mayDeclareAll_lowerDims _) fun dims hdims => always_pure ?_
  refine MayDeclareAll.append (hdims.cons (isOwn_of_not_isReserved (hplain.var id))) ?_
  cases samplerStateType? (s.var id).type with
  | none => exact mayDeclareAll_nil
  | some state => exact .cons (isOwn_samplerName (hplain.var id)) mayDeclareAll_nil

theorem mayDeclareAll_lowerFunction (id : FuncId) :
    Always (s.lowerFunction buffers id) fun p => MayDeclareAll s p.declarations := by
  have hbody (body : List StmtId) : Always (do
      return (if s.isComputeEntry (s.func id) then Shader.copyInputs else []) ++
        (← body.mapM (s.lowerStmt buffers)))
        fun ts => MayDeclareAll s (Stmt.declarationsAll ts) := by
    refine always_bind (mayDeclareAll_mapM (mayDeclareAll_lowerStmtWithin hplain _) body)
      fun ts hts => always_pure ?_
    rw [stmtDeclarationsAll_eq_flatMap, List.flatMap_append]
    refine MayDeclareAll.append ?_ hts
    split <;> exact mayDeclareAll_nil
  unfold Shader.lowerFunction
  dsimp only
  split
  · exact always_pure mayDeclareAll_nil
  · refine always_bind (mayDeclareAll_mapM (mayDeclareAll_lowerParam hplain) _)
      fun params hparams => always_bind (mayDeclareAll_option hbody _) fun body hbody =>
        always_pure ?_
    refine MayDeclareAll.append
      (.cons (isOwn_of_not_isReserved (hplain.func id)) (.append ?_ hbody)) mayDeclareAll_nil
    rw [List.flatMap_append, List.flatten_eq_flatMap, List.flatMap_assoc]
    refine MayDeclareAll.append ?_ hparams
    split
    · exact .cons (isOwn_of_not_isReserved (by decide)) mayDeclareAll_nil
    · exact mayDeclareAll_nil

theorem mayDeclareAll_lower (options : Options) :
    Always (s.lower options) fun p => MayDeclareAll s p.declarations := by
  have hgroups {α : Type} {f : α → LowerM Program} {l : List α}
      (hf : ∀ a, Always (f a) fun p => MayDeclareAll s p.declarations) :
      Always (l.mapM f) fun ps => MayDeclareAll s (Program.declarations ps.flatten) := by
    intro state
    rw [Program.declarations, List.flatten_eq_flatMap, List.flatMap_assoc]
    exact mayDeclareAll_mapM hf l state
  have hhelpers : MayDeclareAll s (Program.declarations (s.helperDecls options)) := by
    unfold Shader.helperDecls
    split
    · refine MayDeclareAll.append ?_ mayDeclareAll_nil
      refine List.forall_mem_map.2 fun word hword => ?_
      exact isOwn_of_not_isReserved
        (not_isReserved_of_mem_wordsOf (isSpaced_functions s.stage) hword)
    · exact mayDeclareAll_nil
  have hinputs : MayDeclareAll s (Program.declarations s.inputDecls) := by
    unfold Shader.inputDecls
    split
    · exact mayDeclareAll_computeDecls
    · exact mayDeclareAll_nil
  refine always_bind (hgroups (mayDeclareAll_lowerGlobal hplain)) fun plain hplainGlobals => ?_
  refine always_bind (mayDeclareAll_mapM (mayDeclareAll_lowerRecord hplain) _)
    fun records hrecords => ?_
  refine always_bind (mayDeclareAll_lowerBlocks hplain _) ?_
  rintro ⟨blocks, buffers⟩ hblocks
  refine always_bind (hgroups (mayDeclareAll_lowerGlobal hplain)) fun others hothers => ?_
  refine always_bind (hgroups (mayDeclareAll_lowerFunction hplain)) fun functions hfunctions => ?_
  refine always_pure ?_
  simp only [Program.declarations_append]
  exact (((((hhelpers.append hplainGlobals).append hrecords).append hinputs).append
    hblocks).append hothers).append hfunctions

end

/-! ### Numbers -/

theorem temps_dims (dims : List (Option Expr)) :
    (dimsDeclarations dims).filterMap Declaration.temp? =
      dims.flatMap fun dim => dim.toList.flatMap Expr.temps := by
  rw [dimsDeclarations, filterMap_exprs, List.flatMap_assoc]

theorem takes_lowerGlobal (id : VarId) (used : List Nat) :
    Takes used (s.lowerGlobal buffers id) fun p => p.temps ++ used := by
  unfold Shader.lowerGlobal
  dsimp only
  split
  · exact takes_pure (List.Perm.refl _)
  next g _ =>
    have hstate (used : List Nat) :
        Takes used (s.lowerSamplerState buffers (s.var id) g) fun p => p.temps ++ used := by
      unfold Shader.lowerSamplerState
      split
      · exact takes_pure (List.Perm.refl _)
      · refine takes_bind (takes_lowerDims _) fun dims => takes_pure ?_
        simp [Program.temps, Program.declarations, Decl.declarations, filterMap_declarator,
          Declarator.temps, Declarator.exprs, List.flatMap_assoc]
    refine takes_bind (takes_lowerDeclarator id _) fun d => takes_bind (hstate _) fun p =>
      takes_pure ?_
    rw [Program.temps, Program.declarations, List.flatMap_cons, List.filterMap_append,
      Decl.declarations, filterMap_declarator]
    simpa [Program.temps, Program.declarations] using List.perm_append_comm_assoc _ _ _

theorem takes_lowerField (id : VarId) (used : List Nat) :
    Takes used (s.lowerField buffers id)
      fun f => f.declarations.filterMap Declaration.temp? ++ used := by
  refine takes_bind (takes_lowerDims _) fun dims => takes_pure ?_
  rw [Field.declarations, filterMap_named, temps_dims]

theorem takes_lowerFields (ids : List VarId) (used : List Nat) :
    Takes used (ids.mapM (s.lowerField buffers))
      fun fs => (fs.flatMap Field.declarations).filterMap Declaration.temp? ++ used := by
  simp only [List.filterMap_flatMap]
  exact takes_mapM takes_lowerField ids

theorem takes_lowerRecord (id : StructId) (used : List Nat) :
    Takes used (s.lowerRecord buffers id)
      fun d => d.declarations.filterMap Declaration.temp? ++ used :=
  takes_bind (takes_lowerFields _ used) fun _ => takes_pure (List.Perm.refl _)

theorem temps_storageDecls (id : StructId) (info : BlockInfo) :
    (s.storageDecls id info).temps = [] := by
  rw [Program.temps, List.filterMap_eq_nil_iff]
  intro d hd
  obtain ⟨decl, hdecl, hd⟩ := List.mem_flatMap.1 hd
  rcases List.mem_cons.1 hdecl with rfl | hdecl
  · rw [List.mem_singleton.1 hd]
    rfl
  · obtain ⟨buffer, -, rfl⟩ := List.mem_map.1 hdecl
    simp only [Decl.declarations, List.mem_cons, List.not_mem_nil, or_false] at hd
    rcases hd with rfl | rfl | rfl <;> rfl

theorem takes_lowerBlock (id : StructId) (used : List Nat) :
    Takes used (s.lowerBlock buffers id) fun r => Program.temps r.1 ++ used := by
  unfold Shader.lowerBlock
  dsimp only
  split
  · split
    · exact takes_pure (List.Perm.refl _)
    · split
      · refine takes_pure ?_
        rw [temps_storageDecls]
        exact List.Perm.refl _
      · refine takes_bind (takes_lowerFields _ used) fun fields => takes_pure ?_
        simp [Program.temps, Program.declarations, Decl.declarations, declarations_bindFirst,
          filterMap_named]
      · refine takes_bind (takes_lowerRecord id used) fun d => takes_pure ?_
        simp [Program.temps, Program.declarations]
  · exact takes_pure (List.Perm.refl _)

theorem takes_lowerBlocks (ids : List StructId) (used : List Nat) :
    Takes used (s.lowerBlocks buffers ids) fun r => Program.temps r.1 ++ used := by
  induction ids generalizing buffers used with
  | nil => exact takes_pure (List.Perm.refl _)
  | cons id rest ih =>
      unfold Shader.lowerBlocks
      refine takes_bind (takes_lowerBlock id used) ?_
      rintro ⟨first, added⟩
      refine takes_bind (ih _) ?_
      rintro ⟨others, all⟩
      refine takes_pure ?_
      rw [Program.temps_append]
      simpa using List.perm_append_comm_assoc _ _ _

theorem takes_lowerParam_dims (id : VarId) (used : List Nat) :
    Takes used (s.lowerParam buffers id)
      fun ps => (ps.flatMap Param.declarations).filterMap Declaration.temp? ++ used := by
  refine takes_bind (takes_lowerDims _) fun dims => takes_pure ?_
  rw [List.flatMap_cons, List.filterMap_append, Param.declarations, filterMap_named, temps_dims]
  cases samplerStateType? (s.var id).type <;>
    simp [Param.declarations, dimsDeclarations, filterMap_named]

theorem takes_lowerFunction_params (id : FuncId) (used : List Nat) :
    Takes used (s.lowerFunction buffers id) fun p => p.temps ++ used := by
  have hparams (used : List Nat) : Takes used ((s.func id).params.mapM (s.lowerParam buffers))
      fun ps => ps.flatMap
        (fun ps => (ps.flatMap Param.declarations).filterMap Declaration.temp?) ++ used :=
    takes_mapM takes_lowerParam_dims _
  unfold Shader.lowerFunction
  dsimp only
  split
  · exact takes_pure (List.Perm.refl _)
  · refine takes_bind (hparams _) fun params =>
      takes_bind (takes_option (takes_functionBody _) _) fun body => takes_pure ?_
    have hinputs : (if s.isComputeEntry (s.func id) = true then
        [({ type := Shader.inputRecord, name := Shader.inputParam } : Param)] else []).flatMap
          (fun p => p.declarations.filterMap Declaration.temp?) = [] := by
      split <;> rfl
    have htemps : (body.toList.flatMap Stmt.declarationsAll).filterMap Declaration.temp? =
        body.toList.flatMap fun ts => ts.flatMap Stmt.temps := by
      rw [List.filterMap_flatMap]
      simp only [Stmt.filterMap_declarationsAll]
    rw [Program.temps, Program.declarations, List.flatMap_singleton, Decl.declarations,
      filterMap_named, List.filterMap_append, htemps, List.filterMap_flatMap, List.flatMap_append,
      hinputs, List.nil_append, List.flatten_eq_flatMap, List.flatMap_assoc]
    simpa [List.filterMap_flatMap] using List.perm_append_comm_assoc _ _ _

theorem takes_lower (options : Options) : Takes [] (s.lower options) Program.temps := by
  have hgroups {α : Type} {f : α → LowerM Program} (l : List α) (used : List Nat)
      (hf : ∀ a used, Takes used (f a) fun p => p.temps ++ used) :
      Takes used (l.mapM f) fun ps => Program.temps ps.flatten ++ used := by
    have htemps (ps : List Program) : Program.temps ps.flatten = ps.flatMap Program.temps := by
      rw [Program.temps, Program.declarations, List.flatten_eq_flatMap, List.flatMap_assoc,
        List.filterMap_flatMap]
      rfl
    simpa only [htemps] using takes_mapM hf l
  have hrecords (l : List StructId) (used : List Nat) : Takes used (l.mapM (s.lowerRecord []))
      fun ds => Program.temps ds ++ used := by
    simpa only [Program.temps, Program.declarations, List.filterMap_flatMap]
      using takes_mapM takes_lowerRecord l
  have hhelpers : (s.helperDecls options).temps = [] := by
    unfold Shader.helperDecls
    split
    · rw [Program.temps, Program.declarations, List.flatMap_singleton, Decl.declarations,
        List.filterMap_map]
      exact List.filterMap_none _
    · rfl
  have hinputs : s.inputDecls.temps = [] := by
    unfold Shader.inputDecls
    split <;> rfl
  refine takes_bind (hgroups _ _ takes_lowerGlobal) fun plain => ?_
  refine takes_bind (hrecords _ _) fun records => ?_
  refine takes_bind (takes_lowerBlocks _ _) ?_
  rintro ⟨blocks, buffers⟩
  refine takes_bind (hgroups _ _ takes_lowerGlobal) fun others => ?_
  refine takes_bind (hgroups _ _ takes_lowerFunction_params) fun functions => takes_pure ?_
  apply List.perm_iff_count.2
  intro k
  simp only [Program.temps_append, hhelpers, hinputs, List.count_append, List.count_nil]
  omega

/-- Where no name of a shader begins with two underscores, each temporary and each address is
declared at most once in its program, and an address only next to the temporary of the same number,
whose value is what the store puts at the address. -/
theorem declared_once (hplain : s.PlainNames) (options : Options) (k : Nat) :
    (s.toProgram options).declaredNames.count (tempName k) ≤ 1 ∧
      (s.toProgram options).declaredNames.count (offsetName k) ≤ 1 ∧
      (offsetName k ∈ (s.toProgram options).declaredNames →
        ∃ type, .store k (s.leaves type [] (tempName k) 0).leaves ∈
          (s.toProgram options).declarations) := by
  have hmay := mayDeclareAll_lower hplain options {}
  have hnodup : (s.toProgram options).temps.Nodup := (takes_lower options {} .nil (by simp)).1
  have hown : ∀ name, .named name ∈ (s.toProgram options).declarations → IsOwn name :=
    fun name hname => hmay _ hname
  have hcount : (s.toProgram options).temps.count k ≤ 1 := List.nodup_iff_count_le_one.1 hnodup k
  refine ⟨?_, ?_, fun hoffset => ?_⟩
  · exact (count_tempName_le (fun name hname k => (hown name hname k).1) k).trans hcount
  · exact (count_offsetName_le (fun name hname k => (hown name hname k).2) k).trans hcount
  · obtain ⟨d, hd, hnames⟩ := List.mem_flatMap.1 hoffset
    cases d with
    | named name =>
        exact absurd (List.mem_singleton.1 hnames).symm (hown name hd k).2
    | result l =>
        exact absurd (List.mem_singleton.1 hnames).symm (tempName_ne_offsetName l k)
    | store l leaves =>
        obtain ⟨type, rfl⟩ : s.MayDeclare (.store l leaves) := hmay _ hd
        rcases List.mem_cons.1 hnames with h | h
        · exact absurd h.symm (tempName_ne_offsetName l k)
        · obtain rfl := offsetName_inj (List.mem_singleton.1 h)
          exact ⟨type, hd⟩

/-- The tokens of `buffer B { int a[2]; }; void main() { a[0] = a[1] = 2; }`. -/
def storeInStore : List TokenKind :=
  [.keyword (.storage .buffer), .ident "B", .punct .leftBrace, .keyword (.type (.scalar .int)),
    .ident "a", .punct .leftBracket, .number (.integer .int 2), .punct .rightBracket,
    .punct .semicolon, .punct .rightBrace, .punct .semicolon, .keyword (.type .void),
    .ident "main", .punct .leftParen, .punct .rightParen, .punct .leftBrace, .ident "a",
    .punct .leftBracket, .number (.integer .int 0), .punct .rightBracket, .punct .eq, .ident "a",
    .punct .leftBracket, .number (.integer .int 1), .punct .rightBracket, .punct .eq,
    .number (.integer .int 2), .punct .semicolon, .punct .rightBrace, .endOfFile]

theorem declared_once_storeInStore : ∃ s : Shader, s.Accepted ∧ s.PlainNames ∧
    (s.toProgram { emitHelpers := false }).declaredNames =
      ["a", "__load_a", "index", "ret", "main", "__temp0", "__offset0", "__temp1", "__offset1"] ∧
    ∃ type, .store 1 (s.leaves type [] "__temp1" 0).leaves ∈
      (s.toProgram { emitHelpers := false }).declarations := by
  obtain ⟨s, hs, hfacts⟩ := Parse.exists_accepted
    (f := fun s => (decide s.PlainNames, (s.toProgram { emitHelpers := false }).declaredNames))
    (show (Parse.plainShader? .fragment storeInStore).map _ = some (true, ["a", "__load_a", "index",
        "ret", "main", "__temp0", "__offset0", "__temp1", "__offset1"]) by
      decide +kernel)
  simp only [Prod.mk.injEq, decide_eq_true_eq] at hfacts
  obtain ⟨hplain, hnames⟩ := hfacts
  obtain ⟨-, -, hstore⟩ := declared_once hplain { emitHelpers := false } 1
  exact ⟨s, hs, hplain, hnames, hstore (hnames ▸ by decide +kernel)⟩

end Hlsl

end ShaderBridge
