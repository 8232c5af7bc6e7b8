import ShaderBridge.Proofs.Shader.Target

namespace ShaderBridge

namespace Expr

/-- What folding leaves where it stands. -/
def isFolded : Expr → Bool
  | constant _ | construct .. | aggregate _ | sequence .. => true
  | _ => false

/-- A constructor of a family of types. -/
def isGeneric : Expr → Bool
  | construct type _ => type.isFamily
  | _ => false

variable {e e' : Expr}

theorem Refolds.isFolded (h : e.Refolds e') : e'.isFolded = e.isFolded := by
  cases h <;> rfl

theorem Refolds.isGeneric (h : e.Refolds e') : e'.isGeneric = e.isGeneric := by
  cases h <;> rfl

theorem Rebinds.isFolded (h : e.Rebinds e') : e'.isFolded = e.isFolded := by
  cases h <;> rfl

theorem Rebinds.isGeneric (h : e.Rebinds e') : e'.isGeneric = e.isGeneric := by
  cases h <;> rfl

end Expr

/-- A variable of a family of types. That of a field is not looked at, and that of a parameter is
looked at where a function has it. -/
def Variable.isGeneric (v : Variable) : Bool :=
  match v.role with
  | .global _ | .localVar _ => v.type.isFamily
  | .parameter _ | .field => false

/-- The sizes of the dimensions that have one. -/
def dimSizes (dims : List (Option ExprId)) : List ExprId :=
  dims.filterMap id

def layoutValues (layout : List LayoutEntry) : List ExprId :=
  layout.filterMap LayoutEntry.value

/-- What has to be constant in a declaration: the sizes of dimensions and the values in layouts. -/
def Variable.constantPositions (v : Variable) : List ExprId :=
  dimSizes v.dims ++ layoutValues ((v.global?.map GlobalInfo.layout).getD [])

def StructDecl.constantPositions (d : StructDecl) : List ExprId :=
  layoutValues ((d.block.map BlockInfo.layout).getD [])

namespace Shader

/-- A folded expression is there. -/
def HasFolded (s : Shader) (e : ExprId) : Prop :=
  e.index < s.exprs.size ∧ (s.expr e).isFolded

def ResolvedVar (s : Shader) (v : Variable) : Prop :=
  v.isGeneric = false ∧ ∀ e ∈ v.constantPositions, s.HasFolded e

def ResolvedFunc (s : Shader) (f : Function) : Prop :=
  f.returnType.isFamily = false ∧ ∀ p ∈ f.params, (s.var p).type.isFamily = false

structure Resolved (s : Shader) : Prop where
  exprs : ∀ e, (s.expr e).isGeneric = false
  targets : ∀ e, s.GuardsTarget (s.expr e)
  vars : ∀ v, s.ResolvedVar (s.var v)
  funcs : ∀ f, s.ResolvedFunc (s.func f)
  structs : ∀ d, ∀ e ∈ (s.struct d).constantPositions, s.HasFolded e
  globals : ∀ v ∈ s.globals, (s.var v).type.isFamily = false

variable {s s' : Shader} {e : ExprId} {v : Variable}

theorem HasFolded.grows (h : s.HasFolded e) (hg : s.Grows s') : s'.HasFolded e :=
  ⟨Nat.lt_of_lt_of_le h.1 hg.exprs, (hg.expr e h.1).isFolded ▸ h.2⟩

theorem HasFolded.of_exprs_eq (h : s.HasFolded e) (hexprs : s'.exprs = s.exprs) :
    s'.HasFolded e := by
  unfold HasFolded Shader.expr at *
  rwa [hexprs]

theorem ResolvedVar.grows (h : s.ResolvedVar v) (hg : s.Grows s') : s'.ResolvedVar v :=
  ⟨h.1, fun e he => (h.2 e he).grows hg⟩

namespace Resolved

theorem grows (h : s.Resolved) (hlinked : s.Linked) (hg : s.Grows s')
    (hexprs : ∀ e : ExprId, s.exprs.size ≤ e.index →
      (s'.expr e).isGeneric = false ∧ s'.GuardsTarget (s'.expr e))
    (hvars : ∀ v : VarId, s.vars.size ≤ v.index → s'.ResolvedVar (s'.var v)) : s'.Resolved where
  exprs e := by
    by_cases he : e.index < s.exprs.size
    · rw [(hg.expr e he).isGeneric]
      exact h.exprs e
    · exact (hexprs e (Nat.not_lt.1 he)).1
  targets := hg.guardsTarget hlinked h.targets fun e he => (hexprs e he).2
  vars v := by
    by_cases hv : v.index < s.vars.size
    · rw [hg.var v hv]
      exact (h.vars v).grows hg
    · exact hvars v (Nat.not_lt.1 hv)
  funcs f := by
    rw [show s'.func f = s.func f by rw [hg.rest]; rfl]
    refine ⟨(h.funcs f).1, fun p hp => ?_⟩
    have hhas := hlinked.func f (.var p) (by simp [Function.references, hp])
    rw [hg.var p (by simpa [has] using hhas)]
    exact (h.funcs f).2 p hp
  structs d := by
    rw [show s'.struct d = s.struct d by rw [hg.rest]; rfl]
    exact fun e he => (h.structs d e he).grows hg
  globals v hv := by
    rw [hg.rest] at hv
    have hhas := hlinked.listed (.var v) (by
      simp only [listed, List.mem_append, List.mem_map]
      exact .inl (.inl (.inl (.inl ⟨v, Array.mem_toList_iff.2 hv, rfl⟩))))
    rw [hg.var v (by simpa [has] using hhas)]
    exact h.globals v hv

theorem resolvedVar_of_size_le {v : VarId} (hv : s.vars.size ≤ v.index) :
    s'.ResolvedVar (s.var v) := by
  rw [var_of_size_le hv]
  exact ⟨rfl, List.forall_mem_nil _⟩

theorem truncate (h : s.Resolved) (hlinked : s.Linked) (hg : s.Grows s') :
    (s'.truncate s.exprs.size s.vars.size).Resolved := by
  refine h.grows hlinked hg.truncate (fun e he => ?_) fun v hv => resolvedVar_of_size_le ?_
  · rw [expr_of_size_le (by simpa [Shader.truncate, hg.exprs] using he)]
    exact ⟨rfl, guardsTarget_of_not_isAssign rfl⟩
  · simpa [Shader.truncate, hg.vars] using hv

theorem addExpr (h : s.Resolved) (hlinked : s.Linked) {e : Expr} (he : e.isGeneric = false)
    (hguards : s.GuardsTarget e) : (s.addExpr e).2.Resolved := by
  have hg := Grows.addExpr s e
  have hmono {x : Expr} (hx : s.GuardsTarget x) : (s.addExpr e).2.GuardsTarget x :=
    hx.mono (fun d => hg.expr_of_isSelection) fun _ _ _ => rfl
  refine h.grows hlinked hg (fun id _ => ?_) fun v => resolvedVar_of_size_le
  rw [expr_addExpr]
  split
  · exact ⟨he, hmono hguards⟩
  · exact ⟨h.exprs id, hmono (h.targets id)⟩

theorem addVar (h : s.Resolved) (hlinked : s.Linked) (hv : s.ResolvedVar v) :
    (s.addVar v).2.Resolved := by
  refine h.grows hlinked (.addVar s v) (fun e he => ?_) fun id _ => ?_
  · rw [show (s.addVar v).2.expr e = s.expr e from rfl, expr_of_size_le he]
    exact ⟨rfl, guardsTarget_of_not_isAssign rfl⟩
  rw [var_addVar]
  split
  · exact hv
  · exact h.vars id

theorem extend (h : s.Resolved) (hexprs : s'.exprs = s.exprs) (hvars : s'.vars = s.vars)
    (hglobals : ∀ v ∈ s'.globals, v ∈ s.globals ∨ (s.var v).type.isFamily = false)
    (hfunc : ∀ f, s'.func f = s.func f ∨ s.ResolvedFunc (s'.func f))
    (hstruct : ∀ d, s'.struct d = s.struct d ∨
      ∀ e ∈ (s'.struct d).constantPositions, s.HasFolded e) : s'.Resolved := by
  have hexpr (e : ExprId) : s'.expr e = s.expr e := by
    rw [Shader.expr, hexprs]
    rfl
  have hvar (v : VarId) : s'.var v = s.var v := by
    rw [Shader.var, hvars]
    rfl
  have hfolded {e : ExprId} (he : s.HasFolded e) : s'.HasFolded e := he.of_exprs_eq hexprs
  refine ⟨fun e => hexpr e ▸ h.exprs e, fun e => ?_, fun v => ?_, fun f => ?_, fun d => ?_,
    fun v hv => hvar v ▸ (hglobals v hv).elim (h.globals v) id⟩
  · rw [hexpr]
    exact (h.targets e).mono (fun d _ => hexpr d) fun _ v _ => by rw [hvar]
  · rw [hvar]
    exact ⟨(h.vars v).1, fun e he => hfolded ((h.vars v).2 e he)⟩
  · have hresolved : s.ResolvedFunc (s'.func f) :=
      (hfunc f).elim (fun hsame => hsame ▸ h.funcs f) id
    exact ⟨hresolved.1, fun p hp => hvar p ▸ hresolved.2 p hp⟩
  · rcases hstruct d with hsame | hnew
    · exact fun e he => hfolded (h.structs d e (hsame ▸ he))
    · exact fun e he => hfolded (hnew e he)

theorem addFunc (h : s.Resolved) {f : Function} (hf : s.ResolvedFunc f) :
    (s.addFunc f).Resolved := by
  refine h.extend rfl rfl (fun _ hv => .inl hv) (fun id => ?_) fun _ => .inl rfl
  rw [func_addFunc]
  split
  · exact .inr hf
  · exact .inl rfl

theorem addStruct (h : s.Resolved) {d : StructDecl}
    (hd : ∀ e ∈ d.constantPositions, s.HasFolded e) :
    (s.addStruct d).2.Resolved := by
  refine h.extend rfl rfl (fun _ hv => .inl hv) (fun _ => .inl rfl) fun id => ?_
  rw [struct_addStruct]
  split
  · exact .inr hd
  · exact .inl rfl

theorem setFlags (h : s.Resolved) (id : VarId) (f : VarFlags → VarFlags)
    (hf : ∀ flags, (f flags).constant = flags.constant) :
    (s.modifyVar id fun v => { v with flags := f v.flags }).Resolved := by
  have hvar (v : VarId) : ∃ flags : VarFlags, flags.constant = (s.var v).flags.constant ∧
      (s.modifyVar id fun v => { v with flags := f v.flags }).var v =
        { s.var v with flags } := by
    simp only [Shader.modifyVar, Shader.var, Array.getD_eq_getD_getElem?, Array.getElem?_modify]
    split
    · cases s.vars[v.index]?
      · exact ⟨_, rfl, rfl⟩
      · exact ⟨_, hf _, rfl⟩
    · exact ⟨_, rfl, rfl⟩
  have htype (v : VarId) :
      ((s.modifyVar id fun v => { v with flags := f v.flags }).var v).type = (s.var v).type := by
    obtain ⟨flags, -, hv⟩ := hvar v
    rw [hv]
  have hreadOnly (v : VarId) :
      ((s.modifyVar id fun v => { v with flags := f v.flags }).var v).isReadOnly =
        (s.var v).isReadOnly := by
    obtain ⟨flags, hconstant, hv⟩ := hvar v
    rw [hv, Variable.isReadOnly, Variable.isReadOnly, Variable.isImmutable, Variable.isImmutable,
      hconstant]
    rfl
  refine ⟨h.exprs, fun e => (h.targets e).mono (fun _ _ => rfl) fun _ v _ => hreadOnly v,
    fun v => ?_, fun g => ⟨(h.funcs g).1, fun p hp => ?_⟩, h.structs, fun v hv => ?_⟩
  · obtain ⟨flags, -, hv⟩ := hvar v
    rw [hv]
    exact h.vars v
  · exact htype p ▸ (h.funcs g).2 p hp
  · exact htype v ▸ h.globals v hv

theorem linkPrototypes (h : s.Resolved) : s.linkPrototypes.Resolved := by
  unfold Shader.linkPrototypes
  rw [← Array.foldl_toList]
  refine List.foldlRecOn _ _ h fun linked hlinked id _ => ?_
  split
  · exact hlinked
  split
  · next p _ =>
      refine hlinked.extend rfl rfl (fun _ hv => .inl hv) (fun f => .inr ?_) fun _ => .inl rfl
      have hf := hlinked.funcs f
      simp only [Shader.modifyFunc, Shader.func, Array.getD_eq_getD_getElem?, Array.getElem?_modify]
        at hf ⊢
      split
      · cases hget : linked.funcs[f.index]? <;> rw [hget] at hf <;> exact hf
      · exact hf
  · exact hlinked

theorem rebinds (h : s.Resolved) (hrest : s.SameRest s') (hsize : s'.exprs.size = s.exprs.size)
    (hexpr : ∀ e, (s.expr e).Rebinds (s'.expr e)) : s'.Resolved := by
  have hfolded {e : ExprId} (he : s.HasFolded e) : s'.HasFolded e :=
    ⟨hsize ▸ he.1, (hexpr e).isFolded ▸ he.2⟩
  have hexprs (e : ExprId) : (s'.expr e).isGeneric = false := (hexpr e).isGeneric ▸ h.exprs e
  have hselection (d : ExprId) (hd : (s.expr d).isSelection) : s'.expr d = s.expr d :=
    (hexpr d).eq_of_isSelection hd
  have htargets (e : ExprId) : s.GuardsTarget (s'.expr e) := by
    by_cases hassign : (s'.expr e).isAssign
    · exact (hexpr e).eq_of_isAssign hassign ▸ h.targets e
    · exact guardsTarget_of_not_isAssign (Bool.eq_false_of_not_eq_true hassign)
  obtain ⟨exprs, rfl⟩ := hrest
  exact ⟨hexprs, fun e => (htargets e).mono hselection fun _ _ _ => rfl,
    fun v => ⟨(h.vars v).1, fun e he => hfolded ((h.vars v).2 e he)⟩, h.funcs,
    fun d e he => hfolded (h.structs d e he), h.globals⟩

theorem initial (stage : Stage) : ({ stage } : Shader).Resolved where
  exprs _ := rfl
  targets _ := guardsTarget_of_not_isAssign rfl
  vars _ := ⟨rfl, List.forall_mem_nil _⟩
  funcs _ := ⟨rfl, List.forall_mem_nil _⟩
  structs _ := List.forall_mem_nil _
  globals v hv := absurd hv (Array.not_mem_empty v)

end Resolved

end Shader

end ShaderBridge
