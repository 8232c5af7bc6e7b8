import ShaderBridge.Proofs.Shader.Binding

namespace ShaderBridge

namespace Expr

def isMember : Expr → Bool
  | member .. => true
  | _ => false

variable {e e' : Expr}

theorem Refolds.eq_of_isMember (h : e.Refolds e') (he : e'.isMember) : e = e' := by
  cases h with
  | same => rfl
  | construct | aggregate => cases he

end Expr

namespace Shader

open Relation

/-- What an access to a member selects: the first field of that name where the operand is a
structure or a block, and components otherwise. -/
inductive MemberIs (s : Shader) (operand : ExprId) (name : String) : Option VarId → Prop where
  | field {id : StructId} {f : VarId} : s.baseTypeOf? operand = some (.declared id) →
      (s.struct id).fields.find? (fun f => (s.var f).name == name) = some f →
      MemberIs s operand name (some f)
  | components : (∀ id, s.baseTypeOf? operand ≠ some (.declared id)) → MemberIs s operand name none

/-- A shader in which only the first functions can be called. -/
def upTo (s : Shader) (n : Nat) : Shader :=
  { s with functionNames := s.functionNames.retain fun f => f.index < n }

/-- A shader with other expressions, in which only the first functions can be called. -/
def among (s : Shader) (exprs : Array Expr) (n : Nat) : Shader :=
  { s with exprs }.upTo n

/-- What there was in front of an expression. Items of constructors and of arrays may have been
replaced since. -/
structure StoodBefore (s : Shader) (e : ExprId) (exprs : Array Expr) : Prop where
  size : exprs.size = e.index
  refolds : ∀ d : ExprId, d.index < e.index → (exprs.getD d.index default).Refolds (s.expr d)

/-- Every access selects what it did among the expressions and the functions that there were when it
was read. Functions known to one access are known to what stands behind it. -/
def MembersSelected (s : Shader) : Prop :=
  ∃ known : Nat → Nat, Monotone known ∧ (∀ i, known i ≤ s.funcs.size) ∧
    ∀ e operand name field, s.expr e = .member operand name field →
      ∃ exprs, s.StoodBefore e exprs ∧ (s.among exprs (known e.index)).MemberIs operand name field

variable {s s' : Shader} {operand : ExprId} {name : String} {field : Option VarId} {n : Nat}

theorem StoodBefore.links_subset {e : ExprId} {exprs : Array Expr} (h : s.StoodBefore e exprs)
    {d : ExprId} : ((s.among exprs n).expr d).links ⊆ (s.expr d).links := by
  change (exprs.getD d.index default).links ⊆ _
  by_cases hd : d.index < e.index
  · rw [(h.refolds d hd).links]
    exact List.Subset.refl _
  · rw [Array.getD_eq_getD_getElem?, Array.getElem?_eq_none (h.size.le.trans (Nat.not_lt.1 hd))]
    exact List.nil_subset _

theorem overloads_upTo (s : Shader) (n : Nat) (name : String) :
    (s.upTo n).overloads name = (s.overloads name).filter fun f => f.index < n :=
  FunctionTable.find_retain _ name

theorem Linked.index_lt_of_mem_overloads (h : s.Linked) {f : FuncId} (hf : f ∈ s.overloads name) :
    f.index < s.funcs.size := by
  simpa [has] using h.has_of_mem_overloads hf

theorem Linked.upTo_size (h : s.Linked) : s.upTo s.funcs.size = s := by
  have hall : s.functionNames.retain (fun f => f.index < s.funcs.size) =
      s.functionNames.retain fun _ => true :=
    FunctionTable.retain_congr fun name f hf => by simpa using h.index_lt_of_mem_overloads hf
  unfold upTo
  rw [hall, FunctionTable.retain_true]

/-- Tables have been added to. What was there before is found under the same names and has the same
types. -/
structure Extends (s s' : Shader) : Prop where
  expr : ∀ e : ExprId, e.index < s.exprs.size → (s.expr e).Refolds (s'.expr e)
  var : ∀ v : VarId, v.index < s.vars.size →
    (s'.var v).name = (s.var v).name ∧ s'.varType v = s.varType v
  funcs : s.funcs.size ≤ s'.funcs.size
  func : ∀ f : FuncId, f.index < s.funcs.size →
    (s'.func f).params = (s.func f).params ∧ (s'.func f).returnType = (s.func f).returnType
  struct : ∀ d : StructId, d.index < s.structs.size → (s'.struct d).fields = (s.struct d).fields
  overloads : ∀ name, (s'.overloads name).filter (fun f => f.index < s.funcs.size) =
    s.overloads name

namespace Extends

theorem of_functionNames (hlinked : s.Linked)
    (hexpr : ∀ e : ExprId, e.index < s.exprs.size → (s.expr e).Refolds (s'.expr e))
    (hvar : ∀ v : VarId, v.index < s.vars.size →
      (s'.var v).name = (s.var v).name ∧ s'.varType v = s.varType v)
    (hfuncs : s.funcs.size ≤ s'.funcs.size)
    (hfunc : ∀ f : FuncId, f.index < s.funcs.size →
      (s'.func f).params = (s.func f).params ∧ (s'.func f).returnType = (s.func f).returnType)
    (hstruct : ∀ d : StructId, d.index < s.structs.size →
      (s'.struct d).fields = (s.struct d).fields)
    (hnames : s'.functionNames = s.functionNames) : s.Extends s' where
  expr := hexpr
  var := hvar
  funcs := hfuncs
  func := hfunc
  struct := hstruct
  overloads name := by
    rw [Shader.overloads, hnames]
    exact List.filter_eq_self.2 fun f hf => by simpa using hlinked.index_lt_of_mem_overloads hf

theorem of_grows (hlinked : s.Linked) (hg : s.Grows s') : s.Extends s' := by
  have hvar (v : VarId) (hv : v.index < s.vars.size) : s'.var v = s.var v := hg.var v hv
  refine of_functionNames hlinked hg.expr (fun v hv => ?_) hg.keeps.funcs (fun f _ => ?_)
    (fun d _ => ?_) ?_
  · rw [varType, varType, hvar v hv]
    exact ⟨rfl, rfl⟩
  · rw [show s'.func f = s.func f by rw [hg.rest]; rfl]
    exact ⟨rfl, rfl⟩
  · rw [show s'.struct d = s.struct d by rw [hg.rest]; rfl]
  · rw [hg.rest]

theorem of_structs (hlinked : s.Linked) (hexprs : s'.exprs = s.exprs) (hvars : s'.vars = s.vars)
    (hfuncs : s'.funcs = s.funcs) (hnames : s'.functionNames = s.functionNames)
    (hstruct : ∀ d : StructId, d.index < s.structs.size →
      (s'.struct d).fields = (s.struct d).fields) : s.Extends s' := by
  refine of_functionNames hlinked (fun e _ => ?_) (fun v _ => ?_) (Nat.le_of_eq (by rw [hfuncs]))
    (fun f _ => ?_) hstruct hnames
  · rw [Shader.expr, Shader.expr, hexprs]
    exact .same _
  · rw [varType, varType, Shader.var, Shader.var, hvars]
    exact ⟨rfl, rfl⟩
  · rw [Shader.func, Shader.func, hfuncs]
    exact ⟨rfl, rfl⟩

theorem addFunc (hlinked : s.Linked) (f : Function) : s.Extends (s.addFunc f) where
  expr _ _ := .same _
  var _ _ := ⟨rfl, rfl⟩
  funcs := by simp [Shader.addFunc]
  func g hg := by
    rw [func_addFunc, if_neg (Nat.ne_of_lt hg)]
    exact ⟨rfl, rfl⟩
  struct _ _ := rfl
  overloads name := by
    have hold : (s.overloads name).filter (fun f => f.index < s.funcs.size) = s.overloads name :=
      List.filter_eq_self.2 fun f hf => by simpa using hlinked.index_lt_of_mem_overloads hf
    have hadded : (s.addFunc f).overloads name =
        if name = f.name then s.overloads name ++ [⟨s.funcs.size⟩] else s.overloads name :=
      FunctionTable.find_add s.functionNames f.name name ⟨s.funcs.size⟩
    rw [hadded]
    split
    · rw [List.filter_append, hold]
      simp
    · exact hold

theorem setFlags (hlinked : s.Linked) (id : VarId) (f : VarFlags → VarFlags) :
    s.Extends (s.modifyVar id fun v => { v with flags := f v.flags }) := by
  refine of_functionNames hlinked (fun _ _ => .same _) (fun v _ => ?_) (Nat.le_refl _)
    (fun _ _ => ⟨rfl, rfl⟩) (fun _ _ => rfl) rfl
  simp only [varType, Shader.modifyVar, Shader.var, Array.getD_eq_getD_getElem?,
    Array.getElem?_modify]
  split
  · cases s.vars[v.index]? <;> exact ⟨rfl, rfl⟩
  · exact ⟨rfl, rfl⟩

section

variable (hs : s.Extends s') (hlinked : s.Linked)

include hs hlinked

theorem signature {f : FuncId} (hf : f.index < s.funcs.size) :
    s'.paramTypes f = s.paramTypes f ∧ (s'.func f).returnType = (s.func f).returnType := by
  obtain ⟨hparams, hreturn⟩ := hs.func f hf
  refine ⟨?_, hreturn⟩
  unfold paramTypes
  rw [hparams]
  refine List.map_congr_left fun p hp => ?_
  have hlt : p.index < s.vars.size := by
    simpa [has] using hlinked.func f (.var p) (by simp [Function.references, hp])
  exact congrArg ExprType.type (hs.var p hlt).2

variable {e : ExprId} {exprs : Array Expr} (hexprs : s.StoodBefore e exprs)

include hexprs

theorem typeOf?_among (hn : n ≤ s.funcs.size) :
    (s'.among exprs n).typeOf? operand = (s.among exprs n).typeOf? operand := by
  refine typeWithin?_congr fun d _ =>
    ⟨.inl rfl, fun v hv => ?_, fun name args f hcall => ?_, fun name args hcall => ?_⟩
  · have hv := hlinked.expr d _ (hexprs.links_subset hv)
    exact (hs.var v (by simpa [has] using hv)).2
  · have hf : Item.func f ∈ ((s.among exprs n).expr d).links := by simp [hcall, Expr.links]
    have hf := hlinked.expr d _ (hexprs.links_subset hf)
    exact (hs.signature hlinked (by simpa [has] using hf)).2
  · have hoverloads : (s'.among exprs n).overloads name = (s.among exprs n).overloads name := by
      refine (overloads_upTo _ n name).trans (Eq.trans ?_ (overloads_upTo _ n name).symm)
      change (s'.overloads name).filter _ = (s.overloads name).filter _
      rw [← hs.overloads name, List.filter_filter]
      refine List.filter_congr fun f _ => ?_
      rw [← Bool.decide_and]
      exact decide_eq_decide.2 ⟨fun h => ⟨h, Nat.lt_of_lt_of_le h hn⟩, fun h => h.1⟩
    refine ⟨hoverloads, fun f hf => ?_⟩
    rw [among, overloads_upTo] at hf
    exact hs.signature hlinked (hlinked.index_lt_of_mem_overloads (List.mem_of_mem_filter hf))

theorem memberIs (hn : n ≤ s.funcs.size) (h : (s.among exprs n).MemberIs operand name field) :
    (s'.among exprs n).MemberIs operand name field := by
  have htype : (s'.among exprs n).baseTypeOf? operand = (s.among exprs n).baseTypeOf? operand :=
    congrArg (Option.map ExprType.type) (hs.typeOf?_among hlinked hexprs hn)
  cases h with
  | components hnone => exact .components fun id => htype ▸ hnone id
  | @field id f howner hfound =>
      have hfound : (s.struct id).fields.find? (fun f => (s.var f).name == name) = some f := hfound
      have hid : id.index < s.structs.size := by
        by_contra hge
        rw [struct_of_size_le (Nat.not_lt.1 hge)] at hfound
        cases hfound
      refine .field (htype.trans howner) ?_
      change (s'.struct id).fields.find? (fun f => (s'.var f).name == name) = some f
      rw [hs.struct id hid, ← hfound]
      refine List.find?_congr fun f hf => ?_
      have hlt : f.index < s.vars.size := by
        simpa [has] using hlinked.struct id (.var f)
          (List.mem_append_left _ (List.mem_map_of_mem hf))
      rw [(hs.var f hlt).1]

end

end Extends

theorem MembersSelected.extends (h : s.MembersSelected) (hlinked : s.Linked) (hs : s.Extends s')
    (hnew : ∀ (e : ExprId) operand name field, s.exprs.size ≤ e.index →
      s'.expr e = .member operand name field → ∃ exprs, s'.StoodBefore e exprs ∧
        (s'.among exprs s.funcs.size).MemberIs operand name field) : s'.MembersSelected := by
  obtain ⟨known, hmono, hle, hmembers⟩ := h
  refine ⟨fun i => if i < s.exprs.size then known i else s.funcs.size, fun i j hij => ?_,
    fun i => ?_, fun e operand name field he => ?_⟩
  · dsimp only
    split
    · split
      · exact hmono hij
      · exact hle i
    · rw [if_neg (by omega : ¬ j < s.exprs.size)]
  · dsimp only
    split
    · exact (hle i).trans hs.funcs
    · exact hs.funcs
  · dsimp only
    split
    · next hlt =>
        have hold : s.expr e = .member operand name field := by
          rw [(hs.expr e hlt).eq_of_isMember (by rw [he]; rfl), he]
        obtain ⟨exprs, hexprs, hmember⟩ := hmembers e operand name field hold
        refine ⟨exprs, ⟨hexprs.size, fun d hd => ?_⟩, hs.memberIs hlinked hexprs (hle _) hmember⟩
        exact (hexprs.refolds d hd).trans (hs.expr d (hd.trans hlt))
    · next hge => exact hnew e operand name field (Nat.not_lt.1 hge) he

namespace MembersSelected

variable {e : Expr}

theorem of_exprs_eq (h : s.MembersSelected) (hlinked : s.Linked) (hs : s.Extends s')
    (hexprs : s'.exprs = s.exprs) : s'.MembersSelected :=
  h.extends hlinked hs fun e _ _ _ he hexpr => by
    rw [expr_of_size_le (hexprs ▸ he)] at hexpr
    cases hexpr

theorem grows (h : s.MembersSelected) (hlinked : s.Linked) (hg : s.Grows s')
    (hnew : ∀ e : ExprId, s.exprs.size ≤ e.index → (s'.expr e).isMember = false) :
    s'.MembersSelected :=
  h.extends hlinked (.of_grows hlinked hg) fun e operand name field he hexpr => by
    have hnot := hnew e he
    rw [hexpr] at hnot
    cases hnot

theorem truncate (h : s.MembersSelected) (hlinked : s.Linked) (hg : s.Grows s') :
    (s'.truncate s.exprs.size s.vars.size).MembersSelected :=
  h.grows hlinked hg.truncate fun e he => by
    rw [expr_of_size_le (by simpa [Shader.truncate, hg.exprs] using he)]
    rfl

theorem of_structs (h : s.MembersSelected) (hlinked : s.Linked) (hexprs : s'.exprs = s.exprs)
    (hvars : s'.vars = s.vars) (hfuncs : s'.funcs = s.funcs)
    (hnames : s'.functionNames = s.functionNames)
    (hstruct : ∀ d : StructId, d.index < s.structs.size →
      (s'.struct d).fields = (s.struct d).fields) : s'.MembersSelected :=
  h.of_exprs_eq hlinked (.of_structs hlinked hexprs hvars hfuncs hnames hstruct) hexprs

theorem addExpr (h : s.MembersSelected) (hlinked : s.Linked)
    (hmember : ∀ operand name field, e = .member operand name field →
      s.MemberIs operand name field) : (s.addExpr e).2.MembersSelected := by
  have hs := Extends.of_grows hlinked (.addExpr s e)
  refine h.extends hlinked hs fun id operand name field hid hexpr => ?_
  rw [expr_addExpr] at hexpr
  split at hexpr
  · next hnew =>
      subst hexpr
      have hbefore : s.StoodBefore id s.exprs := ⟨hnew.symm, fun d _ => .same _⟩
      refine ⟨s.exprs, ⟨hnew.symm, fun d hd => hs.expr d (hnew ▸ hd)⟩,
        hs.memberIs hlinked hbefore (Nat.le_refl _) ?_⟩
      rw [among, hlinked.upTo_size]
      exact hmember operand name field rfl
  · rw [expr_of_size_le hid] at hexpr
    cases hexpr

theorem initial (stage : Stage) : ({ stage } : Shader).MembersSelected :=
  ⟨fun _ => 0, monotone_const, fun _ => Nat.le_refl _, fun _ _ _ _ he => by cases he⟩

end MembersSelected

end Shader

end ShaderBridge
