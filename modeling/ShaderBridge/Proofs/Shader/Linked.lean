import ShaderBridge.Proofs.Shader.References

/-!
Shaders whose links lead to what is there, and whose expressions and statements stand behind those
that they are made of. This is so of every table that is only added to; functions are found under
their names, and taken out of there. What folding does to the arguments of a constructor or the
items of an array is another matter: `ItemsBelow` says that these stand in front as well, unless
they are literals.
-/

namespace ShaderBridge

/-! ### Functions under their names -/

theorem lookup_addOverload (name other : String) (id : FuncId)
    (entries : List (String × List FuncId)) :
    ((addOverload name id entries).lookup other).getD [] =
      if other = name then (entries.lookup other).getD [] ++ [id]
      else (entries.lookup other).getD [] := by
  induction entries with
  | nil =>
      by_cases h : other = name
      · simp [addOverload, h]
      · simp [addOverload, h, List.lookup_cons, beq_false_of_ne h]
  | cons entry rest ih =>
      obtain ⟨first, ids⟩ := entry
      unfold addOverload
      by_cases hfirst : first = name
      · subst hfirst
        by_cases h : other = first
        · simp [h]
        · simp [List.lookup_cons, beq_false_of_ne h, h]
      · rw [if_neg hfirst, List.lookup_cons, List.lookup_cons]
        by_cases h : other = first
        · subst h
          simp [hfirst]
        · rw [beq_false_of_ne h]
          exact ih

theorem lookup_eq_some_iff_mem {α : Type} {entries : List (String × α)}
    (h : (entries.map Prod.fst).Nodup) {name : String} {a : α} :
    entries.lookup name = some a ↔ (name, a) ∈ entries := by
  induction entries with
  | nil => simp
  | cons entry rest ih =>
      obtain ⟨first, b⟩ := entry
      obtain ⟨hfirst, hrest⟩ := List.nodup_cons.1 h
      rw [List.lookup_cons, List.mem_cons, Prod.mk.injEq]
      by_cases hname : name = first
      · subst hname
        have hnot : (name, a) ∉ rest := fun hmem =>
          hfirst (List.mem_map.2 ⟨_, hmem, rfl⟩)
        simp [hnot, eq_comm]
      · rw [beq_false_of_ne hname]
        simp [hname, ih hrest]

namespace FunctionTable

variable (t : FunctionTable)

theorem find_add (name other : String) (id : FuncId) :
    (t.add name id).find other = if other = name then t.find other ++ [id] else t.find other :=
  lookup_addOverload name other id t.entries

variable {t}

theorem find_of_mem {entry : String × List FuncId} (h : entry ∈ t.entries) :
    t.find entry.1 = entry.2 := by
  unfold find
  rw [(lookup_eq_some_iff_mem t.nodup).2 h]
  rfl

theorem mem_entries_of_find {name : String} (h : t.find name ≠ []) :
    (name, t.find name) ∈ t.entries := by
  unfold find at h ⊢
  cases hlookup : t.entries.lookup name with
  | none => exact absurd (by rw [hlookup]; rfl) h
  | some ids => exact (lookup_eq_some_iff_mem t.nodup).1 hlookup

theorem mem_names_iff {name : String} : name ∈ t.entries.map Prod.fst ↔ t.find name ≠ [] := by
  constructor
  · intro h
    obtain ⟨entry, hentry, rfl⟩ := List.mem_map.1 h
    rw [find_of_mem hentry]
    exact t.nonempty entry hentry
  · exact fun h => List.mem_map_of_mem (mem_entries_of_find h)

theorem find_retain (keep : FuncId → Bool) (name : String) :
    (t.retain keep).find name = (t.find name).filter keep := by
  by_cases h : ((t.find name).filter keep) = []
  · rw [h]
    refine Decidable.byContradiction fun hne => ?_
    have hmem := mem_entries_of_find hne
    obtain ⟨hmem, hnonempty⟩ := List.mem_filter.1 hmem
    obtain ⟨⟨first, ids⟩, hentry, heq⟩ := List.mem_map.1 hmem
    rw [Prod.mk.injEq] at heq
    obtain ⟨rfl, heq⟩ := heq
    rw [find_of_mem hentry] at h
    exact hne (heq ▸ h)
  · have hne : t.find name ≠ [] := fun hnil => h (by rw [hnil]; rfl)
    have hentry : (name, (t.find name).filter keep) ∈ (t.retain keep).entries := by
      refine List.mem_filter.2 ⟨List.mem_map.2 ⟨_, mem_entries_of_find hne, rfl⟩, ?_⟩
      simpa using h
    exact find_of_mem hentry

theorem retain_true (t : FunctionTable) : (t.retain fun _ => true) = t := by
  have hentries : (t.retain fun _ => true).entries = t.entries := by
    unfold retain
    simp only [List.filter_true, List.map_id']
    exact List.filter_eq_self.2 fun entry hentry => by simpa using t.nonempty entry hentry
  cases t
  unfold retain at hentries ⊢
  simp only [FunctionTable.mk.injEq]
  exact hentries

theorem retain_congr {keep keep' : FuncId → Bool}
    (h : ∀ name, ∀ f ∈ t.find name, keep f = keep' f) : t.retain keep = t.retain keep' := by
  have hentries : (t.retain keep).entries = (t.retain keep').entries := by
    refine congrArg (List.filter _) (List.map_congr_left fun entry hentry => ?_)
    rw [List.filter_congr fun f hf => h entry.1 f ((find_of_mem hentry).symm ▸ hf)]
  unfold retain at hentries ⊢
  simp only [FunctionTable.mk.injEq]
  exact hentries

end FunctionTable

/-! ### Nodes that are folded -/

/-- Entries that differ in the arguments of a constructor or in the items of an array only. -/
inductive Expr.Refolds : Expr → Expr → Prop where
  | same (e : Expr) : Refolds e e
  | construct (type : TypeRef) (args args' : List ExprId) :
      Refolds (.construct type args) (.construct type args')
  | aggregate (items items' : List ExprId) : Refolds (.aggregate items) (.aggregate items')

namespace Expr.Refolds

variable {e e' e'' : Expr}

theorem links (h : e.Refolds e') : e'.links = e.links := by
  cases h <;> rfl

theorem isCall (h : e.Refolds e') : e'.isCall = e.isCall := by
  cases h <;> rfl

theorem trans (h : e.Refolds e') (h' : e'.Refolds e'') : e.Refolds e'' := by
  cases h with
  | same => exact h'
  | construct => cases h' <;> exact .construct ..
  | aggregate => cases h' <;> exact .aggregate ..

theorem symm (h : e.Refolds e') : e'.Refolds e := by
  cases h with
  | same => exact .same _
  | construct => exact .construct ..
  | aggregate => exact .aggregate ..

end Expr.Refolds

namespace Shader

/-- What stands in front of an expression for good: its operands, and the first value of a variable
that it is. -/
def before (s : Shader) : Expr → List ExprId
  | .constant _ | .construct .. | .aggregate _ => []
  | .var v => (s.var v).initial?.toList
  | e => e.operands

/-- The functions of a name, as they stand among all functions. -/
def functionsNamed (s : Shader) (name : String) : List FuncId :=
  s.functions.toList.filter fun id => (s.func id).name == name

/-- What is found under a name has that name and stands in the lists. -/
structure Indexed (s : Shader) : Prop where
  functions : ∀ name, s.overloads name = s.functionsNamed name
  structures : ∀ entry ∈ s.structureNames,
    entry.2 ∈ s.structures ∧ (s.struct entry.2).name = some entry.1

structure Linked (s : Shader) : Prop where
  indexed : s.Indexed
  listed : ∀ x ∈ s.listed, s.has x
  expr : ∀ id, ∀ x ∈ (s.expr id).links, s.has x
  before : ∀ id, ∀ d ∈ s.before (s.expr id), d.index < id.index
  stmt : ∀ id, ∀ x ∈ (s.stmt id).references, s.has x
  stmtBefore : ∀ id u, .stmt u ∈ (s.stmt id).references → u.index < id.index
  var : ∀ id, ∀ x ∈ (s.var id).references, s.has x
  func : ∀ id, ∀ x ∈ (s.func id).references, s.has x
  struct : ∀ id, ∀ x ∈ (s.struct id).references, s.has x

/-- Literals come first, wherever they stand. -/
def rank (s : Shader) (id : ExprId) : Nat :=
  if (s.constant? id).isSome then 0 else id.index + 1

/-- The items of every expression are there, and stand in front of it unless they are literals. -/
def ItemsBelow (s : Shader) : Prop :=
  ∀ id, ∀ a ∈ (s.expr id).items, a.index < s.exprs.size ∧ s.rank a ≤ id.index

variable {s s' s'' : Shader}

/-! ### Sizes -/

/-- Nothing is removed from the tables. -/
structure Keeps (s s' : Shader) : Prop where
  exprs : s.exprs.size ≤ s'.exprs.size
  stmts : s.stmts.size ≤ s'.stmts.size
  vars : s.vars.size ≤ s'.vars.size
  funcs : s.funcs.size ≤ s'.funcs.size
  structs : s.structs.size ≤ s'.structs.size

theorem Keeps.has (h : s.Keeps s') {x : Item} (hx : s.has x) : s'.has x := by
  obtain ⟨hexprs, hstmts, hvars, hfuncs, hstructs⟩ := h
  cases x <;> simp only [Shader.has, decide_eq_true_eq] at hx ⊢ <;> omega

theorem Keeps.all (h : s.Keeps s') {xs : List Item} (hxs : ∀ x ∈ xs, s.has x) :
    ∀ x ∈ xs, s'.has x :=
  fun x hx => h.has (hxs x hx)

/-! ### Entries of changed tables -/

@[simp]
theorem expr_addExpr (s : Shader) (e : Expr) (id : ExprId) :
    (s.addExpr e).2.expr id = if id.index = s.exprs.size then e else s.expr id := by
  simp only [Shader.addExpr, Shader.expr, Array.getD_eq_getD_getElem?, Array.getElem?_push]
  split <;> rfl

theorem expr_addExpr_self (s : Shader) (e : Expr) :
    (s.addExpr e).2.expr ⟨s.exprs.size⟩ = e := by
  rw [expr_addExpr, if_pos rfl]

@[simp]
theorem stmt_addStmt (s : Shader) (t : Stmt) (id : StmtId) :
    (s.addStmt t).2.stmt id = if id.index = s.stmts.size then t else s.stmt id := by
  simp only [Shader.addStmt, Shader.stmt, Array.getD_eq_getD_getElem?, Array.getElem?_push]
  split <;> rfl

theorem stmt_setStmt_of_ne (s : Shader) (t : Stmt) {id u : StmtId} (h : u ≠ id) :
    (s.setStmt id t).stmt u = s.stmt u := by
  have hindex : id.index ≠ u.index := fun heq => h (by cases id; cases u; simp_all)
  simp only [Shader.setStmt, Shader.stmt, Array.getD_eq_getD_getElem?, Array.getElem?_setIfInBounds,
    if_neg hindex]

@[simp]
theorem var_addVar (s : Shader) (v : Variable) (id : VarId) :
    (s.addVar v).2.var id = if id.index = s.vars.size then v else s.var id := by
  simp only [Shader.addVar, Shader.var, Array.getD_eq_getD_getElem?, Array.getElem?_push]
  split <;> rfl

@[simp]
theorem struct_addStruct (s : Shader) (d : StructDecl) (id : StructId) :
    (s.addStruct d).2.struct id = if id.index = s.structs.size then d else s.struct id := by
  simp only [Shader.addStruct, Shader.struct, Array.getD_eq_getD_getElem?, Array.getElem?_push]
  split <;> rfl

@[simp]
theorem func_addFunc (s : Shader) (f : Function) (id : FuncId) :
    (s.addFunc f).func id = if id.index = s.funcs.size then f else s.func id := by
  simp only [Shader.addFunc, Shader.func, Array.getD_eq_getD_getElem?, Array.getElem?_push]
  split <;> rfl

theorem expr_setExpr (s : Shader) (e : Expr) (id j : ExprId) (hid : id.index < s.exprs.size) :
    (s.setExpr id e).expr j = if j = id then e else s.expr j := by
  cases id; cases j
  simp only [Shader.setExpr, Shader.expr, Array.getD_eq_getD_getElem?, ExprId.mk.injEq,
    Array.getElem?_setIfInBounds] at hid ⊢
  grind

theorem setExpr_of_size_le (e : Expr) {id : ExprId} (hid : s.exprs.size ≤ id.index) :
    s.setExpr id e = s := by
  have hexprs : s.exprs.setIfInBounds id.index e = s.exprs := by
    unfold Array.setIfInBounds
    rw [dif_neg (Nat.not_lt.2 hid)]
  unfold setExpr
  rw [hexprs]

/-! ### Growing tables of expressions and variables -/

/-- Expressions and variables have been added, and items have been replaced. -/
structure Grows (s s' : Shader) : Prop where
  rest : s' = { s with exprs := s'.exprs, vars := s'.vars }
  exprs : s.exprs.size ≤ s'.exprs.size
  expr : ∀ id : ExprId, id.index < s.exprs.size → (s.expr id).Refolds (s'.expr id)
  vars : s.vars.size ≤ s'.vars.size
  var : ∀ id : VarId, id.index < s.vars.size → s'.var id = s.var id

namespace Grows

theorem refl (s : Shader) : s.Grows s :=
  ⟨rfl, Nat.le_refl _, fun _ _ => .same _, Nat.le_refl _, fun _ _ => rfl⟩

theorem trans (h : s.Grows s') (h' : s'.Grows s'') : s.Grows s'' where
  rest := by rw [h'.rest, h.rest]
  exprs := Nat.le_trans h.exprs h'.exprs
  expr id hid := (h.expr id hid).trans (h'.expr id (Nat.lt_of_lt_of_le hid h.exprs))
  vars := Nat.le_trans h.vars h'.vars
  var id hid := by rw [h'.var id (Nat.lt_of_lt_of_le hid h.vars), h.var id hid]

theorem keeps (h : s.Grows s') : s.Keeps s' where
  exprs := h.exprs
  stmts := by rw [h.rest]
  vars := h.vars
  funcs := by rw [h.rest]
  structs := by rw [h.rest]

theorem addExpr (s : Shader) (e : Expr) : s.Grows (s.addExpr e).2 where
  rest := rfl
  exprs := by simp [Shader.addExpr]
  expr id hid := by
    rw [expr_addExpr, if_neg (Nat.ne_of_lt hid)]
    exact .same _
  vars := Nat.le_refl _
  var _ _ := rfl

theorem setExpr {id : ExprId} {e : Expr} (h : (s.expr id).Refolds e) :
    s.Grows (s.setExpr id e) where
  rest := rfl
  exprs := by simp [Shader.setExpr]
  expr j hj := by
    by_cases hid : id.index < s.exprs.size
    · rw [expr_setExpr s e id j hid]
      split
      · next heq => exact heq ▸ h
      · exact .same _
    · rw [setExpr_of_size_le e (Nat.not_lt.1 hid)]
      exact .same _
  vars := Nat.le_refl _
  var _ _ := rfl

theorem addVar (s : Shader) (v : Variable) : s.Grows (s.addVar v).2 where
  rest := rfl
  exprs := Nat.le_refl _
  expr _ _ := .same _
  vars := by simp [Shader.addVar]
  var id hid := by rw [var_addVar, if_neg (Nat.ne_of_lt hid)]

/-- What has been added since is dropped, what has been replaced is not. -/
theorem truncate (h : s.Grows s') : s.Grows (s'.truncate s.exprs.size s.vars.size) where
  rest := by rw [h.rest]; rfl
  exprs := by simp [Shader.truncate, h.exprs]
  expr id hid := by
    have hexpr := h.expr id hid
    have hid' := Nat.lt_of_lt_of_le hid h.exprs
    simpa [Shader.truncate, Shader.expr, hid, hid', Nat.min_eq_left h.exprs] using hexpr
  vars := by simp [Shader.truncate, h.vars]
  var id hid := by
    have hvar := h.var id hid
    have hid' := Nat.lt_of_lt_of_le hid h.vars
    simpa [Shader.truncate, Shader.var, hid, hid', Nat.min_eq_left h.vars] using hvar

theorem truncate_self (s : Shader) : s.truncate s.exprs.size s.vars.size = s := by
  simp [Shader.truncate]

theorem rank_eq (h : s.Grows s') {id : ExprId} (hid : id.index < s.exprs.size) :
    s'.rank id = s.rank id := by
  have hexpr := h.expr id hid
  unfold rank constant?
  generalize s.expr id = e at hexpr
  generalize s'.expr id = e' at hexpr
  cases hexpr <;> rfl

theorem before_subset (h : s.Grows s') {e e' : Expr} (he : e.Refolds e')
    (hlinks : ∀ x ∈ e.links, s.has x) :
    s'.before e' ⊆ s.before e := by
  cases he with
  | construct => exact List.Subset.refl _
  | aggregate => exact List.Subset.refl _
  | same =>
      cases e with
      | var v =>
          have hv : v.index < s.vars.size := by
            simpa [has] using hlinks (.var v) (by simp [Expr.links])
          simp [before, h.var v hv]
      | _ => exact List.Subset.refl _

theorem linked (hg : s.Grows s') (h : s.Linked)
    (hexpr : ∀ id : ExprId, s.exprs.size ≤ id.index →
      (∀ x ∈ (s'.expr id).links, s'.has x) ∧ ∀ d ∈ s'.before (s'.expr id), d.index < id.index)
    (hvar : ∀ id : VarId, s.vars.size ≤ id.index → ∀ x ∈ (s'.var id).references, s'.has x) :
    s'.Linked where
  indexed := by
    rw [hg.rest]
    exact ⟨h.indexed.functions, h.indexed.structures⟩
  listed := by
    rw [show s'.listed = s.listed by rw [hg.rest]; rfl]
    exact hg.keeps.all h.listed
  expr id := by
    by_cases hid : id.index < s.exprs.size
    · rw [(hg.expr id hid).links]
      exact hg.keeps.all (h.expr id)
    · exact (hexpr id (Nat.not_lt.1 hid)).1
  before id d hd := by
    by_cases hid : id.index < s.exprs.size
    · exact h.before id d (hg.before_subset (hg.expr id hid) (h.expr id) hd)
    · exact (hexpr id (Nat.not_lt.1 hid)).2 d hd
  stmt id := by
    rw [show s'.stmt id = s.stmt id by rw [hg.rest]; rfl]
    exact hg.keeps.all (h.stmt id)
  stmtBefore id := by
    rw [show s'.stmt id = s.stmt id by rw [hg.rest]; rfl]
    exact h.stmtBefore id
  var id := by
    by_cases hid : id.index < s.vars.size
    · rw [hg.var id hid]
      exact hg.keeps.all (h.var id)
    · exact hvar id (Nat.not_lt.1 hid)
  func id := by
    rw [show s'.func id = s.func id by rw [hg.rest]; rfl]
    exact hg.keeps.all (h.func id)
  struct id := by
    rw [show s'.struct id = s.struct id by rw [hg.rest]; rfl]
    exact hg.keeps.all (h.struct id)

end Grows

theorem expr_of_size_le {id : ExprId} (h : s.exprs.size ≤ id.index) : s.expr id = default := by
  unfold expr
  rw [Array.getD_eq_getD_getElem?, Array.getElem?_eq_none h]
  rfl

theorem var_of_size_le {id : VarId} (h : s.vars.size ≤ id.index) : s.var id = default := by
  unfold var
  rw [Array.getD_eq_getD_getElem?, Array.getElem?_eq_none h]
  rfl

theorem stmt_of_size_le {id : StmtId} (h : s.stmts.size ≤ id.index) : s.stmt id = default := by
  unfold stmt
  rw [Array.getD_eq_getD_getElem?, Array.getElem?_eq_none h]
  rfl

theorem func_of_size_le {id : FuncId} (h : s.funcs.size ≤ id.index) : s.func id = default := by
  unfold func
  rw [Array.getD_eq_getD_getElem?, Array.getElem?_eq_none h]
  rfl

theorem struct_of_size_le {id : StructId} (h : s.structs.size ≤ id.index) :
    s.struct id = default := by
  unfold struct
  rw [Array.getD_eq_getD_getElem?, Array.getElem?_eq_none h]
  rfl

namespace Linked

theorem grows (h : s.Linked) (hg : s.Grows s') (hexprs : s'.exprs.size = s.exprs.size)
    (hvars : s'.vars.size = s.vars.size) : s'.Linked := by
  refine hg.linked h (fun id hid => ?_) fun id hid => ?_
  · rw [expr_of_size_le (hexprs ▸ hid)]
    exact ⟨List.forall_mem_nil _, List.forall_mem_nil _⟩
  · rw [var_of_size_le (hvars ▸ hid)]
    exact List.forall_mem_nil _

theorem addExpr (h : s.Linked) {e : Expr} (he : ∀ x ∈ e.links, s.has x) :
    (s.addExpr e).2.Linked := by
  have hg := Grows.addExpr s e
  refine hg.linked h (fun id hid => ?_) fun id hid => ?_
  · rw [expr_addExpr]
    split
    · next heq =>
        refine ⟨hg.keeps.all he, fun d hd => ?_⟩
        have hd : s.has (.expr d) := by
          cases e with
          | constant | construct | aggregate => cases hd
          | var v =>
              have hinitial : (s.var v).initial? = some d := Option.mem_toList.1 hd
              exact h.var v _ (by simp [Variable.references, hinitial])
          | _ => exact he _ ((Expr.mem_operands_iff.1 hd).resolve_right (List.not_mem_nil))
        simpa [has, heq] using hd
    · rw [expr_of_size_le hid]
      exact ⟨List.forall_mem_nil _, List.forall_mem_nil _⟩
  · exact hg.keeps.all (h.var id)

theorem addVar (h : s.Linked) {v : Variable} (hv : ∀ x ∈ v.references, s.has x) :
    (s.addVar v).2.Linked := by
  have hg := Grows.addVar s v
  refine hg.linked h (fun id hid => ?_) fun id hid => ?_
  · rw [show (s.addVar v).2.expr id = default from expr_of_size_le hid]
    exact ⟨List.forall_mem_nil _, List.forall_mem_nil _⟩
  · rw [var_addVar]
    split
    · exact hg.keeps.all hv
    · exact hg.keeps.all (h.var id)

theorem keeps (h : s.Linked) (hk : s.Keeps s') (hindexed : s'.Indexed)
    (hlisted : ∀ x ∈ s'.listed, x ∈ s.listed ∨ s'.has x)
    (hexprs : s'.exprs = s.exprs)
    (hvar : ∀ id, (s'.var id).references = (s.var id).references ∧
      (s'.var id).initial? = (s.var id).initial?)
    (hstmt : ∀ id, s'.stmt id = s.stmt id ∨
      ∀ x ∈ (s'.stmt id).references, s'.has x ∧ ∀ u, x = .stmt u → u.index < id.index)
    (hfunc : ∀ id, s'.func id = s.func id ∨ ∀ x ∈ (s'.func id).references, s'.has x)
    (hstruct : ∀ id, s'.struct id = s.struct id ∨ ∀ x ∈ (s'.struct id).references, s'.has x) :
    s'.Linked where
  indexed := hindexed
  listed x hx := (hlisted x hx).elim (fun hx => hk.has (h.listed x hx)) fun hx => hx
  expr id := by
    rw [show s'.expr id = s.expr id by unfold Shader.expr; rw [hexprs]]
    exact hk.all (h.expr id)
  before id := by
    rw [show s'.expr id = s.expr id by unfold Shader.expr; rw [hexprs]]
    have hbefore : s'.before (s.expr id) = s.before (s.expr id) := by
      cases s.expr id <;> simp [Shader.before, (hvar _).2]
    rw [hbefore]
    exact h.before id
  stmt id x hx := by
    rcases hstmt id with heq | hnew
    · exact hk.has (h.stmt id x (heq ▸ hx))
    · exact (hnew x hx).1
  stmtBefore id u hu := by
    rcases hstmt id with heq | hnew
    · exact h.stmtBefore id u (heq ▸ hu)
    · exact (hnew _ hu).2 u rfl
  var id := by
    rw [(hvar id).1]
    exact hk.all (h.var id)
  func id x hx := by
    rcases hfunc id with heq | hnew
    · exact hk.has (h.func id x (heq ▸ hx))
    · exact hnew x hx
  struct id x hx := by
    rcases hstruct id with heq | hnew
    · exact hk.has (h.struct id x (heq ▸ hx))
    · exact hnew x hx

theorem addStmt (h : s.Linked) {t : Stmt} (ht : ∀ x ∈ t.references, s.has x) :
    (s.addStmt t).2.Linked := by
  have hk : s.Keeps (s.addStmt t).2 := by constructor <;> simp [Shader.addStmt]
  refine h.keeps hk ⟨h.indexed.functions, h.indexed.structures⟩ (fun x hx => .inl hx) rfl
    (fun _ => ⟨rfl, rfl⟩) (fun id => ?_) (fun _ => .inl rfl) fun _ => .inl rfl
  rw [stmt_addStmt]
  split
  · next hid =>
      refine .inr fun x hx => ⟨hk.has (ht x hx), ?_⟩
      rintro u rfl
      simpa [Shader.has, hid] using ht _ hx
  · exact .inl rfl

theorem setStmt (h : s.Linked) (id : StmtId) {t : Stmt}
    (ht : ∀ x ∈ t.references, s.has x ∧ ∀ u, x ≠ .stmt u) : (s.setStmt id t).Linked := by
  have hk : s.Keeps (s.setStmt id t) := by constructor <;> simp [Shader.setStmt]
  refine h.keeps hk ⟨h.indexed.functions, h.indexed.structures⟩ (fun x hx => .inl hx) rfl
    (fun _ => ⟨rfl, rfl⟩) (fun u => ?_) (fun _ => .inl rfl) fun _ => .inl rfl
  simp only [Shader.setStmt, Shader.stmt, Array.getD_eq_getD_getElem?, Array.getElem?_setIfInBounds]
  split
  · split
    · exact .inr fun x hx => ⟨hk.has (ht x hx).1, fun u hu => absurd hu ((ht x hx).2 u)⟩
    · exact .inr (List.forall_mem_nil _)
  · exact .inl rfl

theorem indexed_addFunc (h : s.Linked) {f : Function} : (s.addFunc f).Indexed where
  functions name := by
    have hold : ∀ id ∈ s.functions.toList, (s.addFunc f).func id = s.func id := by
      intro id hid
      have hlt : id.index < s.funcs.size := by
        simpa [Shader.has] using
          h.listed (.func id) (List.mem_append_right _ (List.mem_map_of_mem hid))
      rw [func_addFunc, if_neg (Nat.ne_of_lt hlt)]
    have hnew : (s.addFunc f).func ⟨s.funcs.size⟩ = f := by
      rw [func_addFunc, if_pos rfl]
    have hfilter : s.functions.toList.filter (fun id => ((s.addFunc f).func id).name == name) =
        s.overloads name := by
      rw [h.indexed.functions]
      exact List.filter_congr fun id hid => by rw [hold id hid]
    unfold functionsNamed
    rw [show (s.addFunc f).functions.toList = s.functions.toList ++ [⟨s.funcs.size⟩] from
      Array.toList_push, List.filter_append, hfilter, List.filter_singleton, hnew]
    refine (FunctionTable.find_add s.functionNames f.name name ⟨s.funcs.size⟩).trans ?_
    by_cases hname : name = f.name
    · rw [if_pos hname, hname, beq_self_eq_true]
      rfl
    · rw [if_neg hname, beq_false_of_ne (Ne.symm hname)]
      exact (List.append_nil _).symm
  structures := h.indexed.structures

theorem addFunc (h : s.Linked) {f : Function} (hf : ∀ x ∈ f.references, s.has x) :
    (s.addFunc f).Linked := by
  have hk : s.Keeps (s.addFunc f) := by constructor <;> simp [Shader.addFunc]
  refine h.keeps hk h.indexed_addFunc (fun x hx => ?_) rfl (fun _ => ⟨rfl, rfl⟩)
    (fun _ => .inl rfl) (fun id => ?_) fun _ => .inl rfl
  · by_cases hnew : x = .func ⟨s.funcs.size⟩
    · exact .inr (by simp [hnew, Shader.addFunc, Shader.has])
    · refine .inl ?_
      simp only [Shader.listed, Shader.addFunc, Array.toList_push, List.map_append, List.mem_append,
        List.map_cons, List.map_nil, List.mem_singleton] at hx ⊢
      tauto
  · rw [func_addFunc]
    split
    · exact .inr (hk.all hf)
    · exact .inl rfl

theorem setPrototype (h : s.Linked) (id : FuncId) {p : FuncId} (hp : s.has (.func p)) :
    (s.modifyFunc id fun f => { f with prototype := some p }).Linked := by
  have hk : s.Keeps (s.modifyFunc id fun f => { f with prototype := some p }) := by
    constructor <;> simp [Shader.modifyFunc]
  have hname (g : FuncId) :
      ((s.modifyFunc id fun f => { f with prototype := some p }).func g).name =
        (s.func g).name := by
    simp only [Shader.modifyFunc, Shader.func, Array.getD_eq_getD_getElem?, Array.getElem?_modify]
    split
    · cases s.funcs[g.index]? <;> rfl
    · rfl
  have hindexed : (s.modifyFunc id fun f => { f with prototype := some p }).Indexed := by
    refine ⟨fun name => (h.indexed.functions name).trans ?_, h.indexed.structures⟩
    unfold functionsNamed
    simp only [hname]
    rfl
  refine h.keeps hk hindexed (fun x hx => .inl hx) rfl (fun _ => ⟨rfl, rfl⟩) (fun _ => .inl rfl)
    (fun g => ?_) fun _ => .inl rfl
  have hg := h.func g
  simp only [Shader.modifyFunc, Shader.func, Array.getD_eq_getD_getElem?,
    Array.getElem?_modify] at hg ⊢
  split
  · refine .inr fun x hx => hk.has ?_
    cases hget : s.funcs[g.index]? with
    | none => rw [hget] at hx; cases hx
    | some f =>
        rw [hget] at hx hg
        by_cases hx' : x = .func p
        · exact hx' ▸ hp
        · refine hg x ?_
          simp only [Function.references, Option.map_some, Option.getD_some, Option.toList_some,
            List.map_cons, List.map_nil, List.mem_append, List.mem_singleton] at hx ⊢
          tauto
  · exact .inl rfl

theorem setFlags (h : s.Linked) (id : VarId) (f : VarFlags → VarFlags) :
    (s.modifyVar id fun v => { v with flags := f v.flags }).Linked := by
  refine h.keeps (by constructor <;> simp [Shader.modifyVar])
    ⟨h.indexed.functions, h.indexed.structures⟩ (fun x hx => .inl hx) rfl (fun v => ?_)
    (fun _ => .inl rfl) (fun _ => .inl rfl) fun _ => .inl rfl
  simp only [Shader.modifyVar, Shader.var, Array.getD_eq_getD_getElem?, Array.getElem?_modify]
  split
  · cases s.vars[v.index]? <;> exact ⟨rfl, rfl⟩
  · exact ⟨rfl, rfl⟩

theorem addStruct (h : s.Linked) {d : StructDecl} (hd : ∀ x ∈ d.references, s.has x) :
    (s.addStruct d).2.Linked := by
  have hk : s.Keeps (s.addStruct d).2 := by constructor <;> simp [Shader.addStruct]
  have hindexed : (s.addStruct d).2.Indexed := by
    refine ⟨h.indexed.functions, fun entry hentry => ?_⟩
    obtain ⟨hmem, hname⟩ := h.indexed.structures entry hentry
    have hlt : entry.2.index < s.structs.size := by
      simpa [Shader.has] using h.listed (.struct entry.2) (by simp [Shader.listed, hmem])
    rw [struct_addStruct, if_neg (Nat.ne_of_lt hlt)]
    exact ⟨hmem, hname⟩
  refine h.keeps hk hindexed (fun x hx => .inl hx) rfl (fun _ => ⟨rfl, rfl⟩) (fun _ => .inl rfl)
    (fun _ => .inl rfl) fun id => ?_
  rw [struct_addStruct]
  split
  · exact .inr (hk.all hd)
  · exact .inl rfl

theorem has_of_mem_overloads (h : s.Linked) {name : String} {f : FuncId}
    (hf : f ∈ s.overloads name) : s.has (.func f) := by
  rw [h.indexed.functions] at hf
  exact h.listed (.func f)
    (List.mem_append_right _ (List.mem_map_of_mem (List.mem_of_mem_filter hf)))

theorem relist (h : s.Linked) (globals : Array VarId) (structures blocks : Array StructId)
    (names : List (String × StructId))
    (hnames : ∀ entry ∈ names, entry.2 ∈ structures ∧ (s.struct entry.2).name = some entry.1)
    (hlisted : ∀ x ∈ { s with globals, structures, blocks, structureNames := names }.listed,
      x ∈ s.listed ∨ s.has x) :
    { s with globals, structures, blocks, structureNames := names }.Linked :=
  h.keeps ⟨Nat.le_refl _, Nat.le_refl _, Nat.le_refl _, Nat.le_refl _, Nat.le_refl _⟩
    ⟨h.indexed.functions, hnames⟩ hlisted rfl (fun _ => ⟨rfl, rfl⟩) (fun _ => .inl rfl)
      (fun _ => .inl rfl) fun _ => .inl rfl

theorem replace (h : s.Linked) {id : ExprId} {e : Expr} (hid : id.index < s.exprs.size)
    (hlinks : ∀ x ∈ e.links, s.has x) (hbefore : ∀ d ∈ s.before e, d.index < id.index) :
    (s.setExpr id e).Linked := by
  have hk : s.Keeps (s.setExpr id e) := by constructor <;> simp [Shader.setExpr]
  refine ⟨⟨h.indexed.functions, h.indexed.structures⟩, hk.all h.listed, fun j => ?_,
    fun j => ?_, fun t => hk.all (h.stmt t), h.stmtBefore,
    fun v => hk.all (h.var v), fun f => hk.all (h.func f), fun d => hk.all (h.struct d)⟩
  · rw [expr_setExpr s e id j hid]
    split
    · exact hk.all hlinks
    · exact hk.all (h.expr j)
  · rw [expr_setExpr s e id j hid]
    split
    · next heq => exact heq ▸ hbefore
    · exact h.before j

theorem initial (stage : Stage) : ({ stage } : Shader).Linked where
  indexed := ⟨fun _ => rfl, List.forall_mem_nil _⟩
  listed := List.forall_mem_nil _
  expr _ := List.forall_mem_nil _
  before _ := List.forall_mem_nil _
  stmt _ := List.forall_mem_nil _
  stmtBefore _ _ h := absurd h List.not_mem_nil
  var _ := List.forall_mem_nil _
  func _ := List.forall_mem_nil _
  struct _ := List.forall_mem_nil _

theorem relabel (h : s.Linked) (version : Option Version) (extensions : Array (String × String)) :
    { s with version, extensions }.Linked :=
  ⟨⟨h.indexed.functions, h.indexed.structures⟩, h.listed, h.expr, h.before, h.stmt, h.stmtBefore,
    h.var, h.func, h.struct⟩

end Linked

/-! ### Items -/

namespace ItemsBelow

theorem addExpr (h : s.ItemsBelow) {e : Expr} (he : ∀ a ∈ e.items, a.index < s.exprs.size) :
    (s.addExpr e).2.ItemsBelow := by
  have hg := Grows.addExpr s e
  have hsize : (s.addExpr e).2.exprs.size = s.exprs.size + 1 := by simp [Shader.addExpr]
  intro id a ha
  rw [expr_addExpr] at ha
  split at ha
  · next hid =>
      have hlt := he a ha
      have hrank : s.rank a ≤ a.index + 1 := by unfold rank; split <;> omega
      rw [hg.rank_eq hlt]
      omega
  · obtain ⟨hlt, hrank⟩ := h id a ha
    rw [hg.rank_eq hlt]
    omega

theorem setExpr (h : s.ItemsBelow) {id : ExprId} {e : Expr} (hid : id.index < s.exprs.size)
    (hrefolds : (s.expr id).Refolds e)
    (he : ∀ a ∈ e.items, a.index < s.exprs.size ∧ s.rank a ≤ id.index) :
    (s.setExpr id e).ItemsBelow := by
  have hg := Grows.setExpr hrefolds
  have hsize : (s.setExpr id e).exprs.size = s.exprs.size := by simp [Shader.setExpr]
  intro j a ha
  rw [expr_setExpr s e id j hid] at ha
  have hold : a.index < s.exprs.size ∧ s.rank a ≤ j.index := by
    split at ha
    · next heq => exact heq ▸ he a ha
    · exact h j a ha
  rw [hg.rank_eq hold.1, hsize]
  exact hold

theorem of_exprs_eq (h : s.ItemsBelow) (hexprs : s'.exprs = s.exprs) : s'.ItemsBelow := by
  unfold ItemsBelow rank constant? Shader.expr at *
  rw [hexprs]
  exact h

end ItemsBelow

end Shader

end ShaderBridge
