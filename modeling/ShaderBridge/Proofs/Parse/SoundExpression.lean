import ShaderBridge.Proofs.Constant.Replacing
import ShaderBridge.Proofs.Parse.Tracking

namespace ShaderBridge

namespace Parse

/-- A state of a parse in which the tables are linked and resolved, the given items are there, and
the given expressions have been folded. Whether `c` holds decides if that is all, or if items stand
in front of their expressions unless a statement has been taken for a declaration first. -/
structure Sound (c : Prop) (fs : List ExprId) (xs : List Item) (st : ParserState) : Prop where
  linked : st.shader.Linked
  resolved : st.shader.Resolved
  members : st.shader.MembersSelected
  scopes : ∀ v ∈ st.scopes.flatten, st.shader.has (.var v)
  items : c → st.shader.ItemsBelow ∨ st.shader.Ambiguous
  known : ∀ x ∈ xs, st.shader.has x
  folded : ∀ e ∈ fs, st.shader.HasFolded e

variable {α β : Type} {c : Prop} {fs gs : List ExprId} {xs ys : List Item}
  {Q : α → ParserState → Prop}

theorem Sound.subset {st : ParserState} (h : Sound c fs xs st) (hys : ys ⊆ xs) :
    Sound c fs ys st :=
  { h with known := fun x hx => h.known x (hys hx) }

theorem Sound.fewer {st : ParserState} (h : Sound c fs xs st) (hgs : gs ⊆ fs) :
    Sound c gs xs st :=
  { h with folded := fun e he => h.folded e (hgs he) }

theorem Sound.cons {st : ParserState} {x : Item} (h : Sound c fs xs st) (hx : st.shader.has x) :
    Sound c fs (x :: xs) st :=
  { h with known := List.forall_mem_cons.2 ⟨hx, h.known⟩ }

theorem Sound.same {st st' : ParserState} (h : Sound c fs xs st) (hst : SameTables st st') :
    Sound c fs xs st' where
  linked := hst.1 ▸ h.linked
  resolved := hst.1 ▸ h.resolved
  members := hst.1 ▸ h.members
  scopes := by rw [hst.1, hst.2]; exact h.scopes
  items := by rw [hst.1]; exact h.items
  known := by rw [hst.1]; exact h.known
  folded := by rw [hst.1]; exact h.folded

theorem Sound.grows {st : ParserState} {s : Shader} (h : Sound c fs xs st) (hg : st.shader.Grows s)
    (hlinked : s.Linked) (hresolved : s.Resolved) (hmembers : s.MembersSelected)
    (hitems : st.shader.ItemsBelow → s.ItemsBelow) : Sound c fs xs { st with shader := s } where
  linked := hlinked
  resolved := hresolved
  members := hmembers
  scopes v hv := hg.keeps.has (h.scopes v hv)
  items hc := (h.items hc).imp hitems (hg.ambiguous h.linked)
  known := hg.keeps.all h.known
  folded e he := (h.folded e he).grows hg

theorem exists_writable_of_checkTarget {left : ExprId} {st : ParserState}
    (h : (checkTarget left).run st = .ok ((), st)) :
    ∃ v, st.shader.BottomsOut left v ∧ (st.shader.var v).isReadOnly = false := by
  obtain ⟨s, _, hget, h⟩ := run_bind_ok.1 h
  cases hget
  cases htarget : st.shader.targetVariable? left with
  | none =>
      rw [htarget] at h
      cases h
  | some v =>
      rw [htarget] at h
      refine ⟨v, Shader.bottomsOut_of_targetVariable? htarget, ?_⟩
      dsimp only at h
      split at h
      · cases h
      · next hstorage =>
          split at h
          · cases h
          · next hconstant =>
              rw [Variable.isReadOnly, Bool.eq_false_of_not_eq_true hconstant, Bool.false_or]
              exact beq_false_of_ne hstorage

theorem Sound.addExpr {st : ParserState} (h : Sound c fs ys st) (xs : List Item) {e : Expr}
    (he : e.references ⊆ ys) (hxs : xs ⊆ ys) (hgeneric : e.isGeneric = false)
    (hguards : st.shader.GuardsTarget e)
    (hmember : ∀ operand name field, e = .member operand name field →
      st.shader.MemberIs operand name field) :
    Sound c fs (.expr (st.shader.addExpr e).1 :: xs)
      { st with shader := (st.shader.addExpr e).2 } := by
  have hlinks : ∀ x ∈ e.links, st.shader.has x := fun x hx =>
    h.known x (he (List.mem_append_left _ hx))
  have hitems : ∀ a ∈ e.items, a.index < st.shader.exprs.size := fun a ha => by
    simpa [Shader.has] using h.known (.expr a)
      (he (List.mem_append_right _ (List.mem_map_of_mem ha)))
  refine Sound.cons ((h.subset hxs).grows (.addExpr _ e) (h.linked.addExpr hlinks)
    (h.resolved.addExpr h.linked hgeneric hguards)
    (h.members.addExpr h.linked hmember) ?_) ?_
  · exact fun hbelow => hbelow.addExpr hitems
  · simp [Shader.has, Shader.addExpr]

theorem sound_addExpr (xs : List Item) {e : Expr} (he : e.references ⊆ ys) (hxs : xs ⊆ ys)
    (hgeneric : e.isGeneric = false) (hassign : e.isAssign = false)
    (hmember : e.isMember = false) :
    Leads (Sound c fs ys) (addExpr e) fun id => Sound c fs (.expr id :: xs) := by
  intro st id st' h hrun
  cases hrun
  refine h.addExpr xs he hxs hgeneric (Shader.guardsTarget_of_not_isAssign hassign) ?_
  rintro operand name field rfl
  cases hmember

theorem sound_addExpr_assign (xs : List Item) (op : AssignOp) {left right : ExprId}
    (he : (Expr.assign op left right).references ⊆ ys) (hxs : xs ⊆ ys) :
    Leads (fun st => Sound c fs ys st ∧ (checkTarget left).run st = .ok ((), st))
      (addExpr (.assign op left right)) fun id => Sound c fs (.expr id :: xs) := by
  rintro st id st' ⟨h, hcheck⟩ hrun
  cases hrun
  refine h.addExpr xs he hxs rfl (fun op' left' right' heq => ?_) fun _ _ _ => Expr.noConfusion
  cases heq
  exact exists_writable_of_checkTarget hcheck

theorem sound_evaluate {id : ExprId} :
    Leads (Sound c fs (.expr id :: xs)) (evaluate id) fun id' =>
      Sound c (id' :: fs) (.expr id' :: xs) := by
  intro st id' st' h hrun
  obtain ⟨s, hfold, rfl⟩ := run_evaluate_ok hrun
  obtain ⟨hgrows, hlowers⟩ := Folding.evaluates_evaluate id st.shader id' s hfold
  have hid := h.known (.expr id) List.mem_cons_self
  have hsound := (h.subset (List.subset_cons_self _ _)).grows hgrows.grows (hgrows.linked h.linked)
    (hgrows.resolved h.resolved h.linked) (hgrows.members h.members h.linked)
    (hgrows.items h.linked)
  refine Sound.cons { hsound with folded := List.forall_mem_cons.2 ⟨?_, hsound.folded⟩ } ?_
  · exact Folding.hasFolded_evaluate h.linked hid hfold
  · exact (hlowers h.linked hid).1

theorem sound_findVariable? (name : String) :
    Leads (Sound c fs xs) (findVariable? name) fun v => Sound c fs (v.toList.map .var ++ xs) := by
  intro st v st' h hrun
  cases hrun
  cases hfound : st.scopes.flatten.find? fun id => (st.shader.var id).name == name with
  | none => exact h
  | some v => exact h.cons (h.scopes v (List.mem_of_find?_eq_some hfound))

theorem sound_findType? (name : String) :
    Leads (Sound c fs xs) (findType? name) fun t st =>
      Sound c fs (t.toList.flatMap typeItems ++ xs) st ∧ ∀ type ∈ t, type.isFamily = false := by
  intro st t st' h hrun
  cases hrun
  cases hfound : st.shader.findStruct? name with
  | none => exact ⟨h, fun type htype => by cases htype⟩
  | some id =>
      refine ⟨?_, fun type htype => by cases htype; rfl⟩
      obtain ⟨before, after, hnames, _⟩ := List.lookup_eq_some_iff.1 hfound
      refine h.cons (h.linked.listed (.struct id) ?_)
      simp [Shader.listed, hnames]

theorem sound_memberOf (operand : ExprId) :
    Leads (Sound c fs (.expr operand :: xs)) (memberOf operand)
        fun id => Sound c fs (.expr id :: xs) := by
  refine leads_bind_read reads_name? fun name => ?_
  cases name with
  | none => exact leads_fail _
  | some name =>
      refine leads_bind_look reads_shader fun s => ?_
      have hadd (field : Option VarId) :
          Leads (fun st => Sound c fs (field.toList.map .var ++ .expr operand :: xs) st ∧
              st.shader.MemberIs operand name field)
            (do advance; addExpr (.member operand name field))
              fun id => Sound c fs (.expr id :: xs) := by
        rintro st id st' ⟨h, hmember⟩ hrun
        obtain ⟨_, st₁, hadvance, hrun⟩ := run_bind_ok.1 hrun
        have hsame := Frame.advance (R := SameTables) st _ st₁ hadvance
        cases hrun
        refine (h.same hsame).addExpr xs ?_ ?_ rfl (Shader.guardsTarget_of_not_isAssign rfl) ?_
        · simp [Expr.references, Expr.links, Expr.items]
        · grind
        · rintro _ _ _ ⟨⟩
          exact hsame.1 ▸ hmember
      dsimp only
      split
      · next id howner =>
          split
          · next field hfound =>
              refine leads_imp (hadd (some field)) fun st hst => ?_
              obtain ⟨h, hlook⟩ := hst
              cases hlook
              refine ⟨h.cons ?_, .field howner hfound⟩
              refine h.linked.struct id _ (List.mem_append_left _ (List.mem_map_of_mem ?_))
              exact List.mem_of_find?_eq_some hfound
          · exact leads_fail_bind _ _
      · next hnone =>
          refine leads_imp (hadd none) fun st hst => ?_
          obtain ⟨h, hlook⟩ := hst
          cases hlook
          exact ⟨h, .components hnone⟩

theorem sound_addVar (xs : List Item) {v : Variable} (hv : v.references ⊆ ys) (hxs : xs ⊆ ys)
    (hgeneric : v.isGeneric = false) (hfolded : v.constantPositions ⊆ fs) :
    Leads (Sound c fs ys) (addVar v) fun id => Sound c fs (.var id :: xs) := by
  intro st id st' h hrun
  cases hrun
  refine Sound.cons ((h.subset hxs).grows (.addVar _ v) (h.linked.addVar ?_)
    (h.resolved.addVar h.linked ⟨hgeneric, fun e he => h.folded e (hfolded he)⟩)
    (h.members.grows h.linked (.addVar _ v) fun e he => ?_) ?_) ?_
  · exact fun x hx => h.known x (hv hx)
  · exact congrArg Expr.isMember (Shader.expr_of_size_le he)
  · exact fun hbelow => hbelow.of_exprs_eq rfl
  · simp [Shader.has]

theorem sound_declare {id : VarId} (hid : .var id ∈ xs) :
    Leads (Sound c fs xs) (declare id) fun _ => Sound c fs xs := by
  intro st a st' h hrun
  cases hrun
  dsimp only
  split
  · exact h
  · next hscopes =>
      refine ⟨h.linked, h.resolved, h.members, fun v hv => ?_, h.items, h.known, h.folded⟩
      rcases List.mem_cons.1 hv with rfl | hv
      · exact h.known _ hid
      · exact h.scopes v (by rw [hscopes]; exact hv)

instance : Tracks (Sound c) where
  subset h hys := h.subset hys
  fewer h hgs := h.fewer hgs
  same h hst := h.same hst
  addExpr xs _ he hxs hgeneric hassign hmember := sound_addExpr xs he hxs hgeneric hassign hmember
  addAssign xs op _ _ he hxs := sound_addExpr_assign xs op he hxs
  evaluate := leads_imp sound_evaluate fun _ h => h.1
  findVariable? := sound_findVariable?
  findType? := sound_findType?
  memberOf := sound_memberOf
  addVar xs _ hv hxs hgeneric hfolded := sound_addVar xs hv hxs hgeneric hfolded
  declare := sound_declare

end Parse

end ShaderBridge
