import ShaderBridge.Proofs.Parse.Accepted
import ShaderBridge.Proofs.Parse.SoundDeclaration

namespace ShaderBridge

namespace Parse

variable {c : Prop} {fs : List ExprId} {xs : List Item}

/-! ### Functions -/

def Parameter.references (p : Parameter) : List Item :=
  p.type.toList.flatMap typeItems ++ dimItems p.dims

theorem sound_parameterPart (p : Parameter) (xs : List Item) :
    Leads (Sound c (dimSizes p.dims ++ fs) (p.references ++ xs)) (parameterPart p) fun p' =>
      Sound c (dimSizes p'.dims ++ fs) (p'.references ++ xs) := by
  have htaken (p' : Parameter) (hp : p'.references ⊆ p.references) (hdims : p'.dims = p.dims) :
      Leads (Sound c (dimSizes p.dims ++ fs) (p.references ++ xs)) (do advance; return p') fun p' =>
        Sound c (dimSizes p'.dims ++ fs) (p'.references ++ xs) :=
    leads_bind tracks_advance fun _ => leads_pure fun st h => by
      rw [hdims]
      exact h.subset (by grind)
  refine leads_bind_read reads_peek fun kind => ?_
  split
  · exact htaken _ (List.Subset.refl _) rfl
  · exact htaken _ (List.Subset.refl _) rfl
  · exact htaken _ (List.Subset.refl _) rfl
  · exact htaken _ (List.Subset.refl _) rfl
  · exact htaken _ (List.Subset.refl _) rfl
  · refine leads_bind (tracks_dimensions _) fun dims => leads_pure fun st h =>
      (h.subset ?_).fewer ?_
    · simp only [Parameter.references, dimItems, List.filterMap_append]
      grind
    · simp only [dimSizes, List.filterMap_append]
      grind
  · refine leads_ite (fun _ => leads_fail_bind _ _) fun _ => htaken _ ?_ rfl
    simp [Parameter.references, typeItems, Item.ofType?]
  · next name =>
      have hname : Leads (Sound c (dimSizes p.dims ++ fs) (p.references ++ xs)) (do
          if p.name.isSome then fail .parameterSyntax
          if p.type = some (.builtin .void) then fail .namedVoid
          advance
          return { p with name := some name })
            fun p' => Sound c (dimSizes p'.dims ++ fs) (p'.references ++ xs) := by
        refine leads_ite (fun _ => leads_fail_bind _ _) fun _ => ?_
        exact leads_ite (fun _ => leads_fail_bind _ _) fun _ => htaken _ (List.Subset.refl _) rfl
      refine leads_ite (fun _ => ?_) fun _ => hname
      refine leads_bind (sound_findType? _) fun type => leads_of_and fun _ => ?_
      cases type with
      | none => exact leads_fail _
      | some type =>
          refine leads_bind tracks_advance fun _ => leads_pure fun st h => h.subset ?_
          simp only [Parameter.references]
          grind
  · exact leads_fail _

theorem sound_parameter (xs : List Item) :
    Leads (Sound c fs xs) parameter fun v => Sound c fs ([.var v] ++ xs) := by
  refine leads_bind
    (Q := fun p => Sound c (dimSizes p.dims ++ fs) (p.references ++ xs)) ?_ fun p => ?_
  · refine leads_imp (P := Sound c (dimSizes ({} : Parameter).dims ++ fs)
      (({} : Parameter).references ++ xs)) ?_ fun st h => h
    refine leads_repeatSteps
      (I := fun p : Parameter => Sound c (dimSizes p.dims ++ fs) (p.references ++ xs))
      (fun p => ?_) {}
    refine leads_bind_read (reads_atAny? _) fun ended => ?_
    refine leads_ite (fun _ => leads_pure fun st h => h) fun _ => ?_
    exact leads_bind (sound_parameterPart p xs) fun p => leads_pure fun st h => h
  · split
    · exact leads_fail _
    · next type htype =>
        refine leads_weaken (sound_addVar xs ?_ (by grind) rfl ?_) fun v st h =>
          h.fewer (List.subset_append_right _ _)
        · simp only [Variable.references, Variable.initial?, Variable.global?, Parameter.references,
            htype, Option.toList_some, List.flatMap_cons, List.flatMap_nil, typeItems, dimItems,
            layoutItems]
          grind
        · simp only [Variable.constantPositions, Variable.global?, layoutValues]
          grind

theorem sound_addFunc {f : Function} (hf : f.references ⊆ xs) :
    Leads (fun st => Sound c fs xs st ∧ st.shader.ResolvedFunc f)
      (modifyShader fun s => ((), s.addFunc f)) fun _ => Sound c fs xs := by
  rintro st _ st' ⟨h, hresolved⟩ hrun
  cases hrun
  refine h.relist (h.linked.addFunc fun x hx => h.known x (hf hx)) (h.resolved.addFunc hresolved)
    (h.members.of_exprs_eq h.linked (.addFunc h.linked f) rfl) ?_ rfl rfl (fun _ => rfl)
      fun _ h => h
  constructor <;> simp [Shader.addFunc]

theorem typeItems_instanceOf (column : Nat) (type : TypeRef) :
    typeItems (instanceOf column type) ⊆ typeItems type := by
  cases type with
  | declared id => exact List.Subset.refl _
  | builtin t => cases t <;> simp [instanceOf, typeItems, Item.ofType?]

theorem mem_familiesOf {returnType type : TypeRef} {params : List TypeRef}
    (htype : type ∈ returnType :: params) {f : Family} (hf : type = .builtin (.family f)) :
    f ∈ familiesOf returnType params :=
  List.mem_filterMap.2 ⟨type, htype, by rw [hf]⟩

theorem not_isFamily_of_familiesOf {returnType type : TypeRef} {params : List TypeRef}
    (h : familiesOf returnType params = []) (htype : type ∈ returnType :: params) :
    type.isFamily = false := by
  cases type with
  | declared id => rfl
  | builtin t =>
      cases t with
      | family f => cases h ▸ mem_familiesOf htype rfl
      | _ => rfl

theorem not_isFamily_instanceOf {returnType type : TypeRef} {params : List TypeRef} {column : Nat}
    (h : ∀ f ∈ familiesOf returnType params, column < f.instances.length)
    (htype : type ∈ returnType :: params) : (instanceOf column type).isFamily = false := by
  cases type with
  | declared id => rfl
  | builtin t =>
      cases t with
      | family f =>
          have hcolumn := h f (mem_familiesOf htype rfl)
          refine Family.not_isFamily_of_mem_instances (f := f) ?_
          rw [List.getD_eq_getElem?_getD, List.getElem?_eq_getElem hcolumn]
          exact List.getElem_mem hcolumn
      | _ => rfl

theorem sound_instance (column : Nat) (p : VarId) (xs : List Item) :
    Leads (fun st => Sound c fs xs st ∧ (instanceOf column (st.shader.var p).type).isFamily = false)
      (do
        let v := (← shader).var p
        addVar { v with type := instanceOf column v.type }) fun v st =>
          Sound c fs (.var v :: xs) st ∧ (st.shader.var v).type.isFamily = false := by
  rintro st v st' ⟨h, hconcrete⟩ hrun
  obtain ⟨_, _, hlook, hrun⟩ := run_bind_ok.1 hrun
  cases hlook
  generalize hv : st.shader.var p = old at hconcrete hrun
  have hknown : Sound c (old.constantPositions ++ fs) (old.references ++ xs) st :=
    { h with
      known := List.forall_mem_append.2 ⟨hv ▸ h.linked.var p, h.known⟩
      folded := List.forall_mem_append.2 ⟨hv ▸ (h.resolved.vars p).2, h.folded⟩ }
  have hgeneric : { old with type := instanceOf column old.type }.isGeneric = false := by
    unfold Variable.isGeneric
    split
    · exact hconcrete
    · exact hconcrete
    · rfl
    · rfl
  refine ⟨(sound_addVar xs ?_ (List.subset_append_right _ _) hgeneric (List.subset_append_left _ _)
    st v st' hknown hrun).fewer (List.subset_append_right _ _), ?_⟩
  · have htype := typeItems_instanceOf column old.type
    simp only [Variable.references, typeItems, Variable.initial?, Variable.global?] at htype ⊢
    grind
  · cases hrun
    show ((st.shader.addVar _).2.var _).type.isFamily = false
    rw [Shader.var_addVar, if_pos rfl]
    exact hconcrete

theorem growing_instance (column : Nat) (p : VarId) : Along Growing (do
    let v := (← shader).var p
    addVar { v with type := instanceOf column v.type }) :=
  along_bind_read reads_shader fun _ => VariableFrame.addVar _

theorem growing_instances (column : Nat) (params : List VarId) :
    Along Growing (params.mapM fun p => do
    let v := (← shader).var p
    addVar { v with type := instanceOf column v.type }) :=
  along_mapM (growing_instance column) params

theorem sound_instances (column : Nat) (params : List VarId) (xs : List Item)
    (hparams : params.map .var ⊆ xs) :
    Leads (fun st => Sound c fs xs st ∧
      ∀ p ∈ params, (instanceOf column (st.shader.var p).type).isFamily = false)
      (params.mapM fun p => do
        let v := (← shader).var p
        addVar { v with type := instanceOf column v.type }) fun params' st =>
          Sound c fs (params'.map .var ++ xs) st ∧
            ∀ p ∈ params', (st.shader.var p).type.isFamily = false := by
  induction params generalizing xs with
  | nil => exact leads_pure fun st h => ⟨h.1, fun p hp => by cases hp⟩
  | cons p rest ih =>
      obtain ⟨-, hrest⟩ := List.cons_subset.1 (List.map_cons ▸ hparams)
      rw [List.mapM_cons]
      rintro st params' st' ⟨h, htypes⟩ hrun
      obtain ⟨v, st₁, hfirst, hrun⟩ := run_bind_ok.1 hrun
      obtain ⟨vs, st₂, hothers, hrun⟩ := run_bind_ok.1 hrun
      cases hrun
      obtain ⟨h₁, hv⟩ := sound_instance column p xs st v st₁ ⟨h, htypes p List.mem_cons_self⟩ hfirst
      have htypes₁ : ∀ q ∈ rest, (instanceOf column (st₁.shader.var q).type).isFamily = false := by
        intro q hq
        have hlt : q.index < st.shader.vars.size := by
          simpa [Shader.has] using h.known (.var q) (hrest (List.mem_map_of_mem hq))
        rw [Shader.Grows.var (growing_instance column p st v st₁ hfirst) q hlt]
        exact htypes q (List.mem_cons_of_mem _ hq)
      obtain ⟨h₂, hvs⟩ := ih (.var v :: xs) (List.subset_cons_of_subset _ hrest) st₁ vs st'
        ⟨h₁, htypes₁⟩ hothers
      refine ⟨h₂.subset (by grind), List.forall_mem_cons.2 ⟨?_, hvs⟩⟩
      have hlt : v.index < st₁.shader.vars.size := by
        simpa [Shader.has] using h₁.known (.var v) List.mem_cons_self
      rwa [Shader.Grows.var (growing_instances column rest st₁ vs st' hothers) v hlt]

theorem sound_addFunction (f : Function) (xs : List Item) (hf : f.references ⊆ xs) :
    Leads (Sound c fs xs) (addFunction f) fun _ => Sound c fs xs := by
  refine leads_bind_look reads_shader fun s => ?_
  split
  · next hnone =>
      refine leads_imp (sound_addFunc hf) fun st ⟨h, hlook⟩ => ⟨h, ?_⟩
      cases hlook
      refine ⟨not_isFamily_of_familiesOf hnone List.mem_cons_self, fun p hp => ?_⟩
      exact not_isFamily_of_familiesOf hnone
        (List.mem_cons_of_mem _ (List.mem_map_of_mem (f := fun p => (st.shader.var p).type) hp))
  · have hparams : f.params.map .var ⊆ xs := by
      simp only [Function.references] at hf
      grind
    -- Every column starts from parameters of the types that they had at first.
    intro st a st' ⟨h, hlook⟩ hrun
    cases hlook
    refine (leads_forM (P := fun st₁ => Sound c fs xs st₁ ∧
      ∀ p ∈ f.params, (st₁.shader.var p).type = (st.shader.var p).type) _
          (fun column _ => ?_) st a st'
        ⟨h, fun _ _ => rfl⟩ hrun).1
    refine leads_ite (fun hcolumn => ?_) fun _ => leads_pure fun st h => h
    have hconcrete {type : TypeRef}
        (htype : type ∈ f.returnType :: f.params.map fun p => (st.shader.var p).type) :
        (instanceOf column type).isFamily = false :=
      not_isFamily_instanceOf (by simpa using hcolumn) htype
    rintro st₁ _ st₃ ⟨h₁, htypes⟩ hrun
    obtain ⟨params, st₂, hinstances, hrun⟩ := run_bind_ok.1 hrun
    have htypes₁ : ∀ p ∈ f.params,
        (instanceOf column (st₁.shader.var p).type).isFamily = false := by
      intro p hp
      rw [htypes p hp]
      exact hconcrete (List.mem_cons_of_mem _ (List.mem_map_of_mem hp))
    obtain ⟨h₂, hparams'⟩ := sound_instances column f.params xs hparams st₁ params st₂
      ⟨h₁, htypes₁⟩ hinstances
    have htype := typeItems_instanceOf column f.returnType
    refine ⟨(sound_addFunc ?_ st₂ _ st₃ ⟨h₂, hconcrete List.mem_cons_self, hparams'⟩ hrun).subset
      (List.subset_append_right _ _), fun p hp => ?_⟩
    · simp only [Function.references, typeItems] at hf htype ⊢
      grind
    · cases hrun
      have hlt : p.index < st₁.shader.vars.size := by
        simpa [Shader.has] using h₁.known (.var p) (hparams (List.mem_map_of_mem hp))
      rw [← htypes p hp, ← Shader.Grows.var (growing_instances column _ st₁ _ st₂ hinstances) p hlt]
      rfl

theorem sound_functionBody (params : List VarId) (xs : List Item) :
    Leads (Sound c fs (params.map .var ++ xs)) (functionBody params) fun body =>
      Sound c fs ((body.getD []).map .stmt ++ (params.map .var ++ xs)) := by
  refine leads_bind_read (reads_at? _) fun opened => ?_
  refine leads_ite (fun _ => ?_) fun _ => ?_
  · refine leads_bind sound_openScope fun _ => ?_
    refine leads_bind (leads_forM params fun p hp => sound_declare ?_) fun _ => ?_
    · exact List.mem_append_left _ (List.mem_map_of_mem hp)
    refine leads_bind_read reads_fuel fun fuel => ?_
    refine leads_bind (sound_bodyWithin fuel _) fun body => ?_
    exact leads_bind sound_closeScope fun _ => leads_pure fun st h => h
  · refine leads_bind (tracks_same (along_take? _)) fun ended => ?_
    exact leads_ite (fun _ => leads_pure fun st h => h) fun _ => leads_fail_bind _ _

/-- The parameters that a function is declared with: none where the only one is `void`. -/
def declaredParams (s : Shader) : List VarId → List VarId
  | [p] => if (s.var p).type = .builtin .void then [] else [p]
  | params => params

theorem declaredParams_subset (s : Shader) (params : List VarId) :
    declaredParams s params ⊆ params := by
  unfold declaredParams
  split
  · split <;> simp
  · exact List.Subset.refl _

theorem sound_function (returnType : TypeRef) (name : String) (xs : List Item) :
    Leads (Sound c fs (typeItems returnType ++ xs)) (function returnType name)
        fun _ => Sound c fs xs := by
  refine leads_bind (tracks_same (along_expect _ _)) fun _ => ?_
  refine leads_bind (tracks_commaSeparated (fun v => [Item.var v]) sound_parameter _ _)
    fun params => ?_
  refine leads_bind (tracks_same along_builtinAttribute) fun builtin => ?_
  refine leads_bind_read reads_shader fun s => ?_
  have hbody (params' : List VarId) (hparams : params' ⊆ params) :
      Leads (Sound c fs
          (params.flatMap (fun v => [Item.var v]) ++ (typeItems returnType ++ xs))) (do
        let body ← functionBody params'
        addFunction { name, returnType, params := params', body, builtin })
          fun _ => Sound c fs xs := by
    refine leads_bind ((sound_functionBody params' (typeItems returnType ++ xs)).given ?_)
      fun body => ?_
    · simp only [← List.map_eq_flatMap]
      have := List.map_subset Item.var hparams
      grind
    · intro st a st' h hrun
      refine (sound_addFunction _ _ ?_ st a st' h hrun).subset (by grind)
      simp only [Function.references, typeItems]
      grind
  refine leads_bind_read (reads_at? _) fun ended => ?_
  refine leads_ite (fun _ => ?_) fun _ => leads_fail_bind _ _
  refine leads_ite (fun _ => ?_) fun _ => hbody _ (declaredParams_subset s params)
  refine leads_ite (fun _ => ?_) fun _ => leads_fail_bind _ _
  exact leads_ite (fun _ => hbody _ (declaredParams_subset s params)) fun _ => leads_fail_bind _ _

/-! ### Whole shaders -/

theorem sound_addGlobal {id : VarId} (hid : .var id ∈ xs) :
    Leads (fun st => Sound c fs xs st ∧ (st.shader.var id).type.isFamily = false)
      (modifyShader fun s => ((), { s with globals := s.globals.push id }))
        fun _ => Sound c fs xs := by
  rintro st _ st' ⟨h, htype⟩ hrun
  cases hrun
  refine h.relist (h.linked.relist _ _ _ _ h.linked.indexed.structures fun x hx => ?_)
    (h.resolved.extend rfl rfl (fun v hv => ?_) (fun _ => .inl rfl) fun _ => .inl rfl)
    (h.members.of_structs h.linked rfl rfl rfl rfl fun _ _ => rfl) ?_ rfl rfl (fun _ => rfl)
    fun _ h => h
  · by_cases hnew : x = .var id
    · exact .inr (hnew ▸ h.known _ hid)
    · refine .inl ?_
      simp only [Shader.listed, Array.toList_push, List.map_append, List.mem_append, List.map_cons,
        List.map_nil, List.mem_singleton] at hx ⊢
      tauto
  · rcases Array.mem_push.1 hv with hold | rfl
    · exact .inl hold
    · exact .inr htype
  · exact ⟨Nat.le_refl _, Nat.le_refl _, Nat.le_refl _, Nat.le_refl _, Nat.le_refl _⟩

theorem sound_declareVar {v : Variable} (hv : v.references ⊆ xs) (htype : v.type.isFamily = false)
    (hfolded : v.constantPositions ⊆ fs) :
    Leads (Sound c fs xs) (do
      let var ← addVar v
      modifyShader fun s => ((), { s with globals := s.globals.push var })
      declare var) fun _ => Sound c fs xs := by
  refine leads_bind (Q := fun id st => Sound c fs (.var id :: xs) st ∧
    (st.shader.var id).type.isFamily = false) ?_ fun var => ?_
  · intro st id st' h hrun
    refine ⟨sound_addVar xs hv (List.Subset.refl _) ?_ hfolded st id st' h hrun, ?_⟩
    · unfold Variable.isGeneric
      split <;> simp [htype]
    · cases hrun
      show ((st.shader.addVar v).2.var _).type.isFamily = false
      rw [Shader.var_addVar, if_pos rfl]
      exact htype
  refine leads_bind (sound_addGlobal List.mem_cons_self) fun _ => ?_
  exact leads_weaken (sound_declare List.mem_cons_self) fun _ st h =>
    h.subset (List.subset_cons_self _ _)

theorem sound_declareGlobal (d : Declarator) (hd : d.references ⊆ xs)
    (hfolded : d.constantPositions ⊆ fs) :
    Leads (Sound c fs xs) (declareGlobal d) fun _ => Sound c fs xs := by
  have hadd (hconcrete : ¬ d.type.isFamily) (initial : Option ExprId) :
      Leads (Sound c fs (initial.toList.map .expr ++ xs)) (do
        let var ← addVar (d.toGlobal initial)
        modifyShader fun s => ((), { s with globals := s.globals.push var })
        declare var) fun _ => Sound c fs xs := by
    refine leads_weaken (sound_declareVar ?_ (Bool.not_eq_true _ ▸ hconcrete) hfolded) fun _ st h =>
      h.subset (List.subset_append_right _ _)
    simp only [Declarator.references, typeItems, dimItems, Declarator.toGlobal, Variable.references,
      Variable.initial?, Variable.global?] at hd ⊢
    grind
  refine leads_ite (fun _ => leads_fail_bind _ _) fun hconcrete => ?_
  cases hinitial : d.initial with
  | none => exact hadd hconcrete none
  | some value =>
      have hvalue : .expr value ∈ xs := hd (by simp [Declarator.references, hinitial])
      refine leads_bind_read (reads_isConstant _) fun constant => ?_
      refine leads_ite (fun _ => ?_) fun _ => (hadd hconcrete (some value)).given (by simp [hvalue])
      refine leads_bind (leads_map some ?_) (hadd hconcrete)
      have hxs : .expr value :: xs ⊆ xs := List.cons_subset.2 ⟨hvalue, List.Subset.refl _⟩
      exact leads_weaken (sound_evaluate.given hxs)
        fun id st h => h.fewer (List.subset_cons_self _ _)

theorem sound_externalDeclaration :
    Leads (Sound c fs []) externalDeclaration fun _ => Sound c fs [] := by
  refine leads_bind (tracks_same (along_take? _)) fun ended => ?_
  refine leads_ite (fun _ => leads_pure fun st h => h) fun _ => ?_
  refine leads_bind_read reads_fuel fun fuel => ?_
  refine leads_bind (sound_declarationWithin fuel fs []) fun names => ?_
  refine leads_bind_read reads_peek fun kind => ?_
  split
  · refine leads_bind tracks_advance fun _ => ?_
    refine leads_weaken (leads_forM names fun d hd => sound_declareGlobal d ?_ ?_) fun _ st h =>
      (h.subset (List.nil_subset _)).fewer (List.subset_append_right _ _)
    · exact fun x hx => List.mem_append_left _ (List.mem_flatMap_of_mem hd hx)
    · exact fun e he => List.mem_append_left _ (List.mem_flatMap_of_mem hd he)
  · next d =>
      refine ((sound_function d.type d.name []).given ?_).folded (List.subset_append_right _ _)
      simp only [List.flatMap_cons, List.flatMap_nil, Declarator.references]
      grind
  · exact leads_fail _

theorem sound_declarations : Leads (Sound c fs []) declarations fun _ => Sound c fs [] := by
  refine leads_repeatSteps (I := fun _ => Sound c fs []) (fun _ => ?_) ()
  refine leads_bind_read reads_atEnd fun ended => ?_
  refine leads_ite (fun _ => leads_pure fun st h => h) fun _ => ?_
  exact leads_bind sound_externalDeclaration fun _ => leads_pure fun st h => h

theorem sound_declareHidden {g : HiddenGlobal} (hconcrete : g.type.isFamily = false) :
    Leads (Sound c fs []) (declareHidden g) fun _ => Sound c fs [] := by
  refine leads_bind (Q := fun initial => Sound c fs (initial.toList.map .expr)) ?_ fun initial => ?_
  · cases g.value with
    | none => exact leads_pure fun st h => h
    | some n => exact leads_map some (tracks_constant _)
  · refine leads_weaken (sound_declareVar ?_ hconcrete (List.nil_subset _)) fun _ st h =>
      h.subset (List.nil_subset _)
    simp [Variable.references, Item.ofType?, Variable.initial?, Variable.global?, layoutItems]

theorem not_isFamily_of_hidden (stage : Stage) :
    ∀ g ∈ stage.hiddenGlobals, g.type.isFamily = false := by
  cases stage <;> decide

theorem sound_source (tokens : List Token) :
    Leads (Sound c fs []) (source tokens) fun _ => Sound c fs [] := by
  intro st a st' h hrun
  obtain ⟨version, extensions, hrun⟩ := run_source_ok hrun
  refine sound_declarations _ a st' ?_ hrun
  have hrecorded := h.relist (h.linked.relabel version extensions)
    (h.resolved.extend rfl rfl (fun _ hv => .inl hv) (fun _ => .inl rfl) fun _ => .inl rfl)
    (h.members.of_structs h.linked rfl rfl rfl rfl fun _ _ => rfl)
    ⟨Nat.le_refl _, Nat.le_refl _, Nat.le_refl _, Nat.le_refl _, Nat.le_refl _⟩ rfl rfl
    (fun _ => rfl) fun _ h => h
  exact hrecorded.same ⟨rfl, rfl⟩

theorem sound_prelude (stage : Stage) (prototypes : List Token) :
    Leads (Sound c fs []) (prelude stage prototypes) fun _ => Sound c fs [] :=
  leads_bind (leads_forM _ fun g hg => sound_declareHidden (not_isFamily_of_hidden stage g hg))
    fun _ => sound_source prototypes

theorem sound_initial (stage : Stage) : Sound c [] [] { shader := { stage } } where
  linked := .initial stage
  resolved := .initial stage
  members := .initial stage
  scopes v hv := by cases hv
  items _ := .inl fun id a ha => by cases ha
  known := List.forall_mem_nil _
  folded := List.forall_mem_nil _

end Parse

namespace Shader

/-- The tables of whole shaders are linked, and items stand in front of their expressions unless a
statement has been taken for a declaration first. -/
structure Consistent (s : Shader) : Prop where
  linked : s.Linked
  items : s.ItemsBelow ∨ s.Ambiguous

variable {s : Shader}

theorem Consistent.setPrototype (h : s.Consistent) (id : FuncId) {p : FuncId}
    (hp : s.has (.func p)) :
    (s.modifyFunc id fun f => { f with prototype := some p }).Consistent where
  linked := h.linked.setPrototype id hp
  items := h.items.imp (fun hitems => hitems.of_exprs_eq rfl) fun hambiguous =>
    hambiguous.mono h.linked (fun _ _ h => h) (fun _ _ => rfl) (fun _ _ => rfl) fun _ h => h

theorem Consistent.linkPrototypes (h : s.Consistent) : s.linkPrototypes.Consistent := by
  unfold Shader.linkPrototypes
  rw [← Array.foldl_toList]
  refine (List.foldlRecOn (motive := fun linked => linked.Consistent ∧ s.Keeps linked) _ _
    ⟨h, ⟨Nat.le_refl _, Nat.le_refl _, Nat.le_refl _, Nat.le_refl _, Nat.le_refl _⟩⟩ ?_).1
  rintro linked ⟨hlinked, hkeeps⟩ id _
  split
  · exact ⟨hlinked, hkeeps⟩
  split
  · next p hp =>
      have hhas := h.linked.has_of_mem_overloads (List.mem_of_find?_eq_some hp)
      refine ⟨hlinked.setPrototype id (hkeeps.has hhas), hkeeps.exprs, hkeeps.stmts,
        hkeeps.vars, ?_, hkeeps.structs⟩
      simpa [Shader.modifyFunc] using hkeeps.funcs
  · exact ⟨hlinked, hkeeps⟩

theorem Consistent.setTarget (h : s.Consistent) {id : ExprId} {name : String} {args : List ExprId}
    {target : Option FuncId} {f : FuncId} (hexpr : s.expr id = .call name args target)
    (hf : s.has (.func f)) : (s.setExpr id (.call name args (some f))).Consistent := by
  have hid : id.index < s.exprs.size := index_lt_of_expr hexpr (by simp [default])
  have hset (j : ExprId) : (s.setExpr id (.call name args (some f))).expr j =
      if j = id then .call name args (some f) else s.expr j := expr_setExpr s _ id j hid
  have hlinks := h.linked.expr id
  have hbefore := h.linked.before id
  rw [hexpr] at hlinks hbefore
  constructor
  · refine h.linked.replace hid (List.forall_mem_cons.2 ⟨hf, fun x hx => hlinks x ?_⟩) hbefore
    exact List.mem_append_right _ hx
  · refine h.items.imp (fun hitems => ?_) fun hambiguous => ?_
    · intro j a ha
      have hrank : (s.setExpr id (.call name args (some f))).rank a = s.rank a := by
        unfold rank constant?
        by_cases heq : a = id
        · rw [heq, hset, if_pos rfl, hexpr]
        · rw [hset, if_neg heq]
      rw [hset] at ha
      split at ha
      · cases ha
      · rw [hrank]
        simpa [Shader.setExpr] using hitems j a ha
    · refine hambiguous.mono h.linked (fun _ _ h => h) (fun e _ => ?_) (fun _ _ => rfl) fun _ h => h
      rw [hset]
      split
      · next heq => rw [heq, hexpr]; rfl
      · rfl

theorem mem_overloads_of_selectOverload? {name : String} {args : List ExprId} {f : FuncId}
    (h : s.selectOverload? name args = some f) : f ∈ s.overloads name := by
  have hpreferred (types : List TypeRef) (accepts : TypeRef → TypeRef → Bool)
      (h : s.preferred? (s.candidates (s.overloads name) types accepts) = some f) :
      f ∈ s.overloads name := by
    refine List.mem_of_mem_filter (?_ : f ∈ s.candidates (s.overloads name) types accepts)
    unfold preferred? at h
    rcases Option.or_eq_some_iff.1 h with h | ⟨_, h⟩
    · exact List.mem_of_find?_eq_some h
    · exact List.mem_of_head? h
  unfold selectOverload? at h
  split at h
  · next only heq =>
      cases h
      rw [heq]
      exact List.mem_singleton_self _
  · obtain ⟨types, _, h⟩ := Option.bind_eq_some_iff.1 h
    rcases Option.or_eq_some_iff.1 h with h | ⟨_, h⟩
    · exact hpreferred _ _ h
    · exact hpreferred _ _ h

theorem Consistent.bindCall (h : s.Consistent) (id : ExprId) : (s.bindCall id).Consistent := by
  unfold Shader.bindCall
  split
  · next name args target hexpr =>
      split
      · next f hselect =>
          exact h.setTarget hexpr
            (h.linked.has_of_mem_overloads (mem_overloads_of_selectOverload? hselect))
      · exact h
  · exact h

theorem Consistent.bindCalls (h : s.Consistent) (calls : List ExprId) :
    (s.bindCalls calls).Consistent := by
  unfold Shader.bindCalls
  induction calls generalizing s with
  | nil => exact h
  | cons call rest ih => exact ih (h.bindCall call)

/-- A whole shader is made from tables like those of a parse. -/
theorem Accepted.exists_sound (h : s.Accepted) :
    ∃ st, Parse.Sound True [] [] st ∧ s = st.shader.linkPrototypes.bindCalls st.calls.reverse := by
  obtain ⟨prototypes, stage, tokens, hshader⟩ := h
  obtain ⟨st, hrun, rfl⟩ := Parse.exists_run_of_shaderWith hshader
  exact ⟨st, Parse.leads_bind (Parse.sound_prelude stage prototypes)
    (fun _ => Parse.sound_source tokens) _ _ _ (Parse.sound_initial stage) hrun, rfl⟩

theorem Accepted.consistent (h : s.Accepted) : s.Consistent := by
  obtain ⟨st, hsound, rfl⟩ := h.exists_sound
  exact (Consistent.linkPrototypes ⟨hsound.linked, hsound.items trivial⟩).bindCalls _

theorem Accepted.resolved (h : s.Accepted) : s.Resolved := by
  obtain ⟨st, hsound, rfl⟩ := h.exists_sound
  exact hsound.resolved.linkPrototypes.rebinds (sameRest_bindCalls _ _) (size_bindCalls _ _)
    (rebinds_bindCalls _ _)

end Shader

end ShaderBridge
