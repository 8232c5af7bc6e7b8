import ShaderBridge.Proofs.Parse.Fields
import ShaderBridge.Proofs.Parse.SoundStatement

namespace ShaderBridge

def Declarator.references (d : Declarator) : List Item :=
  Parse.typeItems d.type ++ Parse.dimItems d.dims ++ d.initial.toList.map .expr ++
    layoutItems d.qualifiers.layout

def Declarator.constantPositions (d : Declarator) : List ExprId :=
  dimSizes d.dims ++ layoutValues d.qualifiers.layout

namespace Parse

variable {α : Type} {c : Prop} {fs : List ExprId} {xs ys : List Item}

/-! ### Qualifiers -/

theorem mem_foldl_addLayout {layout entries : List LayoutEntry} {e : LayoutEntry}
    (he : e ∈ entries.foldl addLayout layout) : e ∈ layout ∨ e ∈ entries := by
  induction entries generalizing layout with
  | nil => exact .inl he
  | cons entry rest ih =>
      have hadd : ∀ e ∈ addLayout layout entry, e ∈ layout ∨ e = entry := by
        unfold addLayout
        grind
      rcases ih he with he | he
      · exact (hadd e he).imp_right fun heq => by simp [heq]
      · exact .inr (List.mem_cons_of_mem _ he)

theorem layoutItems_foldl (layout entries : List LayoutEntry) :
    layoutItems (entries.foldl addLayout layout) ⊆
      layoutItems layout ++ entries.flatMap fun e => layoutItems [e] := by
  have := @mem_foldl_addLayout layout entries
  unfold layoutItems
  grind

theorem layoutValues_foldl (layout entries : List LayoutEntry) :
    layoutValues (entries.foldl addLayout layout) ⊆
      layoutValues layout ++ entries.flatMap fun e => layoutValues [e] := by
  have := @mem_foldl_addLayout layout entries
  unfold layoutValues
  grind

theorem sound_layoutEntry (xs : List Item) :
    Leads (Sound c fs xs) layoutEntry fun e =>
      Sound c (layoutValues [e] ++ fs) (layoutItems [e] ++ xs) := by
  refine leads_bind_read reads_peek fun kind => ?_
  extract_lets entry
  have hentry (name : String) :
      Leads (Sound c fs xs) (entry name) fun e =>
        Sound c (layoutValues [e] ++ fs) (layoutItems [e] ++ xs) := by
    dsimp only [entry]
    split
    · exact leads_fail _
    · refine leads_bind tracks_advance fun _ => ?_
      refine leads_bind_read (reads_at? .eq) fun assigned => ?_
      refine leads_ite (fun _ => ?_) fun _ => ?_
      · refine leads_ite (fun _ => ?_) fun _ => leads_fail_bind _ _
        refine leads_bind tracks_advance fun _ => ?_
        refine leads_bind (tracks_expression _ xs) fun value => ?_
        refine leads_bind_read (reads_isConstant value) fun constant => ?_
        refine leads_ite (fun _ => ?_) fun _ => leads_fail_bind _ _
        exact leads_bind sound_evaluate fun value => leads_pure fun st h => h
      · exact leads_ite (fun _ => leads_fail_bind _ _) fun _ => leads_pure fun st h => h
  split
  · exact hentry _
  · exact hentry StorageClass.shared.spelling
  · exact leads_fail_bind _ _

theorem sound_layoutList (layout : List LayoutEntry) (xs : List Item) :
    Leads (Sound c (layoutValues layout ++ fs) (layoutItems layout ++ xs)) (layoutList layout)
        fun l =>
      Sound c (layoutValues l ++ fs) (layoutItems l ++ xs) := by
  refine leads_bind tracks_advance fun _ => ?_
  refine leads_bind (tracks_same (along_expect _ _)) fun _ => ?_
  refine leads_bind (tracks_commaSeparated_folded (fun e => layoutItems [e])
    (fun e => layoutValues [e]) (fun found xs => ?_) _ _) fun entries => ?_
  · simpa only [List.flatMap_cons, List.append_assoc] using sound_layoutEntry xs
  refine leads_pure fun st h => (h.subset ?_).fewer ?_
  · have := layoutItems_foldl layout entries
    grind
  · have := layoutValues_foldl layout entries
    grind

theorem sound_qualifier? (q : Qualifiers) (xs : List Item) :
    Leads (Sound c (layoutValues q.layout ++ fs) (layoutItems q.layout ++ xs)) (qualifier? q)
        fun r =>
      Sound c (layoutValues (r.getD q).layout ++ fs) (layoutItems (r.getD q).layout ++ xs) := by
  have htaken (q' : Qualifiers) (hq : q'.layout = q.layout) :
      Leads (Sound c (layoutValues q.layout ++ fs) (layoutItems q.layout ++ xs))
        (do advance; return some q') fun r =>
          Sound c (layoutValues (r.getD q).layout ++ fs) (layoutItems (r.getD q).layout ++ xs) :=
    leads_bind tracks_advance fun _ => leads_pure fun st h => by rwa [Option.getD_some, hq]
  refine leads_bind_read reads_peek fun kind => ?_
  split
  · exact leads_bind_read (reads_setOnce _ _ _) fun _ => htaken _ rfl
  · exact leads_bind_read (reads_setOnce _ _ _) fun _ => htaken _ rfl
  · exact leads_bind_read (reads_setOnce _ _ _) fun _ => htaken _ rfl
  · exact leads_bind_read (reads_setOnce _ _ _) fun _ => htaken _ rfl
  · exact htaken _ rfl
  · exact htaken _ rfl
  · exact htaken _ rfl
  · exact leads_bind (sound_layoutList _ xs) fun _ => leads_pure fun st h => h
  · exact leads_pure fun st h => h

theorem sound_qualifiers (xs : List Item) :
    Leads (Sound c fs xs) qualifiers fun q =>
      Sound c (layoutValues q.layout ++ fs) (layoutItems q.layout ++ xs) := by
  refine leads_repeatSteps (I := fun q : Qualifiers =>
    Sound c (layoutValues q.layout ++ fs) (layoutItems q.layout ++ xs)) (fun q => ?_) {}
  refine leads_bind (sound_qualifier? q xs) fun next => ?_
  cases next with
  | some q => exact leads_pure fun st h => h
  | none => exact leads_pure fun st h => h

theorem sound_declarationQualifiers (xs : List Item) :
    Leads (Sound c fs xs) declarationQualifiers fun q =>
      Sound c (layoutValues q.layout ++ fs) (layoutItems q.layout ++ xs) := by
  refine leads_bind (sound_qualifiers xs) fun q => ?_
  refine leads_bind_read reads_shader fun s => ?_
  extract_lets kept unreserved
  have hunreserved : Leads (Sound c (layoutValues q.layout ++ fs) (layoutItems q.layout ++ xs))
      (unreserved ())
        fun q => Sound c (layoutValues q.layout ++ fs) (layoutItems q.layout ++ xs) := by
    refine leads_bind_read reads_peek fun kind => ?_
    split
    · exact leads_fail_bind _ _
    · exact leads_pure fun st h => h
  split
  · exact leads_fail_bind _ _
  · exact hunreserved

/-! ### Names -/

theorem sound_declarator (q : Qualifiers) (type : TypeRef) (typeDims : List (Option ExprId))
    (fs : List ExprId) (xs : List Item) :
    Leads (Sound c (dimSizes typeDims ++ layoutValues q.layout ++ fs)
      (typeItems type ++ dimItems typeDims ++ layoutItems q.layout ++ xs))
      (declarator q type typeDims)
        fun d => Sound c (d.constantPositions ++ fs) (d.references ++ xs) := by
  refine leads_bind_read reads_name? fun name => ?_
  extract_lets unnamed
  have hunnamed : Leads (Sound c (dimSizes typeDims ++ layoutValues q.layout ++ fs)
      (typeItems type ++ dimItems typeDims ++ layoutItems q.layout ++ xs)) (unnamed ()) fun d =>
        Sound c (d.constantPositions ++ fs) (d.references ++ xs) := by
    refine leads_bind (tracks_dimensions _) fun more => ?_
    extract_lets dims initialised
    have hinitialised (initial : Option ExprId) :
        Leads (Sound c (dimSizes more ++ (dimSizes typeDims ++ layoutValues q.layout ++ fs))
          (initial.toList.map .expr ++ (dimItems more ++ (typeItems type ++
            dimItems typeDims ++ layoutItems q.layout ++ xs)))) (initialised initial) fun d =>
              Sound c (d.constantPositions ++ fs) (d.references ++ xs) := by
      cases name with
      | none => exact leads_fail _
      | some name =>
          refine leads_pure fun st h => (h.subset ?_).fewer ?_
          · simp only [Declarator.references, dims, dimItems, List.filterMap_append]
            grind
          · simp only [Declarator.constantPositions, dims, dimSizes, List.filterMap_append]
            grind
    refine leads_bind (tracks_same (along_take? .eq)) fun assigned => ?_
    refine leads_ite (fun _ => ?_) fun _ => ?_
    · refine leads_bind (tracks_initialValue _ _ _ _) fun value => ?_
      refine leads_ite (fun _ => ?_) fun _ => hinitialised (some value)
      refine leads_bind_read (reads_isConstant value) fun constant => ?_
      exact leads_ite (fun _ => hinitialised (some value)) fun _ => leads_fail_bind _ _
    · exact leads_ite (fun _ => leads_fail_bind _ _) fun _ => hinitialised none
  exact leads_ite (fun _ => leads_bind tracks_advance fun _ => hunnamed) fun _ => hunnamed

theorem sound_furtherDeclarators (first : Declarator) (typeDims : List (Option ExprId))
    (xs : List Item) :
    Leads (Sound c (first.constantPositions ++ (dimSizes typeDims ++ fs))
      (first.references ++ (dimItems typeDims ++ xs))) (furtherDeclarators first typeDims) fun ds =>
        Sound c (ds.flatMap Declarator.constantPositions ++ fs)
          (ds.flatMap Declarator.references ++ xs) := by
  refine leads_imp (P := Sound c ([first].flatMap Declarator.constantPositions ++
    (first.constantPositions ++ dimSizes typeDims ++ fs)) ([first].flatMap Declarator.references ++
      (first.references ++ dimItems typeDims ++ xs))) ?_
    fun st h => (h.subset (by simp)).fewer (by simp)
  refine leads_repeatSteps (I := fun ds : List Declarator =>
    Sound c (ds.flatMap Declarator.constantPositions ++
      (first.constantPositions ++ dimSizes typeDims ++ fs)) (ds.flatMap Declarator.references ++
        (first.references ++ dimItems typeDims ++ xs))) (fun found => ?_) _
  refine leads_bind (tracks_same (along_take? .comma)) fun more => ?_
  refine leads_ite (fun _ => ?_) fun _ =>
    leads_pure fun st h => (h.subset (by grind)).fewer (by grind)
  refine leads_bind (((sound_declarator first.qualifiers first.type typeDims
    (found.flatMap Declarator.constantPositions ++
      (first.constantPositions ++ dimSizes typeDims ++ fs))
    (found.flatMap Declarator.references ++ (first.references ++ dimItems typeDims ++ xs))).given
      ?_).folded ?_)
    fun d => leads_pure fun st h => (h.subset (by grind)).fewer (by grind)
  · simp only [Declarator.references]
    grind
  · simp only [Declarator.constantPositions]
    grind

theorem sound_typedDeclaration (q : Qualifiers) (xs : List Item) :
    Leads (Sound c (layoutValues q.layout ++ fs) (layoutItems q.layout ++ xs)) (typedDeclaration q)
      fun ds => Sound c (ds.flatMap Declarator.constantPositions ++ fs)
        (ds.flatMap Declarator.references ++ xs) := by
  refine leads_bind (tracks_typeName? _) fun type => leads_of_and fun _ => ?_
  cases type with
  | none => exact leads_fail _
  | some type =>
      refine leads_bind tracks_advance fun _ => ?_
      refine leads_bind (tracks_dimensions _) fun dims => ?_
      refine leads_bind (((sound_declarator q type dims.reverse (dimSizes dims.reverse ++ fs)
        (dimItems dims.reverse ++ xs)).given ?_).folded ?_) fun d => sound_furtherDeclarators d _ xs
      · simp only [dimItems, List.filterMap_reverse]
        grind
      · simp only [dimSizes, List.filterMap_reverse]
        grind

theorem Sound.relist {st : ParserState} {s : Shader} (h : Sound c fs xs st) (hlinked : s.Linked)
    (hresolved : s.Resolved) (hmembers : s.MembersSelected) (hkeeps : st.shader.Keeps s)
    (hexprs : s.exprs = st.shader.exprs) (hstmts : s.stmts = st.shader.stmts)
    (hnames : ∀ v, (s.var v).name = (st.shader.var v).name)
    (hstruct : ∀ name, (st.shader.findStruct? name).isSome → (s.findStruct? name).isSome) :
    Sound c fs xs { st with shader := s } where
  linked := hlinked
  resolved := hresolved
  members := hmembers
  scopes v hv := hkeeps.has (h.scopes v hv)
  items hc := (h.items hc).imp (fun hbelow => hbelow.of_exprs_eq hexprs) fun hambiguous => by
    refine hambiguous.mono h.linked (fun t e ht => ?_) (fun e _ => ?_) (fun v _ => hnames v) hstruct
    · rw [← ht, Shader.stmt, hstmts]; rfl
    · rw [Shader.expr, hexprs]; rfl
  known := hkeeps.all h.known
  folded e he := (h.folded e he).of_exprs_eq hexprs

theorem sound_redeclareInvariant (name : String) (xs : List Item) :
    Leads (Sound c fs xs) (redeclareInvariant name) fun _ => Sound c fs xs := by
  refine leads_bind_read (reads_findVariable? name) fun found => ?_
  cases found with
  | none => exact leads_fail _
  | some v =>
      refine leads_bind_read reads_shader fun s => ?_
      refine leads_ite (fun _ => leads_fail_bind _ _) fun _ => ?_
      refine leads_bind (Q := fun _ => Sound c fs xs) ?_ fun _ => tracks_advance
      intro st _ st' h hrun
      cases hrun
      refine h.relist (h.linked.setFlags v fun flags => { flags with invariant := true })
        (h.resolved.setFlags v (fun flags => { flags with invariant := true }) fun _ => rfl)
        (h.members.of_exprs_eq h.linked
          (.setFlags h.linked v fun flags => { flags with invariant := true }) rfl) ?_ rfl rfl
        (fun u => ?_) fun _ h => h
      · constructor <;> simp [Shader.modifyVar]
      · simp only [Shader.modifyVar, Shader.var, Array.getD_eq_getD_getElem?, Array.getElem?_modify]
        split
        · cases st.shader.vars[u.index]? <;> rfl
        · rfl

theorem sound_exposeFields {fields : List VarId} (hfields : fields.map .var ⊆ xs) :
    Leads (Sound c fs xs) (exposeFields fields) fun _ => Sound c fs xs := by
  refine leads_forM fields fun field hfield => ?_
  have hdeclare : Leads (Sound c fs xs) (declare field) fun _ => Sound c fs xs :=
    sound_declare (hfields (List.mem_map_of_mem hfield))
  refine leads_bind_read reads_shader fun s => ?_
  refine leads_bind_read (reads_findVariable? _) fun existing => ?_
  cases existing with
  | none => exact hdeclare
  | some existing =>
      refine leads_bind_read reads_shader fun s => ?_
      exact leads_ite (fun _ => hdeclare) fun _ => leads_fail_bind _ _

theorem isSome_lookup_iff {names : List (String × α)} {name : String} :
    (names.lookup name).isSome ↔ ∃ entry ∈ names, entry.1 = name := by
  induction names with
  | nil => simp
  | cons entry rest ih =>
      obtain ⟨other, a⟩ := entry
      rw [List.lookup_cons]
      by_cases h : name = other
      · simp [h]
      · rw [beq_false_of_ne h]
        simp [ih, Ne.symm h]

theorem isSome_lookup_putName {names : List (String × α)} {name other : String} {a : α}
    (h : (names.lookup other).isSome) : ((Shader.putName names name a).lookup other).isSome := by
  obtain ⟨entry, hentry, rfl⟩ := isSome_lookup_iff.1 h
  refine isSome_lookup_iff.2 ?_
  unfold Shader.putName
  split
  · refine ⟨_, List.mem_map_of_mem hentry, ?_⟩
    split
    · next heq => exact (eq_of_beq heq).symm
    · rfl
  · exact ⟨entry, List.mem_append_left _ hentry, rfl⟩

theorem Sound.declareStruct {st : ParserState} {d : StructDecl} (h : Sound c fs ys st)
    (hd : d.references ⊆ ys) (hxs : xs ⊆ ys) (hfolded : d.constantPositions ⊆ fs)
      (structures blocks : Array StructId)
    (names : List (String × StructId))
    (hstructures : ∀ t ∈ structures, t ∈ st.shader.structures ∨ t = ⟨st.shader.structs.size⟩)
    (hblocks : ∀ t ∈ blocks, t ∈ st.shader.blocks ∨ t = ⟨st.shader.structs.size⟩)
    (hold : ∀ t ∈ st.shader.structures, t ∈ structures)
    (hnames : ∀ entry ∈ names, entry ∈ st.shader.structureNames ∨
      entry.2 = ⟨st.shader.structs.size⟩ ∧ entry.2 ∈ structures ∧ d.name = some entry.1)
    (hkept : ∀ name, (st.shader.findStruct? name).isSome → (names.lookup name).isSome) :
    Sound c fs (.struct ⟨st.shader.structs.size⟩ :: xs) { st with shader :=
      { (st.shader.addStruct d).2 with structures, blocks, structureNames := names } } := by
  have hadded := h.linked.addStruct fun x hx => h.known x (hd hx)
  have hnew : (st.shader.addStruct d).2.has (.struct ⟨st.shader.structs.size⟩) := by
    simp [Shader.has, Shader.addStruct]
  have hresolved : Shader.Resolved
      { (st.shader.addStruct d).2 with structures, blocks, structureNames := names } :=
    (h.resolved.addStruct fun e he => h.folded e (hfolded he)).extend rfl rfl (fun _ hv => .inl hv)
      (fun _ => .inl rfl) fun _ => .inl rfl
  have hindexed : ∀ entry ∈ names, entry.2 ∈ structures ∧
      ((st.shader.addStruct d).2.struct entry.2).name = some entry.1 := by
    intro entry hentry
    rcases hnames entry hentry with hentry | ⟨hid, hmem, hname⟩
    · obtain ⟨hmem, hname⟩ := hadded.indexed.structures entry hentry
      exact ⟨hold _ hmem, hname⟩
    · rw [Shader.struct_addStruct, if_pos (congrArg StructId.index hid)]
      exact ⟨hmem, hname⟩
  refine Sound.cons ((h.subset hxs).relist
    (hadded.relist _ structures blocks names hindexed fun x hx => ?_) hresolved
    (h.members.of_structs h.linked rfl rfl rfl rfl fun t ht => ?_) ?_ rfl rfl (fun _ => rfl) hkept)
    hnew
  · simp only [Shader.listed, List.mem_append, List.mem_map] at hx ⊢
    rcases hx with (((hx | ⟨t, ht, rfl⟩) | ⟨entry, hentry, rfl⟩) | ⟨t, ht, rfl⟩) | hx
    · exact .inl (.inl (.inl (.inl (.inl hx))))
    · rcases hstructures t (Array.mem_toList_iff.1 ht) with hold | rfl
      · exact .inl (.inl (.inl (.inl (.inr ⟨t, Array.mem_toList_iff.2 hold, rfl⟩))))
      · exact .inr hnew
    · rcases hnames entry hentry with hold | ⟨hid, -, -⟩
      · exact .inl (.inl (.inl (.inr ⟨entry, hold, rfl⟩)))
      · exact .inr (hid ▸ hnew)
    · rcases hblocks t (Array.mem_toList_iff.1 ht) with hold | rfl
      · exact .inl (.inl (.inr ⟨t, Array.mem_toList_iff.2 hold, rfl⟩))
      · exact .inr hnew
    · exact .inl (.inr hx)
  · change ((st.shader.addStruct d).2.struct t).fields = _
    rw [Shader.struct_addStruct, if_neg (Nat.ne_of_lt ht)]
  · constructor <;> simp [Shader.addStruct]

theorem sound_addStructure (name : Option String) (fields : List VarId) (xs : List Item) :
    Leads (Sound c fs (fields.map .var ++ xs)) (addStructure name fields) fun id =>
      Sound c fs (.struct id :: xs) := by
  intro st id st' h hrun
  cases hrun
  have hd : StructDecl.references { name, fields } ⊆ fields.map .var ++ xs := by
    simp [StructDecl.references, layoutItems]
  refine h.declareStruct hd (List.subset_append_right _ _) (List.nil_subset _) _ _ _
    (fun t ht => ?_) (fun t ht => .inl ht) (fun t ht => Array.mem_push_of_mem _ ht)
    (fun entry hentry => ?_) fun other hother => ?_
  · simpa using ht
  · cases name with
    | none => exact .inl hentry
    | some name =>
        rcases Shader.mem_putName hentry with rfl | hold
        · exact .inr ⟨rfl, Array.mem_push_self, rfl⟩
        · exact .inl hold
  · cases name with
    | none => exact hother
    | some name => exact isSome_lookup_putName hother

theorem sound_addBlock (name : Option String) (fields : List VarId) (block : BlockInfo)
    (xs : List Item) :
    Leads (Sound c (layoutValues block.layout ++ fs)
      (fields.map .var ++ (layoutItems block.layout ++ xs))) (addBlock name fields block)
      fun id => Sound c fs (.struct id :: xs) := by
  intro st id st' h hrun
  cases hrun
  have hd : StructDecl.references { name, fields, block := some block } ⊆
      fields.map .var ++ (layoutItems block.layout ++ xs) := by
    simp only [StructDecl.references, Option.map_some, Option.getD_some]
    grind
  refine (h.declareStruct hd (by grind) (List.subset_append_left _ _) _ _ _ (fun t ht => .inl ht)
    (fun t ht => ?_) (fun t ht => ht) (fun entry hentry => .inl hentry) fun other hother =>
      hother).fewer
      (List.subset_append_right _ _)
  simpa using ht

/-! ### Structures and blocks -/

theorem sound_plainDeclaration (q : Qualifiers) (xs : List Item) :
    Leads (Sound c (layoutValues q.layout ++ fs) (layoutItems q.layout ++ xs)) (plainDeclaration q)
      fun ds => Sound c (ds.flatMap Declarator.constantPositions ++ fs)
        (ds.flatMap Declarator.references ++ xs) := by
  refine leads_bind_read reads_name? fun name => ?_
  cases name with
  | none => exact sound_typedDeclaration q xs
  | some name =>
      refine leads_bind_read reads_namesType? fun namesType => ?_
      refine leads_bind_read reads_peekSecond fun second => ?_
      refine leads_ite (fun _ => ?_) fun _ => sound_typedDeclaration q xs
      exact leads_bind (sound_redeclareInvariant name _) fun _ =>
        leads_pure fun st h => (h.subset (by grind)).fewer (by grind)

theorem sound_declaratorsOf (q : Qualifiers) (type : TypeRef) (xs : List Item) :
    Leads (Sound c (layoutValues q.layout ++ fs) (typeItems type ++ layoutItems q.layout ++ xs))
      (declaratorsOf q type) fun ds => Sound c (ds.flatMap Declarator.constantPositions ++ fs)
        (ds.flatMap Declarator.references ++ xs) := by
  refine leads_bind_read (reads_at? _) fun ended => ?_
  refine leads_ite (fun _ => leads_pure fun st h => (h.subset (by grind)).fewer (by grind))
    fun _ => ?_
  refine leads_bind (((sound_declarator q type [] fs xs).given (by simp [dimItems])).folded
    (by simp [dimSizes])) fun d => ?_
  exact ((sound_furtherDeclarators d [] xs).given (by simp [dimItems])).folded (by simp [dimSizes])

theorem sound_addFields (ds : List Declarator) (xs : List Item) :
    Leads (Sound c (ds.flatMap Declarator.constantPositions ++ fs)
      (ds.flatMap Declarator.references ++ xs)) (ds.mapM fun d => addVar d.toField)
      fun fields => Sound c fs (fields.map .var ++ xs) := by
  induction ds generalizing xs with
  | nil => exact leads_pure fun st h => h
  | cons d rest ih =>
      rw [List.mapM_cons]
      refine leads_bind
        (sound_addVar (rest.flatMap Declarator.references ++ xs) ?_ (by grind) rfl ?_)
        fun v => ?_
      · simp only [Declarator.toField, Variable.references, Variable.initial?, Variable.global?,
          List.flatMap_cons, Declarator.references, typeItems, dimItems, layoutItems]
        grind
      · simp only [Declarator.toField, Variable.constantPositions, Variable.global?,
          List.flatMap_cons, Declarator.constantPositions, layoutValues]
        grind
      · refine leads_bind (((ih (.var v :: xs)).given (by grind)).folded (by grind)) fun vs => ?_
        exact leads_pure fun st h => h.subset (by grind)

mutual

theorem sound_declarationWithin : ∀ (fuel : Nat) (fs : List ExprId) (xs : List Item),
    Leads (Sound c fs xs) (declarationWithin fuel) fun ds =>
      Sound c (ds.flatMap Declarator.constantPositions ++ fs)
        (ds.flatMap Declarator.references ++ xs)
  | 0, _, _ => leads_unfinished
  | fuel + 1, fs, xs => by
    refine leads_bind (sound_declarationQualifiers xs) fun q => ?_
    refine leads_bind_read (reads_blockStorage? q) fun storage => ?_
    cases storage with
    | some storage =>
        refine leads_bind (sound_blockWithin fuel storage q fs xs) fun block => ?_
        exact ((sound_declaratorsOf { q with layout := [] } (.declared block) xs).given (by
          simp [typeItems, Item.ofType?, layoutItems])).folded (by simp [layoutValues])
    | none =>
        refine leads_bind_read (reads_atKeyword? _) fun opensStructure => ?_
        refine leads_ite (fun _ => ?_) fun _ => ?_
        · refine leads_bind tracks_advance fun _ => ?_
          refine leads_bind (sound_structureWithin fuel _ _) fun id => ?_
          exact (sound_declaratorsOf q (.declared id) xs).given (by simp [typeItems, Item.ofType?])
        refine leads_bind_read (reads_atKeyword? _) fun opensPrecision => ?_
        refine leads_ite (fun _ => ?_) fun _ => sound_plainDeclaration q xs
        exact leads_bind (tracks_same along_defaultPrecision) fun _ =>
          leads_pure fun st h => (h.subset (by grind)).fewer (by grind)

theorem sound_structureWithin : ∀ (fuel : Nat) (fs : List ExprId) (xs : List Item),
    Leads (Sound c fs xs) (structureWithin fuel) fun id => Sound c fs (.struct id :: xs)
  | 0, _, _ => leads_unfinished
  | fuel + 1, fs, xs => by
    refine leads_bind_read reads_name? fun name => ?_
    have hfields : Leads (Sound c fs xs) (do
        let fields ← fieldsWithin fuel "structure"
        addStructure name fields) fun id => Sound c fs (.struct id :: xs) :=
      leads_bind (sound_fieldsWithin fuel _ fs xs) fun fields => sound_addStructure name fields xs
    exact leads_ite (fun _ => leads_bind tracks_advance fun _ => hfields) fun _ => hfields

theorem sound_blockWithin : ∀ (fuel : Nat) (storage : StorageClass) (q : Qualifiers)
    (fs : List ExprId) (xs : List Item),
    Leads (Sound c (layoutValues q.layout ++ fs) (layoutItems q.layout ++ xs))
      (blockWithin fuel storage q) fun id => Sound c fs (.struct id :: xs)
  | 0, _, _, _, _ => leads_unfinished
  | fuel + 1, storage, q, fs, xs => by
    refine leads_bind_read reads_name? fun name => ?_
    have hadd (fields : List VarId) :
        Leads (Sound c (layoutValues q.layout ++ fs)
            (fields.map .var ++ (layoutItems q.layout ++ xs))) (do
          let id ← addBlock name fields { storage, memory := q.memory, layout := q.layout }
          if (← name?).isNone then exposeFields fields
          return id) fun id => Sound c fs (.struct id :: xs) := by
      let block : BlockInfo := { storage, memory := q.memory, layout := q.layout }
      refine leads_bind ((sound_addBlock name fields block (fields.map .var ++ xs)).given
        (by grind))
        fun id => ?_
      refine leads_bind_read reads_name? fun second => ?_
      refine leads_ite (fun _ => ?_) fun _ => leads_pure fun st h => h.subset (by grind)
      exact leads_bind (sound_exposeFields (by grind)) fun _ =>
        leads_pure fun st h => h.subset (by grind)
    have hbody : Leads (Sound c (layoutValues q.layout ++ fs) (layoutItems q.layout ++ xs)) (do
        let fields ←
          if name.isNone && (← at? .semicolon) then pure []
          else fieldsWithin fuel storage.blockName
        let id ← addBlock name fields { storage, memory := q.memory, layout := q.layout }
        if (← name?).isNone then exposeFields fields
        return id) fun id => Sound c fs (.struct id :: xs) := by
      refine leads_bind_read (reads_at? _) fun ended => ?_
      refine leads_ite (fun _ => hadd []) fun _ => ?_
      exact leads_bind (sound_fieldsWithin fuel _ _ _) hadd
    exact leads_ite (fun _ => leads_bind tracks_advance fun _ => hbody) fun _ => hbody

theorem sound_fieldsWithin : ∀ (fuel : Nat) (block : String) (fs : List ExprId) (xs : List Item),
    Leads (Sound c fs xs) (fieldsWithin fuel block) fun fields => Sound c fs (fields.map .var ++ xs)
  | 0, _, _, _ => leads_unfinished
  | fuel + 1, block, fs, xs => by
    refine leads_bind (tracks_same (along_expect _ _)) fun _ => ?_
    refine leads_repeatSteps (I := fun found : List VarId => Sound c fs (found.map .var ++ xs))
      (fun found => ?_) []
    refine leads_bind (tracks_same (along_take? _)) fun closed => ?_
    refine leads_ite (fun _ => leads_pure fun st h => h.subset (by grind)) fun _ => ?_
    refine leads_bind_read reads_atEnd fun ended => ?_
    refine leads_ite (fun _ => leads_fail_bind _ _) fun _ => ?_
    refine leads_bind (sound_declarationWithin fuel fs _) fun names => ?_
    refine leads_bind (tracks_same (along_expect _ _)) fun _ => ?_
    refine leads_bind (sound_addFields names _) fun fields => leads_pure fun st h => h.subset ?_
    grind

end

end Parse

end ShaderBridge
