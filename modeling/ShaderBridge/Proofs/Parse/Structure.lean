import ShaderBridge.Proofs.Parse.Accepted
import ShaderBridge.Proofs.Parse.Fields
import ShaderBridge.Proofs.Parse.Run
import ShaderBridge.Proofs.Shader.Binding

namespace ShaderBridge

namespace Parse

/-! ### States with loose fields -/

/-- A state in which some fields are loose and some types have been declared. -/
def Ready (loose : List VarId) (types : List TypeRef) (st : ParserState) : Prop :=
  st.shader.OwnsFields loose ∧ ∀ t ∈ types, st.shader.Declared t

variable {α : Type} {loose : List VarId} {types : List TypeRef}

theorem Ready.subset {types' : List TypeRef} {st : ParserState} (h : Ready loose types st)
    (hsubset : types' ⊆ types) : Ready loose types' st :=
  ⟨h.1, fun t ht => h.2 t (hsubset ht)⟩

theorem leads_same {m : ParseM α}
    (hm : Along (fun st st' => st.shader.SameFields st'.shader) m) :
    Leads (Ready loose types) m fun _ => Ready loose types := by
  rintro st a st' ⟨howns, htypes⟩ hrun
  have hsame := hm st a st' hrun
  exact ⟨howns.sameFields hsame, fun t ht => (htypes t ht).sameFields hsame⟩

theorem leads_typeName? (named : Keyword → Option BuiltinType) :
    Leads (Ready loose types) (typeName? named) fun t => Ready loose (t.toList ++ types) := by
  refine leads_bind_read reads_peek fun kind => ?_
  cases kind with
  | keyword k =>
      refine leads_pure fun st h => ?_
      cases named k with
      | none => exact h
      | some t =>
          refine ⟨h.1, List.forall_mem_cons.2 ⟨?_, h.2⟩⟩
          intro id hid
          cases hid
  | ident name =>
      intro st t st' h hrun
      cases hrun
      cases hfound : st.shader.findStruct? name with
      | none => exact h
      | some id =>
          refine ⟨h.1, List.forall_mem_cons.2 ⟨?_, h.2⟩⟩
          rintro _ ⟨⟩
          obtain ⟨before, after, hnames, _⟩ := List.lookup_eq_some_iff.1 hfound
          exact h.1.names (name, id) (by rw [hnames]; simp)
  | _ => exact leads_pure fun st h => h

theorem leads_type (q : Qualifiers) (type : TypeRef) (typeDims : List (Option ExprId)) :
    Leads (fun _ => True) (declarator q type typeDims) fun d _ => d.type = type := by
  unfold declarator
  refine leads_after fun name => ?_
  extract_lets unnamed
  have hunnamed : Leads (fun _ => True) (unnamed ()) fun d _ => d.type = type := by
    refine leads_after fun dims => ?_
    extract_lets dims initialised
    have hinitialised (initial : Option ExprId) :
        Leads (fun _ => True) (initialised initial) fun d _ => d.type = type := by
      cases name with
      | some name => exact leads_pure fun _ _ => rfl
      | none => exact leads_fail _
    refine leads_after fun assigned => leads_ite (fun _ => ?_) fun _ => ?_
    · refine leads_after fun value => leads_ite (fun _ => ?_) fun _ => hinitialised _
      refine leads_after fun constant => leads_ite (fun _ => hinitialised _) fun _ => ?_
      exact leads_fail_bind _ _
    · exact leads_ite (fun _ => leads_fail_bind _ _) fun _ => hinitialised _
  exact leads_ite (fun _ => leads_after fun _ => hunnamed) fun _ => hunnamed

theorem leads_declarator (q : Qualifiers) (type : TypeRef) (typeDims : List (Option ExprId)) :
    Leads (Ready loose [type]) (declarator q type typeDims) fun d st =>
      d.type = type ∧ Ready loose [type] st := by
  intro st d st' h hrun
  refine ⟨leads_type q type typeDims st d st' trivial hrun, ?_⟩
  exact leads_same (along_declarator q type typeDims) st d st' h hrun

theorem leads_furtherDeclarators {first : Declarator} {type : TypeRef} (hfirst : first.type = type)
    (typeDims : List (Option ExprId)) :
    Leads (Ready loose [type]) (furtherDeclarators first typeDims) fun ds =>
      Ready loose (ds.map Declarator.type) := by
  let I (found : List Declarator) (st : ParserState) : Prop :=
    (∀ d ∈ found, d.type = type) ∧ Ready loose [type] st
  have htypes {found : List Declarator} {st : ParserState} (h : I found st) :
      Ready loose (found.reverse.map Declarator.type) st := by
    refine h.2.subset fun t ht => ?_
    obtain ⟨d, hd, rfl⟩ := List.mem_map.1 ht
    rw [h.1 d (List.mem_reverse.1 hd)]
    exact List.mem_singleton_self type
  refine leads_imp (leads_repeatSteps (I := I) (fun found => ?_) [first]) fun st h => ?_
  · refine leads_bind (Q := fun _ => I found) ?_ fun more => ?_
    · rintro st more st' ⟨hfound, h⟩ hrun
      exact ⟨hfound, leads_same (along_take? _) st more st' h hrun⟩
    refine leads_ite (fun _ => ?_) fun _ => leads_pure fun st h => htypes h
    refine leads_bind (Q := fun d => I (d :: found)) ?_ fun d => leads_pure fun st h => h
    rw [hfirst]
    rintro st d st' ⟨hfound, h⟩ hrun
    obtain ⟨hd, h'⟩ := leads_declarator _ _ _ st d st' h hrun
    exact ⟨List.forall_mem_cons.2 ⟨hd, hfound⟩, h'⟩
  · exact ⟨by simp [hfirst], h⟩

theorem leads_typedDeclaration (q : Qualifiers) :
    Leads (Ready loose []) (typedDeclaration q) fun ds => Ready loose (ds.map Declarator.type) := by
  refine leads_bind (leads_typeName? _) fun type => ?_
  cases type with
  | none => exact leads_fail _
  | some type =>
      refine leads_bind (leads_same Frame.advance) fun _ => ?_
      refine leads_bind (leads_same along_dimensions) fun dims => ?_
      refine leads_bind (leads_declarator q type dims.reverse) fun d => ?_
      rintro st ds st' ⟨hd, h⟩ hrun
      exact leads_furtherDeclarators hd _ st ds st' h hrun

theorem leads_addFields (ds : List Declarator) :
    Leads (Ready loose (ds.map Declarator.type)) (ds.mapM fun d => addVar d.toField) fun fields =>
      Ready (fields.reverse ++ loose) [] := by
  induction ds generalizing loose with
  | nil => exact leads_pure fun st h => h
  | cons d rest ih =>
      rw [List.mapM_cons]
      refine leads_bind (Q := fun v => Ready (v :: loose) (rest.map Declarator.type)) ?_ fun v => ?_
      · rintro st v st' ⟨howns, htypes⟩ hrun
        cases hrun
        have hd := htypes d.type List.mem_cons_self
        refine ⟨howns.addVar hd, fun t ht => ?_⟩
        exact (htypes t (List.mem_cons_of_mem _ ht)).sameFields (.addVar _ d.toField)
      · refine leads_bind ih fun vs => leads_pure fun st h => ?_
        rw [List.reverse_cons, List.append_assoc]
        exact h

theorem declared_addStruct (s : Shader) (d : StructDecl) :
    ∀ t ∈ [TypeRef.declared ⟨s.structs.size⟩], (s.addStruct d).2.Declared t := by
  intro t ht id hid
  rw [List.mem_singleton.1 ht] at hid
  cases hid
  simp [Shader.addStruct]

theorem leads_addStructure (name : Option String) (fields : List VarId) :
    Leads (Ready (fields ++ loose) []) (addStructure name fields) fun id =>
      Ready loose [.declared id] := by
  rintro st id st' ⟨howns, _⟩ hrun
  have hadded := howns.addStruct (d := { name, fields }) (by simp)
  have hdeclared := declared_addStruct st.shader { name, fields }
  cases hrun
  cases name with
  | none => exact ⟨hadded.sameFields ⟨rfl, rfl, Nat.le_refl _, fun _ _ => rfl⟩, hdeclared⟩
  | some name =>
      have hnamed := hadded.putName name (hdeclared _ (List.mem_singleton_self _) _ rfl)
      exact ⟨hnamed.sameFields ⟨rfl, rfl, Nat.le_refl _, fun _ _ => rfl⟩, hdeclared⟩

theorem leads_addBlock {name : Option String} {fields : List VarId} (block : BlockInfo)
    (hname : fields ≠ [] → name.isSome) :
    Leads (Ready (fields ++ loose) []) (addBlock name fields block) fun id =>
      Ready loose [.declared id] := by
  rintro st id st' ⟨howns, _⟩ hrun
  have hadded := howns.addStruct (d := { name, fields, block := some block }) fun _ => hname
  have hdeclared := declared_addStruct st.shader { name, fields, block := some block }
  cases hrun
  exact ⟨hadded.sameFields ⟨rfl, rfl, Nat.le_refl _, fun _ _ => rfl⟩, hdeclared⟩

/-- A block begins with its name, unless it has no fields. -/
def AtBlock (st : ParserState) : Prop :=
  name?.run st = .ok (none, st) → (at? .semicolon).run st = .ok (true, st)

theorem leads_blockStorage? (q : Qualifiers) :
    Leads (Ready loose []) (blockStorage? q) fun storage st =>
      Ready loose [] st ∧ (storage.isSome → AtBlock st) := by
  refine leads_bind_read reads_namesType? fun namesType => ?_
  refine leads_bind_look reads_name? fun name => ?_
  refine leads_bind_look (reads_at? _) fun ended => ?_
  refine leads_pure fun st ⟨⟨h, hname⟩, hended⟩ => ⟨h, fun hstorage hnone => ?_⟩
  rw [hname] at hnone
  cases hnone
  obtain ⟨storage, hstorage⟩ := Option.isSome_iff_exists.1 hstorage
  have hopens := (Option.filter_eq_some_iff.1 hstorage).2
  simp only [Option.isSome_none, Bool.false_or, Bool.and_eq_true] at hopens
  rw [hended, hopens.2.2]

theorem leads_plainDeclaration (q : Qualifiers) :
    Leads (Ready loose []) (plainDeclaration q) fun ds =>
      Ready loose (ds.map Declarator.type) := by
  refine leads_bind_read reads_name? fun name => ?_
  cases name with
  | none => exact leads_typedDeclaration q
  | some name =>
      refine leads_bind_read reads_namesType? fun namesType => ?_
      refine leads_bind_read reads_peekSecond fun second => ?_
      refine leads_ite (fun _ => ?_) fun _ => leads_typedDeclaration q
      refine leads_bind (leads_same (along_redeclareInvariant name)) fun _ => ?_
      exact leads_pure fun st h => h

theorem leads_declaratorsOf (q : Qualifiers) (type : TypeRef) :
    Leads (Ready loose [type]) (declaratorsOf q type) fun ds =>
      Ready loose (ds.map Declarator.type) := by
  refine leads_bind_read (reads_at? _) fun ended => ?_
  refine leads_ite (fun _ => leads_pure fun st h => h.subset (List.nil_subset _)) fun _ => ?_
  refine leads_bind (leads_declarator q type []) fun d => ?_
  rintro st ds st' ⟨hd, h⟩ hrun
  exact leads_furtherDeclarators hd [] st ds st' h hrun

mutual

theorem leads_declarationWithin : ∀ (fuel : Nat) (loose : List VarId),
    Leads (Ready loose []) (declarationWithin fuel) fun ds => Ready loose (ds.map Declarator.type)
  | 0, _ => leads_unfinished
  | fuel + 1, loose => by
    refine leads_bind (leads_same along_declarationQualifiers) fun q => ?_
    refine leads_bind (leads_blockStorage? q) fun storage => ?_
    cases storage with
    | some storage =>
        refine leads_imp (P := fun st => Ready loose [] st ∧ AtBlock st) ?_ fun st h =>
          ⟨h.1, h.2 rfl⟩
        refine leads_bind (leads_blockWithin fuel loose storage q) fun block => ?_
        exact leads_declaratorsOf _ (.declared block)
    | none =>
        refine leads_imp (P := Ready loose []) ?_ fun st h => h.1
        refine leads_bind_read (reads_atKeyword? _) fun opensStructure => ?_
        refine leads_ite (fun _ => ?_) fun _ => ?_
        · refine leads_bind (leads_same Frame.advance) fun _ => ?_
          refine leads_bind (leads_structureWithin fuel loose) fun id => ?_
          exact leads_declaratorsOf q (.declared id)
        refine leads_bind_read (reads_atKeyword? _) fun opensPrecision => ?_
        refine leads_ite (fun _ => ?_) fun _ => leads_plainDeclaration q
        exact leads_bind (leads_same along_defaultPrecision) fun _ => leads_pure fun st h => h

theorem leads_structureWithin : ∀ (fuel : Nat) (loose : List VarId),
    Leads (Ready loose []) (structureWithin fuel) fun id => Ready loose [.declared id]
  | 0, _ => leads_unfinished
  | fuel + 1, loose => by
    refine leads_bind_read reads_name? fun name => ?_
    have hfields : Leads (Ready loose []) (do
        let fields ← fieldsWithin fuel "structure"
        addStructure name fields) fun id => Ready loose [.declared id] :=
      leads_bind (leads_fieldsWithin fuel loose _) fun fields => leads_addStructure name fields
    refine leads_ite (fun _ => ?_) fun _ => hfields
    exact leads_bind (leads_same Frame.advance) fun _ => hfields

theorem leads_blockWithin : ∀ (fuel : Nat) (loose : List VarId) (storage : StorageClass)
    (q : Qualifiers),
    Leads (fun st => Ready loose [] st ∧ AtBlock st) (blockWithin fuel storage q) fun id =>
      Ready loose [.declared id]
  | 0, _, _, _ => leads_unfinished
  | fuel + 1, loose, storage, q => by
    refine leads_bind_look reads_name? fun name => ?_
    have hadd (fields : List VarId) (hname : fields ≠ [] → name.isSome) :
        Leads (Ready (fields ++ loose) []) (do
          let id ← addBlock name fields { storage, memory := q.memory, layout := q.layout }
          if (← name?).isNone then exposeFields fields
          return id) fun id => Ready loose [.declared id] := by
      refine leads_bind (leads_addBlock _ hname) fun id => ?_
      refine leads_bind_read reads_name? fun second => ?_
      refine leads_ite (fun _ => ?_) fun _ => leads_pure fun st h => h
      exact leads_bind (leads_same (along_exposeFields fields)) fun _ => leads_pure fun st h => h
    cases name with
    | some name =>
        refine leads_imp (P := Ready loose []) ?_ fun st h => h.1.1
        refine leads_bind (leads_same Frame.advance) fun _ => ?_
        refine leads_bind_read (reads_at? _) fun ended => ?_
        exact leads_bind (leads_fieldsWithin fuel loose _) fun fields => hadd fields fun _ => rfl
    | none =>
        refine leads_bind_look (reads_at? _) fun ended => ?_
        cases ended with
        | true =>
            refine leads_imp (P := Ready loose []) ?_ fun st h => h.1.1.1
            exact hadd [] (by simp)
        | false =>
            rintro st id st' ⟨⟨⟨_, hblock⟩, hname⟩, hended⟩ _
            rw [hblock hname] at hended
            cases hended

theorem leads_fieldsWithin : ∀ (fuel : Nat) (loose : List VarId) (block : String),
    Leads (Ready loose []) (fieldsWithin fuel block) fun fields => Ready (fields ++ loose) []
  | 0, _, _ => leads_unfinished
  | fuel + 1, loose, block => by
    refine leads_bind (leads_same (along_expect _ _)) fun _ => ?_
    refine leads_repeatSteps (I := fun found => Ready (found ++ loose) []) (fun found => ?_) []
    refine leads_bind (leads_same (along_take? _)) fun closed => ?_
    refine leads_ite (fun _ => leads_pure fun st h => ?_) fun _ => ?_
    · exact ⟨h.1.perm ((List.reverse_perm found).symm.append_right loose), h.2⟩
    refine leads_bind_read reads_atEnd fun ended => ?_
    refine leads_ite (fun _ => leads_fail_bind _ _) fun _ => ?_
    refine leads_bind (leads_declarationWithin fuel (found ++ loose)) fun names => ?_
    refine leads_bind (leads_same (along_expect _ _)) fun _ => ?_
    refine leads_bind (leads_addFields names) fun fields => leads_pure fun st h => ?_
    show Ready (fields.reverse ++ found ++ loose) [] st
    rw [List.append_assoc]
    exact h

end

/-! ### Whole shaders -/

theorem leads_externalDeclaration :
    Leads (Ready [] []) externalDeclaration fun _ => Ready [] [] := by
  refine leads_bind (leads_same (along_take? _)) fun ended => ?_
  refine leads_ite (fun _ => leads_pure fun st h => h) fun _ => ?_
  refine leads_bind_read reads_fuel fun fuel => ?_
  refine leads_bind (leads_declarationWithin fuel []) fun names => ?_
  refine leads_imp (P := Ready [] []) ?_ fun st h => h.subset (List.nil_subset _)
  refine leads_bind_read reads_peek fun kind => ?_
  split
  · refine leads_bind (leads_same Frame.advance) fun _ => ?_
    exact leads_same (along_forM along_declareGlobal _)
  · exact leads_same (along_function _ _)
  · exact leads_fail _

theorem leads_declarations : Leads (Ready [] []) declarations fun _ => Ready [] [] := by
  refine leads_repeatSteps (I := fun _ => Ready [] []) (fun _ => ?_) ()
  refine leads_bind_read reads_atEnd fun ended => ?_
  refine leads_ite (fun _ => leads_pure fun st h => h) fun _ => ?_
  exact leads_bind leads_externalDeclaration fun _ => leads_pure fun st h => h

theorem leads_source (tokens : List Token) :
    Leads (Ready [] []) (source tokens) fun _ => Ready [] [] := by
  intro st a st' h hrun
  obtain ⟨version, extensions, hrun⟩ := run_source_ok hrun
  refine leads_declarations _ a st' ?_ hrun
  exact ⟨h.1.sameFields ⟨rfl, rfl, Nat.le_refl _, fun _ _ => rfl⟩, by simp⟩

theorem leads_prelude (stage : Stage) (prototypes : List Token) :
    Leads (Ready [] []) (prelude stage prototypes) fun _ => Ready [] [] :=
  leads_bind (leads_same (along_forM along_declareHidden _)) fun _ => leads_source prototypes

end Parse

namespace Shader

theorem sameFields_linkPrototypes (s : Shader) : s.SameFields s.linkPrototypes := by
  unfold linkPrototypes
  rw [← Array.foldl_toList]
  refine List.foldlRecOn (motive := s.SameFields) _ _ (.refl s) fun linked h id _ => ?_
  split
  · exact h
  split
  · exact h.trans ⟨rfl, rfl, Nat.le_refl _, fun _ _ => rfl⟩
  · exact h

theorem ownsFields_initial (stage : Stage) : ({ stage } : Shader).OwnsFields [] where
  apart := List.nodup_nil
  known := by simp [ownedFields]
  declared := by simp
  earlier t f hf := by cases hf
  named t h := by cases h
  names := by simp

/-- At the end no field is loose. -/
theorem Accepted.ownsFields {s : Shader} (h : s.Accepted) : s.OwnsFields [] := by
  obtain ⟨prototypes, stage, tokens, hshader⟩ := h
  obtain ⟨st, hrun, rfl⟩ := Parse.exists_run_of_shaderWith hshader
  have hwhole := Parse.leads_bind (Parse.leads_prelude stage prototypes) fun _ =>
    Parse.leads_source tokens
  have hready := hwhole _ _ _ ⟨ownsFields_initial stage, by simp⟩ hrun
  exact (hready.1.sameFields (sameFields_linkPrototypes _)).sameFields
    (.of_sameRest (sameRest_bindCalls _ _))

end Shader

end ShaderBridge
