import ShaderBridge.Proofs.Constant.Run
import ShaderBridge.Proofs.Parse.Declaration
import Mathlib.Data.List.Nodup

namespace ShaderBridge

namespace Shader

/-- Nothing changes about structures, and no variable changes its type. -/
structure SameFields (s s' : Shader) : Prop where
  structs : s'.structs = s.structs
  names : s'.structureNames = s.structureNames
  size : s.vars.size ≤ s'.vars.size
  type : ∀ v : VarId, v.index < s.vars.size → (s'.var v).type = (s.var v).type

/-- A type of the language, or one of a structure that is there. -/
def Declared (s : Shader) (t : TypeRef) : Prop :=
  ∀ id, t = .declared id → id.index < s.structs.size

def ownedFields (s : Shader) : List VarId :=
  s.structs.toList.flatMap StructDecl.fields

structure OwnsFields (s : Shader) (loose : List VarId) : Prop where
  apart : (loose ++ s.ownedFields).Nodup
  known : ∀ f ∈ loose ++ s.ownedFields, f.index < s.vars.size
  declared : ∀ f ∈ loose, s.Declared (s.var f).type
  earlier : ∀ t, ∀ f ∈ (s.struct t).fields, ∀ u, (s.var f).type = .declared u → u.index < t.index
  named : ∀ t, (s.struct t).block.isSome → (s.struct t).fields ≠ [] → (s.struct t).name.isSome
  names : ∀ entry ∈ s.structureNames, entry.2.index < s.structs.size

variable {s s' s'' : Shader} {loose : List VarId}

theorem mem_ownedFields {t : StructId} {f : VarId} (h : f ∈ (s.struct t).fields) :
    f ∈ s.ownedFields := by
  unfold struct at h
  rw [Array.getD_eq_getD_getElem?] at h
  cases hget : s.structs[t.index]? with
  | none =>
      rw [hget] at h
      cases h
  | some d =>
      rw [hget] at h
      exact List.mem_flatMap.2 ⟨d, Array.mem_toList_iff.2 (Array.mem_of_getElem? hget), h⟩

namespace SameFields

theorem refl (s : Shader) : s.SameFields s :=
  ⟨rfl, rfl, Nat.le_refl _, fun _ _ => rfl⟩

theorem trans (h : s.SameFields s') (h' : s'.SameFields s'') : s.SameFields s'' where
  structs := h'.structs.trans h.structs
  names := h'.names.trans h.names
  size := Nat.le_trans h.size h'.size
  type v hv := by rw [h'.type v (Nat.lt_of_lt_of_le hv h.size), h.type v hv]

theorem struct (h : s.SameFields s') (t : StructId) : s'.struct t = s.struct t := by
  unfold Shader.struct
  rw [h.structs]

theorem of_sameRest (h : s.SameRest s') : s.SameFields s' := by
  rcases h with ⟨exprs, rfl⟩
  exact ⟨rfl, rfl, Nat.le_refl _, fun _ _ => rfl⟩

theorem addVar (s : Shader) (v : Variable) : s.SameFields (s.addVar v).2 where
  structs := rfl
  names := rfl
  size := by simp [Shader.addVar]
  type u hu := by simp [Shader.addVar, var, Array.getElem?_push, Nat.ne_of_lt hu]

theorem truncate (h : s.SameFields s') (exprs : Nat) :
    s.SameFields (s'.truncate exprs s.vars.size) where
  structs := h.structs
  names := h.names
  size := by simp [Shader.truncate, h.size]
  type v hv := by
    have htype := h.type v hv
    unfold var at htype ⊢
    rw [← htype]
    simp [Shader.truncate, Nat.min_eq_left h.size, hv,
      Array.getElem?_eq_getElem (Nat.lt_of_lt_of_le hv h.size)]

theorem setFlags (s : Shader) (id : VarId) (f : VarFlags → VarFlags) :
    s.SameFields (s.modifyVar id fun v => { v with flags := f v.flags }) where
  structs := rfl
  names := rfl
  size := by simp [modifyVar]
  type v hv := by
    simp only [modifyVar, var, Array.getD_eq_getD_getElem?, Array.getElem?_modify]
    split
    · rw [Array.getElem?_eq_getElem hv]
      rfl
    · rfl

end SameFields

theorem Declared.sameFields {t : TypeRef} (h : s.Declared t) (hs : s.SameFields s') :
    s'.Declared t := by
  intro id hid
  rw [hs.structs]
  exact h id hid

theorem mem_putName {γ : Type} {names : List (String × γ)} {name : String} {a : γ}
    {entry : String × γ} (h : entry ∈ putName names name a) :
      entry = (name, a) ∨ entry ∈ names := by
  unfold putName at h
  split at h
  · obtain ⟨old, hold, rfl⟩ := List.mem_map.1 h
    split
    · exact .inl rfl
    · exact .inr hold
  · rcases List.mem_append.1 h with hold | hnew
    · exact .inr hold
    · rw [List.mem_singleton.1 hnew]
      exact .inl rfl

namespace OwnsFields

theorem sameFields (h : s.OwnsFields loose) (hs : s.SameFields s') : s'.OwnsFields loose := by
  have howned : s'.ownedFields = s.ownedFields := by
    unfold ownedFields
    rw [hs.structs]
  have htype {f : VarId} (hf : f ∈ loose ++ s.ownedFields) : (s'.var f).type = (s.var f).type :=
    hs.type f (h.known f hf)
  constructor
  · rw [howned]
    exact h.apart
  · intro f hf
    rw [howned] at hf
    exact Nat.lt_of_lt_of_le (h.known f hf) hs.size
  · intro f hf
    rw [htype (List.mem_append_left _ hf)]
    exact (h.declared f hf).sameFields hs
  · intro t f hf u hu
    rw [hs.struct] at hf
    rw [htype (List.mem_append_right _ (mem_ownedFields hf))] at hu
    exact h.earlier t f hf u hu
  · intro t
    rw [hs.struct]
    exact h.named t
  · rw [hs.names, hs.structs]
    exact h.names

theorem perm (h : s.OwnsFields loose) {loose' : List VarId} (hperm : loose.Perm loose') :
    s.OwnsFields loose' where
  apart := (hperm.append_right _).nodup_iff.1 h.apart
  known f hf := h.known f ((hperm.append_right _).symm.subset hf)
  declared f hf := h.declared f (hperm.symm.subset hf)
  earlier := h.earlier
  named := h.named
  names := h.names

theorem addVar (h : s.OwnsFields loose) {v : Variable} (hv : s.Declared v.type) :
    (s.addVar v).2.OwnsFields (⟨s.vars.size⟩ :: loose) := by
  have hsame := SameFields.addVar s v
  have hadded := h.sameFields hsame
  have hnew : ((s.addVar v).2.var ⟨s.vars.size⟩) = v := by
    simp [Shader.addVar, var]
  constructor
  · refine List.nodup_cons.2 ⟨?_, hadded.apart⟩
    intro hmem
    exact Nat.lt_irrefl _ (h.known _ hmem)
  · intro f hf
    rcases List.mem_cons.1 hf with rfl | hf
    · simp [Shader.addVar]
    · exact hadded.known f hf
  · intro f hf
    rcases List.mem_cons.1 hf with rfl | hf
    · rw [hnew]
      exact hv
    · exact hadded.declared f hf
  · exact hadded.earlier
  · exact hadded.named
  · exact hadded.names

theorem addStruct {d : StructDecl} (h : s.OwnsFields (d.fields ++ loose))
    (hnamed : d.block.isSome → d.fields ≠ [] → d.name.isSome) :
    (s.addStruct d).2.OwnsFields loose := by
  have howned : (s.addStruct d).2.ownedFields = s.ownedFields ++ d.fields := by
    simp [ownedFields, Shader.addStruct]
  have hperm :
      (loose ++ (s.ownedFields ++ d.fields)).Perm (d.fields ++ loose ++ s.ownedFields) := by
    rw [← List.append_assoc, List.append_assoc d.fields]
    exact List.perm_append_comm
  have hstruct (t : StructId) :
      (s.addStruct d).2.struct t = if t.index = s.structs.size then d else s.struct t := by
    simp only [Shader.addStruct, struct, Array.getD_eq_getD_getElem?, Array.getElem?_push]
    split <;> rfl
  have hsize : (s.addStruct d).2.structs.size = s.structs.size + 1 := by
    simp [Shader.addStruct]
  constructor
  · rw [howned]
    exact hperm.nodup_iff.2 h.apart
  · intro f hf
    rw [howned] at hf
    exact h.known f (hperm.subset hf)
  · intro f hf id hid
    rw [hsize]
    exact Nat.lt_succ_of_lt (h.declared f (List.mem_append_right _ hf) id hid)
  · intro t f hf u hu
    rw [hstruct] at hf
    split at hf
    · next ht =>
        rw [ht]
        exact h.declared f (List.mem_append_left _ hf) u hu
    · exact h.earlier t f hf u hu
  · intro t
    rw [hstruct]
    split
    · exact hnamed
    · exact h.named t
  · intro entry hentry
    rw [hsize]
    exact Nat.lt_succ_of_lt (h.names entry hentry)

theorem putName (h : s.OwnsFields loose) (name : String) {id : StructId}
    (hid : id.index < s.structs.size) :
    { s with structureNames := Shader.putName s.structureNames name id }.OwnsFields loose where
  apart := h.apart
  known := h.known
  declared := h.declared
  earlier := h.earlier
  named := h.named
  names entry hentry := by
    rcases mem_putName hentry with rfl | hold
    · exact hid
    · exact h.names entry hold

end OwnsFields

theorem index_lt_of_mem_fields {id : StructId} {field : VarId}
    (hfield : field ∈ (s.struct id).fields) : id.index < s.structs.size := by
  by_contra h
  unfold struct at hfield
  rw [Array.getD_eq_getD_getElem?, Array.getElem?_eq_none (Nat.le_of_not_lt h)] at hfield
  cases hfield

theorem struct_eq_getElem {t : StructId} (h : t.index < s.structs.size) :
    s.struct t = s.structs.toList.get ⟨t.index, h⟩ := by
  simp [struct, Array.getD_eq_getD_getElem?, h]

theorem OwnsFields.owner_unique {loose : List VarId} (hs : s.OwnsFields loose) {t u : StructId}
    {f : VarId} (ht : f ∈ (s.struct t).fields) (hu : f ∈ (s.struct u).fields) : t = u := by
  have hdisjoint := List.pairwise_iff_getElem.1
    (List.nodup_flatMap.1 (List.nodup_append.1 hs.apart).2.1).2
  have htlt := index_lt_of_mem_fields ht
  have hult := index_lt_of_mem_fields hu
  rw [struct_eq_getElem htlt] at ht
  rw [struct_eq_getElem hult] at hu
  rcases Nat.lt_trichotomy t.index u.index with hlt | heq | hgt
  · exact (hdisjoint _ _ _ _ hlt ht hu).elim
  · rcases t with ⟨t⟩
    rcases u with ⟨u⟩
    exact congrArg StructId.mk heq
  · exact (hdisjoint _ _ _ _ hgt hu ht).elim

theorem OwnsFields.nodup_fields {loose : List VarId} (hs : s.OwnsFields loose) (t : StructId) :
    (s.struct t).fields.Nodup := by
  by_cases ht : t.index < s.structs.size
  · rw [struct_eq_getElem ht]
    exact (List.nodup_flatMap.1 (List.nodup_append.1 hs.apart).2.1).1 _ (List.getElem_mem _)
  · unfold struct
    rw [Array.getD_eq_getD_getElem?, Array.getElem?_eq_none (Nat.le_of_not_lt ht)]
    exact List.nodup_nil

end Shader

namespace Parse

variable {α β : Type}

instance : Frame fun st st' => st.shader.SameFields st'.shader where
  refl st := .refl st.shader
  trans h h' := h.trans h'
  advance := by
    intro st a st' h
    unfold advance at h
    cases h
    dsimp only
    split
    · split
      · exact .refl _
      · exact .refl _
    · exact .refl _

theorem sameFields_addExpr (e : Expr) :
    Along (fun st st' => st.shader.SameFields st'.shader) (addExpr e) := by
  intro st a st' h
  cases h
  exact .of_sameRest (.addExpr _ e)

instance : DeclarationFrame fun st st' => st.shader.SameFields st'.shader where
  addExpr e _ := sameFields_addExpr e
  variableNamed name st _ := along_variableNamed_of (fun v => sameFields_addExpr (.var v)) name st
  evaluate id := by
    intro st a st' h
    obtain ⟨r, st₁, hrun, h⟩ := run_bind_ok.1 h
    cases hrun
    have hresult : Reads (match ((Folding.evaluate id).run.run st.shader).1 with
        | .ok id => (return id : ParseM ExprId)
        | .error e => do failAt (← span) (.folding e)) := by
      split
      · exact reads_pure _
      · exact reads_bind reads_span fun _ => reads_failAt _ _
    rw [hresult _ a st' h]
    exact .of_sameRest (Folding.changesExprs_evaluate id st.shader)
  addCall name args := by
    intro st a st' h
    cases h
    exact .of_sameRest (.addExpr _ _)
  addStmt t := by
    intro st a st' h
    cases h
    exact ⟨rfl, rfl, Nat.le_refl _, fun _ _ => rfl⟩
  setStmt id t := by
    intro st a st' h
    cases h
    exact ⟨rfl, rfl, Nat.le_refl _, fun _ _ => rfl⟩
  addVar v := by
    intro st a st' h
    cases h
    exact .addVar _ v
  declare id := by
    intro st a st' h
    cases h
    dsimp only
    split
    · exact .refl _
    · exact .refl _
  inScope := along_inScope_of (fun st a st' h => by cases h; exact .refl _)
    fun st a st' h => by cases h; exact .refl _
  attempt hpushes hrule := by
    intro st r st' h
    obtain ⟨st₁, hrun, rfl⟩ := run_attempt_ok hpushes h
    have hsame := hrule _ _ _ hrun
    cases r with
    | some a => exact hsame
    | none => exact hsame.truncate _
  setFlags id f := by
    intro st a st' h
    cases h
    exact .setFlags _ id f
  addGlobal v := by
    intro st a st' h
    obtain ⟨var, st₁, hvar, h⟩ := run_bind_ok.1 h
    cases hvar
    cases h
    refine (Shader.SameFields.addVar st.shader v).trans ?_
    dsimp only
    split
    · exact ⟨rfl, rfl, Nat.le_refl _, fun _ _ => rfl⟩
    · exact ⟨rfl, rfl, Nat.le_refl _, fun _ _ => rfl⟩
  addFunc f := by
    intro st a st' h
    cases h
    exact ⟨rfl, rfl, Nat.le_refl _, fun _ _ => rfl⟩

end Parse

end ShaderBridge
