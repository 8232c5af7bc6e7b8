import ShaderBridge.Proofs.Layout.Component
import ShaderBridge.Proofs.Lowering.Matching

namespace ShaderBridge

open Hlsl

open scoped PlainNumbers

/-! ## Letters -/

/-- The letters of the components of a vector. -/
def componentSpellings : List String :=
  ["xyzw", "rgba", "stpq"]

/-- A swizzle spells the components that it selects. Its letters are of one spelling. -/
def SpellsComponents (name : String) (letters : List Nat) : Prop :=
  ∃ spelling ∈ componentSpellings, name.toList.map some = letters.map fun k => spelling.toList[k]?

section

variable {name : String} {letters : List Nat}

theorem SpellsComponents.length_eq (h : SpellsComponents name letters) :
    name.length = letters.length := by
  obtain ⟨_, _, heq⟩ := h
  rw [← String.length_toList, ← List.length_map (f := some), heq, List.length_map]

theorem componentIndex_of_spelling {spelling : String} (h : spelling ∈ componentSpellings) {k : Nat}
    {c : Char} (hc : spelling.toList[k]? = some c) : componentIndex c = k := by
  have hlength : ∀ spelling ∈ componentSpellings, spelling.toList.length = 4 := by decide
  have hletters : ∀ spelling ∈ componentSpellings, ∀ k < 4,
      spelling.toList[k]?.map componentIndex = some k := by decide
  obtain ⟨hk, _⟩ := List.getElem?_eq_some_iff.1 hc
  rw [hlength spelling h] at hk
  have hletter := hletters spelling h k hk
  rw [hc, Option.map_some, Option.some.injEq] at hletter
  exact hletter

theorem SpellsComponents.map_componentIndex (h : SpellsComponents name letters) :
    name.toList.map componentIndex = letters := by
  obtain ⟨spelling, hspelling, heq⟩ := h
  generalize name.toList = chars at heq
  induction letters generalizing chars with
  | nil =>
      rw [List.map_nil, List.map_eq_nil_iff] at heq
      rw [heq, List.map_nil]
  | cons k rest ih =>
      cases chars with
      | nil => cases heq
      | cons c chars =>
          rw [List.map_cons, List.map_cons, List.cons.injEq] at heq
          rw [List.map_cons, componentIndex_of_spelling hspelling heq.1.symm, ih chars heq.2]

theorem SpellsComponents.swizzleOffset_eq (h : SpellsComponents name letters) (t : BuiltinType) :
    Shader.swizzleOffset t name = letters.headD 0 * builtinSize t.component := by
  rw [Shader.swizzleOffset, ← h.map_componentIndex, List.headD_eq_head?_getD, List.head?_map]

end

namespace Shader

variable (s : Shader)

/-- An expression selects components of `base`, a vector of a given size, by swizzles one behind the
other. `first` counts the first letter of each. -/
inductive Picks (base : ExprId) (size : Nat) : ExprId → List Nat → Nat → Prop where
  | vector : Picks base size base (List.range size) 0
  | swizzle {e operand : ExprId} {name : String} {picked letters : List Nat} {first : Nat} :
      Picks base size operand picked first → s.expr e = .member operand name none →
      SpellsComponents name letters → letters ≠ [] → (∀ k ∈ letters, k < picked.length) →
      Picks base size e (letters.map fun k => picked.getD k 0) (first + letters.headD 0)

/-- The column of a matrix that is a field by itself, and no array. -/
def IsColumn (f : VarId) (index e : ExprId) : Prop :=
  ∃ operand, s.expr e = .subscript operand index ∧ s.namedVar? operand = some f ∧
    (s.var f).dims = []

/-- Nothing is selected by a swizzle on the way to an expression. -/
inductive Unswizzled (f : VarId) : ExprId → Prop where
  | field {e : ExprId} : s.namedVar? e = some f → Unswizzled f e
  | subscript {e operand index : ExprId} :
      Unswizzled f operand → s.expr e = .subscript operand index → Unswizzled f e
  | member {e operand : ExprId} {name : String} {g : VarId} :
      Unswizzled f operand → s.expr e = .member operand name (some g) → Unswizzled f e

/-- A vector of components `c` that is stored at an address goes, component by component, to the
picked components of another, and to no other byte. -/
structure WritesExactly (address : Int) (c : Scalar) (picked : List Nat) (whole : Region) :
    Prop where
  each : ∀ k (hk : k < picked.length), ∀ q < scalarSize c,
    address + (k * storedSize c + q : Nat) = whole.place (picked[k] * scalarSize c + q)
  only : ∀ b < picked.length * storedSize c, ∃ k ∈ picked, ∃ q < scalarSize c,
    address + (b : Nat) = whole.place (k * scalarSize c + q)

variable {s}

/-! ## Depth -/

section

variable {value : ExprId → Nat} {e : ExprId} {r : Region} {depth depth' : Nat}

theorem regionWithin?_mono (hle : depth ≤ depth') (h : s.regionWithin? value depth e = some r) :
    s.regionWithin? value depth' e = some r := by
  induction depth generalizing depth' e r with
  | zero => cases h
  | succ depth ih =>
      obtain ⟨depth', rfl⟩ := Nat.exists_eq_succ_of_ne_zero (Nat.ne_zero_of_lt hle)
      have hstep {operand : ExprId} {f : Region → Option Region}
          (h : s.regionWithin? value depth operand >>= f = some r) :
          s.regionWithin? value depth' operand >>= f = some r := by
        obtain ⟨whole, hwhole, hr⟩ := Option.bind_eq_some_iff.1 h
        exact Option.bind_eq_some_iff.2 ⟨whole, ih (Nat.le_of_succ_le_succ hle) hwhole, hr⟩
      unfold regionWithin? at h ⊢
      split at h
      · exact h
      · split at h
        · exact hstep h
        · exact hstep h
        · exact hstep h
        · cases h

theorem accessWithin?_mono {buffers : List ByteBuffer} {a : Access} (hle : depth ≤ depth')
    (h : s.accessWithin? buffers depth e = some a) : s.accessWithin? buffers depth' e = some a := by
  induction depth generalizing depth' e a with
  | zero => cases h
  | succ depth ih =>
      obtain ⟨depth', rfl⟩ := Nat.exists_eq_succ_of_ne_zero (Nat.ne_zero_of_lt hle)
      have hstep {operand : ExprId} {f : Access → Option Access}
          (h : s.accessWithin? buffers depth operand >>= f = some a) :
          s.accessWithin? buffers depth' operand >>= f = some a := by
        obtain ⟨whole, hwhole, hr⟩ := Option.bind_eq_some_iff.1 h
        exact Option.bind_eq_some_iff.2 ⟨whole, ih (Nat.le_of_succ_le_succ hle) hwhole, hr⟩
      unfold accessWithin? at h ⊢
      split at h
      · exact h
      · split at h
        · exact hstep h
        · exact hstep h
        · cases h

end

/-! ## Types of regions -/

section

variable {value : ExprId → Nat} {e : ExprId} {r whole : Region} {depth : Nat}

theorem elementType?_of_elementRegion? {k : Nat} (h : s.elementRegion? whole k = some r) :
    elementType? ⟨whole.type, whole.dims.length⟩ = some ⟨r.type, r.dims.length⟩ := by
  cases hdims : whole.dims with
  | cons d dims =>
      unfold elementRegion? at h
      rw [hdims] at h
      dsimp only at h
      split at h
      · cases h
        rfl
      · cases h
  | nil =>
      cases htype : whole.type with
      | declared id =>
          unfold elementRegion? at h
          rw [hdims, htype] at h
          cases h
      | builtin b =>
          obtain ⟨part, hpart⟩ :
              ∃ part, elementType? ⟨.builtin b, 0⟩ = some ⟨.builtin part, 0⟩ := by
            cases b <;> exact ⟨_, rfl⟩
          rw [(elementRegion?_builtin hdims htype hpart h).1]
          exact hpart

theorem elementRegion?_declared {id : StructId} (hdims : whole.dims = [])
    (htype : whole.type = .declared id) (k : Nat) : s.elementRegion? whole k = none := by
  unfold elementRegion?
  rw [hdims, htype]

theorem exists_of_swizzle? {name : String} (h : whole.swizzle? name = some r) :
    ∃ b vector, whole.dims = [] ∧ whole.type = .builtin b ∧
      b.component.vectorOf? name.length = some vector ∧ r.type = .builtin vector ∧ r.dims = [] ∧
      r.resource = whole.resource := by
  unfold Region.swizzle? at h
  split at h
  · next b hdims htype =>
      dsimp only at h
      split at h
      · obtain ⟨vector, hvector, rfl⟩ := Option.map_eq_some_iff.1 h
        exact ⟨b, vector, hdims, htype, hvector, rfl, rfl, rfl⟩
      · cases h
  · cases h

theorem resource_of_elementRegion? {k : Nat} (h : s.elementRegion? whole k = some r) :
    r.resource = whole.resource := by
  unfold elementRegion? at h
  repeat' split at h
  all_goals
    cases h
    try rfl

theorem exists_of_memberRegion? {g : VarId} (h : s.memberRegion? whole g = some r) :
    (∃ id, whole.dims = [] ∧ whole.type = .declared id) ∧ r.type = (s.var g).type ∧
      r.dims = (s.var g).dims ∧ r.resource = whole.resource := by
  unfold memberRegion? at h
  split at h
  · next id hdims htype =>
      split at h
      · cases h
        exact ⟨⟨id, hdims, htype⟩, rfl, rfl, rfl⟩
      · cases h
  · cases h

theorem typeWithin?_of_regionWithin? (h : s.regionWithin? value depth e = some r) {depth' : Nat}
    (hle : depth ≤ depth') : s.typeWithin? depth' e = some ⟨r.type, r.dims.length⟩ := by
  induction depth generalizing depth' e r with
  | zero => cases h
  | succ depth ih =>
      obtain ⟨depth', rfl⟩ := Nat.exists_eq_succ_of_ne_zero (Nat.ne_zero_of_lt hle)
      have hle := Nat.le_of_succ_le_succ hle
      unfold regionWithin? at h
      split at h
      · next buffer hbuffer =>
          cases h
          obtain ⟨v, hv, hfind⟩ := Option.bind_eq_some_iff.1 hbuffer
          rw [varType_of_namedVar? hv, ← field_of_find? hfind]
          rfl
      · split at h
        · next operand index he =>
            obtain ⟨whole, hwhole, hr⟩ := Option.bind_eq_some_iff.1 h
            rw [typeWithin?_subscript he (ih hwhole hle)]
            exact elementType?_of_elementRegion? hr
        · next operand name g he =>
            obtain ⟨whole, hwhole, hr⟩ := Option.bind_eq_some_iff.1 h
            obtain ⟨_, htype, hdims, _⟩ := exists_of_memberRegion? hr
            rw [typeWithin?, he, htype, hdims]
            rfl
        · next operand name he =>
            obtain ⟨whole, hwhole, hr⟩ := Option.bind_eq_some_iff.1 h
            obtain ⟨b, vector, _, htype, hvector, hrtype, hrdims, _⟩ := exists_of_swizzle? hr
            rw [typeWithin?, he]
            dsimp only
            rw [ih hwhole hle, htype, hrtype, hrdims]
            simp [TypeRef.builtin?, hvector]
        · cases h

theorem baseTypeOf?_of_regionWithin? (h : s.regionWithin? value depth e = some r)
    (hle : depth ≤ s.exprs.size + 1) : s.baseTypeOf? e = some r.type := by
  unfold baseTypeOf? typeOf?
  rw [typeWithin?_of_regionWithin? h hle]
  rfl

/-- What an expression names of a storage field is accessed in the resource of the field. -/
theorem exists_access_of_regionWithin? (h : s.regionWithin? value depth e = some r)
    (hle : depth ≤ s.exprs.size + 1) :
    ∃ a, s.accessWithin? s.storageFields depth e = some a ∧ a.buffer.resource = r.resource := by
  induction depth generalizing e r with
  | zero => cases h
  | succ depth ih =>
      have hle' : depth ≤ s.exprs.size + 1 := Nat.le_of_succ_le hle
      unfold regionWithin? at h
      split at h
      · next buffer hbuffer =>
          cases h
          exact ⟨_, accessWithin?_field hbuffer depth, rfl⟩
      · next hnone =>
        split at h
        · next operand index he =>
            obtain ⟨whole, hwhole, hr⟩ := Option.bind_eq_some_iff.1 h
            obtain ⟨a, ha, hresource⟩ := ih hwhole hle'
            refine ⟨_, accessWithin?_subscript he hnone ha, ?_⟩
            rw [resource_of_elementRegion? hr]
            exact hresource
        · next operand name g he =>
            obtain ⟨whole, hwhole, hr⟩ := Option.bind_eq_some_iff.1 h
            obtain ⟨a, ha, hresource⟩ := ih hwhole hle'
            obtain ⟨⟨id, _, htype⟩, _, _, heq⟩ := exists_of_memberRegion? hr
            have hbase := baseTypeOf?_of_regionWithin? hwhole hle'
            rw [htype] at hbase
            refine ⟨_, accessWithin?_member he hnone hbase ha, ?_⟩
            rw [heq]
            exact hresource
        · next operand name he =>
            obtain ⟨whole, hwhole, hr⟩ := Option.bind_eq_some_iff.1 h
            obtain ⟨a, ha, hresource⟩ := ih hwhole hle'
            obtain ⟨b, _, _, htype, _, _, _, heq⟩ := exists_of_swizzle? hr
            have hbase := baseTypeOf?_of_regionWithin? hwhole hle'
            rw [htype] at hbase
            refine ⟨_, accessWithin?_swizzle he hnone hbase ha, ?_⟩
            rw [heq]
            exact hresource
        · cases h

end

/-! ## Picked components -/

theorem builtinSize_scalar (c : Scalar) : builtinSize (.scalar c) = scalarSize c := by
  simp [builtinSize, BuiltinType.component, BuiltinType.matrixDims?, BuiltinType.matrixExtents?,
    BuiltinType.vectorSize]

theorem builtinSize_vector (c : Scalar) (m : Extent) :
    builtinSize (.vector c m) = m.toNat * scalarSize c := by
  rw [BuiltinType.builtinSize_of_parts? rfl, builtinSize_scalar]

section

variable {value : ExprId → Nat} {base e : ExprId} {c : Scalar} {m : Extent} {picked : List Nat}
  {first depth : Nat} {r : Region}

theorem Picks.ne_nil (h : s.Picks base m.toNat e picked first) : picked ≠ [] := by
  cases h with
  | vector => cases m <;> decide
  | swizzle _ _ _ hne => exact mt List.map_eq_nil_iff.1 hne

theorem Picks.lt (h : s.Picks base m.toNat e picked first) : ∀ k ∈ picked, k < m.toNat := by
  induction h with
  | vector => exact fun k hk => List.mem_range.1 hk
  | @swizzle e operand name picked letters first h he hspells hne hlt ih =>
      intro k hk
      obtain ⟨j, hj, rfl⟩ := List.mem_map.1 hk
      rw [List.getD_eq_getElem?_getD, List.getElem?_eq_getElem (hlt j hj), Option.getD_some]
      exact ih _ (List.getElem_mem _)

theorem Picks.exists_access (h : s.Picks base m.toNat e picked first)
    (hbase : s.baseTypeOf? base = some (.builtin (.vector c m)))
    (hr : s.regionWithin? value depth e = some r) (hle : depth ≤ s.exprs.size + 1) :
    ∃ t a a', (BuiltinType.scalar c).vectorOf? picked.length = some t ∧
      s.baseTypeOf? e = some (.builtin t) ∧
      (∃ whole, s.regionWithin? value depth base = some whole) ∧
      s.accessWithin? s.storageFields depth base = some a ∧
      s.accessWithin? s.storageFields depth e = some a' ∧ a'.buffer = a.buffer ∧
      a'.address (fun index => value index) =
        a.address (fun index => value index) + (first * scalarSize c : Nat) := by
  induction h generalizing depth r with
  | vector =>
      obtain ⟨a, ha, _⟩ := exists_access_of_regionWithin? hr hle
      refine ⟨.vector c m, a, a, ?_, hbase, ⟨r, hr⟩, ha, ha, rfl, ?_⟩
      · rw [List.length_range]
        cases m <;> rfl
      · rw [Nat.zero_mul]
        simp
  | @swizzle e operand name picked letters first h he hspells hne hlt ih =>
      have hnone : s.bufferOf? s.storageFields e = none := by
        unfold bufferOf? namedVar?
        rw [he]
        rfl
      cases depth with
      | zero => cases hr
      | succ depth =>
          have htype := baseTypeOf?_of_regionWithin? hr hle
          rw [regionWithin?, hnone, he] at hr
          obtain ⟨whole, hwhole, hr⟩ := Option.bind_eq_some_iff.1 hr
          obtain ⟨t, a, a', ht, hoperand, ⟨vector, hvector⟩, ha, ha', hbuffer, haddress⟩ :=
            ih hwhole (Nat.le_of_succ_le hle)
          obtain ⟨b, part, _, hwholetype, hpart, hrtype, _, _⟩ := exists_of_swizzle? hr
          have hcomponent : t.component = .scalar c := component_of_vectorOf? (t := .scalar c) ht
          have hsame : t = b := by
            have heq := baseTypeOf?_of_regionWithin? hwhole (Nat.le_of_succ_le hle)
            rw [hoperand, hwholetype, Option.some.injEq] at heq
            exact TypeRef.builtin.inj heq
          subst hsame
          rw [hcomponent, hspells.length_eq] at hpart
          refine ⟨part, a, _, ?_, ?_, ⟨vector, regionWithin?_mono (Nat.le_succ _) hvector⟩,
            accessWithin?_mono (Nat.le_succ _) ha, accessWithin?_swizzle he hnone hoperand ha',
            hbuffer, ?_⟩
          · rw [List.length_map]
            exact hpart
          · rw [htype, hrtype]
          · rw [address_offset, haddress, hspells.swizzleOffset_eq, hcomponent,
              builtinSize_scalar, Nat.add_mul]
            push_cast
            omega

end

/-! ## Vectors in fields -/

section

variable {value : ExprId → Nat} {f : VarId} {buffer : ByteBuffer} {e : ExprId} {r : Region}
  {t : TypeRef} {dims : List (Option ExprId)} {fixed : ExprId → Int} {i : Int}
  {n start depth : Nat} {index : ExprId}

theorem IsColumn.exists_region (hcolumn : s.IsColumn f index e)
    (hbuffer : s.storageFields.find? (fun b => b.field == f) = some buffer)
    (hr : s.regionWithin? value depth e = some r) :
    s.elementRegion? (s.fieldRegion buffer) (value index) = some r := by
  obtain ⟨operand, he, hnamed, hdims⟩ := hcolumn
  have hnone : s.bufferOf? s.storageFields e = none := by
    unfold bufferOf? namedVar?
    rw [he]
    rfl
  obtain ⟨depth, whole, hwhole, hr⟩ := exists_region_of_subscript he hnone hr
  cases depth with
  | zero => cases hwhole
  | succ depth =>
      rw [regionWithin?, bufferOf?_of_namedVar? hnamed, hbuffer] at hwhole
      cases hwhole
      exact hr

theorem Unswizzled.of_subscript {operand : ExprId} (h : s.Unswizzled f e)
    (he : s.expr e = .subscript operand index) : s.Unswizzled f operand := by
  cases h with
  | field hnamed => simp [namedVar?, he] at hnamed
  | subscript h he' =>
      rw [he] at he'
      cases he'
      exact h
  | member _ he' =>
      rw [he] at he'
      cases he'

theorem Unswizzled.of_member {operand : ExprId} {name : String} {g : VarId} (h : s.Unswizzled f e)
    (he : s.expr e = .member operand name (some g)) (hne : g ≠ f) : s.Unswizzled f operand := by
  cases h with
  | field hnamed =>
      simp only [namedVar?, he, Option.some.injEq] at hnamed
      exact absurd hnamed hne
  | subscript _ he' =>
      rw [he] at he'
      cases he'
  | member h he' =>
      rw [he] at he'
      cases he'
      exact h

theorem Selects.selectsDirectly_or (hf : s.isStorageField f)
    (h : s.Selects fixed f i n e t dims start) (hun : s.Unswizzled f e)
    (hr : s.regionWithin? value depth e = some r) :
    s.SelectsDirectly f e ∨ dims = [] ∧ ∃ b, t = .builtin b ∧ b.isMatrix = false ∧
      (b.isVector = false ∨ ∃ index, s.IsColumn f index e) := by
  obtain ⟨buffer, hbuffer⟩ := exists_find?_of_isStorageField hf
  have hinner {e : ExprId} {n start : Nat} {t : TypeRef} {dims : List (Option ExprId)}
      (h : s.Selects fixed f i (n + 1) e t dims start) : s.namedVar? e ≠ some f := by
    intro hnamed
    rw [h.isStorageField_eq_false hnamed] at hf
    cases hf
  induction h generalizing depth r with
  | whole hnamed => exact .inl (.field hnamed)
  | @element e operand index d dims he hnamed _ hdims =>
      exact .inl (.subscript (.field hnamed) he fun _ => hdims ▸ List.cons_ne_nil d dims)
  | @entry e operand index t he hnamed _ hdims htype =>
      have hcolumn : s.IsColumn f index e := ⟨operand, he, hnamed, hdims⟩
      have hr := hcolumn.exists_region hbuffer hr
      refine .inr ⟨rfl, ?_⟩
      cases hvar : (s.var f).type with
      | declared id =>
          -- There are no elements of a structure.
          have hfield := field_of_find? hbuffer
          subst hfield
          rw [elementRegion?_declared hdims hvar] at hr
          cases hr
      | builtin b =>
          rw [hvar] at htype
          cases b <;> cases htype <;> exact ⟨_, rfl, rfl, .inr ⟨index, hcolumn⟩⟩
  | item h he hn hlt hindex ih =>
      have hnone := (h.item he hn hlt hindex).bufferOf?_eq_none
      obtain ⟨depth, whole, hwhole, _⟩ := exists_region_of_subscript he hnone hr
      rcases ih (hun.of_subscript he) hwhole with hdirect | ⟨hnil, _⟩
      · exact .inl (hdirect.subscript he fun hnamed => absurd hnamed (hinner h))
      · cases hnil
  | @member e operand n id name g start h he hg hown ih =>
      have hnone := (h.member he hg hown).bufferOf?_eq_none
      obtain ⟨depth, whole, hwhole, _⟩ := exists_region_of_member he hnone hr
      have hne : g ≠ f := by
        rintro rfl
        rw [hown] at hf
        cases hf
      rcases ih (hun.of_member he hne) hwhole with hdirect | ⟨_, b, htype, _⟩
      · exact .inl (hdirect.member he)
      · cases htype
  | @component e operand index n b part start k h he hpart hle hindex ih =>
      have hnone := (h.component he hpart hle hindex).bufferOf?_eq_none
      obtain ⟨depth, whole, hwhole, _⟩ := exists_region_of_subscript he hnone hr
      rcases ih (hun.of_subscript he) hwhole with hdirect | ⟨_, b', htype, hmatrix, _⟩
      · exact .inl (hdirect.subscript he fun hnamed => absurd hnamed (hinner h))
      · cases htype
        refine .inr ⟨rfl, part, rfl, ?_⟩
        cases b <;> cases hpart <;> first | exact ⟨rfl, .inl rfl⟩ | cases hmatrix
  | swizzle _ he =>
      cases hun with
      | field hnamed => simp [namedVar?, he] at hnamed
      | subscript _ he' =>
          rw [he] at he'
          cases he'
      | member _ he' =>
          rw [he] at he'
          cases he'

theorem IsColumn.places (hcolumn : s.IsColumn f index e)
    (hbuffer : s.storageFields.find? (fun b => b.field == f) = some buffer)
    (hr : s.regionWithin? value depth e = some r) {column : BuiltinType}
    (htype : r.type = .builtin column) (hvector : column.isVector) :
    s.accessWithin? s.storageFields (depth + 2) e =
        some { buffer, terms := [(index, buffer.stride)], offset := buffer.offset } ∧
      (∃ t n, (s.var f).type = .builtin t ∧ t.parts? = some (n, column)) ∧
      s.LiesAt value r { buffer, terms := [(index, builtinSize column)], offset := buffer.offset }
        (.builtin column) [] := by
  have hr := hcolumn.exists_region hbuffer hr
  obtain ⟨operand, he, hnamed, hdims⟩ := hcolumn
  have hfield := field_of_find? hbuffer
  have hnone : s.bufferOf? s.storageFields e = none := by
    unfold bufferOf? namedVar?
    rw [he]
    rfl
  have hoperand : s.bufferOf? s.storageFields operand = some buffer := by
    rw [bufferOf?_of_namedVar? hnamed, hbuffer]
  subst hfield
  have hwhole : s.LiesAt value (s.fieldRegion buffer) { buffer, offset := buffer.offset }
      (s.var buffer.field).type [] := liesAt_fieldRegion hdims
  cases hvar : (s.var buffer.field).type with
  | declared id =>
      rw [elementRegion?_declared hdims hvar] at hr
      cases hr
  | builtin t =>
      cases hparts : t.parts? with
      | none =>
          have hself : elementType? ⟨.builtin t, 0⟩ = some ⟨.builtin t, 0⟩ := by
            cases t <;> cases hparts <;> rfl
          rw [(elementRegion?_builtin hdims hvar hself hr).1] at htype
          cases htype
          cases column <;> cases hparts <;> cases hvector
      | some parts =>
          obtain ⟨n, part⟩ := parts
          rw [elementRegion?_eq hdims hvar hparts] at hr
          split at hr
          · next hlt =>
              cases hr
              cases htype
              have haccess := accessWithin?_subscript he hnone
                (accessWithin?_field hoperand depth)
              rw [hoperand] at haccess
              refine ⟨haccess, ⟨t, n, rfl, hparts⟩, ?_⟩
              rw [hvar] at hwhole
              refine hwhole.part rfl ?_ fun p hp => ?_
              · simp [Access.address, Int.add_comm]
              · rw [sizeOfType_builtin, elementCount_nil, Nat.mul_one] at hp ⊢
                rw [BuiltinType.builtinSize_of_parts? hparts]
                have hend := Nat.mul_le_mul_right (builtinSize column) (Nat.succ_le_of_lt hlt)
                rw [Nat.succ_mul] at hend
                omega
          · cases hr

end

/-! ## Bytes -/

section

variable {c : Scalar} {picked : List Nat} {whole : Region} {address start : Int} {m : Nat}

theorem storedSize_eq (h : c ≠ .bool) : storedSize c = scalarSize c := by
  cases c <;> first | rfl | exact absurd rfl h

theorem scalarSize_pos (c : Scalar) : 0 < scalarSize c := by
  cases c <;> decide

theorem mul_add_lt {k q n size : Nat} (hk : k < n) (hq : q < size) : k * size + q < n * size := by
  have hend := Nat.mul_le_mul_right size (Nat.succ_le_of_lt hk)
  rw [Nat.succ_mul] at hend
  omega

theorem WritesExactly.ne_bool (h : WritesExactly address c picked whole) (hm : m ≤ 4)
    (hplace : ∀ p < m * scalarSize c, whole.place p = start + (p : Nat))
    (hlt : ∀ k ∈ picked, k < m) (hne : picked ≠ []) : c ≠ .bool := by
  rintro rfl
  have hplace (k : Nat) (hk : k < m) : whole.place k = start + (k : Nat) :=
    hplace k (by simpa [scalarSize] using hk)
  have hpos := List.length_pos_iff.2 hne
  -- What is stored takes four bytes for each component, of which there are four at most.
  have hbyte (b : Nat) (hb : b < picked.length * 4) :
      ∃ k ∈ picked, address + (b : Nat) = start + k := by
    obtain ⟨k, hk, q, hq, heq⟩ := h.only b hb
    obtain rfl : q = 0 := by simpa [scalarSize] using hq
    refine ⟨k, hk, ?_⟩
    rw [heq, ← hplace k (hlt k hk)]
    simp [scalarSize]
  obtain ⟨k, hk, hfirst⟩ := hbyte 0 (by omega)
  obtain ⟨k', hk', hlast⟩ := hbyte (picked.length * 4 - 1) (by omega)
  have hlt' := hlt k' hk'
  obtain ⟨j, hj, hnext⟩ := hbyte 1 (by omega)
  have hlength : picked.length = 1 := by omega
  obtain ⟨only, rfl⟩ := List.length_eq_one_iff.1 hlength
  rw [List.mem_singleton] at hk hj
  omega

/-- Components that lie one behind the other are stored where they lie exactly if they are picked in
their order and without gaps, beginning where the address says. -/
theorem writesExactly_iff (hm : m ≤ 4)
    (hplace : ∀ p < m * scalarSize c, whole.place p = start + (p : Nat))
    (hlt : ∀ k ∈ picked, k < m) (hne : picked ≠ []) :
    WritesExactly address c picked whole ↔
      c ≠ .bool ∧ ∃ first, address = start + (first * scalarSize c : Nat) ∧
        picked = List.range' first picked.length := by
  have hsize := scalarSize_pos c
  constructor
  · intro h
    have hbool := h.ne_bool hm hplace hlt hne
    have hpos := List.length_pos_iff.2 hne
    have hat (k : Nat) (hk : k < picked.length) :
        address + (k * scalarSize c : Nat) = start + (picked[k] * scalarSize c : Nat) := by
      have heach := h.each k hk 0 hsize
      rw [storedSize_eq hbool, Nat.add_zero, Nat.add_zero,
        hplace _ (Nat.mul_lt_mul_of_pos_right (hlt _ (List.getElem_mem hk)) hsize)] at heach
      exact heach
    have hfirst := hat 0 hpos
    rw [Nat.zero_mul] at hfirst
    refine ⟨hbool, picked[0], by omega, ?_⟩
    refine List.ext_getElem (by simp) fun k hk _ => ?_
    have hk := hat k hk
    rw [List.getElem_range', Nat.one_mul]
    have hmul : picked[k] * scalarSize c = (picked[0] + k) * scalarSize c := by
      rw [Nat.add_mul]
      omega
    exact Nat.eq_of_mul_eq_mul_right hsize hmul
  · rintro ⟨hbool, first, rfl, hrange⟩
    have hat (k : Nat) (hk : k < picked.length) : picked[k] = first + k := by
      have hget : picked[k]? = (List.range' first picked.length)[k]? := congrArg (·[k]?) hrange
      rw [List.getElem?_eq_getElem hk, List.getElem?_range' hk, Nat.one_mul,
        Option.some.injEq] at hget
      exact hget
    have hlies (k q : Nat) (hk : k < picked.length) (hq : q < scalarSize c) :
        start + (first * scalarSize c : Nat) + (k * scalarSize c + q : Nat) =
          whole.place (picked[k] * scalarSize c + q) := by
      rw [hplace _ (mul_add_lt (hlt _ (List.getElem_mem hk)) hq), hat k hk, Nat.add_mul]
      push_cast
      omega
    constructor
    · intro k hk q hq
      rw [storedSize_eq hbool]
      exact hlies k q hk hq
    · intro b hb
      rw [storedSize_eq hbool] at hb
      have hk : b / scalarSize c < picked.length := (Nat.div_lt_iff_lt_mul hsize).2 hb
      refine ⟨_, List.getElem_mem hk, b % scalarSize c, Nat.mod_lt _ hsize, ?_⟩
      rw [← hlies _ _ hk (Nat.mod_lt _ hsize), Nat.div_add_mod']

end

/-! ## Stores -/

section

variable {value : ExprId → Nat} {f : VarId} {i : Int} {n start first : Nat} {c : Scalar}
  {m : Extent} {base target right e : ExprId} {picked : List Nat} {op : AssignOp}

theorem LiesAt.writesExactly_iff {whole : Region} {a : Access} {address : Int}
    (hlies : s.LiesAt value whole a (.builtin (.vector c m)) [])
    (hpicks : s.Picks base m.toNat e picked first) :
    WritesExactly address c picked whole ↔
      c ≠ .bool ∧ ∃ first, first < m.toNat ∧
        address = a.address (fun index => value index) + (first * scalarSize c : Nat) ∧
        picked = List.range' first picked.length := by
  have hm : m.toNat ≤ 4 := by
    cases m <;> decide
  have hplace (p : Nat) (hp : p < m.toNat * scalarSize c) :
      whole.place p = a.address (fun index => value index) + (p : Nat) := by
    apply hlies.place_eq
    rwa [sizeOfType_builtin, builtinSize_vector, elementCount_nil, Nat.mul_one]
  rw [Shader.writesExactly_iff hm hplace hpicks.lt hpicks.ne_nil]
  refine and_congr_right fun _ => exists_congr fun first => ?_
  refine ⟨fun ⟨haddress, hrange⟩ => ⟨?_, haddress, hrange⟩, fun ⟨_, h⟩ => h⟩
  apply hpicks.lt
  rw [hrange]
  exact List.mem_range'_1.2
    ⟨Nat.le_refl _, Nat.lt_add_of_pos_right (List.length_pos_iff.2 hpicks.ne_nil)⟩

theorem Picks.writesExactly_iff_of_direct (hpicks : s.Picks base m.toNat e picked first)
    {whole : Region} {a : Access} {address : Int}
    (hlies : s.LiesAt value whole a (.builtin (.vector c m)) [])
    (haddress : address = a.address (fun index => value index) + (first * scalarSize c : Nat)) :
    WritesExactly address c picked whole ↔
      c ≠ .bool ∧ picked = List.range' first picked.length := by
  rw [hlies.writesExactly_iff hpicks]
  refine and_congr_right fun _ => ⟨?_, fun hrange => ⟨first, ?_, haddress, hrange⟩⟩
  · rintro ⟨other, _, haddress', hrange⟩
    have hsame : other = first :=
      Nat.eq_of_mul_eq_mul_right (scalarSize_pos c) (by omega)
    rwa [hsame] at hrange
  · apply hpicks.lt
    rw [hrange]
    exact List.mem_range'_1.2
      ⟨Nat.le_refl _, Nat.lt_add_of_pos_right (List.length_pos_iff.2 hpicks.ne_nil)⟩

theorem Picks.writesExactly_iff_of_column (hpicks : s.Picks base m.toNat e picked first)
    {whole : Region} {buffer : ByteBuffer} {index : ExprId} {address : Int}
    (hstride : 2 * builtinSize (.vector c m) ≤ buffer.stride)
    (hlies : s.LiesAt value whole
      { buffer, terms := [(index, builtinSize (.vector c m))], offset := buffer.offset }
      (.builtin (.vector c m)) [])
    (haddress : address = Access.address
      { buffer, terms := [(index, buffer.stride)], offset := buffer.offset }
        (fun index => value index) + (first * scalarSize c : Nat)) :
    WritesExactly address c picked whole ↔
      c ≠ .bool ∧ picked = List.range' first picked.length ∧ value index = 0 := by
  have hcounted (bytes : Nat) :
      Access.address { buffer, terms := [(index, bytes)], offset := buffer.offset }
        (fun index => value index) = (value index * bytes + buffer.offset : Nat) := by
    simp [Access.address]
  rcases Nat.eq_zero_or_pos (value index) with hzero | hpos
  · have hsame : ∀ bytes : Nat,
        Access.address { buffer, terms := [(index, bytes)], offset := buffer.offset }
          (fun index => value index) = buffer.offset := by
      intro bytes
      rw [hcounted, hzero, Nat.zero_mul, Nat.zero_add]
    rw [hpicks.writesExactly_iff_of_direct hlies (by rw [haddress, hsame, hsame])]
    simp [hzero]
  · rw [hlies.writesExactly_iff hpicks, haddress, hcounted, hcounted]
    have hne : value index ≠ 0 := Nat.ne_zero_of_lt hpos
    simp only [hne, and_false, iff_false, not_and, not_exists]
    intro _ other hother heq
    -- The access is a column off at least, and no component is that far from the first one.
    have hstep : value index * (2 * builtinSize (.vector c m)) ≤ value index * buffer.stride :=
      Nat.mul_le_mul_left _ hstride
    have hcolumn : builtinSize (.vector c m) ≤ value index * builtinSize (.vector c m) :=
      Nat.le_mul_of_pos_left _ hpos
    have hcomponent : other * scalarSize c < builtinSize (.vector c m) := by
      rw [builtinSize_vector]
      exact Nat.mul_lt_mul_of_pos_right hother (scalarSize_pos c)
    rw [Nat.mul_left_comm] at hstep
    omega

theorem Picks.exists_store (hs : s.OwnsFields []) (hf : s.IsBlockField f)
    (hbase : s.Selects (fun index => value index) f i n base (.builtin (.vector c m)) [] start)
    (hun : s.Unswizzled f base) (hpicks : s.Picks base m.toNat target picked first)
    (hr : (s.region? value target).isSome) :
    ∃ whole a t, s.region? value base = some whole ∧
      s.access? s.storageFields target = some a ∧ a.buffer.resource = whole.resource ∧
      (BuiltinType.scalar c).vectorOf? picked.length = some t ∧
      s.baseTypeOf? target = some (.builtin t) ∧
      (WritesExactly (a.address fun index => value index) c picked whole ↔
        c ≠ .bool ∧ picked = List.range' first picked.length ∧
          ∀ index, s.IsColumn f index base → value index = 0) := by
  obtain ⟨buffer, hbuffer, _, hstride⟩ := hf.exists_place hs
  have hstored := isStorageField_of_find? hbuffer
  obtain ⟨r, hr⟩ := Option.isSome_iff_exists.1 hr
  obtain ⟨t, a, a', ht, htype, ⟨whole, hwhole⟩, ha, ha', hsame, haddress⟩ :=
    hpicks.exists_access (hbase.baseTypeOf? hstored) hr (Nat.le_refl _)
  obtain ⟨a₁, hdepth, _⟩ := hbase.exists_access hbuffer
  have hsize : n < s.exprs.size + 1 := Nat.lt_succ_of_le (hbase.le_size hstored)
  obtain rfl : a₁ = a := Option.some.inj ((hdepth _ hsize).symm.trans ha)
  have hwholetype : whole.type = .builtin (.vector c m) := by
    have heq := baseTypeOf?_of_regionWithin? hwhole (Nat.le_refl _)
    rw [hbase.baseTypeOf? hstored, Option.some.injEq] at heq
    exact heq.symm
  refine ⟨whole, a', t, hwhole, ha', ?_, ht, htype, ?_⟩
  · obtain ⟨a₂, ha₂, hresource⟩ := exists_access_of_regionWithin? hwhole (Nat.le_refl _)
    rw [ha, Option.some.injEq] at ha₂
    rw [hsame, ha₂, hresource]
  · rcases hbase.selectsDirectly_or hstored hun hwhole with hdirect | ⟨_, b, hb, _, hcolumn⟩
    · have hlies := hbase.liesAt hs hbuffer hdirect hdepth hwhole
      have hnone (index : ExprId) : ¬s.IsColumn f index base := by
        rintro ⟨operand, he, hnamed, hdims⟩
        exact (hdirect.of_subscript he).2 hnamed hdims
      rw [hpicks.writesExactly_iff_of_direct hlies haddress]
      simp [hnone]
    · cases hb
      obtain ⟨index, hcolumn⟩ := hcolumn.resolve_left (by simp [BuiltinType.isVector])
      -- The first subscript of a field that is no array steps over whole elements in the access,
      -- and over columns in the region, which agree in the first column alone.
      obtain ⟨haccess, ⟨u, k, hu, hparts⟩, hlies⟩ := hcolumn.places hbuffer hwhole hwholetype rfl
      have hunique (other : ExprId) (h : s.IsColumn f other base) : other = index := by
        obtain ⟨operand, he, _⟩ := hcolumn
        obtain ⟨operand', he', _⟩ := h
        rw [he] at he'
        cases he'
        rfl
      have hcolumns : 2 * builtinSize (.vector c m) ≤ buffer.stride := by
        obtain ⟨_, _, _, hdims⟩ := hcolumn
        rw [sizeOfElement_of_single hdims, hu, sizeOfType_builtin,
          BuiltinType.builtinSize_of_parts? hparts] at hstride
        exact Nat.le_trans (Nat.mul_le_mul_right _ (BuiltinType.two_le_of_parts? hparts)) hstride
      rw [accessWithin?_mono (Nat.le_add_right _ 2) ha, Option.some.injEq] at haccess
      rw [haccess] at haddress
      rw [hpicks.writesExactly_iff_of_column hcolumns hlies haddress]
      refine and_congr_right fun _ => and_congr_right fun _ => ⟨?_, fun h => h index hcolumn⟩
      intro hzero other hother
      rw [hunique other hother]
      exact hzero

/-- A swizzle of a vector in a storage block is assigned to by one store, which begins at the access
to the swizzle. It writes the components that are picked, and nothing else, exactly if they follow
one another from the first one on, are no truth values, and belong to no column but the first of a
field that is no array. -/
theorem Accepted.swizzleStore_iff (hs : s.Accepted) (hf : s.IsBlockField f)
    (hbase : s.Selects (fun index => value index) f i n base (.builtin (.vector c m)) [] start)
    (hun : s.Unswizzled f base) (hpicks : s.Picks base m.toNat target picked first)
    (hr : (s.region? value target).isSome) (he : s.expr e = .assign op target right) :
    ∃ (whole : Region) (a : Access) (t : BuiltinType), s.region? value base = some whole ∧
      s.access? s.storageFields target = some a ∧
      (BuiltinType.scalar c).vectorOf? picked.length = some t ∧
      (∀ state : LoweringState, s.OnlyCalls state.done → ∃ temp type stored indices,
        ((s.lowerExpr s.storageFields e).run state).1 = .store temp type stored (a.expr indices)
          whole.resource [⟨tempName temp, 0, t⟩] ∧
        List.Forall₂ (fun term => s.LoweredTo term.1) a.terms indices) ∧
      (WritesExactly (a.address fun index => value index) c picked whole ↔
        c ≠ .bool ∧ picked = List.range' first picked.length ∧
          ∀ index, s.IsColumn f index base → value index = 0) := by
  obtain ⟨whole, a, t, hwhole, ha, hresource, ht, htype, hiff⟩ :=
    hpicks.exists_store hs.ownsFields hf hbase hun hr
  refine ⟨whole, a, t, hwhole, ha, ht, fun state hstate => ?_, hiff⟩
  obtain ⟨⟨temp, type, stored, indices, hstore, hindices, _⟩, _⟩ :=
    keeps_lowerExpr_store he ha state hstate
  have hleaves : (s.leaves (s.storedType target) [] (tempName temp) 0).leaves =
      [⟨tempName temp, 0, t⟩] := by
    have hmatrix : t.matrixDims? = none := by
      unfold BuiltinType.vectorOf? at ht
      split at ht
      · cases ht
        rfl
      · obtain ⟨extent, _, rfl⟩ := Option.map_eq_some_iff.1 ht
        rfl
    rw [storedType, htype, Option.getD_some, leaves_single s hmatrix]
    rfl
  rw [hresource, hleaves] at hstore
  exact ⟨temp, type, stored, indices, hstore, hindices⟩

end

/-- The tokens of `buffer B { vec4 v; } b; void f() { b.v.gb = vec2(0); b.v.xz = vec2(0); }`. -/
def swizzleStores : List TokenKind :=
  [.keyword (.storage .buffer), .ident "B", .punct .leftBrace,
    .keyword (.type (.vector .float .four)), .ident "v", .punct .semicolon, .punct .rightBrace,
    .ident "b", .punct .semicolon, .keyword (.type .void), .ident "f", .punct .leftParen,
    .punct .rightParen, .punct .leftBrace, .ident "b", .punct .dot, .ident "v", .punct .dot,
    .ident "gb", .punct .eq, .keyword (.type (.vector .float .two)), .punct .leftParen,
    .number (.int 0), .punct .rightParen, .punct .semicolon, .ident "b", .punct .dot, .ident "v",
    .punct .dot, .ident "xz", .punct .eq, .keyword (.type (.vector .float .two)),
    .punct .leftParen, .number (.int 0), .punct .rightParen, .punct .semicolon, .punct .rightBrace,
    .endOfFile]

/-- An assignment to components of the vector in it. -/
structure AssignsPicked (s : Shader) (base target right e : ExprId) (picked : List Nat)
    (first : Nat) : Prop where
  selects : s.Selects (fun _ => (0 : Nat)) ⟨36⟩ 0 0 base (.builtin (.vector .float .four)) [] 0
  unswizzled : s.Unswizzled ⟨36⟩ base
  picks : s.Picks base Extent.four.toNat target picked first
  named : (s.region? (fun _ => 0) target).isSome
  assigns : s.expr e = .assign .assign target right

theorem exists_swizzleStores :
    ∃ s : Shader, s.Accepted ∧ s.IsBlockField ⟨36⟩ ∧
      s.AssignsPicked ⟨17⟩ ⟨18⟩ ⟨20⟩ ⟨21⟩ [1, 2] 1 ∧
        s.AssignsPicked ⟨23⟩ ⟨24⟩ ⟨26⟩ ⟨27⟩ [0, 2] 0 := by
  obtain ⟨s, hs, hfacts⟩ := Parse.exists_accepted (a := true)
    (f := fun s =>
      decide ([17, 18, 21, 23, 24, 27].map (fun n => s.expr ⟨n⟩) =
        [.member ⟨16⟩ "v" (some ⟨36⟩), .member ⟨17⟩ "gb" none, .assign .assign ⟨18⟩ ⟨20⟩,
          .member ⟨22⟩ "v" (some ⟨36⟩), .member ⟨23⟩ "xz" none, .assign .assign ⟨24⟩ ⟨26⟩]) &&
      decide (((s.var ⟨36⟩).type, (s.var ⟨36⟩).dims) = (.builtin (.vector .float .four), [])) &&
      decide (s.struct ⟨0⟩ =
        { name := some "B", fields := [⟨36⟩], block := some { storage := .buffer } }) &&
      decide (s.blocks.toList = [⟨0⟩]) &&
      ((s.region? (fun _ => 0) ⟨18⟩).isSome && (s.region? (fun _ => 0) ⟨24⟩).isSome))
    (show (Parse.plainShader? .fragment swizzleStores).map _ = _ by decide +kernel)
  simp only [Bool.and_eq_true, decide_eq_true_eq, List.map_cons, List.map_nil, List.cons.injEq,
    Prod.mk.injEq, and_true] at hfacts
  obtain ⟨⟨⟨⟨⟨hv, hgb, hstore, hv', hxz, hstore'⟩, htype, hdims⟩, hblock⟩, hblocks⟩, hr, hr'⟩ :=
    hfacts
  have hf : s.IsBlockField ⟨36⟩ := by
    refine ⟨⟨0⟩, ?_, { storage := .buffer }, ?_, rfl, rfl, ?_⟩
    · rw [hblocks]
      decide
    · rw [hblock]
    · rw [hblock]
      decide
  have hselects (base : ExprId) (hbase : s.namedVar? base = some ⟨36⟩) :
      s.Selects (fun _ => (0 : Nat)) ⟨36⟩ 0 0 base (.builtin (.vector .float .four)) [] 0 := by
    rw [← htype]
    exact .whole hbase hdims rfl
  have hnamed : s.namedVar? ⟨17⟩ = some ⟨36⟩ := by rw [namedVar?, hv]
  have hnamed' : s.namedVar? ⟨23⟩ = some ⟨36⟩ := by rw [namedVar?, hv']
  have hspells : SpellsComponents "gb" [1, 2] := ⟨"rgba", by decide, by decide⟩
  have hspells' : SpellsComponents "xz" [0, 2] := ⟨"xyzw", by decide, by decide⟩
  refine ⟨s, hs, hf, ⟨hselects _ hnamed, .field hnamed, ?_, hr, hstore⟩,
    ⟨hselects _ hnamed', .field hnamed', ?_, hr', hstore'⟩⟩
  · exact Picks.vector.swizzle hgb hspells (by decide) (by decide)
  · exact Picks.vector.swizzle hxz hspells' (by decide) (by decide)

/-- Components in a row are written where they lie. -/
theorem exists_swizzleStore :
    ∃ s : Shader, s.Accepted ∧ s.IsBlockField ⟨36⟩ ∧
      s.AssignsPicked ⟨17⟩ ⟨18⟩ ⟨20⟩ ⟨21⟩ [1, 2] 1 ∧
      ∃ (whole : Region) (a : Access), s.region? (fun _ => 0) ⟨17⟩ = some whole ∧
        s.access? s.storageFields ⟨18⟩ = some a ∧
        WritesExactly (a.address fun _ => (0 : Nat)) .float [1, 2] whole := by
  obtain ⟨s, hs, hf, h, _⟩ := exists_swizzleStores
  obtain ⟨whole, a, t, hwhole, ha, _, _, hiff⟩ :=
    Accepted.swizzleStore_iff hs hf h.selects h.unswizzled h.picks h.named h.assigns
  refine ⟨s, hs, hf, h, whole, a, hwhole, ha, hiff.2 ⟨by decide, by decide, fun _ _ => rfl⟩⟩

/-- Where a component is left out, the ones behind it are not written where they lie. -/
theorem exists_swizzleStore_misplaced :
    ∃ s : Shader, s.Accepted ∧ s.IsBlockField ⟨36⟩ ∧
      s.AssignsPicked ⟨23⟩ ⟨24⟩ ⟨26⟩ ⟨27⟩ [0, 2] 0 ∧
      ∃ (whole : Region) (a : Access), s.region? (fun _ => 0) ⟨23⟩ = some whole ∧
        s.access? s.storageFields ⟨24⟩ = some a ∧
        ¬WritesExactly (a.address fun _ => (0 : Nat)) .float [0, 2] whole := by
  obtain ⟨s, hs, hf, _, h⟩ := exists_swizzleStores
  obtain ⟨whole, a, t, hwhole, ha, _, _, _, hiff⟩ :=
    h.picks.exists_store hs.ownsFields hf h.selects h.unswizzled h.named
  refine ⟨s, hs, hf, h, whole, a, hwhole, ha, fun hexact => ?_⟩
  have hrange := (hiff.1 hexact).2.1
  revert hrange
  decide

end Shader

end ShaderBridge
