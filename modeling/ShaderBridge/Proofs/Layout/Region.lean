import ShaderBridge.Proofs.Layout.Buffer

namespace ShaderBridge

open Hlsl

/-! ### Parts of vectors and matrices -/

namespace BuiltinType

/-- What a subscript selects from: how many parts there are, and the type of each. -/
def parts? : BuiltinType → Option (Nat × BuiltinType)
  | vector s n => some (n.toNat, scalar s)
  | squareMatrix s n => some (n.toNat, vector s.toScalar n)
  | matrix s columns rows => some (columns.toNat, vector s.toScalar rows)
  | _ => none

variable {t part : BuiltinType} {n : Nat}

theorem elementType?_of_parts? (h : t.parts? = some (n, part)) :
    Shader.elementType? ⟨.builtin t, 0⟩ = some ⟨.builtin part, 0⟩ := by
  cases t <;> cases h <;> rfl

theorem builtinSize_of_parts? (h : t.parts? = some (n, part)) :
    builtinSize t = n * builtinSize part := by
  cases t <;> cases h <;>
    simp [builtinSize, component, matrixDims?, matrixExtents?, vectorSize, Nat.mul_assoc]

theorem two_le_of_parts? (h : t.parts? = some (n, part)) : 2 ≤ n := by
  have htwo (e : Extent) : 2 ≤ e.toNat := by
    cases e <;> decide
  cases t <;> cases h <;> exact htwo _

theorem builtinSize_part_pos (h : t.parts? = some (n, part)) : 0 < builtinSize part := by
  have hscalar (s : Scalar) : 0 < scalarSize s := by
    cases s <;> decide
  have hextent (e : Extent) : 0 < e.toNat := by
    cases e <;> decide
  cases t <;> cases h <;>
    simp [builtinSize, component, matrixDims?, matrixExtents?, vectorSize, hscalar, hextent]

theorem builtinSize_part_lt (h : t.parts? = some (n, part)) : builtinSize part < builtinSize t := by
  have hpos := builtinSize_part_pos h
  have htwo := Nat.mul_le_mul_right (builtinSize part) (two_le_of_parts? h)
  rw [builtinSize_of_parts? h]
  omega

end BuiltinType

/-! ### Regions -/

/-- A value in byte-addressed memory. -/
structure Region where
  resource : String
  type : TypeRef
  dims : List (Option ExprId)
  /-- Where each byte of the value lies. -/
  place : Nat → Int

/-- The part of a value that begins with one of its bytes. -/
def Region.part (r : Region) (start : Nat) (type : TypeRef) (dims : List (Option ExprId)) :
    Region :=
  ⟨r.resource, type, dims, fun p => r.place (start + p)⟩

namespace Shader

variable (s : Shader)

/-- A field as a whole. Its elements are as far apart as those of its block. -/
def fieldRegion (buffer : ByteBuffer) : Region :=
  let v := s.var buffer.field
  let size := s.sizeOfElement buffer.field
  ⟨buffer.resource, v.type, v.dims, fun p => p / size * buffer.stride + buffer.offset + p % size⟩

/-- An element of an array, a column of a matrix or a component of a vector. There is none behind
the last one. -/
def elementRegion? (r : Region) (k : Nat) : Option Region :=
  match r.dims, r.type with
  | d :: dims, t =>
    if (s.arrayLength? d).all (k < ·) then
      some (r.part (k * (s.sizeOfType t * s.elementCount dims)) t dims)
    else none
  | [], .builtin t =>
    match t.matrixDims?, t.matrixColumn? with
    | some (columns, _), some column =>
      if k < columns then some (r.part (k * builtinSize column) (.builtin column) []) else none
    | _, _ =>
      if k < t.vectorSize then
        some (r.part (k * builtinSize t.component) (.builtin t.component) [])
      else none
  | [], .declared _ => none

def memberRegion? (r : Region) (g : VarId) : Option Region :=
  match r.dims, r.type with
  | [], .declared id =>
    if g ∈ (s.struct id).fields then
      some (r.part (s.fieldOffset id g) (s.var g).type (s.var g).dims)
    else none
  | _, _ => none

end Shader

/-- Components of a vector, one for each letter. -/
def Region.swizzle? (r : Region) (name : String) : Option Region :=
  match r.dims, r.type with
  | [], .builtin t =>
    let size := builtinSize t.component
    let letters := name.toList.map componentIndex
    if !t.isMatrix && letters.all (· < t.vectorSize) then
      (t.component.vectorOf? name.length).map fun vector =>
        ⟨r.resource, .builtin vector, [],
          fun p => r.place (letters.getD (p / size) 0 * size + p % size)⟩
    else none
  | _, _ => none

namespace Shader

variable (s : Shader)

/-- What an expression names of a storage field where indices have the given values, followed to the
given depth. -/
def regionWithin? (value : ExprId → Nat) : Nat → ExprId → Option Region
  | 0, _ => none
  | depth + 1, e =>
    match s.bufferOf? s.storageFields e with
    | some buffer => some (s.fieldRegion buffer)
    | none =>
      match s.expr e with
      | .subscript operand index => do
        s.elementRegion? (← regionWithin? value depth operand) (value index)
      | .member operand _ (some g) => do
        s.memberRegion? (← regionWithin? value depth operand) g
      | .member operand name none => do
        (← regionWithin? value depth operand).swizzle? name
      | _ => none

/-- What an expression names of a storage field. -/
def region? (value : ExprId → Nat) (e : ExprId) : Option Region :=
  s.regionWithin? value (s.exprs.size + 1) e

/-- Whether a value has a byte of the given number. An array whose length is not known goes on. -/
def HasByte (r : Region) (p : Nat) : Prop :=
  p < s.sizeOfType r.type * s.elementCount r.dims ∨ ∃ d ∈ r.dims.head?, s.arrayLength? d = none

/-- Constant indices have their own values. -/
def KeepsConstants (value : ExprId → Nat) : Prop :=
  ∀ e n, s.arrayLength? (some e) = some n → value e = n

/-- Whatever the indices are, the bytes of what an expression names are among those that a value of
its type takes from the address of an access on. -/
def Reaches (e : ExprId) (a : Access) : Prop :=
  ∀ value, s.KeepsConstants value → ∀ r, s.region? value e = some r →
    r.resource = a.buffer.resource ∧ ∀ p, s.HasByte r p →
      ∃ b < s.sizeOfType (s.storedType e), r.place p = a.address (fun i => value i) + (b : Nat)

/-- A value of the given type and dimensions begins where an access says, and its bytes lie one
behind the other. -/
structure LiesAt (value : ExprId → Nat) (r : Region) (a : Access) (t : TypeRef)
    (dims : List (Option ExprId)) : Prop where
  resource_eq : r.resource = a.buffer.resource
  type_eq : r.type = t
  dims_eq : r.dims = dims
  place_eq : ∀ p < s.sizeOfType t * s.elementCount dims,
    r.place p = a.address (fun e => value e) + (p : Nat)

/-- An expression selects from the field `f` by nothing but subscripts and members, and by no
subscript where the field is no array. -/
inductive SelectsDirectly (f : VarId) : ExprId → Prop where
  | field {e : ExprId} : s.namedVar? e = some f → SelectsDirectly f e
  | subscript {e operand index : ExprId} :
      SelectsDirectly f operand → s.expr e = .subscript operand index →
      (s.namedVar? operand = some f → (s.var f).dims ≠ []) → SelectsDirectly f e
  | member {e operand : ExprId} {name : String} {g : VarId} :
      SelectsDirectly f operand → s.expr e = .member operand name (some g) → SelectsDirectly f e

variable {s} {value : ExprId → Nat} {r : Region} {a : Access} {t : TypeRef}
  {dims : List (Option ExprId)}

theorem LiesAt.part (h : s.LiesAt value r a t dims) {a' : Access} {start : Nat} {t' : TypeRef}
    {dims' : List (Option ExprId)} (hbuffer : a'.buffer = a.buffer)
    (haddress : a'.address (fun e => value e) = a.address (fun e => value e) + (start : Nat))
    (hsize : ∀ p < s.sizeOfType t' * s.elementCount dims',
      start + p < s.sizeOfType t * s.elementCount dims) :
    s.LiesAt value (r.part start t' dims') a' t' dims' where
  resource_eq := by
    rw [hbuffer]
    exact h.resource_eq
  type_eq := rfl
  dims_eq := rfl
  place_eq p hp := by
    have hplace := h.place_eq (start + p) (hsize p hp)
    simp only [Region.part, hplace, haddress]
    omega

/-! ### Parts of elements -/

theorem place_fieldRegion {buffer : ByteBuffer} {p : Nat} (hp : p < s.sizeOfElement buffer.field)
    (k : Nat) :
    (s.fieldRegion buffer).place (k * s.sizeOfElement buffer.field + p) =
      k * buffer.stride + buffer.offset + p := by
  have hdiv : (k * s.sizeOfElement buffer.field + p) / s.sizeOfElement buffer.field = k := by
    rw [Nat.mul_comm, Nat.mul_add_div (Nat.zero_lt_of_lt hp), Nat.div_eq_of_lt hp, Nat.add_zero]
  have hmod : (k * s.sizeOfElement buffer.field + p) % s.sizeOfElement buffer.field = p := by
    rw [Nat.mul_comm, Nat.mul_add_mod, Nat.mod_eq_of_lt hp]
  simp only [fieldRegion, ← Int.natCast_ediv, ← Int.natCast_emod, hdiv, hmod]

theorem liesAt_fieldRegion {buffer : ByteBuffer} (hdims : (s.var buffer.field).dims = []) :
    s.LiesAt value (s.fieldRegion buffer) { buffer, offset := buffer.offset }
      (s.var buffer.field).type [] where
  resource_eq := rfl
  type_eq := rfl
  dims_eq := hdims
  place_eq p hp := by
    have hsize : s.sizeOfElement buffer.field =
        s.sizeOfType (s.var buffer.field).type * s.elementCount [] := by
      unfold sizeOfElement sizeOfVar outerDims
      rw [hdims]
      rfl
    have hplace := place_fieldRegion (hsize ▸ hp) 0
    simpa [Access.address] using hplace

theorem liesAt_elementRegion {buffer : ByteBuffer} {index : ExprId}
    (hdims : (s.var buffer.field).dims ≠ [])
    (hr : s.elementRegion? (s.fieldRegion buffer) (value index) = some r) :
    s.LiesAt value r { buffer, terms := [(index, buffer.stride)], offset := buffer.offset }
      (s.var buffer.field).type ((s.var buffer.field).dims.drop 1) := by
  obtain ⟨d, rest, hcons⟩ := List.exists_cons_of_ne_nil hdims
  have hsize : s.sizeOfElement buffer.field =
      s.sizeOfType (s.var buffer.field).type * s.elementCount rest := by
    unfold sizeOfElement sizeOfVar outerDims
    rw [hcons]
    simp
  have hdims : (s.fieldRegion buffer).dims = d :: rest := hcons
  unfold elementRegion? at hr
  rw [hdims] at hr
  dsimp only at hr
  split at hr
  · cases hr
    rw [hcons]
    refine ⟨rfl, rfl, rfl, fun p hp => ?_⟩
    have hplace := place_fieldRegion (hsize ▸ hp) (value index)
    rw [hsize] at hplace
    show (s.fieldRegion buffer).place (value index * (s.sizeOfType (s.var buffer.field).type *
      s.elementCount rest) + p) = _
    simpa [Access.address] using hplace
  · cases hr

/-! ### One level of an expression -/

section

variable {e operand index : ExprId} {name : String} {g : VarId} {depth : Nat}

theorem exists_region_of_subscript (he : s.expr e = .subscript operand index)
    (hnone : s.bufferOf? s.storageFields e = none)
    (hr : s.regionWithin? value depth e = some r) :
    ∃ depth' whole, s.regionWithin? value depth' operand = some whole ∧
      s.elementRegion? whole (value index) = some r := by
  cases depth with
  | zero => cases hr
  | succ depth =>
      rw [regionWithin?, hnone, he] at hr
      obtain ⟨whole, hwhole, hr⟩ := Option.bind_eq_some_iff.1 hr
      exact ⟨depth, whole, hwhole, hr⟩

theorem exists_region_of_member (he : s.expr e = .member operand name (some g))
    (hnone : s.bufferOf? s.storageFields e = none)
    (hr : s.regionWithin? value depth e = some r) :
    ∃ depth' whole, s.regionWithin? value depth' operand = some whole ∧
      s.memberRegion? whole g = some r := by
  cases depth with
  | zero => cases hr
  | succ depth =>
      rw [regionWithin?, hnone, he] at hr
      obtain ⟨whole, hwhole, hr⟩ := Option.bind_eq_some_iff.1 hr
      exact ⟨depth, whole, hwhole, hr⟩

end

/-! ### Parts of elements -/

theorem elementRegion?_array {whole : Region} {d : Option ExprId} {n k : Nat}
    (hdims : whole.dims = d :: dims) (hn : s.arrayLength? d = some n)
    (hr : s.elementRegion? whole k = some r) :
    k < n ∧
      r = whole.part (k * (s.sizeOfType whole.type * s.elementCount dims)) whole.type dims := by
  unfold elementRegion? at hr
  rw [hdims] at hr
  simp only [hn, Option.all_some, decide_eq_true_eq] at hr
  split at hr
  · next hk =>
      cases hr
      exact ⟨hk, rfl⟩
  · cases hr

theorem elementRegion?_eq {whole : Region} {b part : BuiltinType} {n : Nat}
    (hdims : whole.dims = [])
    (htype : whole.type = .builtin b) (hpart : b.parts? = some (n, part)) (k : Nat) :
    s.elementRegion? whole k =
      if k < n then some (whole.part (k * builtinSize part) (.builtin part) []) else none := by
  unfold elementRegion?
  rw [hdims, htype]
  cases b <;> cases hpart <;> rfl

theorem elementRegion?_builtin {whole : Region} {b part : BuiltinType} {k : Nat}
    (hdims : whole.dims = []) (htype : whole.type = .builtin b)
    (hpart : elementType? ⟨.builtin b, 0⟩ = some ⟨.builtin part, 0⟩)
    (hr : s.elementRegion? whole k = some r) :
    r = whole.part (k * builtinSize part) (.builtin part) [] ∧
      (k + 1) * builtinSize part ≤ builtinSize b := by
  cases hparts : b.parts? with
  | some parts =>
      obtain ⟨n, part'⟩ := parts
      obtain rfl : part' = part := by
        simpa [BuiltinType.elementType?_of_parts? hparts] using hpart
      rw [elementRegion?_eq hdims htype hparts] at hr
      split at hr
      · next hk =>
          cases hr
          rw [BuiltinType.builtinSize_of_parts? hparts]
          exact ⟨rfl, Nat.mul_le_mul_right _ hk⟩
      · cases hr
  | none =>
      -- What has no parts is its own only element.
      unfold elementRegion? at hr
      rw [hdims, htype] at hr
      cases b <;> cases hparts <;> cases hpart <;>
      · simp only [BuiltinType.matrixDims?, BuiltinType.matrixExtents?, Option.map_none,
          BuiltinType.vectorSize, BuiltinType.component, Nat.lt_one_iff,
          Option.ite_none_right_eq_some, Option.some.injEq] at hr
        obtain ⟨rfl, rfl⟩ := hr
        simp

theorem memberRegion?_eq {whole : Region} {id : StructId} {g : VarId} (hdims : whole.dims = [])
    (htype : whole.type = .declared id) (hr : s.memberRegion? whole g = some r) :
    r = whole.part (s.fieldOffset id g) (s.var g).type (s.var g).dims := by
  unfold memberRegion? at hr
  rw [hdims, htype] at hr
  dsimp only at hr
  split at hr
  · cases hr
    rfl
  · cases hr

/-! ### Direct selections -/

theorem SelectsDirectly.of_subscript {f : VarId} {e operand index : ExprId}
    (h : s.SelectsDirectly f e) (he : s.expr e = .subscript operand index) :
    s.SelectsDirectly f operand ∧ (s.namedVar? operand = some f → (s.var f).dims ≠ []) := by
  cases h with
  | field hnamed => simp [namedVar?, he] at hnamed
  | subscript h he' hdims =>
      rw [he] at he'
      cases he'
      exact ⟨h, hdims⟩
  | member _ he' =>
      rw [he] at he'
      cases he'

theorem SelectsDirectly.of_member {f g : VarId} {e operand : ExprId} {name : String}
    (h : s.SelectsDirectly f e) (he : s.expr e = .member operand name (some g)) (hne : g ≠ f) :
    s.SelectsDirectly f operand := by
  cases h with
  | field hnamed =>
      simp only [namedVar?, he, Option.some.injEq] at hnamed
      exact absurd hnamed hne
  | subscript _ he' =>
      rw [he] at he'
      cases he'
  | member h he' =>
      rw [he] at he'
      cases he'
      exact h

theorem Selects.liesAt (hs : s.OwnsFields []) {f : VarId} {buffer : ByteBuffer}
    (hbuffer : s.storageFields.find? (fun b => b.field == f) = some buffer)
    {fixed : ExprId → Int} {i : Int} {e : ExprId} {n start : Nat}
    (h : s.Selects fixed f i n e t dims start) (hdirect : s.SelectsDirectly f e)
    (ha : ∀ depth, n < depth → s.accessWithin? s.storageFields depth e = some a)
    {depth : Nat} (hr : s.regionWithin? value depth e = some r) : s.LiesAt value r a t dims := by
  have hf : s.isStorageField f := isStorageField_of_find? hbuffer
  have hfield := field_of_find? hbuffer
  -- Each step takes the region and the access on by as much. A subscript of a field that is no
  -- array is the exception, which hdirect leaves out.
  induction h generalizing a depth r with
  | @whole e hnamed hdims hi =>
      have hwhole : s.bufferOf? s.storageFields e = some buffer := by
        rw [bufferOf?_of_namedVar? hnamed, hbuffer]
      have haccess := accessWithin?_field hwhole 0
      rw [ha 1 (Nat.lt_succ_self 0), Option.some.injEq] at haccess
      cases depth with
      | zero => cases hr
      | succ depth =>
          rw [regionWithin?, hwhole] at hr
          cases hr
          subst hfield
          rw [haccess]
          exact liesAt_fieldRegion hdims
  | @element e operand index d dims he hnamed hindex hdims =>
      have hnone := (Selects.element he hnamed hindex hdims).bufferOf?_eq_none
      have hoperand : s.bufferOf? s.storageFields operand = some buffer := by
        rw [bufferOf?_of_namedVar? hnamed, hbuffer]
      have haccess := accessWithin?_subscript he hnone (accessWithin?_field hoperand 0)
      rw [ha 2 (Nat.lt_succ_self 1), Option.some.injEq, hoperand] at haccess
      obtain ⟨depth, whole, hwhole, hr⟩ := exists_region_of_subscript he hnone hr
      cases depth with
      | zero => cases hwhole
      | succ depth =>
          rw [regionWithin?, hoperand] at hwhole
          cases hwhole
          subst hfield
          have hlies := liesAt_elementRegion (hdims ▸ List.cons_ne_nil d dims) hr
          rw [hdims] at hlies
          rw [haccess]
          exact hlies
  | entry he hnamed _ hdims => exact absurd hdims ((hdirect.of_subscript he).2 hnamed)
  | @item e operand index n t d dims start length k h he hn hlt hindex ih =>
      obtain ⟨a', ha', _⟩ := h.exists_access hbuffer
      have hnone := (h.item he hn hlt hindex).bufferOf?_eq_none
      have haccess := accessWithin?_subscript he hnone (ha' _ (Nat.lt_succ_self _))
      rw [ha _ (Nat.lt_succ_self _), Option.some.injEq, h.bufferOf?_eq_none] at haccess
      obtain ⟨depth, whole, hwhole, hr⟩ := exists_region_of_subscript he hnone hr
      have hlies := ih (hdirect.of_subscript he).1 ha' hwhole
      obtain ⟨hk, rfl⟩ := elementRegion?_array hlies.dims_eq hn hr
      rw [hlies.type_eq, haccess]
      refine hlies.part rfl ?_ fun p hp => ?_
      · rw [address_append, h.steppedOver_array hf]
        push_cast
        rfl
      · exact add_lt_of_leaves_subset s (leaves_item s hn hk "" 0) hp
  | @member e operand n id name g start h he hg hown ih =>
      obtain ⟨a', ha', _⟩ := h.exists_access hbuffer
      have hnone := (h.member he hg hown).bufferOf?_eq_none
      have haccess := accessWithin?_member he hnone (h.baseTypeOf? hf) (ha' _ (Nat.lt_succ_self _))
      rw [ha _ (Nat.lt_succ_self _), Option.some.injEq] at haccess
      obtain ⟨depth, whole, hwhole, hr⟩ := exists_region_of_member he hnone hr
      have hne : g ≠ f := by
        rintro rfl
        rw [hown] at hf
        cases hf
      have hlies := ih (hdirect.of_member he hne) ha' hwhole
      rw [memberRegion?_eq hlies.dims_eq hlies.type_eq hr, haccess]
      refine hlies.part rfl (address_offset _ _ _) fun p hp => ?_
      exact add_lt_of_leaves_subset s (leaves_field hs hg "" 0) hp
  | @component e operand index n b part start k h he hpart hle hindex ih =>
      obtain ⟨a', ha', _⟩ := h.exists_access hbuffer
      have hnone := (h.component he hpart hle hindex).bufferOf?_eq_none
      have haccess := accessWithin?_subscript he hnone (ha' _ (Nat.lt_succ_self _))
      rw [ha _ (Nat.lt_succ_self _), Option.some.injEq, h.bufferOf?_eq_none] at haccess
      obtain ⟨depth, whole, hwhole, hr⟩ := exists_region_of_subscript he hnone hr
      have hlies := ih (hdirect.of_subscript he).1 ha' hwhole
      obtain ⟨rfl, hend⟩ := elementRegion?_builtin hlies.dims_eq hlies.type_eq hpart hr
      rw [haccess]
      refine hlies.part rfl ?_ fun p hp => ?_
      · rw [address_append, h.steppedOver_component hf hpart]
        push_cast
        rfl
      · rw [sizeOfType_builtin, elementCount_nil, Nat.mul_one] at hp ⊢
        rw [Nat.add_mul] at hend
        omega
  | swizzle h he =>
      cases hdirect with
      | field hnamed => simp [namedVar?, he] at hnamed
      | subscript _ he' =>
          rw [he] at he'
          cases he'
      | member _ he' =>
          rw [he] at he'
          cases he'

end Shader

end ShaderBridge
