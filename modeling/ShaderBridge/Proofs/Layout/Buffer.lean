import ShaderBridge.Proofs.Layout.Selection

/-!
Fields of storage blocks in their places. Every field has one place, since it belongs to one block
and stands there once; so what is found for a field is where its accessor reads from.

A part is selected from an element of such a field by subscripts and members, one behind the other.
Where the expression that does so is an access, its address is told by the same selections as the
leaves of the part.
-/

/-! ## Parts of elements -/

namespace ShaderBridge

open Hlsl

open scoped PlainNumbers

/-- One step from a value to a part of it. -/
inductive Selector where
  /-- An element of an array, or a column of a matrix. -/
  | item (k : Nat)
  | field (id : VarId)
deriving DecidableEq, Repr

namespace Shader

variable (s : Shader)

/-- How the accessor of a field names a part of what it returns. The last selection comes first. -/
def partPath : List Selector → String
  | [] => "ret"
  | .item k :: rest => elementPath (partPath rest) k
  | .field g :: rest => partPath rest ++ "." ++ (s.var g).name

/-- An expression names a part of element `i` of the field `f`, its indices having the given values:
the field is subscripted first, and then come the indices of arrays and matrices and the members of
structures, which have to be of some sort. -/
inductive NamesPart (sort : VarId → Prop) (value : ExprId → Int) (f : VarId) (i : Int) :
    ExprId → List Selector → TypeRef → List (Option ExprId) → Prop where
  | element {e operand index : ExprId} :
      s.expr e = .subscript operand index → s.namedVar? operand = some f → value index = i →
      NamesPart sort value f i e [] (s.var f).type ((s.var f).dims.drop 1)
  | item {e operand index : ExprId} {path : List Selector} {t : TypeRef} {d : Option ExprId}
      {dims : List (Option ExprId)} {n k : Nat} :
      NamesPart sort value f i operand path t (d :: dims) → s.expr e = .subscript operand index →
      s.arrayLength? d = some n → k < n → value index = k →
      NamesPart sort value f i e (.item k :: path) t dims
  | member {e operand : ExprId} {path : List Selector} {id : StructId} {name : String}
      {g : VarId} :
      NamesPart sort value f i operand path (.declared id) [] →
      s.expr e = .member operand name (some g) → g ∈ (s.struct id).fields → sort g →
      NamesPart sort value f i e (.field g :: path) (s.var g).type (s.var g).dims
  | column {e operand index : ExprId} {path : List Selector} {t column : BuiltinType}
      {columns rows k : Nat} :
      NamesPart sort value f i operand path (.builtin t) [] → s.expr e = .subscript operand index →
      t.matrixDims? = some (columns, rows) → t.matrixColumn? = some column → k < columns →
      value index = k → NamesPart sort value f i e (.item k :: path) (.builtin column) []

end Shader

/-- The address that an access stands for where indices have the given values. -/
def Hlsl.Access.address (a : Access) (value : ExprId → Int) : Int :=
  (a.terms.map fun (index, bytes) => value index * bytes).sum + a.offset

namespace Shader

variable {s : Shader} {value : ExprId → Int} {f : VarId} {i : Int} {e : ExprId}
  {path : List Selector} {t : TypeRef} {dims : List (Option ExprId)}

theorem NamesPart.exists_selects (hs : s.OwnsFields []) (hdims : (s.var f).dims ≠ [])
    (h : s.NamesPart s.InElement value f i e path t dims) :
    ∃ start, s.Selects value f i (path.length + 1) e t dims start ∧ ∀ offset,
      (s.leaves t dims (s.partPath path) (offset + start)).leaves ⊆
        (s.leaves (s.var f).type ((s.var f).dims.drop 1) "ret" offset).leaves := by
  induction h with
  | element he hnamed hindex =>
      obtain ⟨d, dims, hcons⟩ := List.exists_cons_of_ne_nil hdims
      rw [hcons]
      exact ⟨0, .element he hnamed hindex hcons, fun offset => List.Subset.refl _⟩
  | item h he hn hlt hindex ih =>
      obtain ⟨start, hselects, hleaves⟩ := ih
      refine ⟨_, hselects.item he hn hlt hindex, fun offset => ?_⟩
      rw [← Nat.add_assoc]
      exact List.Subset.trans (leaves_item s hn hlt _ _) (hleaves offset)
  | member h he hg hown ih =>
      obtain ⟨start, hselects, hleaves⟩ := ih
      refine ⟨_, hselects.member he hg hown, fun offset => ?_⟩
      rw [← Nat.add_assoc]
      exact List.Subset.trans (leaves_field hs hg _ _) (hleaves offset)
  | column h he hm hcolumn hlt hindex ih =>
      obtain ⟨start, hselects, hleaves⟩ := ih
      refine ⟨_, hselects.component he (elementType?_of_matrix hcolumn) ?_ hindex, fun offset => ?_⟩
      · rw [builtinSize_of_matrix hm hcolumn, Nat.mul_comm]
        exact Nat.mul_le_mul_left _ hlt
      · rw [← Nat.add_assoc]
        exact List.Subset.trans (leaves_column s hm hcolumn hlt _ _) (hleaves offset)

end Shader

end ShaderBridge

/-! ## Places of fields -/

namespace ShaderBridge

open Hlsl

namespace Shader

variable {s : Shader}

theorem field_placeFields (s : Shader) (resource : String) (stride offset : Nat)
    (fields : List VarId) :
    (s.placeFields resource stride offset fields).map ByteBuffer.field = fields := by
  induction fields generalizing offset with
  | nil => rfl
  | cons field rest ih => rw [placeFields, List.map_cons, ih]

theorem field_byteBuffers (s : Shader) (id : StructId) :
    (s.byteBuffers id).map ByteBuffer.field = (s.struct id).fields :=
  field_placeFields s _ _ _ _

section

variable {id : StructId} {info : BlockInfo}

theorem blockBuffers_eq (hs : s.OwnsFields []) (hinfo : (s.struct id).block = some info)
    (hstorage : info.storage = .buffer) (hsizes : sizesGroup info = false)
    (hfields : (s.struct id).fields ≠ []) : s.blockBuffers id = s.byteBuffers id := by
  obtain ⟨name, hname⟩ := Option.isSome_iff_exists.1 (hs.named id (by simp [hinfo]) hfields)
  unfold blockBuffers
  rw [hinfo, hname]
  simp [hsizes, hstorage]

theorem blockStorage_eq (hs : s.OwnsFields []) (hinfo : (s.struct id).block = some info)
    (hstorage : info.storage = .buffer) (hsizes : sizesGroup info = false)
    (hfields : (s.struct id).fields ≠ []) : s.blockStorage id = s.storageDecls id info := by
  obtain ⟨name, hname⟩ := Option.isSome_iff_exists.1 (hs.named id (by simp [hinfo]) hfields)
  unfold blockStorage
  rw [hinfo, hname]
  simp [hsizes, hstorage]

end

theorem mem_byteBuffers_of_mem_blockBuffers {id : StructId} {buffer : ByteBuffer}
    (h : buffer ∈ s.blockBuffers id) : buffer ∈ s.byteBuffers id := by
  unfold blockBuffers at h
  split at h
  · split at h
    · exact h
    · cases h
  · cases h

theorem find?_storageFields (hs : s.OwnsFields []) {id : StructId} (hid : id ∈ s.blocks.toList)
    {buffer : ByteBuffer} (hbuffer : buffer ∈ s.blockBuffers id) :
    s.storageFields.find? (fun b => b.field == buffer.field) = some buffer := by
  have hunique {b : ByteBuffer} (hb : b ∈ s.storageFields) (hfield : b.field = buffer.field) :
      b = buffer := by
    obtain ⟨other, _, hother⟩ := List.mem_flatMap.1 hb
    have hplace := mem_byteBuffers_of_mem_blockBuffers hbuffer
    have hplace' := mem_byteBuffers_of_mem_blockBuffers hother
    have hmem : buffer.field ∈ (s.struct id).fields := by
      rw [← field_byteBuffers]
      exact List.mem_map_of_mem hplace
    have hmem' : buffer.field ∈ (s.struct other).fields := by
      rw [← field_byteBuffers, ← hfield]
      exact List.mem_map_of_mem hplace'
    have howner := hs.owner_unique hmem hmem'
    subst howner
    have hnodup := hs.nodup_fields id
    rw [← field_byteBuffers] at hnodup
    exact List.inj_on_of_nodup_map hnodup hplace' hplace hfield
  have hmem : buffer ∈ s.storageFields := List.mem_flatMap.2 ⟨id, hid, hbuffer⟩
  cases hfind : s.storageFields.find? (fun b => b.field == buffer.field) with
  | none => exact absurd (beq_self_eq_true buffer.field) (List.find?_eq_none.1 hfind buffer hmem)
  | some b =>
      have hfield : b.field = buffer.field := by simpa using List.find?_some hfind
      rw [hunique (List.mem_of_find?_eq_some hfind) hfield]

/-! ### Accesses to parts -/

variable {value : ExprId → Int} {f : VarId} {i : Int} {e : ExprId} {path : List Selector}
  {t : TypeRef} {dims : List (Option ExprId)} {buffer : ByteBuffer} {n start : Nat}

theorem bufferOf?_of_namedVar? {buffers : List ByteBuffer} {v : VarId}
    (hv : s.namedVar? e = some v) :
    s.bufferOf? buffers e = buffers.find? fun b => b.field == v := by
  unfold bufferOf?
  rw [hv, Option.bind_eq_bind, Option.bind_some]

theorem Selects.bufferOf?_eq_none (h : s.Selects value f i (n + 1) e t dims start) :
    s.bufferOf? s.storageFields e = none := by
  cases hv : s.namedVar? e with
  | none =>
      unfold bufferOf?
      rw [hv]
      rfl
  | some v =>
      have hown := h.isStorageField_eq_false hv
      rw [bufferOf?_of_namedVar? hv, List.find?_eq_none]
      exact List.any_eq_false.1 hown

theorem address_append (a : Access) (index : ExprId) (bytes : Nat) (value : ExprId → Int) :
    Access.address { a with terms := a.terms ++ [(index, bytes)] } value =
      a.address value + value index * bytes := by
  simp only [Access.address, List.map_append, List.sum_append, List.map_cons, List.map_nil,
    List.sum_cons, List.sum_nil]
  omega

theorem address_offset (a : Access) (bytes : Nat) (value : ExprId → Int) :
    Access.address { a with offset := a.offset + bytes } value = a.address value + bytes := by
  simp only [Access.address]
  omega

/-- Where an access comes from: a field of a buffer, or the access to the operand. -/
inductive AccessStep (s : Shader) (buffers : List ByteBuffer) (depth : Nat) (e : ExprId) :
    Access → Prop where
  | field {buffer : ByteBuffer} (hsome : s.bufferOf? buffers e = some buffer) :
      AccessStep s buffers depth e { buffer, offset := buffer.offset }
  | subscript {operand index : ExprId} {a : Access} (bytes : Nat)
      (hnone : s.bufferOf? buffers e = none) (he : s.expr e = .subscript operand index)
      (ha : s.accessWithin? buffers depth operand = some a) :
      AccessStep s buffers depth e { a with terms := a.terms ++ [(index, bytes)] }
  | member {operand : ExprId} {name : String} {field : Option VarId} {a : Access} (offset : Nat)
      (hnone : s.bufferOf? buffers e = none) (he : s.expr e = .member operand name field)
      (ha : s.accessWithin? buffers depth operand = some a) :
      AccessStep s buffers depth e { a with offset }

theorem accessStep_of_accessWithin? {buffers : List ByteBuffer} {depth : Nat} {a : Access}
    (h : s.accessWithin? buffers (depth + 1) e = some a) : s.AccessStep buffers depth e a := by
  unfold accessWithin? at h
  cases hbuffer : s.bufferOf? buffers e with
  | some buffer =>
      rw [hbuffer] at h
      cases h
      exact .field hbuffer
  | none =>
      rw [hbuffer] at h
      cases hexpr : s.expr e with
      | subscript operand index =>
          rw [hexpr] at h
          obtain ⟨whole, hwhole, h⟩ := Option.bind_eq_some_iff.1 h
          cases h
          exact .subscript _ hbuffer hexpr hwhole
      | member operand name field =>
          rw [hexpr] at h
          obtain ⟨whole, hwhole, h⟩ := Option.bind_eq_some_iff.1 h
          obtain ⟨type, -, h⟩ := Option.bind_eq_some_iff.1 h
          split at h
          · cases h
            exact .member _ hbuffer hexpr hwhole
          · cases h
            exact .member _ hbuffer hexpr hwhole
          · cases h
      | _ =>
          rw [hexpr] at h
          cases h

theorem field_of_find? (hbuffer : s.storageFields.find? (fun b => b.field == f) = some buffer) :
    buffer.field = f := by
  simpa using List.find?_some hbuffer

theorem isStorageField_of_find?
    (hbuffer : s.storageFields.find? (fun b => b.field == f) = some buffer) :
    s.isStorageField f :=
  List.any_eq_true.2 ⟨buffer, List.mem_of_find?_eq_some hbuffer,
    beq_iff_eq.2 (field_of_find? hbuffer)⟩

theorem accessWithin?_subscript {buffers : List ByteBuffer} {operand index : ExprId}
    (he : s.expr e = .subscript operand index) (hnone : s.bufferOf? buffers e = none) {a : Access}
    {depth : Nat} (ha : s.accessWithin? buffers depth operand = some a) :
    s.accessWithin? buffers (depth + 1) e =
      some { a with terms := a.terms ++ [(index, match s.bufferOf? buffers operand with
        | some buffer => buffer.stride
        | none => s.steppedOver operand)] } := by
  rw [accessWithin?, hnone, he]
  dsimp only
  rw [ha]
  rfl

theorem accessWithin?_member {buffers : List ByteBuffer} {operand : ExprId} {name : String}
    {g : VarId} {id : StructId} (he : s.expr e = .member operand name (some g))
    (hnone : s.bufferOf? buffers e = none) (htype : s.baseTypeOf? operand = some (.declared id))
    {a : Access} {depth : Nat} (ha : s.accessWithin? buffers depth operand = some a) :
    s.accessWithin? buffers (depth + 1) e =
      some { a with offset := a.offset + s.fieldOffset id g } := by
  rw [accessWithin?, hnone, he]
  dsimp only
  rw [ha, htype]
  rfl

theorem accessWithin?_field {buffers : List ByteBuffer}
    (hsome : s.bufferOf? buffers e = some buffer) (depth : Nat) :
    s.accessWithin? buffers (depth + 1) e = some { buffer, offset := buffer.offset } := by
  rw [accessWithin?, hsome]

theorem accessWithin?_swizzle {buffers : List ByteBuffer} {operand : ExprId} {name : String}
    {b : BuiltinType} (he : s.expr e = .member operand name none)
    (hnone : s.bufferOf? buffers e = none) (htype : s.baseTypeOf? operand = some (.builtin b))
    {a : Access} {depth : Nat} (ha : s.accessWithin? buffers depth operand = some a) :
    s.accessWithin? buffers (depth + 1) e =
      some { a with offset := a.offset + swizzleOffset b name } := by
  rw [accessWithin?, hnone, he]
  dsimp only
  rw [ha, htype]
  rfl

/-- The access to a part of an element begins where the part does. -/
theorem Selects.exists_access
    (hbuffer : s.storageFields.find? (fun b => b.field == f) = some buffer)
    (h : s.Selects value f i n e t dims start) :
    ∃ a, (∀ depth, n < depth → s.accessWithin? s.storageFields depth e = some a) ∧
      a.buffer = buffer ∧
      a.address value = i * buffer.stride + (buffer.offset : Nat) + (start : Nat) := by
  have hf : s.isStorageField f := isStorageField_of_find? hbuffer
  induction h with
  | @whole e hnamed hdims hi =>
      have hfield : s.bufferOf? s.storageFields e = some buffer := by
        rw [bufferOf?_of_namedVar? hnamed, hbuffer]
      refine ⟨{ buffer, offset := buffer.offset }, fun depth hdepth => ?_, rfl, ?_⟩
      · obtain ⟨depth, rfl⟩ := Nat.exists_eq_succ_of_ne_zero (Nat.ne_zero_of_lt hdepth)
        exact accessWithin?_field hfield depth
      · simp [Access.address, hi]
  | @element e operand index d dims he hnamed hindex hdims =>
      have hnone := (Selects.element he hnamed hindex hdims).bufferOf?_eq_none
      have hoperand : s.bufferOf? s.storageFields operand = some buffer := by
        rw [bufferOf?_of_namedVar? hnamed, hbuffer]
      refine ⟨{ buffer, terms := [(index, buffer.stride)], offset := buffer.offset },
        fun depth hdepth => ?_, rfl, ?_⟩
      · obtain ⟨depth, rfl⟩ := Nat.exists_eq_add_of_le' (show 2 ≤ depth from hdepth)
        rw [accessWithin?_subscript he hnone (accessWithin?_field hoperand depth), hoperand]
        rfl
      · simp [Access.address, hindex]
  | @entry e operand index t he hnamed hindex hdims htype =>
      have hnone := (Selects.entry he hnamed hindex hdims htype).bufferOf?_eq_none
      have hoperand : s.bufferOf? s.storageFields operand = some buffer := by
        rw [bufferOf?_of_namedVar? hnamed, hbuffer]
      refine ⟨{ buffer, terms := [(index, buffer.stride)], offset := buffer.offset },
        fun depth hdepth => ?_, rfl, ?_⟩
      · obtain ⟨depth, rfl⟩ := Nat.exists_eq_add_of_le' (show 2 ≤ depth from hdepth)
        rw [accessWithin?_subscript he hnone (accessWithin?_field hoperand depth), hoperand]
        rfl
      · simp [Access.address, hindex]
  | @item e operand index n t d dims start length k h he hn hlt hindex ih =>
      obtain ⟨a, ha, hbuffer, haddress⟩ := ih
      have hnone := (h.item he hn hlt hindex).bufferOf?_eq_none
      refine ⟨{ a with terms := a.terms ++ [(index, s.steppedOver operand)] },
        fun depth hdepth => ?_, hbuffer, ?_⟩
      · obtain ⟨depth, rfl⟩ := Nat.exists_eq_succ_of_ne_zero (Nat.ne_zero_of_lt hdepth)
        rw [accessWithin?_subscript he hnone (ha depth (Nat.lt_of_succ_lt_succ hdepth)),
          h.bufferOf?_eq_none]
      · rw [address_append, haddress, hindex, h.steppedOver_array hf]
        push_cast
        omega
  | @member e operand n id name g start h he hg hown ih =>
      obtain ⟨a, ha, hbuffer, haddress⟩ := ih
      have hnone := (h.member he hg hown).bufferOf?_eq_none
      refine ⟨{ a with offset := a.offset + s.fieldOffset id g }, fun depth hdepth => ?_, hbuffer,
        ?_⟩
      · obtain ⟨depth, rfl⟩ := Nat.exists_eq_succ_of_ne_zero (Nat.ne_zero_of_lt hdepth)
        exact accessWithin?_member he hnone (h.baseTypeOf? hf)
          (ha depth (Nat.lt_of_succ_lt_succ hdepth))
      · rw [address_offset, haddress]
        push_cast
        omega
  | @component e operand index n b part start k h he hpart hle hindex ih =>
      obtain ⟨a, ha, hbuffer, haddress⟩ := ih
      have hnone := (h.component he hpart hle hindex).bufferOf?_eq_none
      refine ⟨{ a with terms := a.terms ++ [(index, s.steppedOver operand)] },
        fun depth hdepth => ?_, hbuffer, ?_⟩
      · obtain ⟨depth, rfl⟩ := Nat.exists_eq_succ_of_ne_zero (Nat.ne_zero_of_lt hdepth)
        rw [accessWithin?_subscript he hnone (ha depth (Nat.lt_of_succ_lt_succ hdepth)),
          h.bufferOf?_eq_none]
      · rw [address_append, haddress, hindex, h.steppedOver_component hf hpart]
        push_cast
        omega
  | @swizzle e operand n b part name start h he hvector hle ih =>
      obtain ⟨a, ha, hbuffer, haddress⟩ := ih
      have hnone := (h.swizzle he hvector hle).bufferOf?_eq_none
      refine ⟨{ a with offset := a.offset + swizzleOffset b name }, fun depth hdepth => ?_, hbuffer,
        ?_⟩
      · obtain ⟨depth, rfl⟩ := Nat.exists_eq_succ_of_ne_zero (Nat.ne_zero_of_lt hdepth)
        exact accessWithin?_swizzle he hnone (h.baseTypeOf? hf)
          (ha depth (Nat.lt_of_succ_lt_succ hdepth))
      · rw [address_offset, haddress]
        push_cast
        omega

theorem NamesPart.access (hs : s.OwnsFields [])
    (hbuffer : s.storageFields.find? (fun b => b.field == f) = some buffer)
    (hdims : (s.var f).dims ≠ []) (h : s.NamesPart s.InElement value f i e path t dims) :
    ∃ a start, (∀ depth, path.length + 2 ≤ depth →
        s.accessWithin? s.storageFields depth e = some a) ∧
      a.buffer = buffer ∧ a.address value = i * buffer.stride + (start : Nat) ∧
      (s.leaves t dims (s.partPath path) start).leaves ⊆
        (s.elementLeaves buffer "ret").leaves := by
  obtain ⟨start, hselects, hleaves⟩ := h.exists_selects hs hdims
  obtain ⟨a, ha, hplace, haddress⟩ := hselects.exists_access hbuffer
  have houter : s.outerDims f = 1 :=
    Nat.min_eq_left (Nat.one_le_iff_ne_zero.2 (mt List.length_eq_zero_iff.1 hdims))
  refine ⟨a, buffer.offset + start, ha, hplace, ?_, ?_⟩
  · rw [haddress]
    push_cast
    omega
  · unfold elementLeaves
    rw [field_of_find? hbuffer, houter]
    exact hleaves buffer.offset

end Shader

end ShaderBridge
