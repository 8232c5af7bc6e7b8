import ShaderBridge.Proofs.Layout.Region
import ShaderBridge.Proofs.Layout.Separation
import ShaderBridge.Proofs.Lowering.Keeping

/-!
Components of fields that are no arrays. Where such a field is subscripted, the index selects a
column or a component of it; but it is taken for the number of an element, as the index of an array
would be. So what is read is never the part that is named, and what is written goes there only from
the first column or component.
-/

namespace ShaderBridge

open Hlsl

open scoped PlainNumbers

namespace Shader

variable (s : Shader)

/-- A field of a storage block. A block that is there only to size the work group is left out with
its fields. -/
def IsBlockField (f : VarId) : Prop :=
  ∃ id ∈ s.blocks.toList, ∃ info, (s.struct id).block = some info ∧
    info.storage = .buffer ∧ sizesGroup info = false ∧ f ∈ (s.struct id).fields

/-- A field of a storage block that is no array. -/
structure IsSingleField (f : VarId) : Prop where
  block : s.IsBlockField f
  single : (s.var f).dims = []

/-- An expression names a column or a component of the field `f`, or a component of a column: the
one that begins `start` bytes behind the field. The indices have the given values, `i` being the
first of them and `rest` the others, the last one in front. -/
inductive NamesComponent (value : ExprId → Nat) (f : VarId) (i : Nat) :
    ExprId → List Nat → BuiltinType → Nat → Prop where
  | outer {e operand index : ExprId} {t part : BuiltinType} {n : Nat} :
      s.expr e = .subscript operand index → s.namedVar? operand = some f → value index = i →
      (s.var f).type = .builtin t → t.parts? = some (n, part) → i < n →
      NamesComponent value f i e [] part (i * builtinSize part)
  | inner {e operand index : ExprId} {t part : BuiltinType} {n k start : Nat} {rest : List Nat} :
      NamesComponent value f i operand rest t start → s.expr e = .subscript operand index →
      value index = k → t.parts? = some (n, part) → k < n →
      NamesComponent value f i e (k :: rest) part (start + k * builtinSize part)

/-- The value that the accessor of a field returns for the given number. -/
def loadedRegion (buffer : ByteBuffer) (k : Nat) : Region :=
  ⟨buffer.resource, (s.var buffer.field).type,
    (s.var buffer.field).dims.drop (s.outerDims buffer.field),
    fun p => k * buffer.stride + buffer.offset + p⟩

/-- A program has the accessor of a field, whose leaves are where the value that it returns lies. -/
def HasAccessor (buffer : ByteBuffer) (program : Program) : Prop :=
  ∃ leaves, .accessor (accessorName (s.var buffer.field).name)
      (s.hlslDeclaredType (s.var buffer.field).type) buffer.resource buffer.stride leaves ∈ program
        ∧
    ∀ k p, s.HasByte (s.loadedRegion buffer k) p → (s.loadedRegion buffer k).dims = [] →
      ∃ leaf ∈ leaves, ∃ b, leaf.Covers b ∧
        (s.loadedRegion buffer k).place p = k * buffer.stride + (b : Nat)

/-- What an expression of a program reads of a field where the indices in it have the given values,
the last one in front. A field is read by a call of its accessor, and a subscript selects from what
has been read. -/
def readPart? (accessor : String → Nat → Region) : Hlsl.Expr → List Nat → Option Region
  | .load field (.bytes n), [] => some (accessor field n)
  | .load field _, [k] => some (accessor field k)
  | .index e _, k :: rest => do s.elementRegion? (← readPart? accessor e rest) k
  | _, _ => none

/-- An expression is lowered to one that reads the given part of a field. -/
def ReadsPart (state : LoweringState) (buffer : ByteBuffer) (e : ExprId) (indices : List Nat)
    (r : Region) : Prop :=
  ∀ accessor : String → Nat → Region,
    accessor (s.var buffer.field).name = s.loadedRegion buffer →
    s.readPart? accessor ((s.lowerExpr s.storageFields e).run state).1 indices = some r

/-- What is written to an expression goes to the bytes that begin `start` bytes behind a field. -/
def WritesPart (value : ExprId → Nat) (buffer : ByteBuffer) (e : ExprId) (start : Nat) : Prop :=
  ∃ a, s.access? s.storageFields e = some a ∧ a.buffer = buffer ∧
    a.address (fun index => value index) = (buffer.offset + start : Nat)

variable {s}

section

variable {id : StructId} {buffer : ByteBuffer}

theorem hasAccessor_toProgram (options : Options) (hid : id ∈ s.blocks.toList)
    (hbuffer : buffer ∈ s.blockBuffers id) : s.HasAccessor buffer (s.toProgram options) := by
  refine ⟨_, blockStorage_subset_toProgram options hid (blockStorage_of_mem hbuffer), ?_⟩
  intro k p hp hdims
  have hlt : p < s.sizeOfType (s.var buffer.field).type *
      s.elementCount ((s.var buffer.field).dims.drop (s.outerDims buffer.field)) := by
    rcases hp with hp | ⟨d, hd, _⟩
    · exact hp
    · rw [hdims] at hd
      cases hd
  obtain ⟨leaf, hleaf, hcovers⟩ := (exists_covers_leaves s _ _ "ret" buffer.offset
    (buffer.offset + p)).2 ⟨Nat.le_add_right _ _, Nat.add_lt_add_left hlt _⟩
  refine ⟨leaf, hleaf, buffer.offset + p, hcovers, ?_⟩
  simp only [loadedRegion]
  push_cast
  omega

theorem IsBlockField.exists_place (hs : s.OwnsFields []) {f : VarId} (hf : s.IsBlockField f) :
    ∃ buffer, s.storageFields.find? (fun b => b.field == f) = some buffer ∧
      (∀ options, s.HasAccessor buffer (s.toProgram options)) ∧
      s.sizeOfElement f ≤ buffer.stride := by
  obtain ⟨id, hid, info, hinfo, hstorage, hsizes, hmem⟩ := hf
  obtain ⟨buffer, hbuffer, rfl⟩ : ∃ buffer ∈ s.byteBuffers id, buffer.field = f := by
    rw [← field_byteBuffers] at hmem
    exact List.mem_map.1 hmem
  have hplaces := blockBuffers_eq hs hinfo hstorage hsizes (List.ne_nil_of_mem hmem)
  have hstride : buffer.stride = s.bufferStride id := (resource_of_mem_placeFields hbuffer).2
  refine ⟨buffer, find?_storageFields hs hid (by rw [hplaces]; exact hbuffer),
    fun options => hasAccessor_toProgram options hid (by rw [hplaces]; exact hbuffer), ?_⟩
  rw [hstride]
  by_contra hlt
  -- The last byte of the field would lie behind the element.
  have hlast : s.HoldsByte buffer (buffer.offset + s.sizeOfElement buffer.field - 1) := by
    unfold HoldsByte
    omega
  have := hlast.lt_stride hbuffer
  omega

theorem sizeOfElement_of_single {f : VarId} (hdims : (s.var f).dims = []) :
    s.sizeOfElement f = s.sizeOfType (s.var f).type := by
  rw [sizeOfElement, sizeOfVar, hdims, List.drop_nil, elementCount_nil, Nat.mul_one]

end

section

variable {value : ExprId → Nat} {f : VarId} {i start : Nat} {e : ExprId} {rest : List Nat}
  {part : BuiltinType}

theorem NamesComponent.exists_selects (hdims : (s.var f).dims = [])
    (h : s.NamesComponent value f i e rest part start) :
    ∃ t first n start', (s.var f).type = .builtin t ∧ t.parts? = some (n, first) ∧
      s.Selects (fun index => value index) f i (rest.length + 1) e (.builtin part) [] start' ∧
      start = i * builtinSize first + start' := by
  induction h with
  | @outer e operand index t part n he hnamed hindex htype hpart hi =>
      refine ⟨t, part, n, 0, htype, hpart, ?_, rfl⟩
      apply Selects.entry he hnamed (congrArg Nat.cast hindex) hdims
      rw [htype]
      exact BuiltinType.elementType?_of_parts? hpart
  | @inner e operand index t part n k start rest h he hindex hpart hk ih =>
      obtain ⟨whole, first, m, start', htype, hfirst, hselects, rfl⟩ := ih
      refine ⟨whole, first, m, start' + k * builtinSize part, htype, hfirst, ?_,
        Nat.add_assoc _ _ _⟩
      apply hselects.component he (BuiltinType.elementType?_of_parts? hpart)
      · rw [BuiltinType.builtinSize_of_parts? hpart]
        exact Nat.mul_le_mul_right _ hk
      · exact congrArg Nat.cast hindex

/-- A part is written where it lies exactly where the first index is zero. -/
theorem NamesComponent.writesPart_iff {buffer : ByteBuffer} (hdims : (s.var f).dims = [])
    (hbuffer : s.storageFields.find? (fun b => b.field == f) = some buffer)
    (hstride : s.sizeOfElement f ≤ buffer.stride)
    (h : s.NamesComponent value f i e rest part start) :
    s.WritesPart value buffer e start ↔ i = 0 := by
  obtain ⟨t, first, n, start', htype, hfirst, hselects, rfl⟩ := h.exists_selects hdims
  obtain ⟨a, ha, hplace, haddress⟩ := hselects.exists_access hbuffer
  have haccess : s.access? s.storageFields e = some a :=
    ha _ (Nat.lt_succ_of_le (hselects.le_size (isStorageField_of_find? hbuffer)))
  -- The elements of the block are farther apart than the parts of the field.
  have hlt : builtinSize first < buffer.stride := by
    rw [sizeOfElement_of_single hdims, htype, sizeOfType_builtin] at hstride
    exact Nat.lt_of_lt_of_le (BuiltinType.builtinSize_part_lt hfirst) hstride
  have hwrites : s.WritesPart value buffer e (i * builtinSize first + start') ↔
      i * buffer.stride = i * builtinSize first := by
    constructor
    · rintro ⟨a', ha', _, haddress'⟩
      rw [haccess, Option.some.injEq] at ha'
      subst ha'
      rw [haddress] at haddress'
      push_cast at haddress'
      omega
    · intro heq
      refine ⟨a, haccess, hplace, ?_⟩
      rw [haddress, ← Int.natCast_mul, heq]
      push_cast
      omega
  rw [hwrites]
  constructor
  · intro heq
    by_contra hi
    exact Nat.ne_of_gt hlt (Nat.eq_of_mul_eq_mul_left (Nat.pos_of_ne_zero hi) heq)
  · rintro rfl
    rw [Nat.zero_mul, Nat.zero_mul]

theorem lookup_of_onlyCalls {state : LoweringState} (hstate : s.OnlyCalls state.done)
    (he : ∀ name args target, s.expr e ≠ .call name args target) :
    state.hoisted.lookup e = none := by
  rw [← Option.not_isSome_iff_eq_none, isSome_lookup_hoisted, List.contains_iff_mem]
  intro hmem
  obtain ⟨name, args, target, hcall⟩ := hstate e hmem
  exact he name args target hcall

variable {buffers : List ByteBuffer} {operand index : ExprId} {state : LoweringState}

theorem run_lowerWithin_entry {buffer : ByteBuffer} (he : s.expr e = .subscript operand index)
    (hbuffer : s.bufferOf? buffers operand = some buffer) (hstate : s.OnlyCalls state.done)
    (depth : Nat) :
    ∃ x, ((s.lowerWithin buffers (depth + 1) e).run state).1 = s.loadExpr buffer x := by
  have hlookup : state.hoisted.lookup e = none := lookup_of_onlyCalls hstate (by simp [he])
  refine ⟨((s.lowerWithin buffers depth index).run state).1, ?_⟩
  simp only [lowerWithin, StateT.run_bind, StateT.run_get, pure_bind, hlookup, he, hbuffer]
  rfl

theorem run_lowerWithin_subscript (he : s.expr e = .subscript operand index)
    (hnone : s.bufferOf? buffers operand = none) (hstate : s.OnlyCalls state.done) (depth : Nat) :
    ∃ x, ((s.lowerWithin buffers (depth + 1) e).run state).1 =
      .index ((s.lowerWithin buffers depth operand).run state).1 x := by
  have hlookup : state.hoisted.lookup e = none := lookup_of_onlyCalls hstate (by simp [he])
  refine ⟨((s.lowerWithin buffers depth index).run
    ((s.lowerWithin buffers depth operand).run state).2).1, ?_⟩
  simp only [lowerWithin, StateT.run_bind, StateT.run_get, pure_bind, hlookup, he, hnone]
  rfl

theorem type_of_elementRegion? {whole r : Region} {t part : BuiltinType} {n k : Nat}
    (hdims : whole.dims = []) (htype : whole.type = .builtin t) (hpart : t.parts? = some (n, part))
    (hr : s.elementRegion? whole k = some r) : r.type = .builtin part ∧ r.dims = [] := by
  rw [elementRegion?_eq hdims htype hpart] at hr
  split at hr
  · cases hr
    exact ⟨rfl, rfl⟩
  · cases hr

theorem NamesComponent.type_of_readPart? {buffer : ByteBuffer} (hdims : (s.var f).dims = [])
    (hbuffer : s.storageFields.find? (fun b => b.field == f) = some buffer)
    (h : s.NamesComponent value f i e rest part start) (hstate : s.OnlyCalls state.done)
    {accessor : String → Nat → Region}
    (haccessor : accessor (s.var f).name = s.loadedRegion buffer) {depth : Nat}
    (hdepth : rest.length < depth) {r : Region}
    (hr : s.readPart? accessor ((s.lowerWithin s.storageFields depth e).run state).1
      (rest ++ [i]) = some r) :
    ∃ t n, r.type = .builtin t ∧ r.dims = [] ∧ t.parts? = some (n, part) := by
  have hfield := field_of_find? hbuffer
  obtain ⟨depth, rfl⟩ := Nat.exists_eq_succ_of_ne_zero (Nat.ne_zero_of_lt hdepth)
  induction h generalizing depth r with
  | @outer e operand index t part n he hnamed hindex htype hpart hi =>
      have hoperand : s.bufferOf? s.storageFields operand = some buffer := by
        rw [bufferOf?_of_namedVar? hnamed, hbuffer]
      obtain ⟨x, hx⟩ := run_lowerWithin_entry he hoperand hstate depth
      have hread : r = s.loadedRegion buffer i := by
        rw [hx, loadExpr, hfield, List.nil_append] at hr
        simp only [readPart?, haccessor, Option.some.injEq] at hr
        exact hr.symm
      refine ⟨t, n, ?_, ?_, hpart⟩
      · rw [hread, loadedRegion, hfield, htype]
      · rw [hread, loadedRegion, hfield, hdims, List.drop_nil]
  | @inner e operand index t part n k start rest h he hindex hpart hk ih =>
      obtain ⟨_, _, _, _, _, _, hselects, _⟩ := h.exists_selects hdims
      obtain ⟨x, hx⟩ := run_lowerWithin_subscript he hselects.bufferOf?_eq_none hstate depth
      obtain ⟨depth, rfl⟩ :=
        Nat.exists_eq_succ_of_ne_zero (Nat.ne_zero_of_lt (Nat.lt_of_succ_lt_succ hdepth))
      rw [hx, List.cons_append, readPart?] at hr
      obtain ⟨whole, hwhole, hr⟩ := Option.bind_eq_some_iff.1 hr
      obtain ⟨u, m, htype, hnil, hparts⟩ := ih _ (Nat.lt_of_succ_lt_succ hdepth) hwhole
      obtain ⟨hrtype, hrdims⟩ := type_of_elementRegion? hnil htype hparts hr
      exact ⟨t, n, hrtype, hrdims, hpart⟩

theorem NamesComponent.not_readsPart {buffer : ByteBuffer} (hdims : (s.var f).dims = [])
    (hbuffer : s.storageFields.find? (fun b => b.field == f) = some buffer)
    (h : s.NamesComponent value f i e rest part start) (hstate : s.OnlyCalls state.done) :
    ¬s.ReadsPart state buffer e (rest ++ [i])
      ((s.loadedRegion buffer 0).part start (.builtin part) []) := by
  intro hreads
  obtain ⟨_, _, _, _, _, _, hselects, _⟩ := h.exists_selects hdims
  have hdepth : rest.length < s.exprs.size + 1 :=
    Nat.lt_succ_of_lt (hselects.le_size (isStorageField_of_find? hbuffer))
  have hr := hreads (fun _ => s.loadedRegion buffer) rfl
  obtain ⟨t, n, htype, _, hpart⟩ := h.type_of_readPart? hdims hbuffer hstate rfl hdepth hr
  have hsame : part = t := TypeRef.builtin.inj htype
  have hlt := BuiltinType.builtinSize_part_lt hpart
  rw [hsame] at hlt
  exact Nat.lt_irrefl _ hlt

end

section

variable {value : ExprId → Nat} {f : VarId} {i start : Nat} {e : ExprId} {rest : List Nat}
  {part : BuiltinType}

/-- A column or a component of a field that is no array is written to the bytes where it lies
exactly if the first index is zero, and what is read through the accessor of the field is never that
column or component. -/
theorem Accepted.component_iff (hs : s.Accepted) (hf : s.IsSingleField f)
    (h : s.NamesComponent value f i e rest part start) :
    ∃ buffer, s.storageFields.find? (fun b => b.field == f) = some buffer ∧
      (∀ options, s.HasAccessor buffer (s.toProgram options)) ∧
      (s.WritesPart value buffer e start ↔ i = 0) ∧
      ∀ state : LoweringState, s.OnlyCalls state.done →
        ¬s.ReadsPart state buffer e (rest ++ [i])
          ((s.loadedRegion buffer 0).part start (.builtin part) []) := by
  obtain ⟨buffer, hbuffer, haccessor, hstride⟩ := hf.block.exists_place hs.ownsFields
  exact ⟨buffer, hbuffer, haccessor, h.writesPart_iff hf.single hbuffer hstride,
    fun state hstate => h.not_readsPart hf.single hbuffer hstate⟩

end

/-- The tokens of `buffer B { mat2 m; } b; void f() { b.m[0][1] = b.m[1][0]; }`. -/
def cellStore : List TokenKind :=
  [.keyword (.storage .buffer), .ident "B", .punct .leftBrace,
    .keyword (.type (.squareMatrix .float .two)), .ident "m", .punct .semicolon, .punct .rightBrace,
    .ident "b", .punct .semicolon, .keyword (.type .void), .ident "f", .punct .leftParen,
    .punct .rightParen, .punct .leftBrace, .ident "b", .punct .dot, .ident "m", .punct .leftBracket,
    .number (.int 0), .punct .rightBracket, .punct .leftBracket, .number (.int 1),
    .punct .rightBracket, .punct .eq, .ident "b", .punct .dot, .ident "m", .punct .leftBracket,
    .number (.int 1), .punct .rightBracket, .punct .leftBracket, .number (.int 0),
    .punct .rightBracket, .punct .semicolon, .punct .rightBrace, .endOfFile]

/-- The values of the indices in it. -/
def cellIndex (e : ExprId) : Nat :=
  if e = ⟨20⟩ ∨ e = ⟨24⟩ then 1 else 0

theorem exists_cells :
    ∃ s : Shader, s.Accepted ∧ s.IsSingleField ⟨36⟩ ∧
      s.NamesComponent cellIndex ⟨36⟩ 0 ⟨21⟩ [1] (.scalar .float) 4 ∧
      s.NamesComponent cellIndex ⟨36⟩ 1 ⟨27⟩ [0] (.scalar .float) 8 := by
  obtain ⟨s, hs, hfacts⟩ := Parse.exists_accepted (a := true)
    (f := fun s =>
      decide ([17, 19, 21, 23, 25, 27].map (fun n => s.expr ⟨n⟩) =
        [.member ⟨16⟩ "m" (some ⟨36⟩), .subscript ⟨17⟩ ⟨18⟩, .subscript ⟨19⟩ ⟨20⟩,
          .member ⟨22⟩ "m" (some ⟨36⟩), .subscript ⟨23⟩ ⟨24⟩, .subscript ⟨25⟩ ⟨26⟩]) &&
      decide (((s.var ⟨36⟩).type, (s.var ⟨36⟩).dims) =
        (.builtin (.squareMatrix .float .two), [])) &&
      decide (s.struct ⟨0⟩ =
        { name := some "B", fields := [⟨36⟩], block := some { storage := .buffer } }) &&
      decide (s.blocks.toList = [⟨0⟩]))
    (show (Parse.plainShader? .fragment cellStore).map _ = _ by decide +kernel)
  simp only [Bool.and_eq_true, decide_eq_true_eq, List.map_cons, List.map_nil, List.cons.injEq,
    Prod.mk.injEq, and_true] at hfacts
  obtain ⟨⟨⟨⟨hleft, hcolumn, hcell, hright, hcolumn', hcell'⟩, htype, hdims⟩, hblock⟩, hblocks⟩ :=
    hfacts
  have hf : s.IsSingleField ⟨36⟩ := by
    refine ⟨⟨⟨0⟩, ?_, { storage := .buffer }, ?_, rfl, rfl, ?_⟩, hdims⟩
    · rw [hblocks]
      decide
    · rw [hblock]
    · rw [hblock]
      decide
  have houter : s.NamesComponent cellIndex ⟨36⟩ 0 ⟨19⟩ [] (.vector .float .two) 0 :=
    .outer hcolumn (by rw [namedVar?, hleft]) rfl htype rfl (by decide)
  have houter' : s.NamesComponent cellIndex ⟨36⟩ 1 ⟨25⟩ [] (.vector .float .two) 8 :=
    .outer hcolumn' (by rw [namedVar?, hright]) rfl htype rfl (by decide)
  exact ⟨s, hs, hf, houter.inner hcell rfl rfl (by decide), houter'.inner hcell' rfl rfl
    (by decide)⟩

/-- A component of the first column is written where it lies. -/
theorem exists_component_written :
    ∃ s : Shader, s.Accepted ∧ s.IsSingleField ⟨36⟩ ∧
      s.NamesComponent cellIndex ⟨36⟩ 0 ⟨21⟩ [1] (.scalar .float) 4 ∧
      ∃ buffer, s.storageFields.find? (fun b => b.field == ⟨36⟩) = some buffer ∧
        s.WritesPart cellIndex buffer ⟨21⟩ 4 := by
  obtain ⟨s, hs, hf, hcell, _⟩ := exists_cells
  obtain ⟨buffer, hbuffer, _, hwrites, _⟩ := Accepted.component_iff hs hf hcell
  exact ⟨s, hs, hf, hcell, buffer, hbuffer, hwrites.2 rfl⟩

/-- A component of the second column is neither written where it lies nor read from there. -/
theorem exists_component_misplaced :
    ∃ s : Shader, s.Accepted ∧ s.IsSingleField ⟨36⟩ ∧
      s.NamesComponent cellIndex ⟨36⟩ 1 ⟨27⟩ [0] (.scalar .float) 8 ∧
      ∃ buffer, s.storageFields.find? (fun b => b.field == ⟨36⟩) = some buffer ∧
        ¬s.WritesPart cellIndex buffer ⟨27⟩ 8 ∧
        ¬s.ReadsPart {} buffer ⟨27⟩ [0, 1]
          ((s.loadedRegion buffer 0).part 8 (.builtin (.scalar .float)) []) := by
  obtain ⟨s, hs, hf, _, hcell⟩ := exists_cells
  obtain ⟨buffer, hbuffer, _, hstride⟩ := hf.block.exists_place hs.ownsFields
  refine ⟨s, hs, hf, hcell, buffer, hbuffer, ?_, ?_⟩
  · rw [hcell.writesPart_iff hf.single hbuffer hstride]
    decide
  · exact hcell.not_readsPart hf.single hbuffer (List.forall_mem_nil _)

end Shader

end ShaderBridge
