import ShaderBridge.Proofs.Layout.Buffer
import ShaderBridge.Proofs.Parse.Structure

namespace ShaderBridge

open Hlsl

namespace Shader

variable (s : Shader)

/-- The access to an expression is one to the resource that the accessor of `f` reads, and its
address is where the accessor, called with `i`, reads the leaf of the given path and type from. -/
def AgreesWithAccessor (options : Options) (f : VarId) (value : ExprId → Int) (i : Int)
    (e : ExprId) (path : List Selector) (t : BuiltinType) : Prop :=
  ∃ a leaves leaf, s.access? s.storageFields e = some a ∧
    .accessor (accessorName (s.var f).name) (s.hlslDeclaredType (s.var f).type) a.buffer.resource
      a.buffer.stride leaves ∈ s.toProgram options ∧
    leaf ∈ leaves ∧ leaf.path = s.partPath path ∧ leaf.type = t ∧
    a.address value = i * a.buffer.stride + leaf.offset

/-- A field of a storage block that is declared as an array. A block that is there only to size the
work group is left out with its fields. -/
structure IsArrayField (f : VarId) : Prop where
  block : ∃ id ∈ s.blocks.toList, ∃ info, (s.struct id).block = some info ∧
    info.storage = .buffer ∧ sizesGroup info = false ∧ f ∈ (s.struct id).fields
  array : (s.var f).dims ≠ []

variable {s}

theorem isArrayField_of_struct {id : StructId} {name : Option String} {fields : List VarId}
    {f : VarId} (hid : id ∈ s.blocks.toList)
    (hstruct : s.struct id = { name, fields, block := some { storage := .buffer } })
    (hf : f ∈ fields) (hdims : (s.var f).dims ≠ []) : s.IsArrayField f := by
  constructor
  · refine ⟨id, hid, { storage := .buffer }, ?_, rfl, rfl, ?_⟩
    · rw [hstruct]
    · rw [hstruct]
      exact hf
  · exact hdims

/-- Whatever part of an element is named, it is written to where it is read from. -/
theorem agreesWithAccessor (hs : s.Accepted) (options : Options) {f : VarId}
    (hf : s.IsArrayField f) {value : ExprId → Int} {i : Int} {e : ExprId} {path : List Selector}
    {t : BuiltinType} (hpart : s.NamesPart s.InElement value f i e path (.builtin t) [])
    (hleaf : t.matrixDims? = none) : s.AgreesWithAccessor options f value i e path t := by
  have howns := hs.ownsFields
  obtain ⟨id, hid, info, hinfo, hstorage, hsizes, hmem⟩ := hf.block
  have hfields : (s.struct id).fields ≠ [] := List.ne_nil_of_mem hmem
  have hplaces := blockBuffers_eq howns hinfo hstorage hsizes hfields
  obtain ⟨buffer, hbuffer, rfl⟩ : ∃ buffer ∈ s.byteBuffers id, buffer.field = f := by
    rw [← field_byteBuffers] at hmem
    exact List.mem_map.1 hmem
  have hfind := find?_storageFields howns hid (by rw [hplaces]; exact hbuffer)
  obtain ⟨a, start, ha, hplace, haddress, hleaves⟩ := hpart.access howns hfind hf.array
  obtain ⟨_, hselects, _⟩ := hpart.exists_selects howns hf.array
  have hdepth := hselects.le_size (isStorageField_of_find? hfind)
  refine ⟨a, (s.elementLeaves buffer "ret").leaves, ⟨s.partPath path, start, t⟩, ?_, ?_, ?_, rfl,
    rfl, ?_⟩
  · exact ha _ (by omega)
  · apply blockStorage_subset_toProgram options hid
    rw [blockStorage_eq howns hinfo hstorage hsizes hfields, hplace]
    exact List.mem_cons_of_mem _ (List.mem_map.2 ⟨buffer, hbuffer, rfl⟩)
  · apply hleaves
    rw [leaves_single s hleaf]
    exact List.mem_singleton_self _
  · rw [haddress, hplace]

/-- The tokens of
`struct S { int a; mat2 m[3]; }; buffer B { int n; S s[]; } b;
void f(int i) { b.s[i].m[1][0] = vec2(0); }`. -/
def columnStore : List TokenKind :=
  [.keyword (.word .struct), .ident "S", .punct .leftBrace, .keyword (.type (.scalar .int)),
    .ident "a", .punct .semicolon, .keyword (.type (.squareMatrix .float .two)), .ident "m",
    .punct .leftBracket, .number (.int 3), .punct .rightBracket, .punct .semicolon,
    .punct .rightBrace, .punct .semicolon, .keyword (.storage .buffer), .ident "B",
    .punct .leftBrace, .keyword (.type (.scalar .int)), .ident "n", .punct .semicolon, .ident "S",
    .ident "s", .punct .leftBracket, .punct .rightBracket, .punct .semicolon, .punct .rightBrace,
    .ident "b", .punct .semicolon, .keyword (.type .void), .ident "f", .punct .leftParen,
    .keyword (.type (.scalar .int)), .ident "i", .punct .rightParen, .punct .leftBrace, .ident "b",
    .punct .dot, .ident "s", .punct .leftBracket, .ident "i", .punct .rightBracket, .punct .dot,
    .ident "m", .punct .leftBracket, .number (.int 1), .punct .rightBracket, .punct .leftBracket,
    .number (.int 0), .punct .rightBracket, .punct .eq, .keyword (.type (.vector .float .two)),
    .punct .leftParen, .number (.int 0), .punct .rightParen, .punct .semicolon, .punct .rightBrace,
    .endOfFile]

/-- The values that the indices of the assignment in it may have. -/
def columnIndex (e : ExprId) : Int :=
  if e = ⟨19⟩ then 5 else if e = ⟨22⟩ then 1 else 0

/-- Columns of matrices in arrays in structures are written to where they are read from. -/
theorem agreesWithAccessor_column :
    ∃ s : Shader, s.Accepted ∧ s.IsArrayField ⟨39⟩ ∧
      s.NamesPart s.InElement columnIndex ⟨39⟩ 5 ⟨25⟩ [.item 0, .item 1, .field ⟨37⟩]
        (.builtin (.vector .float .two)) [] ∧
      s.AgreesWithAccessor {} ⟨39⟩ columnIndex 5 ⟨25⟩ [.item 0, .item 1, .field ⟨37⟩]
        (.vector .float .two) := by
  obtain ⟨s, hs, hfacts⟩ := Parse.exists_accepted (a := true)
    (f := fun s =>
      decide ([18, 20, 21, 23, 25].map (fun n => s.expr ⟨n⟩) =
        [.member ⟨17⟩ "s" (some ⟨39⟩), .subscript ⟨18⟩ ⟨19⟩, .member ⟨20⟩ "m" (some ⟨37⟩),
          .subscript ⟨21⟩ ⟨22⟩, .subscript ⟨23⟩ ⟨24⟩]) &&
      decide ([37, 39].map (fun n => ((s.var ⟨n⟩).type, (s.var ⟨n⟩).dims)) =
        [(.builtin (.squareMatrix .float .two), [some ⟨16⟩]), (.declared ⟨0⟩, [none])]) &&
      decide ((s.struct ⟨0⟩).fields = [⟨36⟩, ⟨37⟩]) &&
      decide (s.struct ⟨1⟩ =
        { name := some "B", fields := [⟨38⟩, ⟨39⟩], block := some { storage := .buffer } }) &&
      decide (s.blocks.toList = [⟨1⟩]) && decide (s.arrayLength? (some ⟨16⟩) = some 3) &&
      decide (s.isStorageField ⟨37⟩ = false))
    (show (Parse.plainShader? .fragment columnStore).map _ = _ by decide +kernel)
  simp only [Bool.and_eq_true, decide_eq_true_eq, List.map_cons, List.map_nil, List.cons.injEq,
    Prod.mk.injEq, and_true] at hfacts
  obtain ⟨⟨⟨⟨⟨⟨⟨hfield, helement, hm, hitem, hcolumn⟩, ⟨hmatrix, hdims⟩, htype, harray⟩, hparts⟩,
    hblock⟩, hblocks⟩, hlength⟩, hown⟩ := hfacts
  have hf : s.IsArrayField ⟨39⟩ := by
    apply isArrayField_of_struct _ hblock
    · decide
    · rw [harray]
      decide
    · rw [hblocks]
      decide
  have helement : s.NamesPart s.InElement columnIndex ⟨39⟩ 5 ⟨20⟩ [] (.declared ⟨0⟩) [] := by
    have h : s.NamesPart s.InElement columnIndex ⟨39⟩ 5 ⟨20⟩ [] (s.var ⟨39⟩).type
        ((s.var ⟨39⟩).dims.drop 1) := .element helement (by rw [namedVar?, hfield]) rfl
    rwa [htype, harray] at h
  have hmember : s.NamesPart s.InElement columnIndex ⟨39⟩ 5 ⟨21⟩ [.field ⟨37⟩]
      (.builtin (.squareMatrix .float .two)) [some ⟨16⟩] := by
    have h := helement.member hm (by rw [hparts]; decide) hown
    rwa [hmatrix, hdims] at h
  have hitem := hmember.item hitem hlength (k := 1) (by decide) rfl
  have hpart := hitem.column (k := 0) hcolumn rfl rfl (by decide) rfl
  exact ⟨s, hs, hf, hpart, agreesWithAccessor hs {} hf hpart rfl⟩

/-- The tokens of `buffer B { buffer C { int x; } c[4]; } b; void f(int i) { b.c[i].x = 1; }`. -/
def nestedStore : List TokenKind :=
  [.keyword (.storage .buffer), .ident "B", .punct .leftBrace, .keyword (.storage .buffer),
    .ident "C", .punct .leftBrace, .keyword (.type (.scalar .int)), .ident "x", .punct .semicolon,
    .punct .rightBrace, .ident "c", .punct .leftBracket, .number (.int 4), .punct .rightBracket,
    .punct .semicolon, .punct .rightBrace, .ident "b", .punct .semicolon,
    .keyword (.type .void), .ident "f", .punct .leftParen, .keyword (.type (.scalar .int)),
    .ident "i", .punct .rightParen, .punct .leftBrace, .ident "b", .punct .dot, .ident "c",
    .punct .leftBracket, .ident "i", .punct .rightBracket, .punct .dot, .ident "x", .punct .eq,
    .number (.int 1), .punct .semicolon, .punct .rightBrace, .endOfFile]

/-- A field of a block inside of a block has a resource of its own. What is written to it does not
go to where the accessor of the outer field reads it from. -/
theorem exists_not_agreesWithAccessor :
    ∃ s : Shader, s.Accepted ∧ s.IsArrayField ⟨37⟩ ∧
      s.NamesPart (fun _ => True) (fun _ => 1) ⟨37⟩ 1 ⟨21⟩ [.field ⟨36⟩]
        (.builtin (.scalar .int)) [] ∧
      ¬s.AgreesWithAccessor {} ⟨37⟩ (fun _ => 1) 1 ⟨21⟩ [.field ⟨36⟩] (.scalar .int) := by
  obtain ⟨s, hs, hfacts⟩ := Parse.exists_accepted (a := true)
    (f := fun s =>
      decide ([18, 20, 21].map (fun n => s.expr ⟨n⟩) =
        [.member ⟨17⟩ "c" (some ⟨37⟩), .subscript ⟨18⟩ ⟨19⟩, .member ⟨20⟩ "x" (some ⟨36⟩)]) &&
      decide ([36, 37].map (fun n => ((s.var ⟨n⟩).type, (s.var ⟨n⟩).dims)) =
        [(.builtin (.scalar .int), []), (.declared ⟨0⟩, [some ⟨16⟩])]) &&
      decide ((s.struct ⟨0⟩).fields = [⟨36⟩]) &&
      decide (s.struct ⟨1⟩ =
        { name := some "B", fields := [⟨37⟩], block := some { storage := .buffer } }) &&
      decide (s.blocks.toList = [⟨0⟩, ⟨1⟩]) &&
      decide ((s.access? s.storageFields ⟨21⟩).map (fun a => (a.buffer.stride, a.terms, a.offset)) =
        some (4, [], 0)))
    (show (Parse.plainShader? .fragment nestedStore).map _ = _ by decide +kernel)
  simp only [Bool.and_eq_true, decide_eq_true_eq, List.map_cons, List.map_nil, List.cons.injEq,
    Prod.mk.injEq, and_true] at hfacts
  obtain ⟨⟨⟨⟨⟨⟨hfield, helement, hx⟩, ⟨hint, hsingle⟩, htype, harray⟩, hparts⟩, hblock⟩, hblocks⟩,
    haccess⟩ := hfacts
  have hf : s.IsArrayField ⟨37⟩ := by
    apply isArrayField_of_struct _ hblock
    · decide
    · rw [harray]
      decide
    · rw [hblocks]
      decide
  have helement : s.NamesPart (fun _ => True) (fun _ => 1) ⟨37⟩ 1 ⟨20⟩ [] (.declared ⟨0⟩) [] := by
    have h : s.NamesPart (fun _ => True) (fun _ => 1) ⟨37⟩ 1 ⟨20⟩ [] (s.var ⟨37⟩).type
        ((s.var ⟨37⟩).dims.drop 1) := .element helement (by rw [namedVar?, hfield]) rfl
    rwa [htype, harray] at h
  have hpart : s.NamesPart (fun _ => True) (fun _ => 1) ⟨37⟩ 1 ⟨21⟩ [.field ⟨36⟩]
      (.builtin (.scalar .int)) [] := by
    have h := helement.member hx (by rw [hparts]; decide) trivial
    rwa [hint, hsingle] at h
  refine ⟨s, hs, hf, hpart, ?_⟩
  rintro ⟨a, leaves, leaf, ha, _, _, _, _, haddress⟩
  rw [ha] at haccess
  simp only [Option.map_some, Option.some.injEq, Prod.mk.injEq] at haccess
  obtain ⟨hstride, hterms, hoffset⟩ := haccess
  rw [Access.address, hterms, hoffset, hstride] at haddress
  -- The address is that of the whole resource, behind which element one lies.
  simp only [List.map_nil, List.sum_nil] at haddress
  omega

end Shader

end ShaderBridge
