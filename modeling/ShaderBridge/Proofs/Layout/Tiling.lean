import ShaderBridge.Proofs.Layout.Separation

namespace ShaderBridge

open scoped PlainNumbers

namespace Hlsl

/-- The first leaf begins at `start`, each other one where the one in front of it ends, and the last
one ends at `stop`. -/
def Adjacent : List Leaf → Nat → Nat → Prop
  | [], start, stop => start = stop
  | leaf :: rest, start, stop =>
    leaf.offset = start ∧ Adjacent rest (start + builtinSize leaf.type) stop

theorem Adjacent.append {l l' : List Leaf} {start mid stop : Nat} (h : Adjacent l start mid)
    (h' : Adjacent l' mid stop) : Adjacent (l ++ l') start stop := by
  induction l generalizing start with
  | nil =>
      cases h
      exact h'
  | cons leaf rest ih => exact ⟨h.1, ih h.2⟩

theorem adjacent_single (path : String) (start : Nat) (t : BuiltinType) :
    Adjacent (Leaves.single path start t).leaves start
      (start + (Leaves.single path start t).size) :=
  ⟨rfl, rfl⟩

theorem adjacent_inSequence {parts : List (Nat → Leaves)}
    (h : ∀ part ∈ parts, ∀ start, Adjacent (part start).leaves start (start + (part start).size))
    (start : Nat) :
    Adjacent (Leaves.inSequence parts start).leaves start
      (start + (Leaves.inSequence parts start).size) := by
  induction parts generalizing start with
  | nil => exact (Nat.add_zero start).symm
  | cons part rest ih =>
      have hfirst := h part List.mem_cons_self start
      have hrest := ih (fun p hp => h p (List.mem_cons_of_mem _ hp)) (start + (part start).size)
      rw [Nat.add_assoc] at hrest
      exact hfirst.append hrest

theorem adjacent_builtinLeaves (t : BuiltinType) (path : String) (start : Nat) :
    Adjacent (builtinLeaves t path start).leaves start
      (start + (builtinLeaves t path start).size) := by
  unfold builtinLeaves
  split
  · apply adjacent_inSequence
    intro part hpart start
    obtain ⟨i, _, rfl⟩ := List.mem_map.1 hpart
    exact adjacent_single _ start _
  · exact adjacent_single path start t

theorem adjacent_arrayLeaves {element : String → Nat → Leaves}
    (h : ∀ path start,
      Adjacent (element path start).leaves start (start + (element path start).size))
    (lengths : List (Option Nat)) (path : String) (start : Nat) :
    Adjacent (arrayLeaves element lengths path start).leaves start
      (start + (arrayLeaves element lengths path start).size) := by
  induction lengths generalizing path start with
  | nil => exact h path start
  | cons length rest ih =>
      cases length with
      | none => exact ih path start
      | some count =>
          apply adjacent_inSequence
          intro part hpart start
          obtain ⟨i, _, rfl⟩ := List.mem_map.1 hpart
          exact ih _ start

end Hlsl

namespace Shader

open Hlsl

theorem adjacent_leavesWithin (s : Shader) (depth : Nat) (t : TypeRef) (path : String)
    (start : Nat) :
    Adjacent (s.leavesWithin depth t path start).leaves start
      (start + (s.leavesWithin depth t path start).size) := by
  induction depth generalizing t path start with
  | zero =>
      cases t with
      | builtin t => exact adjacent_builtinLeaves t path start
      | declared id => exact (Nat.add_zero start).symm
  | succ depth ih =>
      cases t with
      | builtin t => exact adjacent_builtinLeaves t path start
      | declared id =>
          rw [leavesWithin]
          apply adjacent_inSequence
          intro part hpart start
          obtain ⟨field, _, rfl⟩ := List.mem_map.1 hpart
          exact adjacent_arrayLeaves (ih _) _ _ start

theorem adjacent_leaves (s : Shader) (t : TypeRef) (dims : List (Option ExprId)) (path : String)
    (start : Nat) :
    Adjacent (s.leaves t dims path start).leaves start
      (start + (s.leaves t dims path start).size) :=
  adjacent_arrayLeaves (s.adjacent_leavesWithin s.structDepth t) _ path start

theorem size_leaves (s : Shader) (t : TypeRef) (dims : List (Option ExprId)) (path : String)
    (start : Nat) :
    (s.leaves t dims path start).size = s.sizeOfType t * s.elementCount dims := by
  unfold leaves
  rw [size_arrayLeaves fun path start => s.size_leavesWithin s.structDepth t path start,
    prod_lengths]
  rfl

variable {s : Shader} {id : StructId} {buffer buffer' : ByteBuffer} {i j : Int} {b b' : Nat}

theorem HoldsByte.unique (hbuffer : buffer ∈ s.byteBuffers id)
    (hbuffer' : buffer' ∈ s.byteBuffers id) (hb : s.HoldsByte buffer b)
    (hb' : s.HoldsByte buffer' b')
    (h : i * (s.bufferStride id : Int) + (b : Nat) = j * (s.bufferStride id : Int) + (b' : Nat)) :
    buffer = buffer' ∧ i = j := by
  obtain ⟨hindex, rfl⟩ := mul_add_inj (hb.lt_stride hbuffer) (hb'.lt_stride hbuffer') h
  exact ⟨placeFields_unique hbuffer hbuffer' hb hb', hindex⟩

/-- Values lie in memory without gaps and without overlaps. A leaf counts with the bytes of its
type, of which a truth value takes one. -/
structure TilesMemory (s : Shader) : Prop where
  /-- The leaves of a value follow one another from the first of its bytes to the last. -/
  adjacent : ∀ t dims path start, Adjacent (s.leaves t dims path start).leaves start
    (start + (s.leaves t dims path start).size)
  /-- They cover these bytes and no others. -/
  covered : ∀ t dims path start, (s.leaves t dims path start).Tile start
  /-- There are as many of these bytes as the size of a variable says. -/
  size : ∀ v t dims path start, (s.var v).type = t → (s.var v).dims = dims →
    (s.leaves t dims path start).size = s.sizeOfVar v 0
  /-- A byte of the buffer of a storage block belongs to one field and one index. -/
  held : ∀ id, ∀ buffer ∈ s.byteBuffers id, ∀ buffer' ∈ s.byteBuffers id, ∀ i j : Int,
    buffer ≠ buffer' ∨ i ≠ j → ∀ leaf ∈ (s.elementLeaves buffer "ret").leaves,
      ∀ leaf' ∈ (s.elementLeaves buffer' "ret").leaves, ∀ b b', leaf.Covers b → leaf'.Covers b' →
        i * (buffer.stride : Int) + (b : Nat) ≠ j * (buffer'.stride : Int) + (b' : Nat)
  /-- What is read for a field of a storage block at an index is read for no other field and for no
  other index, unless the word of a truth value ends behind the bytes of its field. -/
  read : ∀ id, (∀ buffer ∈ s.byteBuffers id, s.StaysWithin buffer) ↔
    ∀ buffer ∈ s.byteBuffers id, ∀ buffer' ∈ s.byteBuffers id, ∀ i j : Int,
      buffer ≠ buffer' ∨ i ≠ j → ∀ leaf ∈ (s.elementLeaves buffer "ret").leaves,
        ∀ leaf' ∈ (s.elementLeaves buffer' "ret").leaves, ∀ b b', leaf.Accesses b →
          leaf'.Accesses b' →
            i * (buffer.stride : Int) + (b : Nat) ≠ j * (buffer'.stride : Int) + (b' : Nat)

theorem HoldsByte.place_ne (hbuffer : buffer ∈ s.byteBuffers id)
    (hbuffer' : buffer' ∈ s.byteBuffers id)
    (hne : buffer ≠ buffer' ∨ i ≠ j) (hb : s.HoldsByte buffer b) (hb' : s.HoldsByte buffer' b') :
    i * (buffer.stride : Int) + (b : Nat) ≠ j * (buffer'.stride : Int) + (b' : Nat) := by
  rw [(resource_of_mem_placeFields hbuffer).2, (resource_of_mem_placeFields hbuffer').2]
  intro heq
  obtain ⟨rfl, rfl⟩ := hb.unique hbuffer hbuffer' hb' heq
  exact hne.elim (fun hbuffer => hbuffer rfl) fun hindex => hindex rfl

theorem tilesMemory (s : Shader) : s.TilesMemory where
  adjacent := s.adjacent_leaves
  covered t dims path start :=
    tile_arrayLeaves (s.tile_leavesWithin s.structDepth t) _ path start
  size v t dims path start ht hdims := by
    subst ht hdims
    exact s.size_leaves _ _ path start
  held id buffer hbuffer buffer' hbuffer' i j hne leaf hleaf leaf' hleaf' b b' hb hb' :=
    HoldsByte.place_ne hbuffer hbuffer' hne ((exists_covers_leaves s _ _ _ _ b).1 ⟨leaf, hleaf, hb⟩)
      ((exists_covers_leaves s _ _ _ _ b').1 ⟨leaf', hleaf', hb'⟩)
  read id := by
    constructor
    · intro h buffer hbuffer buffer' hbuffer' i j hne leaf hleaf leaf' hleaf' b b' hb hb'
      exact HoldsByte.place_ne hbuffer hbuffer' hne (h buffer hbuffer leaf hleaf b hb)
        (h buffer' hbuffer' leaf' hleaf' b' hb')
    · intro h buffer hbuffer
      by_contra hwithin
      obtain ⟨leaf, hleaf, b, hb, other, hother, j, b', hb', heq, hne⟩ :=
        exists_holdsByte_of_not_staysWithin hbuffer hwithin
      obtain ⟨leaf', hleaf', haccesses⟩ := hb'.exists_accesses
      refine h buffer hbuffer other hother 0 j
        (hne.imp_right Ne.symm) leaf hleaf leaf' hleaf' b b' hb
        haccesses ?_
      rw [(resource_of_mem_placeFields hother).2, ← heq, Int.zero_mul, Int.zero_add]

/-- The tokens of `buffer B { bool a; bool c; int y; } b;`. -/
def truthValues : List TokenKind :=
  [.keyword (.storage .buffer), .ident "B", .punct .leftBrace, .keyword (.type (.scalar .bool)),
    .ident "a", .punct .semicolon, .keyword (.type (.scalar .bool)), .ident "c", .punct .semicolon,
    .keyword (.type (.scalar .int)), .ident "y", .punct .semicolon, .punct .rightBrace, .ident "b",
    .punct .semicolon, .endOfFile]

/-- The first of two truth values is read with the byte of the second. -/
theorem exists_overlapping_reads :
    ∃ s : Shader, s.Accepted ∧ ∃ id ∈ s.blocks.toList, ∃ buffer ∈ s.byteBuffers id,
      ∃ buffer' ∈ s.byteBuffers id, buffer ≠ buffer' ∧
        ∃ leaf ∈ (s.elementLeaves buffer "ret").leaves,
          ∃ leaf' ∈ (s.elementLeaves buffer' "ret").leaves, ∃ b, leaf.Accesses b ∧
            leaf'.Accesses b := by
  obtain ⟨s, hs, hfacts⟩ := Parse.exists_accepted (a := true)
    (f := fun s =>
      decide (s.blocks.toList = [⟨0⟩]) &&
      decide (s.byteBuffers ⟨0⟩ = [⟨⟨36⟩, "B", 6, 0⟩, ⟨⟨37⟩, "B", 6, 1⟩, ⟨⟨38⟩, "B", 6, 2⟩]) &&
      decide ((s.elementLeaves ⟨⟨36⟩, "B", 6, 0⟩ "ret").leaves = [⟨"ret", 0, .scalar .bool⟩]) &&
      decide ((s.elementLeaves ⟨⟨37⟩, "B", 6, 1⟩ "ret").leaves = [⟨"ret", 1, .scalar .bool⟩]))
    (show (Parse.plainShader? .fragment truthValues).map _ = _ by decide +kernel)
  simp only [Bool.and_eq_true, decide_eq_true_eq] at hfacts
  obtain ⟨⟨⟨hblocks, hbuffers⟩, hleaf⟩, hleaf'⟩ := hfacts
  refine ⟨s, hs, ⟨0⟩, by simp [hblocks], ⟨⟨36⟩, "B", 6, 0⟩, by simp [hbuffers],
    ⟨⟨37⟩, "B", 6, 1⟩, by simp [hbuffers], by decide, ⟨"ret", 0, .scalar .bool⟩, by simp [hleaf],
    ⟨"ret", 1, .scalar .bool⟩, by simp [hleaf'], 1, ?_, ?_⟩
  · exact ⟨by decide, by decide⟩
  · exact ⟨by decide, by decide⟩

end Shader

end ShaderBridge
