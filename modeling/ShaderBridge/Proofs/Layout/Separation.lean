import ShaderBridge.Proofs.Layout.Agreement
import ShaderBridge.Proofs.Lowering.Declared

/-!
Storage that is apart in the source and stays apart in the program. The fields of a block take turns
within each stride of their buffer, so that no byte belongs to two of them, though the word of a
truth value may reach from one into the next. What tells one block from another there is only the
name of its buffer, and what tells the accessors apart are only the names of the fields.
-/

namespace ShaderBridge

open Hlsl

open scoped PlainNumbers

namespace Shader

variable (s : Shader)

/-- Whether a field has the byte of the given number within its stride. -/
def HoldsByte (buffer : ByteBuffer) (b : Nat) : Prop :=
  buffer.offset ≤ b ∧ b < buffer.offset + s.sizeOfElement buffer.field

/-- Whether an element of a field is read and written within its own bytes. The word of a truth
value may end behind them. -/
def StaysWithin (buffer : ByteBuffer) : Prop :=
  ∀ leaf ∈ (s.elementLeaves buffer "ret").leaves, ∀ b, leaf.Accesses b → s.HoldsByte buffer b

variable {s} {options : Options}

/-! ### Parts within an element -/

section

variable {value : ExprId → Int} {f : VarId} {i : Int} {n start : Nat} {e : ExprId} {t : TypeRef}
  {dims : List (Option ExprId)}

theorem component_of_vectorOf? {t part : BuiltinType} {n : Nat}
    (h : t.component.vectorOf? n = some part) : part.component = t.component := by
  have hcomponent : t.component.component = t.component := by cases t <;> rfl
  unfold BuiltinType.vectorOf? at h
  split at h
  · cases h
    exact hcomponent
  · split at h
    · next scalar heq =>
        obtain ⟨extent, _, rfl⟩ := Option.map_eq_some_iff.1 h
        rw [heq]
        rfl
    · cases h

end

/-! ### Fields within a stride -/

section

variable {resource : String} {stride offset : Nat} {fields : List VarId}

theorem exists_holdsByte_placeFields (b : Nat) :
    (∃ buffer ∈ s.placeFields resource stride offset fields, s.HoldsByte buffer b) ↔
      offset ≤ b ∧ b < offset + (fields.map s.sizeOfElement).sum := by
  induction fields generalizing offset with
  | nil =>
      simp only [placeFields, List.not_mem_nil, false_and, exists_false, List.map_nil,
        List.sum_nil, false_iff]
      omega
  | cons field rest ih =>
      have hfirst : s.HoldsByte ⟨field, resource, stride, offset⟩ b ↔
          offset ≤ b ∧ b < offset + s.sizeOfElement field := Iff.rfl
      simp only [placeFields, List.mem_cons, or_and_right, exists_or, exists_eq_left, ih, hfirst,
        List.map_cons, List.sum_cons]
      omega

theorem placeFields_unique {buffer buffer' : ByteBuffer} {b : Nat}
    (hbuffer : buffer ∈ s.placeFields resource stride offset fields)
    (hbuffer' : buffer' ∈ s.placeFields resource stride offset fields)
    (hb : s.HoldsByte buffer b) (hb' : s.HoldsByte buffer' b) : buffer = buffer' := by
  induction fields generalizing offset with
  | nil => cases hbuffer
  | cons field rest ih =>
      -- A byte of the first field lies in front of all that come behind it.
      have hlater {buffer : ByteBuffer} (hb : s.HoldsByte buffer b)
          (h : buffer ∈ s.placeFields resource stride (offset + s.sizeOfElement field) rest) :
          offset + s.sizeOfElement field ≤ b :=
        ((exists_holdsByte_placeFields b).1 ⟨buffer, h, hb⟩).1
      rcases List.mem_cons.1 hbuffer with rfl | hrest <;>
        rcases List.mem_cons.1 hbuffer' with rfl | hrest'
      · rfl
      · exact absurd hb.2 (Nat.not_lt.2 (hlater hb' hrest'))
      · exact absurd hb'.2 (Nat.not_lt.2 (hlater hb hrest))
      · exact ih hrest hrest'

theorem resource_of_mem_placeFields {buffer : ByteBuffer}
    (h : buffer ∈ s.placeFields resource stride offset fields) :
    buffer.resource = resource ∧ buffer.stride = stride := by
  induction fields generalizing offset with
  | nil => cases h
  | cons field rest ih =>
      rcases List.mem_cons.1 h with rfl | h
      · exact ⟨rfl, rfl⟩
      · exact ih h

end

section

variable {id : StructId} {buffer : ByteBuffer} {b : Nat}

theorem HoldsByte.lt_stride (h : s.HoldsByte buffer b) (hbuffer : buffer ∈ s.byteBuffers id) :
    b < s.bufferStride id := by
  have hlt := ((exists_holdsByte_placeFields b).1 ⟨buffer, hbuffer, h⟩).2
  rwa [Nat.zero_add] at hlt

theorem exists_holdsByte_zero (h : 0 < s.bufferStride id) :
    ∃ buffer ∈ s.byteBuffers id, s.HoldsByte buffer 0 := by
  apply (exists_holdsByte_placeFields 0).2
  rw [Nat.zero_add]
  exact ⟨Nat.le_refl 0, h⟩

theorem HoldsByte.exists_accesses (h : s.HoldsByte buffer b) :
    ∃ leaf ∈ (s.elementLeaves buffer "ret").leaves, leaf.Accesses b := by
  obtain ⟨leaf, hleaf, hcovers⟩ := (exists_covers_leaves s _ _ _ _ b).2 h
  exact ⟨leaf, hleaf, hcovers.accesses⟩

theorem holdsByte_of_accesses {leaf : Leaf} (hleaf : leaf ∈ (s.elementLeaves buffer "ret").leaves)
    (haccesses : leaf.Accesses b) : s.HoldsByte buffer leaf.offset :=
  (exists_covers_leaves s _ _ _ _ _).1 ⟨leaf, hleaf, haccesses.covers_offset⟩

/-- An access that goes on behind its element goes on into another one, of the field behind it or of
the first one in the next stride. -/
theorem exists_holdsByte_of_not_staysWithin (hbuffer : buffer ∈ s.byteBuffers id)
    (h : ¬ s.StaysWithin buffer) :
    ∃ leaf ∈ (s.elementLeaves buffer "ret").leaves, ∃ b, leaf.Accesses b ∧
      ∃ other ∈ s.byteBuffers id, ∃ j : Int, ∃ b', s.HoldsByte other b' ∧
        (b : Int) = j * (s.bufferStride id : Int) + (b' : Nat) ∧ (buffer ≠ other ∨ j ≠ 0) := by
  unfold StaysWithin at h
  push Not at h
  obtain ⟨leaf, hleaf, b, hb, hout⟩ := h
  have hbegin := holdsByte_of_accesses hleaf hb
  have hlast : s.HoldsByte buffer (buffer.offset + s.sizeOfElement buffer.field - 1) := by
    unfold HoldsByte at hbegin ⊢
    omega
  have hend : leaf.Accesses (buffer.offset + s.sizeOfElement buffer.field) := by
    unfold HoldsByte at hbegin hout
    unfold Leaf.Accesses at hb ⊢
    omega
  refine ⟨leaf, hleaf, _, hend, ?_⟩
  have hle := hlast.lt_stride hbuffer
  rcases Nat.lt_or_ge (buffer.offset + s.sizeOfElement buffer.field) (s.bufferStride id) with
    hlt | hge
  · obtain ⟨other, hother, hholds⟩ := (exists_holdsByte_placeFields (s := s) _).2
      ⟨Nat.zero_le _, (Nat.zero_add (s.bufferStride id)).symm ▸ hlt⟩
    refine ⟨other, hother, 0, _, hholds, by omega, .inl ?_⟩
    rintro rfl
    exact absurd hholds.2 (Nat.lt_irrefl _)
  · obtain ⟨first, hfirst, hholds⟩ := exists_holdsByte_zero (Nat.zero_lt_of_lt hle)
    refine ⟨first, hfirst, 1, _, hholds, ?_, .inr one_ne_zero⟩
    omega

/-! ### Accessors -/

theorem blockStorage_of_mem (h : buffer ∈ s.blockBuffers id) :
    .accessor (accessorName (s.var buffer.field).name)
      (s.hlslDeclaredType (s.var buffer.field).type) buffer.resource buffer.stride
      (s.elementLeaves buffer "ret").leaves ∈ s.blockStorage id := by
  unfold blockBuffers at h
  unfold blockStorage
  split at h
  · split at h
    · next hcondition =>
        rw [if_pos hcondition]
        exact List.mem_cons_of_mem _ (List.mem_map.2 ⟨buffer, h, rfl⟩)
    · cases h
  · cases h

end

/-! ### Bytes of accesses -/

variable {f g : VarId} {i j : Int} {resource : String} {byte : Int}

theorem exists_find?_of_isStorageField (h : s.isStorageField f) :
    ∃ buffer, s.storageFields.find? (fun b => b.field == f) = some buffer :=
  Option.isSome_iff_exists.1 (List.find?_isSome.2 (List.any_eq_true.1 h))

theorem mul_add_inj {stride b c : Nat} (hb : b < stride) (hc : c < stride)
    (h : i * (stride : Int) + (b : Nat) = j * stride + (c : Nat)) : i = j ∧ b = c := by
  have hdiv (k : Int) {r : Nat} (hr : r < stride) :
      (k * (stride : Int) + (r : Nat)) / stride = k := by
    rw [Int.add_comm, Int.add_mul_ediv_right _ _ (by omega),
      Int.ediv_eq_zero_of_lt (by omega) (by omega), Int.zero_add]
  have hij : i = j := by
    rw [← hdiv i hb, h, hdiv j hc]
  subst hij
  exact ⟨rfl, by omega⟩

end Shader

end ShaderBridge
