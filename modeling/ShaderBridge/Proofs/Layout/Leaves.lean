import ShaderBridge.Hlsl.ByteLayout
import ShaderBridge.Proofs.Parse.Fields

namespace ShaderBridge

open scoped PlainNumbers

namespace Hlsl

/-! ### Parts in a sequence -/

section

variable {α : Type} {p : α → Nat → Leaves} (size : α → Nat)

theorem size_inSequence {l : List α} (h : ∀ a ∈ l, ∀ start, (p a start).size = size a)
    (start : Nat) : (Leaves.inSequence (l.map p) start).size = (l.map size).sum := by
  induction l generalizing start with
  | nil => rfl
  | cons a rest ih =>
      have hrest := ih (fun b hb => h b (List.mem_cons_of_mem _ hb)) (start + (p a start).size)
      rw [List.map_cons, List.map_cons, List.sum_cons, Leaves.inSequence]
      dsimp only
      rw [hrest, h a List.mem_cons_self start]

theorem leaves_subset_inSequence (before : List α) (a : α) (after : List α)
    (h : ∀ b ∈ before, ∀ start, (p b start).size = size b) (start : Nat) :
    (p a (start + (before.map size).sum)).leaves ⊆
      (Leaves.inSequence ((before ++ a :: after).map p) start).leaves := by
  induction before generalizing start with
  | nil => exact List.subset_append_left _ _
  | cons b rest ih =>
      have hb := h b List.mem_cons_self start
      have hrest := ih (fun c hc => h c (List.mem_cons_of_mem _ hc)) (start + size b)
      rw [List.map_cons, List.sum_cons, ← Nat.add_assoc]
      refine List.Subset.trans hrest ?_
      simp only [List.cons_append, List.map_cons, Leaves.inSequence, hb]
      exact List.subset_append_right _ _

end

section

variable {part : Nat → Nat → Leaves} {size : Nat}

theorem size_inSequence_range (h : ∀ k start, (part k start).size = size) (count start : Nat) :
    (Leaves.inSequence ((List.range count).map part) start).size = size * count := by
  rw [size_inSequence (fun _ => size) fun k _ => h k]
  simp [Nat.mul_comm]

theorem leaves_subset_inSequence_range (h : ∀ k start, (part k start).size = size)
    {k count : Nat} (hk : k < count) (start : Nat) :
    (part k (start + k * size)).leaves ⊆
      (Leaves.inSequence ((List.range count).map part) start).leaves := by
  obtain ⟨m, rfl⟩ := Nat.exists_eq_add_of_lt hk
  have hrange : List.range (k + m + 1) =
      List.range k ++ k :: (List.range m).map (k + 1 + ·) := by
    rw [Nat.add_assoc, List.range_add, Nat.add_comm m 1, List.range_add]
    simp [Nat.add_assoc]
  rw [hrange]
  simpa using leaves_subset_inSequence (fun _ => size) (List.range k) k
    ((List.range m).map (k + 1 + ·)) (fun j _ => h j) start

end

/-! ### Arrays and matrices -/

theorem builtinSize_of_matrix {t column : BuiltinType} {columns rows : Nat}
    (hdims : t.matrixDims? = some (columns, rows)) (hcolumn : t.matrixColumn? = some column) :
    builtinSize t = builtinSize column * columns := by
  cases t <;> simp [BuiltinType.matrixColumn?] at hcolumn
  all_goals
    subst hcolumn
    simp only [BuiltinType.matrixDims?, BuiltinType.matrixExtents?, Option.map_some,
      Option.some.injEq, Prod.mk.injEq] at hdims
    rcases hdims with ⟨rfl, rfl⟩
    simp [builtinSize, BuiltinType.component, BuiltinType.matrixDims?, BuiltinType.matrixExtents?,
      BuiltinType.vectorSize, Nat.mul_comm, Nat.mul_assoc]

theorem matrixDims?_of_column {t column : BuiltinType} (h : t.matrixColumn? = some column) :
    column.matrixDims? = none := by
  cases t <;> simp [BuiltinType.matrixColumn?] at h
  all_goals
    subst h
    rfl

theorem size_builtinLeaves (t : BuiltinType) (path : String) (start : Nat) :
    (builtinLeaves t path start).size = builtinSize t := by
  unfold builtinLeaves
  split
  · next columns rows column hdims hcolumn =>
      have hsingle (k start : Nat) :
          (Leaves.single (elementPath path k) start column).size = builtinSize column := rfl
      rw [builtinSize_of_matrix hdims hcolumn]
      exact size_inSequence_range hsingle columns start
  · rfl

theorem size_arrayLeaves {element : String → Nat → Leaves} {size : Nat}
    (h : ∀ path start, (element path start).size = size) (lengths : List (Option Nat))
    (path : String) (start : Nat) :
    (arrayLeaves element lengths path start).size =
      size * (lengths.map fun l => l.getD 1).prod := by
  induction lengths generalizing path start with
  | nil => simp [arrayLeaves, h]
  | cons length rest ih =>
      cases length with
      | none => simp [arrayLeaves, ih]
      | some count =>
          rw [arrayLeaves, size_inSequence_range fun k start => ih (elementPath path k) start]
          rw [List.map_cons, List.prod_cons, Option.getD_some, Nat.mul_assoc,
            Nat.mul_comm _ count]

end Hlsl

namespace Shader

open Hlsl

variable {s : Shader}

theorem sizeOfType_builtin (s : Shader) (t : BuiltinType) :
    s.sizeOfType (.builtin t) = builtinSize t := by
  simp [sizeOfType, structDepth, sizeWithin]

theorem elementCount_nil (s : Shader) : s.elementCount [] = 1 :=
  rfl

theorem prod_lengths (s : Shader) (dims : List (Option ExprId)) :
    ((dims.map s.arrayLength?).map fun l => l.getD 1).prod = s.elementCount dims := by
  rw [List.map_map]
  rfl

theorem size_leavesWithin (s : Shader) (depth : Nat) (t : TypeRef) (path : String) (start : Nat) :
    (s.leavesWithin depth t path start).size = s.sizeWithin depth t := by
  induction depth generalizing t path start with
  | zero =>
      cases t with
      | builtin t => exact size_builtinLeaves t path start
      | declared id => rfl
  | succ depth ih =>
      cases t with
      | builtin t => exact size_builtinLeaves t path start
      | declared id =>
          rw [leavesWithin, sizeWithin]
          apply size_inSequence
          intro field _ start
          rw [size_arrayLeaves fun path start => ih (s.var field).type path start, prod_lengths]

/-! ### Depth -/

/-- A structure is measured to the end as soon as the depth passes its number. -/
theorem sizeWithin_eq (hs : s.OwnsFields []) {t : TypeRef} {depth depth' : Nat}
    (h : ∀ id, t = .declared id → id.index < depth ∧ id.index < depth') :
    s.sizeWithin depth t = s.sizeWithin depth' t := by
  induction depth generalizing t depth' with
  | zero =>
      cases t with
      | builtin t => rw [sizeWithin, sizeWithin]
      | declared id => exact absurd (h id rfl).1 (Nat.not_lt_zero _)
  | succ depth ih =>
      cases t with
      | builtin t => rw [sizeWithin, sizeWithin]
      | declared id =>
          have hid := h id rfl
          obtain ⟨m, rfl⟩ := Nat.exists_eq_succ_of_ne_zero (Nat.ne_of_gt (Nat.zero_lt_of_lt hid.2))
          rw [sizeWithin, sizeWithin]
          congr 1
          apply List.map_congr_left
          intro field hfield
          rw [ih fun inner hinner => ?_]
          have hearlier := hs.earlier id field hfield inner hinner
          omega

theorem leavesWithin_eq (hs : s.OwnsFields []) {t : TypeRef} {depth depth' : Nat}
    (h : ∀ id, t = .declared id → id.index < depth ∧ id.index < depth') :
    s.leavesWithin depth t = s.leavesWithin depth' t := by
  induction depth generalizing t depth' with
  | zero =>
      cases t with
      | builtin t =>
          funext path start
          rw [leavesWithin, leavesWithin]
      | declared id => exact absurd (h id rfl).1 (Nat.not_lt_zero _)
  | succ depth ih =>
      funext path start
      cases t with
      | builtin t => rw [leavesWithin, leavesWithin]
      | declared id =>
          have hid := h id rfl
          obtain ⟨m, rfl⟩ := Nat.exists_eq_succ_of_ne_zero (Nat.ne_of_gt (Nat.zero_lt_of_lt hid.2))
          rw [leavesWithin, leavesWithin]
          congr 1
          apply List.map_congr_left
          intro field hfield
          funext start
          dsimp only
          rw [ih fun inner hinner => ?_]
          have hearlier := hs.earlier id field hfield inner hinner
          omega

/-! ### Parts of a value -/

theorem leaves_item (s : Shader) {t : TypeRef} {d : Option ExprId} {dims : List (Option ExprId)}
    {n k : Nat} (hn : s.arrayLength? d = some n) (hk : k < n) (path : String) (start : Nat) :
    (s.leaves t dims (elementPath path k)
      (start + k * (s.sizeOfType t * s.elementCount dims))).leaves ⊆
        (s.leaves t (d :: dims) path start).leaves := by
  unfold leaves
  rw [List.map_cons, hn, arrayLeaves, ← prod_lengths]
  apply leaves_subset_inSequence_range
  · intro j start
    exact size_arrayLeaves (fun path start => size_leavesWithin s _ t path start) _ _ _
  · exact hk

theorem exists_takeWhile_append {α : Type} [BEq α] [LawfulBEq α] {a : α} {l : List α}
    (h : a ∈ l) : ∃ after, l = l.takeWhile (· != a) ++ a :: after := by
  induction l with
  | nil => cases h
  | cons b rest ih =>
      by_cases hb : b = a
      · refine ⟨rest, ?_⟩
        simp [hb]
      · obtain ⟨after, hafter⟩ := ih ((List.mem_cons.1 h).resolve_left (Ne.symm hb))
        refine ⟨after, ?_⟩
        rw [List.takeWhile_cons, if_pos (by simpa using hb), List.cons_append, ← hafter]

theorem leaves_field (hs : s.OwnsFields []) {id : StructId} {field : VarId}
    (hfield : field ∈ (s.struct id).fields) (path : String) (start : Nat) :
    (s.leaves (s.var field).type (s.var field).dims (path ++ "." ++ (s.var field).name)
      (start + s.fieldOffset id field)).leaves ⊆
        (s.leaves (.declared id) [] path start).leaves := by
  have hid := index_lt_of_mem_fields hfield
  have hdepth {f : VarId} (hf : f ∈ (s.struct id).fields) (inner : StructId)
      (hinner : (s.var f).type = .declared inner) :
      inner.index < s.structDepth ∧ inner.index < s.structs.size := by
    have hearlier := hs.earlier id f hf inner hinner
    unfold structDepth
    omega
  obtain ⟨after, hafter⟩ := exists_takeWhile_append hfield
  have hpart := leaves_subset_inSequence
    (p := fun f start => arrayLeaves (s.leavesWithin s.structs.size (s.var f).type)
      ((s.var f).dims.map s.arrayLength?) (path ++ "." ++ (s.var f).name) start)
    (fun f => s.sizeOfVar f 0) ((s.struct id).fields.takeWhile (· != field)) field after ?_ start
  · rw [← hafter] at hpart
    unfold leaves
    rw [leavesWithin_eq hs (hdepth hfield)]
    exact hpart
  · intro f hf start
    have hmem : f ∈ (s.struct id).fields := (List.takeWhile_subset _) hf
    rw [size_arrayLeaves fun path start => size_leavesWithin s _ _ path start, prod_lengths]
    unfold sizeOfVar sizeOfType
    rw [sizeWithin_eq hs (hdepth hmem)]
    rfl

theorem leaves_single (s : Shader) {t : BuiltinType} (ht : t.matrixDims? = none) (path : String)
    (start : Nat) : s.leaves (.builtin t) [] path start = .single path start t := by
  show builtinLeaves t path start = _
  unfold builtinLeaves
  rw [ht]

theorem leaves_column (s : Shader) {t column : BuiltinType} {columns rows k : Nat}
    (hdims : t.matrixDims? = some (columns, rows)) (hcolumn : t.matrixColumn? = some column)
    (hk : k < columns) (path : String) (start : Nat) :
    (s.leaves (.builtin column) [] (elementPath path k) (start + k * builtinSize column)).leaves ⊆
      (s.leaves (.builtin t) [] path start).leaves := by
  have hsingle (k start : Nat) :
      (Leaves.single (elementPath path k) start column).size = builtinSize column := rfl
  rw [leaves_single s (matrixDims?_of_column hcolumn)]
  show _ ⊆ (builtinLeaves t path start).leaves
  unfold builtinLeaves
  rw [hdims, hcolumn]
  exact leaves_subset_inSequence_range hsingle hk start

end Shader

/-! ### Bytes -/

namespace Hlsl

/-- The bytes that a component of a stored vector takes. A truth value becomes a word of 32 bits. -/
def storedSize : Scalar → Nat
  | .bool => 4
  | c => scalarSize c

/-- The number of bytes that a type is read from or written to at once. Truth values have one byte
each, and are read and written as words. -/
def accessSize (t : BuiltinType) : Nat :=
  match t.component with
  | .scalar .bool => storedSize .bool * builtinSize t
  | _ => builtinSize t

def Leaf.Accesses (leaf : Leaf) (b : Nat) : Prop :=
  leaf.offset ≤ b ∧ b < leaf.offset + accessSize leaf.type

def Leaf.Covers (leaf : Leaf) (b : Nat) : Prop :=
  leaf.offset ≤ b ∧ b < leaf.offset + builtinSize leaf.type

/-- The leaves of a value that begins at `start` cover its bytes and no others. -/
def Leaves.Tile (l : Leaves) (start : Nat) : Prop :=
  ∀ b, (∃ leaf ∈ l.leaves, leaf.Covers b) ↔ start ≤ b ∧ b < start + l.size

theorem Leaves.tile_single (path : String) (t : BuiltinType) (start : Nat) :
    (Leaves.single path start t).Tile start := by
  intro b
  simp [single, Leaf.Covers]

theorem Leaves.tile_inSequence {parts : List (Nat → Leaves)}
    (h : ∀ part ∈ parts, ∀ start, (part start).Tile start) (start : Nat) :
    (inSequence parts start).Tile start := by
  induction parts generalizing start with
  | nil =>
      intro b
      simp only [inSequence, List.not_mem_nil, false_and, exists_false, Nat.add_zero, false_iff]
      omega
  | cons part rest ih =>
      intro b
      have hfirst := h part List.mem_cons_self start b
      have hrest := ih (fun p hp => h p (List.mem_cons_of_mem _ hp)) (start + (part start).size) b
      simp only [inSequence, List.mem_append, or_and_right, exists_or, hfirst, hrest]
      omega

theorem tile_builtinLeaves (t : BuiltinType) (path : String) (start : Nat) :
    (builtinLeaves t path start).Tile start := by
  unfold builtinLeaves
  split
  · apply Leaves.tile_inSequence
    intro part hpart start
    obtain ⟨i, _, rfl⟩ := List.mem_map.1 hpart
    exact Leaves.tile_single _ _ start
  · exact Leaves.tile_single path t start

theorem tile_arrayLeaves {element : String → Nat → Leaves}
    (h : ∀ path start, (element path start).Tile start) (lengths : List (Option Nat))
    (path : String) (start : Nat) : (arrayLeaves element lengths path start).Tile start := by
  induction lengths generalizing path start with
  | nil => exact h path start
  | cons length rest ih =>
      cases length with
      | none => exact ih path start
      | some count =>
          apply Leaves.tile_inSequence
          intro part hpart start
          obtain ⟨i, _, rfl⟩ := List.mem_map.1 hpart
          exact ih _ start

end Hlsl

namespace Shader

open Hlsl

theorem tile_leavesWithin (s : Shader) (depth : Nat) (t : TypeRef) (path : String) (start : Nat) :
    (s.leavesWithin depth t path start).Tile start := by
  induction depth generalizing t path start with
  | zero =>
      cases t with
      | builtin t => exact tile_builtinLeaves t path start
      | declared id =>
          have hnone : ∀ part ∈ ([] : List (Nat → Leaves)), ∀ start, (part start).Tile start := by
            simp
          rw [leavesWithin]
          exact Leaves.tile_inSequence hnone start
  | succ depth ih =>
      cases t with
      | builtin t => exact tile_builtinLeaves t path start
      | declared id =>
          rw [leavesWithin]
          apply Leaves.tile_inSequence
          intro part hpart start
          obtain ⟨field, _, rfl⟩ := List.mem_map.1 hpart
          exact tile_arrayLeaves (ih _) _ _ start

/-- The leaves of a value cover its bytes and no others. -/
theorem exists_covers_leaves (s : Shader) (t : TypeRef) (dims : List (Option ExprId))
    (path : String) (start b : Nat) :
    (∃ leaf ∈ (s.leaves t dims path start).leaves, leaf.Covers b) ↔
      start ≤ b ∧ b < start + s.sizeOfType t * s.elementCount dims := by
  have htile := tile_arrayLeaves (tile_leavesWithin s s.structDepth t) (dims.map s.arrayLength?)
    path start b
  rw [size_arrayLeaves fun path start => size_leavesWithin s s.structDepth t path start,
    prod_lengths] at htile
  exact htile

theorem add_lt_of_leaves_subset (s : Shader) {t t' : TypeRef} {dims dims' : List (Option ExprId)}
    {path path' : String} {offset p : Nat}
    (h : (s.leaves t dims path (0 + offset)).leaves ⊆ (s.leaves t' dims' path' 0).leaves)
    (hp : p < s.sizeOfType t * s.elementCount dims) :
    offset + p < s.sizeOfType t' * s.elementCount dims' := by
  obtain ⟨leaf, hleaf, hcovers⟩ :=
    (exists_covers_leaves s t dims path (0 + offset) (offset + p)).2 (by omega)
  have hwhole := (exists_covers_leaves s t' dims' path' 0 (offset + p)).1 ⟨leaf, h hleaf, hcovers⟩
  omega

end Shader

/-! ### Bytes of accesses -/

namespace Hlsl

theorem exists_accessSize_eq (c : BuiltinType) :
    ∃ k ≥ 1, ∀ t : BuiltinType, t.component = c → accessSize t = k * builtinSize t := by
  by_cases hbool : c = .scalar .bool
  · subst hbool
    refine ⟨storedSize .bool, by decide, fun t ht => ?_⟩
    unfold accessSize
    rw [ht]
  · refine ⟨1, Nat.le_refl _, fun t ht => ?_⟩
    unfold accessSize
    split
    · next heq => exact absurd (ht.symm.trans heq) hbool
    · exact (Nat.one_mul _).symm

theorem builtinSize_le_accessSize (t : BuiltinType) : builtinSize t ≤ accessSize t := by
  obtain ⟨k, hk, hsize⟩ := exists_accessSize_eq t.component
  rw [hsize t rfl]
  exact Nat.le_mul_of_pos_left _ hk

theorem Leaf.Covers.accesses {leaf : Leaf} {b : Nat} (h : leaf.Covers b) : leaf.Accesses b :=
  ⟨h.1, h.2.trans_le (Nat.add_le_add_left (builtinSize_le_accessSize leaf.type) _)⟩

theorem Leaf.Accesses.covers_offset {leaf : Leaf} {b : Nat} (h : leaf.Accesses b) :
    leaf.Covers leaf.offset := by
  obtain ⟨k, -, hsize⟩ := exists_accessSize_eq leaf.type.component
  have hlt : 0 < accessSize leaf.type := by
    have := h.1.trans_lt h.2
    omega
  rw [hsize _ rfl] at hlt
  exact ⟨Nat.le_refl _, Nat.lt_add_of_pos_right (Nat.pos_of_mul_pos_left hlt)⟩

/-! ### Values that are moved -/

namespace Leaves

variable {k : Nat}

end Leaves

end Hlsl

namespace Shader

open Hlsl

variable {s : Shader}

end Shader

end ShaderBridge
