import ShaderBridge.Hlsl.ByteBuffer
import ShaderBridge.Proofs.Layout.Leaves
import ShaderBridge.Proofs.Lowering.Program
import ShaderBridge.Proofs.Shader.References

namespace ShaderBridge

open Hlsl

open scoped PlainNumbers

namespace Shader

variable (s : Shader)

/-- Whether a variable lives in byte-addressed memory. -/
def isStorageField (v : VarId) : Bool :=
  s.storageFields.any fun buffer => buffer.field == v

/-- The members that have no place of their own in byte-addressed memory. The members of blocks
inside of blocks have one. -/
def InElement (v : VarId) : Prop :=
  s.isStorageField v = false

/-- The offset of the first component that a swizzle selects. -/
def swizzleOffset (t : BuiltinType) (name : String) : Nat :=
  (name.toList.head?.map componentIndex).getD 0 * builtinSize t.component

/-- An expression selects a part of element `i` of the field `f` by a number of selections, its
indices having the given values. The part begins a number of bytes behind the element. The first
subscript of a field counts its elements, even where the field is no array; what comes behind it
stays within the value that it selects from. -/
inductive Selects (value : ExprId → Int) (f : VarId) (i : Int) :
    Nat → ExprId → TypeRef → List (Option ExprId) → Nat → Prop where
  | whole {e : ExprId} :
      s.namedVar? e = some f → (s.var f).dims = [] → i = 0 →
      Selects value f i 0 e (s.var f).type [] 0
  | element {e operand index : ExprId} {d : Option ExprId} {dims : List (Option ExprId)} :
      s.expr e = .subscript operand index → s.namedVar? operand = some f → value index = i →
      (s.var f).dims = d :: dims → Selects value f i 1 e (s.var f).type dims 0
  | entry {e operand index : ExprId} {t : TypeRef} :
      s.expr e = .subscript operand index → s.namedVar? operand = some f → value index = i →
      (s.var f).dims = [] → elementType? ⟨(s.var f).type, 0⟩ = some ⟨t, 0⟩ →
      Selects value f i 1 e t [] 0
  | item {e operand index : ExprId} {n : Nat} {t : TypeRef} {d : Option ExprId}
      {dims : List (Option ExprId)} {start length k : Nat} :
      Selects value f i (n + 1) operand t (d :: dims) start → s.expr e = .subscript operand index →
      s.arrayLength? d = some length → k < length → value index = k →
      Selects value f i (n + 2) e t dims (start + k * (s.sizeOfType t * s.elementCount dims))
  | member {e operand : ExprId} {n : Nat} {id : StructId} {name : String} {g : VarId}
      {start : Nat} :
      Selects value f i n operand (.declared id) [] start →
      s.expr e = .member operand name (some g) → g ∈ (s.struct id).fields → s.InElement g →
      Selects value f i (n + 1) e (s.var g).type (s.var g).dims (start + s.fieldOffset id g)
  | component {e operand index : ExprId} {n : Nat} {t part : BuiltinType} {start k : Nat} :
      Selects value f i (n + 1) operand (.builtin t) [] start →
      s.expr e = .subscript operand index →
      elementType? ⟨.builtin t, 0⟩ = some ⟨.builtin part, 0⟩ →
      (k + 1) * builtinSize part ≤ builtinSize t → value index = k →
      Selects value f i (n + 2) e (.builtin part) [] (start + k * builtinSize part)
  | swizzle {e operand : ExprId} {n : Nat} {t part : BuiltinType} {name : String} {start : Nat} :
      Selects value f i n operand (.builtin t) [] start → s.expr e = .member operand name none →
      t.component.vectorOf? name.length = some part →
      swizzleOffset t name + builtinSize part ≤ builtinSize t →
      Selects value f i (n + 1) e (.builtin part) [] (start + swizzleOffset t name)

variable {s : Shader} {value : ExprId → Int} {f : VarId} {i : Int} {n : Nat} {e : ExprId}
  {t : TypeRef} {dims : List (Option ExprId)} {start : Nat}

theorem Selects.isStorageField_eq_false (h : s.Selects value f i (n + 1) e t dims start) {v : VarId}
    (hv : s.namedVar? e = some v) : s.isStorageField v = false := by
  cases h with
  | element he | entry he | item _ he | component _ he | swizzle _ he => simp [namedVar?, he] at hv
  | member _ he _ hg =>
      simp only [namedVar?, he, Option.some.injEq] at hv
      rw [← hv]
      exact hg

theorem Selects.index_lt (h : s.Selects value f i (n + 1) e t dims start) :
    e.index < s.exprs.size := by
  cases h with
  | element he | entry he | item _ he | component _ he | swizzle _ he | member _ he =>
      exact index_lt_of_expr he Expr.noConfusion

theorem Selects.eq_one (hf : s.isStorageField f) (h : s.Selects value f i n e t dims start)
    {operand index : ExprId} (he : s.expr e = .subscript operand index)
    (hnamed : s.namedVar? operand = some f) : n = 1 := by
  have hnot {n : Nat} {t : TypeRef} {dims : List (Option ExprId)} {start : Nat}
      (h : s.Selects value f i (n + 1) operand t dims start) : False := by
    rw [h.isStorageField_eq_false hnamed] at hf
    cases hf
  cases h with
  | whole hwhole => simp [namedVar?, he] at hwhole
  | element | entry => rfl
  | item h he' | component h he' =>
      rw [he] at he'
      cases he'
      exact (hnot h).elim
  | member h he' | swizzle h he' =>
      rw [he] at he'
      cases he'

theorem Selects.eq_zero (hf : s.isStorageField f) (h : s.Selects value f i n e t dims start)
    (hnamed : s.namedVar? e = some f) : n = 0 := by
  cases n with
  | zero => rfl
  | succ n =>
      rw [h.isStorageField_eq_false hnamed] at hf
      cases hf

theorem Selects.level_unique (hf : s.isStorageField f) (h : s.Selects value f i n e t dims start)
    {m : Nat} {t' : TypeRef} {dims' : List (Option ExprId)} {start' : Nat}
    (h' : s.Selects value f i m e t' dims' start') : n = m := by
  induction h generalizing m t' dims' start' with
  | whole hnamed => exact (h'.eq_zero hf hnamed).symm
  | element he hnamed | entry he hnamed => exact (h'.eq_one hf he hnamed).symm
  | item h he _ _ _ ih | component h he _ _ _ ih =>
      cases h' with
      | whole hnamed => simp [namedVar?, he] at hnamed
      | element he' hnamed | entry he' hnamed =>
          rw [he] at he'
          cases he'
          cases h.eq_zero hf hnamed
      | item h' he' | component h' he' =>
          rw [he] at he'
          cases he'
          exact congrArg (· + 1) (ih h')
      | member h' he' | swizzle h' he' =>
          rw [he] at he'
          cases he'
  | member h he hg hown ih =>
      cases h' with
      | whole hnamed =>
          simp only [namedVar?, he, Option.some.injEq] at hnamed
          rw [← hnamed, hown] at hf
          cases hf
      | member h' he' =>
          rw [he] at he'
          cases he'
          rw [ih h']
      | element he' | entry he' | item _ he' | component _ he' | swizzle _ he' =>
          rw [he] at he'
          cases he'
  | swizzle h he _ _ ih =>
      cases h' with
      | whole hnamed => simp [namedVar?, he] at hnamed
      | swizzle h' he' =>
          rw [he] at he'
          cases he'
          rw [ih h']
      | element he' | entry he' | item _ he' | component _ he' | member _ he' =>
          rw [he] at he'
          cases he'

theorem Selects.exists_level (h : s.Selects value f i n e t dims start) {k : Nat} (hk : k < n) :
    ∃ e' t' dims' start', s.Selects value f i (k + 1) e' t' dims' start' := by
  induction h with
  | whole => cases hk
  | element he hnamed hi hdims =>
      obtain rfl := Nat.lt_one_iff.1 hk
      exact ⟨_, _, _, _, .element he hnamed hi hdims⟩
  | entry he hnamed hi hdims htype =>
      obtain rfl := Nat.lt_one_iff.1 hk
      exact ⟨_, _, _, _, .entry he hnamed hi hdims htype⟩
  | item h he hn hlt hindex ih =>
      rcases Nat.lt_succ_iff_lt_or_eq.1 hk with hk | rfl
      · exact ih hk
      · exact ⟨_, _, _, _, .item h he hn hlt hindex⟩
  | member h he hg hown ih =>
      rcases Nat.lt_succ_iff_lt_or_eq.1 hk with hk | rfl
      · exact ih hk
      · exact ⟨_, _, _, _, .member h he hg hown⟩
  | component h he htype hle hindex ih =>
      rcases Nat.lt_succ_iff_lt_or_eq.1 hk with hk | rfl
      · exact ih hk
      · exact ⟨_, _, _, _, .component h he htype hle hindex⟩
  | swizzle h he htype hle ih =>
      rcases Nat.lt_succ_iff_lt_or_eq.1 hk with hk | rfl
      · exact ih hk
      · exact ⟨_, _, _, _, .swizzle h he htype hle⟩

theorem Selects.le_size (hf : s.isStorageField f) (h : s.Selects value f i n e t dims start) :
    n ≤ s.exprs.size := by
  apply height_le_of_levels fun j k =>
    ∃ t' dims' start', s.Selects value f i (k + 1) ⟨j⟩ t' dims' start'
  · rintro j k l ⟨t, dims, start, hk⟩ ⟨t', dims', start', hl⟩
    exact Nat.succ.inj (hk.level_unique hf hl)
  · intro k hk
    obtain ⟨e', t', dims', start', h'⟩ := h.exists_level hk
    exact ⟨e'.index, h'.index_lt, t', dims', start', h'⟩

theorem varType_of_namedVar? {v : VarId} (hv : s.namedVar? e = some v) (depth : Nat) :
    s.typeWithin? (depth + 1) e = some (s.varType v) := by
  unfold namedVar? at hv
  unfold typeWithin?
  split at hv
  · next he =>
      cases hv
      rw [he]
  · next he =>
      cases hv
      rw [he]
  · cases hv

theorem elementType?_of_matrix {t column : BuiltinType} (h : t.matrixColumn? = some column) :
    elementType? ⟨.builtin t, 0⟩ = some ⟨.builtin column, 0⟩ := by
  cases t <;> simp [BuiltinType.matrixColumn?] at h
  all_goals
    subst h
    rfl

theorem typeWithin?_subscript {operand index : ExprId} (he : s.expr e = .subscript operand index)
    {type : ExprType} {depth : Nat} (hoperand : s.typeWithin? depth operand = some type) :
    s.typeWithin? (depth + 1) e = elementType? type := by
  rw [typeWithin?, he]
  dsimp only
  rw [hoperand]
  rfl

theorem Selects.typeWithin? (h : s.Selects value f i n e t dims start) {depth : Nat}
    (hdepth : n < depth) : s.typeWithin? depth e = some ⟨t, dims.length⟩ := by
  induction h generalizing depth with
  | whole hnamed hdims =>
      obtain ⟨depth, rfl⟩ := Nat.exists_eq_succ_of_ne_zero (Nat.ne_zero_of_lt hdepth)
      rw [varType_of_namedVar? hnamed, varType, hdims]
  | element he hnamed _ hdims =>
      obtain ⟨depth, rfl⟩ := Nat.exists_eq_add_of_le' (show 2 ≤ depth from hdepth)
      rw [typeWithin?_subscript he (varType_of_namedVar? hnamed depth), varType, hdims]
      rfl
  | entry he hnamed _ hdims htype =>
      obtain ⟨depth, rfl⟩ := Nat.exists_eq_add_of_le' (show 2 ≤ depth from hdepth)
      rw [typeWithin?_subscript he (varType_of_namedVar? hnamed depth), varType, hdims]
      exact htype
  | item h he _ _ _ ih =>
      obtain ⟨depth, rfl⟩ := Nat.exists_eq_succ_of_ne_zero (Nat.ne_zero_of_lt hdepth)
      exact typeWithin?_subscript he (ih (Nat.lt_of_succ_lt_succ hdepth))
  | member h he _ _ ih =>
      obtain ⟨depth, rfl⟩ := Nat.exists_eq_succ_of_ne_zero (Nat.ne_zero_of_lt hdepth)
      rw [Shader.typeWithin?, he]
      rfl
  | component h he htype _ _ ih =>
      obtain ⟨depth, rfl⟩ := Nat.exists_eq_succ_of_ne_zero (Nat.ne_zero_of_lt hdepth)
      exact (typeWithin?_subscript he (ih (Nat.lt_of_succ_lt_succ hdepth))).trans htype
  | swizzle h he hvector _ ih =>
      obtain ⟨depth, rfl⟩ := Nat.exists_eq_succ_of_ne_zero (Nat.ne_zero_of_lt hdepth)
      rw [Shader.typeWithin?, he]
      dsimp only
      rw [ih (Nat.lt_of_succ_lt_succ hdepth)]
      simp [TypeRef.builtin?, hvector]

theorem Selects.baseTypeOf? (hf : s.isStorageField f) (h : s.Selects value f i n e t dims start) :
    s.baseTypeOf? e = some t := by
  unfold Shader.baseTypeOf? typeOf?
  rw [h.typeWithin? (Nat.lt_succ_of_le (h.le_size hf))]
  rfl

theorem subscripted_of_namedVar? {v : VarId} (hv : s.namedVar? e = some v) (depth : Nat) :
    s.subscripted depth e = (e, 0) := by
  cases depth with
  | zero => rfl
  | succ depth =>
      unfold namedVar? at hv
      unfold subscripted
      split at hv
      · next he => rw [he]
      · next he => rw [he]
      · cases hv

theorem subscripted_subscript {operand index root : ExprId} {m : Nat}
    (he : s.expr e = .subscript operand index) {depth : Nat}
    (hoperand : s.subscripted depth operand = (root, m)) :
    s.subscripted (depth + 1) e = (root, m + 1) := by
  rw [subscripted, he]
  dsimp only
  rw [hoperand]

theorem Selects.subscripted (h : s.Selects value f i n e t dims start) {depth : Nat}
    (hdepth : n ≤ depth) :
    ∃ root m, s.subscripted depth e = (root, m) ∧
      ((∃ v, s.namedVar? root = some v ∧ (s.var v).dims.drop m = dims ∧
          (dims ≠ [] → (s.var v).type = t)) ∨
        s.namedVar? root = none ∧ dims = []) := by
  induction h generalizing depth with
  | @whole e hnamed hdims =>
      exact ⟨e, 0, subscripted_of_namedVar? hnamed depth, .inl ⟨f, hnamed, hdims, fun _ => rfl⟩⟩
  | @element e operand index d dims he hnamed _ hdims =>
      obtain ⟨depth, rfl⟩ := Nat.exists_eq_succ_of_ne_zero (Nat.ne_zero_of_lt hdepth)
      exact ⟨operand, 1, subscripted_subscript he (subscripted_of_namedVar? hnamed depth),
        .inl ⟨f, hnamed, by rw [hdims]; rfl, fun _ => rfl⟩⟩
  | @entry e operand index t he hnamed _ hdims =>
      obtain ⟨depth, rfl⟩ := Nat.exists_eq_succ_of_ne_zero (Nat.ne_zero_of_lt hdepth)
      exact ⟨operand, 1, subscripted_subscript he (subscripted_of_namedVar? hnamed depth),
        .inl ⟨f, hnamed, by rw [hdims]; rfl, fun h => absurd rfl h⟩⟩
  | item h he _ _ _ ih =>
      obtain ⟨depth, rfl⟩ := Nat.exists_eq_succ_of_ne_zero (Nat.ne_zero_of_lt hdepth)
      obtain ⟨root, m, hroot, ⟨v, hv, hdrop, htype⟩ | ⟨_, hnil⟩⟩ :=
        ih (Nat.le_of_succ_le_succ hdepth)
      · refine ⟨root, m + 1, subscripted_subscript he hroot, .inl ⟨v, hv, ?_, fun _ => ?_⟩⟩
        · rw [← List.tail_drop, hdrop, List.tail_cons]
        · exact htype (List.cons_ne_nil _ _)
      · cases hnil
  | @member e operand n id name g start h he _ _ ih =>
      have hnamed : s.namedVar? e = some g := by rw [namedVar?, he]
      exact ⟨e, 0, subscripted_of_namedVar? hnamed depth, .inl ⟨g, hnamed, rfl, fun _ => rfl⟩⟩
  | component h he _ _ _ ih =>
      obtain ⟨depth, rfl⟩ := Nat.exists_eq_succ_of_ne_zero (Nat.ne_zero_of_lt hdepth)
      obtain ⟨root, m, hroot, ⟨v, hv, hdrop, htype⟩ | ⟨hnone, _⟩⟩ :=
        ih (Nat.le_of_succ_le_succ hdepth)
      · refine ⟨root, m + 1, subscripted_subscript he hroot, .inl
          ⟨v, hv, ?_, fun h => absurd rfl h⟩⟩
        rw [← List.tail_drop, hdrop, List.tail_nil]
      · exact ⟨root, m + 1, subscripted_subscript he hroot, .inr ⟨hnone, rfl⟩⟩
  | @swizzle e operand n t part name start h he hvector hle ih =>
      refine ⟨e, 0, ?_, .inr ⟨by rw [namedVar?, he], rfl⟩⟩
      cases depth with
      | zero => rfl
      | succ depth => rw [Shader.subscripted, he]

theorem Selects.steppedOver_array (hf : s.isStorageField f) {d : Option ExprId}
    (h : s.Selects value f i n e t (d :: dims) start) :
    s.steppedOver e = s.sizeOfType t * s.elementCount dims := by
  obtain ⟨root, m, hroot, ⟨v, hv, hdrop, htype⟩ | ⟨_, hnil⟩⟩ := h.subscripted (h.le_size hf)
  · have hm : m < (s.var v).dims.length := by
      by_contra hle
      rw [List.drop_eq_nil_of_le (Nat.le_of_not_lt hle)] at hdrop
      cases hdrop
    unfold steppedOver
    rw [hroot]
    dsimp only
    rw [hv, Option.bind_eq_bind, Option.bind_some, if_pos hm, Option.getD_some, sizeOfVar,
      htype (List.cons_ne_nil _ _), ← List.tail_drop, hdrop, List.tail_cons]
  · cases hnil

theorem componentSize_eq (s : Shader) {b part : BuiltinType}
    (hpart : elementType? ⟨.builtin b, 0⟩ = some ⟨.builtin part, 0⟩) :
    s.componentSize (.builtin b) = builtinSize part := by
  cases b <;>
  · simp only [elementType?, BuiltinType.isVector, BuiltinType.isMatrix, BuiltinType.matrixExtents?,
      BuiltinType.matrixColumn?, BuiltinType.component] at hpart
    cases hpart
    rfl

theorem Selects.steppedOver_component (hf : s.isStorageField f) {b part : BuiltinType}
    (h : s.Selects value f i n e (.builtin b) [] start)
    (hpart : elementType? ⟨.builtin b, 0⟩ = some ⟨.builtin part, 0⟩) :
    s.steppedOver e = builtinSize part := by
  have hbase : ((s.baseTypeOf? e).map s.componentSize).getD 0 = builtinSize part := by
    rw [h.baseTypeOf? hf, Option.map_some, Option.getD_some, componentSize_eq s hpart]
  unfold steppedOver
  obtain ⟨root, m, hroot, ⟨v, hv, hdrop, _⟩ | ⟨hnone, _⟩⟩ := h.subscripted (h.le_size hf)
  · have hm : ¬m < (s.var v).dims.length := Nat.not_lt.2 (List.drop_eq_nil_iff.1 hdrop)
    rw [hroot]
    dsimp only
    rw [hv, Option.bind_eq_bind, Option.bind_some, if_neg hm, Option.getD_none, hbase]
  · rw [hroot]
    dsimp only
    rw [hnone, Option.bind_eq_bind, Option.bind_none, Option.getD_none, hbase]

end Shader

end ShaderBridge
