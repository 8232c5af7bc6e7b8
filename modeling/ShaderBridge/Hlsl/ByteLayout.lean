import ShaderBridge.Hlsl.TypeName
import ShaderBridge.Number.Plain
import ShaderBridge.Shader.Basic
import ShaderBridge.Text.Chars

/-!
How values lie in byte-addressed memory. A value is a sequence of leaves, which are its scalars, its
vectors and the columns of its matrices, one behind the other without gaps. Sizes count the same
bytes without a look at the leaves.
-/

namespace ShaderBridge

open scoped PlainNumbers

namespace Hlsl

def scalarSize : Scalar → Nat
  | .bool => 1
  | .int16 | .uint16 | .float16 => 2
  | .int | .uint | .float => 4
  | .int64 | .uint64 | .double => 8

/-- The number of bytes of a type of the language. What is opaque has no size. -/
def builtinSize (t : BuiltinType) : Nat :=
  match t.component with
  | .scalar s =>
    match t.matrixDims? with
    | some (columns, rows) => columns * rows * scalarSize s
    | none => t.vectorSize * scalarSize s
  | _ => 0

end Hlsl

namespace Shader

/-- The number of elements of a dimension, where that is a literal. -/
def arrayLength? (s : Shader) (dim : Option ExprId) : Option Nat := do
  let length ← (← s.constant? (← dim)).toInt64?
  if length < 0 then none else some length.toNat

/-- The number of elements of an array with the given dimensions. A dimension without a known
length counts once. -/
def elementCount (s : Shader) (dims : List (Option ExprId)) : Nat :=
  (dims.map fun dim => (s.arrayLength? dim).getD 1).prod

/-- The number of bytes of a value, its structures followed to the given depth. -/
def sizeWithin (s : Shader) : Nat → TypeRef → Nat
  | _, .builtin t => Hlsl.builtinSize t
  | 0, .declared _ => 0
  | depth + 1, .declared id =>
    ((s.struct id).fields.map fun field =>
      s.sizeWithin depth (s.var field).type * s.elementCount (s.var field).dims).sum

/-- No structure contains another one deeper than there are structures. -/
def structDepth (s : Shader) : Nat :=
  s.structs.size + 1

def sizeOfType (s : Shader) (t : TypeRef) : Nat :=
  s.sizeWithin s.structDepth t

/-- The number of bytes of a variable with its first dimensions left out. -/
def sizeOfVar (s : Shader) (id : VarId) (skipped : Nat) : Nat :=
  s.sizeOfType (s.var id).type * s.elementCount ((s.var id).dims.drop skipped)

def fieldOffset (s : Shader) (id : StructId) (field : VarId) : Nat :=
  (((s.struct id).fields.takeWhile (· != field)).map fun f => s.sizeOfVar f 0).sum

end Shader

namespace Hlsl

/-- A part of a value that is read and written at once: how it is reached from the whole, where it
begins, and its type. -/
structure Leaf where
  path : String
  offset : Nat
  type : BuiltinType
deriving DecidableEq, Repr

/-- Leaves together with the number of bytes that they take. -/
structure Leaves where
  leaves : List Leaf := []
  size : Nat := 0
deriving DecidableEq, Repr

namespace Leaves

/-- Lays parts one behind the other, each of which is told where it begins. -/
def inSequence : List (Nat → Leaves) → Nat → Leaves
  | [], _ => {}
  | part :: rest, offset =>
    let first := part offset
    let others := inSequence rest (offset + first.size)
    ⟨first.leaves ++ others.leaves, first.size + others.size⟩

def single (path : String) (offset : Nat) (t : BuiltinType) : Leaves :=
  ⟨[⟨path, offset, t⟩], builtinSize t⟩

end Leaves

def elementPath (path : String) (i : Nat) : String :=
  path ++ "[" ++ decimal i ++ "]"

def builtinLeaves (t : BuiltinType) (path : String) (offset : Nat) : Leaves :=
  match t.matrixDims?, t.matrixColumn? with
  | some (columns, _), some column =>
    .inSequence ((List.range columns).map fun i start => .single (elementPath path i) start column)
      offset
  | _, _ => .single path offset t

/-- The leaves of an array of the given lengths. A dimension without a known length is passed
over. -/
def arrayLeaves (element : String → Nat → Leaves) : List (Option Nat) → String → Nat → Leaves
  | [], path, offset => element path offset
  | none :: rest, path, offset => arrayLeaves element rest path offset
  | some n :: rest, path, offset =>
    .inSequence ((List.range n).map fun i start =>
      arrayLeaves element rest (elementPath path i) start) offset

end Hlsl

namespace Shader

open Hlsl

/-- The leaves of a value, its structures followed to the given depth. -/
def leavesWithin (s : Shader) : Nat → TypeRef → String → Nat → Leaves
  | _, .builtin t, path, offset => builtinLeaves t path offset
  | 0, .declared _, _, _ => {}
  | depth + 1, .declared id, path, offset =>
    .inSequence ((s.struct id).fields.map fun field start =>
      let v := s.var field
      arrayLeaves (s.leavesWithin depth v.type) (v.dims.map s.arrayLength?)
        (path ++ "." ++ v.name) start) offset

def leaves (s : Shader) (t : TypeRef) (dims : List (Option ExprId)) (path : String)
    (offset : Nat) : Leaves :=
  arrayLeaves (s.leavesWithin s.structDepth t) (dims.map s.arrayLength?) path offset

end Shader

end ShaderBridge
