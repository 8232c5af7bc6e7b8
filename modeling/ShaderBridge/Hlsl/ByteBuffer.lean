import ShaderBridge.Hlsl.ByteLayout
import ShaderBridge.Shader.Typing

/-!
Storage blocks as byte-addressed buffers. The fields of a block lie one behind the other, and where
a field is an array its elements are taken apart: element `i` of every field lies within stride `i`
of the buffer. An access to a part of a field is a sum of indices, each times the bytes that it
steps over, and of a constant offset.
-/

namespace ShaderBridge

open scoped PlainNumbers

namespace Hlsl

/-- The place of a field of a storage block. -/
structure ByteBuffer where
  field : VarId
  /-- The resource that the field lives in. -/
  resource : String
  /-- The bytes from one element to the next. -/
  stride : Nat
  /-- The bytes in front of the field within one element. -/
  offset : Nat
deriving DecidableEq, Repr

/-- The address of a part of a field. -/
structure Access where
  buffer : ByteBuffer
  /-- Indices in the order of the source, with the bytes that each steps over. -/
  terms : List (ExprId × Nat) := []
  offset : Nat
deriving DecidableEq, Repr

/-- The component that a letter of a swizzle selects. -/
def componentIndex : Char → Nat
  | 'y' | 'g' | 't' => 1
  | 'z' | 'b' | 'p' => 2
  | 'w' | 'a' | 'q' => 3
  | _ => 0

end Hlsl

namespace Shader

open Hlsl

/-- The number of dimensions of a field that its elements are counted by. -/
def outerDims (s : Shader) (field : VarId) : Nat :=
  min 1 (s.var field).dims.length

def sizeOfElement (s : Shader) (field : VarId) : Nat :=
  s.sizeOfVar field (s.outerDims field)

/-- The resource that the fields of a storage block live in. A field that is alone gives it its
name. -/
def bufferName (s : Shader) (id : StructId) : String :=
  match (s.struct id).fields with
  | [only] => (s.var only).name
  | _ => (s.struct id).name.getD ""

/-- The bytes of one element of all fields of a block. -/
def bufferStride (s : Shader) (id : StructId) : Nat :=
  ((s.struct id).fields.map s.sizeOfElement).sum

def placeFields (s : Shader) (resource : String) (stride : Nat) : Nat → List VarId → List ByteBuffer
  | _, [] => []
  | offset, field :: rest =>
    ⟨field, resource, stride, offset⟩ ::
      s.placeFields resource stride (offset + s.sizeOfElement field) rest

def byteBuffers (s : Shader) (id : StructId) : List ByteBuffer :=
  s.placeFields (s.bufferName id) (s.bufferStride id) 0 (s.struct id).fields

/-- The leaves of one element of a field, as a value of the given name. -/
def elementLeaves (s : Shader) (buffer : ByteBuffer) (name : String) : Leaves :=
  let v := s.var buffer.field
  s.leaves v.type (v.dims.drop (s.outerDims buffer.field)) name buffer.offset

/-- The variable that an expression names as a whole. -/
def namedVar? (s : Shader) (id : ExprId) : Option VarId :=
  match s.expr id with
  | .var v => some v
  | .member _ _ (some field) => some field
  | _ => none

/-- The field that an expression names, if it is one of those given. -/
def bufferOf? (s : Shader) (buffers : List ByteBuffer) (id : ExprId) : Option ByteBuffer := do
  let v ← s.namedVar? id
  buffers.find? fun buffer => buffer.field == v

/-- What is left of an expression when its subscripts are taken away, and their number. -/
def subscripted (s : Shader) : Nat → ExprId → ExprId × Nat
  | 0, id => (id, 0)
  | depth + 1, id =>
    match s.expr id with
    | .subscript operand _ =>
      let (root, n) := s.subscripted depth operand
      (root, n + 1)
    | _ => (id, 0)

/-- The bytes of one component or column of a value. -/
def componentSize (s : Shader) : TypeRef → Nat
  | .builtin t => ((t.matrixColumn?.map builtinSize).getD (builtinSize t.component))
  | t => s.sizeOfType t

/-- The bytes that one subscript of an expression steps over. -/
def steppedOver (s : Shader) (id : ExprId) : Nat :=
  let (root, depth) := s.subscripted s.exprs.size id
  let element : Option Nat := do
    let v ← s.namedVar? root
    if depth < (s.var v).dims.length then some (s.sizeOfVar v (depth + 1)) else none
  element.getD (((s.baseTypeOf? id).map s.componentSize).getD 0)

/-- The address of what an expression names, followed to the given depth. -/
def accessWithin? (s : Shader) (buffers : List ByteBuffer) : Nat → ExprId → Option Access
  | 0, _ => none
  | depth + 1, id =>
    match s.bufferOf? buffers id with
    | some buffer => some { buffer, offset := buffer.offset }
    | none =>
      match s.expr id with
      | .subscript operand index => do
        let access ← s.accessWithin? buffers depth operand
        let bytes := match s.bufferOf? buffers operand with
          | some buffer => buffer.stride
          | none => s.steppedOver operand
        return { access with terms := access.terms ++ [(index, bytes)] }
      | .member operand name field => do
        let access ← s.accessWithin? buffers depth operand
        match field, ← s.baseTypeOf? operand with
        | some field, .declared decl =>
          return { access with offset := access.offset + s.fieldOffset decl field }
        | none, .builtin t =>
          let first := (name.toList.head?.map componentIndex).getD 0
          return { access with offset := access.offset + first * builtinSize t.component }
        | _, _ => none
      | _ => none

/-- The address of what an expression names, if that is a field of a buffer or a part of one. -/
def access? (s : Shader) (buffers : List ByteBuffer) (id : ExprId) : Option Access :=
  s.accessWithin? buffers (s.exprs.size + 1) id

end Shader

end ShaderBridge
