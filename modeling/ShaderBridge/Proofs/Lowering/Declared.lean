import ShaderBridge.Hlsl.Program
import Mathlib.Data.List.Basic

namespace ShaderBridge

namespace Hlsl

/-- A declaration without the expressions in it. -/
inductive Head where
  | fixed (text : String)
  | global (name : String)
  | record (name : String)
  | constantBuffer (name : String)
  | byteBuffer (name : String)
  | accessor (function type resource : String) (stride : Nat) (leaves : List Leaf)
  | function (name : String)

def Decl.head : Decl → Head
  | .fixed text => .fixed text
  | .global _ _ declarator _ => .global declarator.name
  | .record name _ => .record name
  | .constantBuffer name _ _ => .constantBuffer name
  | .byteBuffer _ name _ => .byteBuffer name
  | .accessor name type resource stride leaves => .accessor name type resource stride leaves
  | .function _ _ name _ _ => .function name

/-- What a declaration declares. -/
inductive Subject where
  /-- A declaration that does not come from the source. -/
  | fixed (head : Head)
  | global (id : VarId)
  | samplerState (id : VarId)
  | record (id : StructId)
  | constants (id : StructId)
  | storage (id : StructId)
  | accessor (buffer : ByteBuffer)
  | function (id : FuncId)

end Hlsl

namespace Shader

open Hlsl

variable (s : Shader)

def headOf : Subject → Head
  | .fixed head => head
  | .global id => .global (s.var id).name
  | .samplerState id => .global (samplerName (s.var id).name)
  | .record id => .record ((s.struct id).name.getD "")
  | .constants id => .constantBuffer ((s.struct id).name.getD "")
  | .storage id => .byteBuffer (s.bufferName id)
  | .accessor buffer =>
    .accessor (accessorName (s.var buffer.field).name)
      (s.hlslDeclaredType (s.var buffer.field).type) buffer.resource buffer.stride
      (s.elementLeaves buffer "ret").leaves
  | .function id => .function (s.func id).name

def globalSubjects (id : VarId) : List Subject :=
  match (s.var id).global? with
  | none => []
  | some _ =>
    .global id :: ((samplerStateType? (s.var id).type).map fun _ => .samplerState id).toList

def blockSubjects (id : StructId) : List Subject :=
  match (s.struct id).block, (s.struct id).name with
  | some info, some _ =>
    if sizesGroup info then []
    else
      match info.storage with
      | .buffer => .storage id :: (s.byteBuffers id).map .accessor
      | .uniform => [.constants id]
      | _ => [.record id]
  | _, _ => []

def functionSubjects (id : FuncId) : List Subject :=
  if (s.func id).builtin then [] else [.function id]

/-- What a program declares, in order. -/
def subjects (options : Options) : List Subject :=
  (s.helperDecls options).map (fun d => Subject.fixed d.head) ++
    (s.plainGlobals options).flatMap s.globalSubjects ++ s.structures.toList.map Subject.record ++
    s.inputDecls.map (fun d => Subject.fixed d.head) ++ s.blocks.toList.flatMap s.blockSubjects ++
    (s.recordGlobals options).flatMap s.globalSubjects ++
      s.functions.toList.flatMap s.functionSubjects

end Shader

namespace Hlsl

variable {α β γ : Type} {s : Shader} {buffers : List ByteBuffer}

/-- The result of a computation has a property wherever the computation starts. -/
def Always (m : LowerM α) (P : α → Prop) : Prop :=
  ∀ state, P (m.run state).1

theorem always_pure {P : α → Prop} {a : α} (h : P a) : Always (pure a) P :=
  fun _ => h

theorem always_imp {P Q : α → Prop} {m : LowerM α} (hm : Always m P) (h : ∀ a, P a → Q a) :
    Always m Q :=
  fun state => h _ (hm state)

theorem always_bind {P : α → Prop} {Q : β → Prop} {m : LowerM α} {f : α → LowerM β}
    (hm : Always m P) (hf : ∀ a, P a → Always (f a) Q) : Always (m >>= f) Q :=
  fun state => hf _ (hm state) _

theorem always_bind_any {Q : β → Prop} {m : LowerM α} {f : α → LowerM β}
    (hf : ∀ a, Always (f a) Q) : Always (m >>= f) Q :=
  always_bind (P := fun _ => True) (fun _ => trivial) fun a _ => hf a

/-- The declarations of a program are those of the given subjects. -/
def Declares (s : Shader) (subjects : List Subject) (p : Program) : Prop :=
  p.map Decl.head = subjects.map s.headOf

theorem Declares.append {subjects subjects' : List Subject} {p q : Program}
    (hp : Declares s subjects p) (hq : Declares s subjects' q) :
    Declares s (subjects ++ subjects') (p ++ q) := by
  unfold Declares
  rw [List.map_append, List.map_append, hp, hq]

theorem always_lowerDeclarator (id : VarId) :
    Always (s.lowerDeclarator buffers id) fun d => d.name = (s.var id).name := by
  refine always_bind_any fun dims => ?_
  refine always_bind_any fun initial => ?_
  exact always_pure rfl

end Hlsl

end ShaderBridge
