import ShaderBridge.Hlsl.Lowering.Statement

namespace ShaderBridge

namespace StorageClass

/-- What a global variable of a storage class is declared with. -/
def hlslQualifiers : StorageClass → List String
  | constant => ["static", "const"]
  | shared => ["groupshared"]
  | _ => []

end StorageClass

def Auxiliary.hlslQualifiers : Auxiliary → List String
  | centroid => ["centroid"]
  | sample => ["sample"]
  | patch => []

def Interpolation.hlslQualifiers : Interpolation → List String
  | smooth => ["linear"]
  | flat => ["nointerpolation"]
  | noperspective => ["noperspective"]

def ParamQualifiers.hlslQualifiers (q : ParamQualifiers) : List String :=
  (if q.constant then ["const"] else []) ++ (if q.input then ["in"] else []) ++
    (if q.output then ["out"] else []) ++ if q.inout then ["inout"] else []

def GlobalInfo.hlslQualifiers (g : GlobalInfo) (precise : Bool) : List String :=
  ((g.storage.map StorageClass.hlslQualifiers).getD []) ++
    ((g.auxiliary.map Auxiliary.hlslQualifiers).getD []) ++
    (if precise then ["precise"] else []) ++
    ((g.interpolation.map Interpolation.hlslQualifiers).getD [])

namespace Shader

open Hlsl

/-- The type of a global variable, with the element type of a texture or an image. -/
def hlslGlobalType (s : Shader) (t : TypeRef) (layout : List LayoutEntry) : String :=
  s.hlslDeclaredType t ++
    (((t.builtin?.bind fun b => element? b layout).map fun e => "<" ++ e ++ ">").getD "")

def lowerSamplerState (s : Shader) (buffers : List ByteBuffer) (v : Variable) (g : GlobalInfo) :
    LowerM Program := do
  match samplerStateType? v.type with
  | none => return []
  | some state =>
    let dims ← s.lowerDims buffers v.dims
    return [.global [] state { name := samplerName v.name, dims }
      (s.register? (.builtin .samplerState) g.layout)]

def lowerGlobal (s : Shader) (buffers : List ByteBuffer) (id : VarId) : LowerM Program := do
  let v := s.var id
  match v.global? with
  | none => return []
  | some g =>
    let declarator ← s.lowerDeclarator buffers id
    let declared : Decl := .global (g.hlslQualifiers v.flags.precise)
      (s.hlslGlobalType v.type g.layout) declarator (s.register? v.type g.layout)
    return declared :: (← s.lowerSamplerState buffers v g)

def lowerField (s : Shader) (buffers : List ByteBuffer) (id : VarId) : LowerM Field := do
  let v := s.var id
  return { type := s.hlslDeclaredType v.type, name := v.name, dims := ← s.lowerDims buffers v.dims }

def lowerRecord (s : Shader) (buffers : List ByteBuffer) (id : StructId) : LowerM Decl := do
  let d := s.struct id
  return .record (d.name.getD "") (← d.fields.mapM (s.lowerField buffers))

/-- The layout names that size the work group of a compute shader. -/
def groupAxes : List String := ["local_size_x", "local_size_y", "local_size_z"]

/-- The size of the work group along one axis, one unless a block says otherwise. -/
def groupSize (s : Shader) (axis : String) : Int :=
  let sizes := s.blocks.toList.filterMap fun id =>
    (s.struct id).block.bind fun info => s.layoutValue? info.layout axis
  sizes.getLast?.getD 1

/-- Whether a block is there only to size the work group. -/
def sizesGroup (info : BlockInfo) : Bool :=
  groupAxes.any (hasLayout info.layout)

/-- The buffer that a storage block becomes, and the functions that read its fields. -/
def storageDecls (s : Shader) (id : StructId) (info : BlockInfo) : Program :=
  let kind := if info.memory.readonly then .texture else .writable
  .byteBuffer info.memory.readonly (s.bufferName id) (s.registerAt kind info.layout) ::
    (s.byteBuffers id).map fun buffer =>
      let v := s.var buffer.field
      .accessor (accessorName v.name) (s.hlslDeclaredType v.type) buffer.resource buffer.stride
        (s.elementLeaves buffer "ret").leaves

/-- The register of a constant buffer. Push constants have none. -/
def constantRegister? (s : Shader) (layout : List LayoutEntry) : Option Register :=
  if hasLayout layout "push_constant" then none
  else some ⟨.buffer, s.bindingSlot layout, none⟩

/-- Binds the first of some members to the start of their buffer. -/
def bindFirst : List Field → List Field
  | [] => []
  | f :: fs => { f with binding := some "packoffset(c0)" } :: fs

/-- An interface block. Next to what it declares come the fields that are read from buffers. -/
def lowerBlock (s : Shader) (buffers : List ByteBuffer) (id : StructId) :
    LowerM (Program × List ByteBuffer) := do
  let d := s.struct id
  match d.block, d.name with
  | some info, some name =>
    if sizesGroup info then
      return ([], [])
    else
      match info.storage with
      | .buffer => return (s.storageDecls id info, s.byteBuffers id)
      | .uniform =>
        let fields ← d.fields.mapM (s.lowerField buffers)
        return ([.constantBuffer name (s.constantRegister? info.layout) (bindFirst fields)], [])
      | _ => return ([← s.lowerRecord buffers id], [])
  | _, _ => return ([], [])

/-- Interface blocks, each of which knows the buffers of those before it. -/
def lowerBlocks (s : Shader) : List ByteBuffer → List StructId →
    LowerM (Program × List ByteBuffer)
  | buffers, [] => return ([], buffers)
  | buffers, id :: ids => do
    let (first, added) ← s.lowerBlock buffers id
    let (others, buffers) ← s.lowerBlocks (buffers ++ added) ids
    return (first ++ others, buffers)

/-- A variable that the hardware gives to a compute shader. -/
structure ComputeInput where
  type : String
  name : String
  semantic : String

def computeInputs : List ComputeInput :=
  [⟨"uint3", "gl_WorkGroupID", "SV_GroupID"⟩,
    ⟨"uint3", "gl_LocalInvocationID", "SV_GroupThreadID"⟩,
    ⟨"uint3", "gl_GlobalInvocationID", "SV_DispatchThreadID"⟩,
    ⟨"uint", "gl_LocalInvocationIndex", "SV_GroupIndex"⟩]

/-- The variables of a compute shader that are computed from its wave. -/
def waveInputs : List (String × String) :=
  [("gl_SubgroupSize", "WaveGetLaneCount"), ("gl_SubgroupInvocationID", "WaveGetLaneIndex")]

/-- The type of the parameter that the inputs come in. -/
def inputRecord : String := "GLSLX_Input"

def inputParam : String := "glslx_input"

/-- The variables for the inputs of a compute shader, and the structure that they come in. -/
def computeDecls : Program :=
  computeInputs.map (fun input => Decl.global ["static"] input.type { name := input.name } none) ++
    waveInputs.map (fun (name, _) => Decl.global ["static"] "uint" { name } none) ++
    [Decl.record inputRecord (computeInputs.map fun input =>
      { type := input.type, name := input.name, binding := some input.semantic })]

def copyInputs : List Hlsl.Stmt :=
  computeInputs.map (fun input => Hlsl.Stmt.expression
    (.assign .assign (.name input.name) (.member (.name inputParam) input.name))) ++
    waveInputs.map fun (name, function) =>
      Hlsl.Stmt.expression (.assign .assign (.name name) (.call function []))

/-- A parameter, followed by the state of a combined sampler. -/
def lowerParam (s : Shader) (buffers : List ByteBuffer) (id : VarId) : LowerM (List Param) := do
  let v := s.var id
  let qualifiers := match v.role with
    | .parameter q => q.hlslQualifiers
    | _ => []
  let dims ← s.lowerDims buffers v.dims
  let texture : Param := { qualifiers, type := s.hlslDeclaredType v.type, name := v.name, dims }
  let state : Option Param := (samplerStateType? v.type).map fun type =>
    { type, name := samplerName v.name }
  return texture :: state.toList

def isComputeEntry (s : Shader) (f : Function) : Bool :=
  s.stage == .compute && f.name == "main"

/-- A function, unless it is one of the language. -/
def lowerFunction (s : Shader) (buffers : List ByteBuffer) (id : FuncId) : LowerM Program := do
  let f := s.func id
  if f.builtin then
    return []
  else
    let entry := s.isComputeEntry f
    let threads := if entry && f.body.isSome then
        some (s.groupSize "local_size_x", s.groupSize "local_size_y", s.groupSize "local_size_z")
      else none
    let inputs : List Param := if entry then [{ type := inputRecord, name := inputParam }] else []
    let params ← f.params.mapM (s.lowerParam buffers)
    let body ← f.body.mapM fun body => do
      return (if entry then copyInputs else []) ++ (← body.mapM (s.lowerStmt buffers))
    return [.function threads (s.hlslDeclaredType f.returnType) f.name (inputs ++ params.flatten)
      body]

end Shader

end ShaderBridge
