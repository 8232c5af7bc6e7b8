import ShaderBridge.Hlsl.Syntax

namespace ShaderBridge

namespace Hlsl

/-- The kind of register that a variable of a type is bound to, if it is a resource. -/
def registerClass? : BuiltinType → Option RegisterClass
  | .samplerState | .comparisonState => some .sampler
  | .accelerationStructure => some .texture
  | t =>
    if t.isTexture then some .texture
    else if t.isImage then some .writable
    else none

/-- The element types that image formats stand for. -/
def formatElements : List (List String × String) :=
  [(["rgba32f", "rgba16f"], "float4"), (["rgba16", "rgb10_a2", "rgba8"], "unorm float4"),
    (["rgba16_snorm", "rgba8_snorm"], "snorm float4"), (["rgba32i", "rgba16i", "rgba8i"], "int4"),
    (["rgba32ui", "rgba16ui", "rgb10_a2ui", "rgba8ui"], "uint4"), (["r11f_g11f_b10f"], "float3"),
    (["rg32f", "rg16f"], "float2"), (["rg16", "rg8"], "unorm float2"),
    (["rg16_snorm", "rg8_snorm"], "snorm float2"), (["rg32i", "rg16i", "rg8i"], "int2"),
    (["rg32ui", "rg16ui", "rg8ui"], "uint2"), (["r32f", "r16f"], "float"),
    (["r16", "r8"], "unorm float"), (["r16_snorm", "r8_snorm"], "snorm float"),
    (["r32i", "r16i", "r8i"], "int"), (["r32ui", "r16ui", "r8ui"], "uint")]

def formatElement? (format : String) : Option String :=
  (formatElements.find? fun entry => entry.1.contains format).map Prod.snd

/-- The element type of a texture or an image that is declared without format. A float
image without format is declared with integers. -/
def defaultElement? : BuiltinType → Option String
  | .sampler .int _ | .texture .int _ => some "int4"
  | .sampler .uint _ | .texture .uint _ | .image .uint _ => some "uint4"
  | .sampler .float _ | .texture .float _ | .shadowSampler _ => some "float4"
  | .image .float _ | .image .int _ => some "int4"
  | _ => none

def element? (t : BuiltinType) (layout : List LayoutEntry) : Option String :=
  (defaultElement? t).map fun element =>
    ((layout.filter (·.value.isNone)).findSome? fun entry => formatElement? entry.name).getD element

def samplerStateType? : TypeRef → Option String
  | .builtin t =>
    if t.isCombinedSampler then
      some (if t.isShadow then "SamplerComparisonState" else "SamplerState")
    else none
  | .declared _ => none

def samplerName (texture : String) : String :=
  texture ++ "_sampler"

end Hlsl

namespace Shader

open Hlsl

/-- The name of a type in the target language. A structure without name has none there either. -/
def hlslTypeName (s : Shader) : TypeRef → String
  | .builtin t => t.hlslName
  | .declared id => (s.struct id).name.getD ""

/-- A type as it stands in declarations. Matrices are stored row by row. -/
def hlslDeclaredType (s : Shader) (t : TypeRef) : String :=
  match t with
  | .builtin b => if b.isMatrix then "row_major " ++ b.hlslName else b.hlslName
  | .declared _ => s.hlslTypeName t

def bindingSlot (s : Shader) (layout : List LayoutEntry) : Int :=
  (s.layoutValue? layout "binding").getD (-1)

def bindingSpace (s : Shader) (layout : List LayoutEntry) : Int :=
  (s.layoutValue? layout "set").getD 0

/-- A register of a kind at the place that a layout names. -/
def registerAt (s : Shader) (kind : RegisterClass) (layout : List LayoutEntry) : Register :=
  ⟨kind, s.bindingSlot layout, some (s.bindingSpace layout)⟩

/-- The register of a variable, if it is a resource and has a layout. -/
def register? (s : Shader) (t : TypeRef) (layout : List LayoutEntry) : Option Register := do
  let kind ← registerClass? (← t.builtin?)
  if layout.isEmpty then none else some (s.registerAt kind layout)

end Shader

end ShaderBridge
