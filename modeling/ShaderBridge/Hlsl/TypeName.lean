import ShaderBridge.Keyword

namespace ShaderBridge

def Scalar.hlslName : Scalar → String
  | bool => "bool"
  | int16 => "short"
  | uint16 => "ushort"
  | int => "int"
  | uint => "uint"
  | int64 => "int64_t"
  | uint64 => "uint64_t"
  | float16 => "half"
  | float => "float"
  | double => "double"

/-- What stands before the component count in the name of a vector. -/
def Scalar.hlslVectorName : Scalar → String
  | int16 => "int16_t"
  | uint16 => "uint16_t"
  | s => s.hlslName

def Shape.hlslTexture : Shape → String
  | d1 => "Texture1D"
  | d2 => "Texture2D"
  | d3 => "Texture3D"
  | cube => "TextureCube"
  | d1Array => "Texture1DArray"
  | d2Array => "Texture2DArray"
  | cubeArray => "TextureCubeArray"
  | rect => "Texture2D"
  | buffer => "Buffer"
  | multisample => "Texture2DMS"
  | multisampleArray => "Texture2DMSArray"

/-- Writable images have no cube forms: a cube is an array of faces. -/
def Shape.hlslImage : Shape → String
  | cube | cubeArray => "RWTexture2DArray"
  | shape => "RW" ++ shape.hlslTexture

/-- A matrix is named by its columns first, in both languages. Families have no name. -/
def BuiltinType.hlslName : BuiltinType → String
  | void => "void"
  | scalar s => s.hlslName
  | vector s n => s.hlslVectorName ++ n.digit
  | squareMatrix s n => s.toScalar.hlslName ++ n.digit ++ "x" ++ n.digit
  | matrix s columns rows => s.toScalar.hlslName ++ columns.digit ++ "x" ++ rows.digit
  | sampler _ shape => shape.hlslTexture
  | shadowSampler shape => shape.toShape.hlslTexture
  | texture _ shape => shape.hlslTexture
  | image _ shape => shape.hlslImage
  | subpass _ ms => "SubpassInput" ++ multisampledSuffix ms
  | samplerState => "SamplerState"
  | comparisonState => "SamplerComparisonState"
  | accelerationStructure => "RaytracingAccelerationStructure"
  | rayQuery => "RayQuery<RAY_FLAG_NONE>"
  | family _ => ""

def RayJump.hlslName : RayJump → String
  | ignoreIntersection => "IgnoreHit"
  | terminateRay => "AcceptHitAndEndSearch"

/-- The spelling of a keyword in the target language, empty where it has no counterpart. -/
def Keyword.hlslName : Keyword → String
  | type t => t.hlslName
  | rayJump j => j.hlslName
  | _ => ""

end ShaderBridge
