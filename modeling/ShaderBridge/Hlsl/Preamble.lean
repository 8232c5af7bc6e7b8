import ShaderBridge.Stage

namespace ShaderBridge.Hlsl.Preamble

/-- A function with its body on lines of their own. -/
def block (signature : String) (body : List String) : String :=
  signature ++ " \x7b\n" ++ String.join (body.map fun line => "    " ++ line ++ "\n") ++ "\x7d\n"

def oneLine (signature body : String) : String :=
  signature ++ " \x7b " ++ body ++ " \x7d\n"

/-- A list of parameters on several lines, all below the first. -/
def aligned (head : String) (lines : List String) : String :=
  head ++ (",\n" ++ "".pushn ' ' head.length).intercalate lines ++ ")"

def texelFetch (result texture : String) (sampled : Bool) (point level : String) : String :=
  block (result ++ " texelFetch(" ++ texture ++ " t, " ++
      (if sampled then "SamplerState s, " else "") ++ point ++ " P, int lod)")
    ["return t.Load(" ++ level ++ "(P, lod));"]

def textureLod (texture point : String) : String :=
  block ("float4 textureLod(" ++ texture ++ " t, SamplerState s, " ++ point ++ " P, float lod)")
    ["return t.SampleLevel(s, P, lod);"]

/-- Reads from textures at a given level of detail, and their sizes. -/
def textureFunctions : String :=
  String.join
    [texelFetch "uint4" "Texture2D<uint4>" false "int2" "int3",
      texelFetch "float4" "Texture2D<float4>" false "int2" "int3",
      texelFetch "float4" "Texture2D<float4>" true "int2" "int3",
      texelFetch "float4" "Texture2DArray<float4>" true "int3" "int4",
      texelFetch "float4" "Texture3D<float4>" true "int3" "int4",
      textureLod "Texture2D<float4>" "float2",
      textureLod "Texture3D<float4>" "float3",
      textureLod "Texture2DArray<float4>" "float3",
      block ("float4 textureLodOffset(Texture2D<float4> t, SamplerState s, float2 P, " ++
          "float lod, int2 offset)")
        ["return t.SampleLevel(s, P, lod, offset);"],
      block "int2 textureSize(Texture2D<float4> t, int lod)"
        ["uint2 ret;", "uint NumberOfLevels;",
          "t.GetDimensions(lod, ret.x, ret.y, NumberOfLevels);", "return ret;"]]

def imageScalars : List String := ["float", "int", "uint"]

def imageLoad (scalar channels value : String) : String :=
  oneLine (scalar ++ "4 imageLoad(RWTexture2D<" ++ scalar ++ channels ++ "> image, int2 P)")
    ("return " ++ value ++ ";")

/-- Loads fill up missing channels with zeros. -/
def imageLoads (scalar : String) : String :=
  String.join
    [imageLoad scalar "" (scalar ++ "4(image[P], 0, 0, 0)"),
      imageLoad scalar "2" (scalar ++ "4(image[P], 0, 0)"),
      imageLoad scalar "4" "image[P]"]

def imageStore (scalar channels swizzle : String) : String :=
  oneLine ("void imageStore(RWTexture2D<" ++ scalar ++ channels ++ "> image, int2 P, " ++ scalar ++
      "4 data)")
    ("image[P] = data" ++ swizzle ++ ";")

/-- Stores leave out the channels that the image lacks. -/
def imageStores (scalar : String) : String :=
  String.join [imageStore scalar "" ".x", imageStore scalar "2" ".xy", imageStore scalar "4" ""]

/-- Reads and writes of single texels of images. -/
def imageFunctions : String :=
  String.join (imageScalars.map imageLoads) ++ String.join (imageScalars.map imageStores)

/-- The states of a ray query under both their names. -/
def rayQueryStates : List (String × String) :=
  [("gl_RayQueryCandidateIntersectionTriangleEXT", "CANDIDATE_NON_OPAQUE_TRIANGLE"),
    ("gl_RayQueryCandidateIntersectionAABBEXT", "CANDIDATE_PROCEDURAL_PRIMITIVE"),
    ("gl_RayQueryCommittedIntersectionNoneEXT", "COMMITTED_NOTHING"),
    ("gl_RayQueryCommittedIntersectionTriangleEXT", "COMMITTED_TRIANGLE_HIT"),
    ("gl_RayQueryCommittedIntersectionGeneratedEXT", "COMMITTED_PROCEDURAL_PRIMITIVE_HIT")]

/-- A question about the intersection that a query has found or is looking at. -/
def intersectionQuery (type name committed candidate : String) : String :=
  block (type ++ " rayQueryGetIntersection" ++ name ++
      "EXT(RayQuery<RAY_FLAG_NONE> q, bool committed)")
    ["if (committed) \x7b", "    return q." ++ committed ++ "();", "\x7d else \x7b",
      "    return q." ++ candidate ++ "();", "\x7d"]

def rayQueryFunctions : String :=
  String.join (rayQueryStates.map fun (name, value) =>
      "static const uint " ++ name ++ " = " ++ value ++ ";\n") ++
    block (aligned "void rayQueryInitializeEXT("
        ["RayQuery<RAY_FLAG_NONE> rayQuery", "RaytracingAccelerationStructure topLevel",
          "uint rayFlags, uint cullMask, float3 origin, float tMin",
          "float3 direction, float tMax"])
      ["RayDesc desc = \x7borigin, tMin, direction, tMax\x7d;",
        "rayQuery.TraceRayInline(topLevel, rayFlags, cullMask, desc);"] ++
    block "bool rayQueryProceedEXT(RayQuery<RAY_FLAG_NONE> q)" ["return q.Proceed();"] ++
    intersectionQuery "uint" "Type" "CommittedStatus" "CandidateType" ++
    block "void rayQueryConfirmIntersectionEXT(RayQuery<RAY_FLAG_NONE> q)"
      ["q.CommitNonOpaqueTriangleHit();"] ++
    intersectionQuery "int" "InstanceCustomIndex" "CommittedInstanceID" "CandidateInstanceID" ++
    intersectionQuery "int" "InstanceId" "CommittedInstanceIndex" "CandidateInstanceIndex" ++
    intersectionQuery "int" "PrimitiveIndex" "CommittedPrimitiveIndex" "CandidatePrimitiveIndex" ++
    intersectionQuery "bool" "FrontFace" "CommittedTriangleFrontFace"
      "CandidateTriangleFrontFace" ++
    intersectionQuery "float2" "Barycentrics" "CommittedTriangleBarycentrics"
      "CandidateTriangleBarycentrics" ++
    intersectionQuery "float" "T" "CommittedRayT" "CandidateTriangleRayT"

/-- The functions that a program of a stage may use. Only compute shaders trace rays by queries. -/
def functions (stage : Stage) : String :=
  textureFunctions ++ imageFunctions ++ if stage = .compute then rayQueryFunctions else ""

end ShaderBridge.Hlsl.Preamble
