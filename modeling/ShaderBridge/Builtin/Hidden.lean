import ShaderBridge.Qualifier
import ShaderBridge.Stage
import ShaderBridge.Type.Builtin

namespace ShaderBridge

structure HiddenGlobal where
  name : String
  type : BuiltinType
  storage : Option StorageClass := none
  precision : Option Precision := none
  array : Bool := false
  /-- The value of a constant. -/
  value : Option Nat := none
deriving DecidableEq, Repr

namespace HiddenGlobal

private def float : BuiltinType := .scalar .float
private def int : BuiltinType := .scalar .int
private def uint : BuiltinType := .scalar .uint
private def bool : BuiltinType := .scalar .bool
private def vec (n : Extent) : BuiltinType := .vector .float n
private def uvec (n : Extent) : BuiltinType := .vector .uint n

private def plain (name : String) (type : BuiltinType) : HiddenGlobal :=
  { name, type }

private def output (name : String) (type : BuiltinType) : HiddenGlobal :=
  { name, type, storage := some .output }

private def unsized (name : String) (type : BuiltinType) : HiddenGlobal :=
  { name, type, array := true }

private def outputArray (name : String) (type : BuiltinType) : HiddenGlobal :=
  { name, type, storage := some .output, array := true }

private def input (precision : Precision) (name : String) (type : BuiltinType) : HiddenGlobal :=
  { name, type, storage := some .input, precision := some precision }

private def constant (name : String) (value : Nat) : HiddenGlobal :=
  { name, type := uint, storage := some .constant, value := some value }

def compute : List HiddenGlobal :=
  [plain "gl_NumWorkGroups" (uvec .three), plain "gl_WorkGroupSize" (uvec .three),
    plain "gl_WorkGroupID" (uvec .three), plain "gl_LocalInvocationID" (uvec .three),
    plain "gl_GlobalInvocationID" (uvec .three), plain "gl_LocalInvocationIndex" uint,
    plain "gl_NumSubgroups" uint, plain "gl_SubgroupID" uint]

/-- What a stage that places vertices writes for each of them. -/
def vertexOutputs : List HiddenGlobal :=
  [output "gl_Position" (vec .four), output "gl_PointSize" float,
    outputArray "gl_ClipDistance" float, outputArray "gl_CullDistance" float]

def vertex : List HiddenGlobal :=
  [plain "gl_VertexID" int, plain "gl_InstanceID" int, plain "gl_VertexIndex" int,
    plain "gl_InstanceIndex" int, plain "gl_DrawID" int, plain "gl_BaseVertex" int,
    plain "gl_BaseInstance" int] ++ vertexOutputs

def tessControl : List HiddenGlobal :=
  [plain "gl_PatchVerticesIn" int, plain "gl_PrimitiveID" int, plain "gl_InvocationID" int,
    outputArray "gl_TessLevelOuter" float, outputArray "gl_TessLevelInner" float]

def tessEvaluation : List HiddenGlobal :=
  [plain "gl_PatchVerticesIn" int, plain "gl_PrimitiveID" int, plain "gl_TessCoord" (vec .three),
    unsized "gl_TessLevelOuter" float, unsized "gl_TessLevelInner" float] ++ vertexOutputs

def geometry : List HiddenGlobal :=
  [plain "gl_PrimitiveIDIn" int, plain "gl_InvocationID" int, plain "gl_PrimitiveID" int,
    plain "gl_Layer" int, plain "gl_ViewportIndex" int] ++ vertexOutputs

def fragment : List HiddenGlobal :=
  [plain "gl_FragCoord" (vec .four), plain "gl_FrontFacing" bool, unsized "gl_ClipDistance" float,
    unsized "gl_CullDistance" float, plain "gl_PointCoord" (vec .two), plain "gl_PrimitiveID" int,
    plain "gl_SampleID" int, plain "gl_SamplePosition" (vec .two), unsized "gl_SampleMaskIn" int,
    plain "gl_Layer" int, plain "gl_ViewportIndex" int, plain "gl_HelperInvocation" bool,
    output "gl_FragDepth" float]

def subgroup : List HiddenGlobal :=
  [input .medium "gl_SubgroupSize" uint, input .medium "gl_SubgroupInvocationID" uint,
    input .high "gl_SubgroupEqMask" (uvec .four), input .high "gl_SubgroupGeMask" (uvec .four),
    input .high "gl_SubgroupGtMask" (uvec .four), input .high "gl_SubgroupLeMask" (uvec .four),
    input .high "gl_SubgroupLtMask" (uvec .four)]

def rayConstants : List HiddenGlobal :=
  [constant "gl_RayFlagsNoneEXT" 0, constant "gl_RayFlagsOpaqueEXT" 1,
    constant "gl_RayFlagsNoOpaqueEXT" 2, constant "gl_RayFlagsTerminateOnFirstHitEXT" 4,
    constant "gl_RayFlagsSkipClosestHitShaderEXT" 8,
    constant "gl_RayFlagsCullBackFacingTrianglesEXT" 16,
    constant "gl_RayFlagsCullFrontFacingTrianglesEXT" 32,
    constant "gl_RayFlagsCullOpaqueEXT" 64, constant "gl_RayFlagsCullNoOpaqueEXT" 128,
    constant "gl_HitKindFrontFacingTriangleEXT" 254,
    constant "gl_HitKindBackFacingTriangleEXT" 255,
    constant "gl_RayQueryCommittedIntersectionNoneEXT" 0,
    constant "gl_RayQueryCommittedIntersectionTriangleEXT" 1,
    constant "gl_RayQueryCommittedIntersectionGeneratedEXT" 2,
    constant "gl_RayQueryCandidateIntersectionTriangleEXT" 0,
    constant "gl_RayQueryCandidateIntersectionAABBEXT" 1]

def launch : List HiddenGlobal :=
  [plain "gl_LaunchIDEXT" (uvec .three), plain "gl_LaunchSizeEXT" (uvec .three)]

def hit : List HiddenGlobal :=
  launch ++
  [plain "gl_PrimitiveID" int, plain "gl_InstanceID" int, plain "gl_InstanceCustomIndexEXT" int,
    plain "gl_GeometryIndexEXT" int, plain "gl_WorldRayOriginEXT" (vec .three),
    plain "gl_WorldRayDirectionEXT" (vec .three), plain "gl_ObjectRayOriginEXT" (vec .three),
    plain "gl_ObjectRayDirectionEXT" (vec .three), plain "gl_RayTminEXT" float,
    plain "gl_RayTmaxEXT" float, plain "gl_IncomingRayFlagsEXT" uint, plain "gl_HitTEXT" float,
    plain "gl_HitKindEXT" uint, plain "gl_ObjectToWorldEXT" (.matrix .float .four .three),
    plain "gl_ObjectToWorld3x4EXT" (.matrix .float .three .four),
    plain "gl_WorldToObjectEXT" (.matrix .float .four .three),
    plain "gl_WorldToObject3x4EXT" (.matrix .float .three .four)]

def miss : List HiddenGlobal :=
  launch ++
  [plain "gl_WorldRayOriginEXT" (vec .three), plain "gl_WorldRayDirectionEXT" (vec .three),
    plain "gl_RayTminEXT" float, plain "gl_RayTmaxEXT" float, plain "gl_IncomingRayFlagsEXT" uint]

end HiddenGlobal

namespace Stage

/-- The variables that only this stage has, other than those of ray tracing. -/
def ownGlobals : Stage → List HiddenGlobal
  | vertex => HiddenGlobal.vertex
  | tessControl => HiddenGlobal.tessControl
  | tessEvaluation => HiddenGlobal.tessEvaluation
  | geometry => HiddenGlobal.geometry
  | fragment => HiddenGlobal.fragment
  | compute => HiddenGlobal.compute
  | _ => []

def rayGlobals : Stage → List HiddenGlobal
  | rayGeneration | callable => HiddenGlobal.launch
  | anyHit | closestHit | intersection => HiddenGlobal.hit
  | miss => HiddenGlobal.miss
  | _ => []

/-- All variables that the language declares for a stage, in order. -/
def hiddenGlobals (stage : Stage) : List HiddenGlobal :=
  stage.ownGlobals ++ (if stage.isRayTracing then [] else HiddenGlobal.subgroup) ++
    HiddenGlobal.rayConstants ++ stage.rayGlobals

end Stage

end ShaderBridge
