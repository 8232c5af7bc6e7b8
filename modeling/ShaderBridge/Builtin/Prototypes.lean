namespace ShaderBridge.Prototypes

def trigonometric : List String :=
  ["genFType radians(genFType degrees)",
    "genFType degrees(genFType radians)",
    "genFType sin(genFType angle)",
    "genFType cos(genFType angle)",
    "genFType tan(genFType angle)",
    "genFType asin(genFType x)",
    "genFType acos(genFType x)",
    "genFType atan(genFType y, genFType x)",
    "genFType atan(genFType y_over_x)",
    "genFType sinh(genFType x)",
    "genFType cosh(genFType x)",
    "genFType tanh(genFType x)",
    "genFType asinh(genFType x)",
    "genFType acosh(genFType x)",
    "genFType atanh(genFType x)"]

def exponential : List String :=
  ["genFType pow(genFType x, genFType y)",
    "genFType exp(genFType x)",
    "genFType log(genFType x)",
    "genFType exp2(genFType x)",
    "genFType log2(genFType x)",
    "genFType sqrt(genFType x)",
    "genDType sqrt(genDType x)",
    "genFType inversesqrt(genFType x)",
    "genDType inversesqrt(genDType x)"]

def common : List String :=
  ["genFType abs(genFType x)",
    "genIType abs(genIType x)",
    "genDType abs(genDType x)",
    "genFType sign(genFType x)",
    "genIType sign(genIType x)",
    "genFType floor(genFType x)",
    "genDType floor(genDType x)",
    "genFType trunc(genFType x)",
    "genFType round(genFType x)",
    "genFType roundEven(genFType x)",
    "genFType ceil(genFType x)",
    "genDType ceil(genDType x)",
    "genFType fract(genFType x)",
    "genDType fract(genDType x)",
    "genFType mod(genFType x, float y)",
    "genFType mod(genFType x, genFType y)",
    "genFType modf(genFType x, out genFType i)",
    "genFType min(genFType x, genFType y)",
    "genFType min(genFType x, float y)",
    "genDType min(genDType x, genDType y)",
    "genIType min(genIType x, genIType y)",
    "genIType min(genIType x, int y)",
    "genUType min(genUType x, genUType y)",
    "genUType min(genUType x, uint y)",
    "genFType max(genFType x, genFType y)",
    "genFType max(genFType x, float y)",
    "genDType max(genDType x, genDType y)",
    "genIType max(genIType x, genIType y)",
    "genIType max(genIType x, int y)",
    "genUType max(genUType x, genUType y)",
    "genUType max(genUType x, uint y)",
    "genFType clamp(genFType x, genFType minVal, genFType maxVal)",
    "genFType clamp(genFType x, float minVal, float maxVal)",
    "genDType clamp(genDType x, genDType minVal, genDType maxVal)",
    "genIType clamp(genIType x, genIType minVal, genIType maxVal)",
    "genIType clamp(genIType x, int minVal, int maxVal)",
    "genUType clamp(genUType x, genUType minVal, genUType maxVal)",
    "genUType clamp(genUType x, uint minVal, uint maxVal)",
    "genFType mix(genFType x, genFType y, genFType a)",
    "genFType mix(genFType x, genFType y, float a)",
    "genFType mix(genFType x, genFType y, genBType a)",
    "genFType step(genFType edge, genFType x)",
    "genFType step(float edge, genFType x)",
    "genFType smoothstep(genFType edge0, genFType edge1, genFType x)",
    "genFType smoothstep(float edge0, float edge1, genFType x)",
    "genBType isnan(genFType x)",
    "genBType isinf(genFType x)",
    "genFType fma(genFType a, genFType b, genFType c)"]

def floatBits : List String :=
  ["genIType floatBitsToInt(genFType value)",
    "genUType floatBitsToUint(genFType value)",
    "genFType intBitsToFloat(genIType value)",
    "genFType uintBitsToFloat(genUType value)",
    "genFType frexp(genFType x, out genIType exponent)",
    "genFType ldexp(genFType x, genIType exponent)"]

def packing : List String :=
  ["uint packUnorm2x16(vec2 v)",
    "uint packSnorm2x16(vec2 v)",
    "uint packUnorm4x8(vec4 v)",
    "uint packSnorm4x8(vec4 v)",
    "uint packHalf2x16(vec2 v)",
    "vec2 unpackUnorm2x16(uint p)",
    "vec2 unpackSnorm2x16(uint p)",
    "vec4 unpackUnorm4x8(uint p)",
    "vec4 unpackSnorm4x8(uint p)",
    "vec2 unpackHalf2x16(uint v)"]

def geometric : List String :=
  ["float length(genFType x)",
    "double length(genDType x)",
    "float distance(genFType p0, genFType p1)",
    "float dot(genFType x, genFType y)",
    "double dot(genDType x, genDType y)",
    "vec3 cross(vec3 x, vec3 y)",
    "dvec3 cross(dvec3 x, dvec3 y)",
    "genFType normalize(genFType x)",
    "genDType normalize(genDType x)",
    "genFType faceforward(genFType N, genFType I, genFType Nref)",
    "genFType reflect(genFType I, genFType N)",
    "genFType refract(genFType I, genFType N, float eta)"]

def matrix : List String :=
  ["mat2 matrixCompMult(mat2 x, mat2 y)",
    "mat3 matrixCompMult(mat3 x, mat3 y)",
    "mat4 matrixCompMult(mat4 x, mat4 y)",
    "mat2 outerProduct(vec2 c, vec2 r)",
    "mat3 outerProduct(vec3 c, vec3 r)",
    "mat4 outerProduct(vec4 c, vec4 r)",
    "mat2 transpose(mat2 m)",
    "mat3 transpose(mat3 m)",
    "mat4 transpose(mat4 m)",
    "mat2x3 transpose(mat3x2 m)",
    "mat3x2 transpose(mat2x3 m)",
    "mat2x4 transpose(mat4x2 m)",
    "mat4x2 transpose(mat2x4 m)",
    "mat3x4 transpose(mat4x3 m)",
    "mat4x3 transpose(mat3x4 m)",
    "float determinant(mat2 m)",
    "float determinant(mat3 m)",
    "float determinant(mat4 m)",
    "mat2 inverse(mat2 m)",
    "mat3 inverse(mat3 m)",
    "mat4 inverse(mat4 m)"]

def relational : List String :=
  ["genBVecType lessThan(genVecType x, genVecType y)",
    "genBVecType lessThan(genIVecType x, genIVecType y)",
    "genBVecType lessThan(genUVecType x, genUVecType y)",
    "genBVecType lessThanEqual(genVecType x, genVecType y)",
    "genBVecType lessThanEqual(genIVecType x, genIVecType y)",
    "genBVecType lessThanEqual(genUVecType x, genUVecType y)",
    "genBVecType greaterThan(genVecType x, genVecType y)",
    "genBVecType greaterThan(genIVecType x, genIVecType y)",
    "genBVecType greaterThan(genUVecType x, genUVecType y)",
    "genBVecType greaterThanEqual(genVecType x, genVecType y)",
    "genBVecType greaterThanEqual(genIVecType x, genIVecType y)",
    "genBVecType greaterThanEqual(genUVecType x, genUVecType y)",
    "genBVecType equal(genVecType x, genVecType y)",
    "genBVecType equal(genIVecType x, genIVecType y)",
    "genBVecType equal(genUVecType x, genUVecType y)",
    "genBVecType equal(genBVecType x, genBVecType y)",
    "genBVecType notEqual(genVecType x, genVecType y)",
    "genBVecType notEqual(genIVecType x, genIVecType y)",
    "genBVecType notEqual(genUVecType x, genUVecType y)",
    "genBVecType notEqual(genBVecType x, genBVecType y)",
    "bool any(genBVecType x)",
    "bool all(genBVecType x)",
    "genBVecType not(genBVecType x)"]

def integer : List String :=
  ["genUType uaddCarry(genUType x, genUType y, out genUType carry)",
    "genUType usubBorrow(genUType x, genUType y, out genUType borrow)",
    "genIType bitfieldExtract(genIType value, int offset, int bits)",
    "genUType bitfieldExtract(genUType value, int offset, int bits)",
    "genIType bitfieldInsert(genIType base, genIType insert, int offset, int bits)",
    "genUType bitfieldInsert(genUType base, genUType insert, int offset, int bits)",
    "genIType bitfieldReverse(genIType value)",
    "genUType bitfieldReverse(genUType value)",
    "genIType bitCount(genIType value)",
    "genIType bitCount(genUType value)",
    "genIType findLSB(genIType value)",
    "genIType findLSB(genUType value)",
    "genIType findMSB(genIType value)",
    "genIType findMSB(genUType value)"]

def textureLookup : List String :=
  ["gvec4 texture(gsampler1D tex, float P)",
    "gvec4 texture(gsampler2D tex, vec2 P)",
    "gvec4 texture(gsampler3D tex, vec3 P)",
    "gvec4 texture(gsamplerCube tex, vec3 P)",
    "gvec4 texture(gsampler1DArray tex, vec2 P)",
    "gvec4 texture(gsampler2DArray tex, vec3 P)",
    "gvec4 texture(gsamplerCubeArray tex, vec4 P)",
    "gvec4 texture(gsampler2D tex, vec2 P, float bias)",
    "float texture(sampler2DShadow tex, vec3 P)",
    "float texture(sampler2DArrayShadow tex, vec4 P)",
    "float texture(samplerCubeShadow tex, vec4 P)",
    "gvec4 textureLod(gsampler1D tex, float P, float lod)",
    "gvec4 textureLod(gsampler2D tex, vec2 P, float lod)",
    "gvec4 textureLod(gsampler3D tex, vec3 P, float lod)",
    "gvec4 textureLod(gsamplerCube tex, vec3 P, float lod)",
    "gvec4 textureLod(gsampler2DArray tex, vec3 P, float lod)",
    "gvec4 textureLod(gsamplerCubeArray tex, vec4 P, float lod)",
    "float textureLod(sampler2DShadow tex, vec3 P, float lod)",
    "gvec4 textureOffset(gsampler2D tex, vec2 P, ivec2 offset)",
    "gvec4 textureLodOffset(gsampler2D tex, vec2 P, float lod, ivec2 offset)",
    "gvec4 textureGrad(gsampler2D tex, vec2 P, vec2 dPdx, vec2 dPdy)",
    "gvec4 textureGather(gsampler2D tex, vec2 P)",
    "gvec4 textureGather(gsampler2D tex, vec2 P, int comp)",
    "gvec4 texelFetch(gsampler1D tex, int P, int lod)",
    "gvec4 texelFetch(gsampler2D tex, ivec2 P, int lod)",
    "gvec4 texelFetch(gsampler3D tex, ivec3 P, int lod)",
    "gvec4 texelFetch(gsampler2DArray tex, ivec3 P, int lod)",
    "gvec4 texelFetch(gsamplerBuffer tex, int P)",
    "gvec4 texelFetch(gsampler2DMS tex, ivec2 P, int sample_index)",
    "gvec4 texelFetchOffset(gsampler2D tex, ivec2 P, int lod, ivec2 offset)",
    "int textureSize(gsampler1D tex, int lod)",
    "ivec2 textureSize(gsampler2D tex, int lod)",
    "ivec3 textureSize(gsampler3D tex, int lod)",
    "ivec2 textureSize(gsamplerCube tex, int lod)",
    "ivec3 textureSize(gsampler2DArray tex, int lod)",
    "int textureSize(gsamplerBuffer tex)",
    "ivec2 textureSize(gsampler2DMS tex)",
    "int textureQueryLevels(gsampler2D tex)",
    "vec2 textureQueryLod(gsampler2D tex, vec2 P)"]

def imageAccess : List String :=
  ["gvec4 imageLoad(gimage1D image, int P)",
    "gvec4 imageLoad(gimage2D image, ivec2 P)",
    "gvec4 imageLoad(gimage3D image, ivec3 P)",
    "gvec4 imageLoad(gimageCube image, ivec3 P)",
    "gvec4 imageLoad(gimage2DArray image, ivec3 P)",
    "gvec4 imageLoad(gimageBuffer image, int P)",
    "void imageStore(gimage1D image, int P, gvec4 data)",
    "void imageStore(gimage2D image, ivec2 P, gvec4 data)",
    "void imageStore(gimage3D image, ivec3 P, gvec4 data)",
    "void imageStore(gimageCube image, ivec3 P, gvec4 data)",
    "void imageStore(gimage2DArray image, ivec3 P, gvec4 data)",
    "void imageStore(gimageBuffer image, int P, gvec4 data)",
    "int imageSize(gimage1D image)",
    "ivec2 imageSize(gimage2D image)",
    "ivec3 imageSize(gimage3D image)",
    "ivec3 imageSize(gimage2DArray image)",
    "int imageSize(gimageBuffer image)",
    "uint imageAtomicAdd(uimage2D image, ivec2 P, uint data)",
    "int imageAtomicAdd(iimage2D image, ivec2 P, int data)",
    "uint imageAtomicMin(uimage2D image, ivec2 P, uint data)",
    "uint imageAtomicMax(uimage2D image, ivec2 P, uint data)",
    "uint imageAtomicExchange(uimage2D image, ivec2 P, uint data)",
    "uint imageAtomicCompSwap(uimage2D image, ivec2 P, uint compare, uint data)",
    "gvec4 subpassLoad(gsubpassInput subpass)",
    "gvec4 subpassLoad(gsubpassInputMS subpass, int sample_index)"]

def atomicMemory : List String :=
  ["uint atomicAdd(inout uint mem, uint data)",
    "int atomicAdd(inout int mem, int data)",
    "uint64_t atomicAdd(inout uint64_t mem, uint64_t data)",
    "uint atomicMin(inout uint mem, uint data)",
    "int atomicMin(inout int mem, int data)",
    "uint atomicMax(inout uint mem, uint data)",
    "int atomicMax(inout int mem, int data)",
    "uint atomicAnd(inout uint mem, uint data)",
    "int atomicAnd(inout int mem, int data)",
    "uint atomicOr(inout uint mem, uint data)",
    "int atomicOr(inout int mem, int data)",
    "uint atomicXor(inout uint mem, uint data)",
    "int atomicXor(inout int mem, int data)",
    "uint atomicExchange(inout uint mem, uint data)",
    "int atomicExchange(inout int mem, int data)",
    "uint atomicCompSwap(inout uint mem, uint compare, uint data)",
    "int atomicCompSwap(inout int mem, int compare, int data)",
    "uint64_t atomicCompSwap(inout uint64_t mem, uint64_t compare, uint64_t data)"]

def derivatives : List String :=
  ["genFType dFdx(genFType p)",
    "genFType dFdy(genFType p)",
    "genFType dFdxFine(genFType p)",
    "genFType dFdyFine(genFType p)",
    "genFType dFdxCoarse(genFType p)",
    "genFType dFdyCoarse(genFType p)",
    "genFType fwidth(genFType p)"]

def geometryStreams : List String :=
  ["void EmitVertex()",
    "void EndPrimitive()"]

def barriers : List String :=
  ["void barrier()",
    "void memoryBarrier()",
    "void memoryBarrierShared()",
    "void memoryBarrierBuffer()",
    "void memoryBarrierImage()",
    "void groupMemoryBarrier()"]

def subgroups : List String :=
  ["void subgroupBarrier()",
    "bool subgroupElect()",
    "bool subgroupAll(bool value)",
    "bool subgroupAny(bool value)",
    "uvec4 subgroupBallot(bool value)",
    "uint subgroupBallotBitCount(uvec4 value)",
    "genFType subgroupAdd(genFType value)",
    "genIType subgroupAdd(genIType value)",
    "genUType subgroupAdd(genUType value)",
    "genFType subgroupMin(genFType value)",
    "genUType subgroupMin(genUType value)",
    "genFType subgroupMax(genFType value)",
    "genUType subgroupMax(genUType value)",
    "genFType subgroupExclusiveAdd(genFType value)",
    "genIType subgroupExclusiveAdd(genIType value)",
    "genUType subgroupExclusiveAdd(genUType value)",
    "genFType subgroupBroadcastFirst(genFType value)",
    "genIType subgroupBroadcastFirst(genIType value)",
    "genUType subgroupBroadcastFirst(genUType value)",
    "genFType subgroupShuffle(genFType value, uint id)",
    "genUType subgroupShuffle(genUType value, uint id)"]

def nonuniformIndexing : List String :=
  ["int nonuniformEXT(int index)",
    "uint nonuniformEXT(uint index)"]

def rayTracing : List String :=
  ["void traceRayEXT(accelerationStructureEXT topLevel, uint rayFlags, uint cullMask, " ++
      "uint sbtRecordOffset, uint sbtRecordStride, uint missIndex, vec3 origin, float Tmin, " ++
      "vec3 direction, float Tmax, int payload)",
    "bool reportIntersectionEXT(float hitT, uint hitKind)",
    "void executeCallableEXT(uint sbtRecordIndex, int callable)"]

def rayQueries : List String :=
  ["void rayQueryInitializeEXT(rayQueryEXT q, accelerationStructureEXT topLevel, uint " ++
      "rayFlags, uint cullMask, vec3 origin, float tMin, vec3 direction, float tMax)",
    "bool rayQueryProceedEXT(rayQueryEXT q)",
    "void rayQueryTerminateEXT(rayQueryEXT q)",
    "void rayQueryConfirmIntersectionEXT(rayQueryEXT q)",
    "uint rayQueryGetIntersectionTypeEXT(rayQueryEXT q, bool committed)",
    "float rayQueryGetIntersectionTEXT(rayQueryEXT q, bool committed)",
    "int rayQueryGetIntersectionInstanceCustomIndexEXT(rayQueryEXT q, bool committed)",
    "int rayQueryGetIntersectionInstanceIdEXT(rayQueryEXT q, bool committed)",
    "int rayQueryGetIntersectionPrimitiveIndexEXT(rayQueryEXT q, bool committed)",
    "bool rayQueryGetIntersectionFrontFaceEXT(rayQueryEXT q, bool committed)",
    "vec2 rayQueryGetIntersectionBarycentricsEXT(rayQueryEXT q, bool committed)"]

/-- All prototypes, in the order in which overloads are looked at. -/
def all : List String :=
  trigonometric ++ exponential ++ common ++ floatBits ++ packing ++ geometric ++ matrix ++
    relational ++ integer ++ textureLookup ++ imageAccess ++ atomicMemory ++ derivatives ++
    geometryStreams ++ barriers ++ subgroups ++ nonuniformIndexing ++ rayTracing ++ rayQueries

/-- The prototypes as a source text, each marked as belonging to the language. -/
def source : String :=
  String.join (all.map fun prototype => prototype ++ " [[builtin]];\n")

end ShaderBridge.Prototypes
