import ShaderBridge.Qualifier
import ShaderBridge.Type.Builtin

namespace ShaderBridge

/-- Statements by which a ray tracing shader ends early. -/
inductive RayJump where
  | ignoreIntersection | terminateRay
deriving DecidableEq, Repr

inductive Word where
  | layout | invariant | precise | inout | precision | subroutine
  | struct | breakLoop | continueLoop | doLoop | forLoop | whileLoop | switch | caseLabel
  | defaultLabel | ifBranch | elseBranch | discard | returnValue | trueLiteral | falseLiteral
deriving DecidableEq, Repr

inductive Keyword where
  | type (t : BuiltinType)
  | storage (s : StorageClass)
  | auxiliary (a : Auxiliary)
  | interpolation (i : Interpolation)
  | precision (p : Precision)
  | memory (m : MemoryAccess)
  | word (w : Word)
  | rayJump (j : RayJump)
  /-- A word kept for later versions of the language, which no program may use. -/
  | reserved (spelling : String)
deriving DecidableEq, Repr

inductive KeywordClass where
  | type | generic | plain | reserved
deriving DecidableEq, Repr

namespace Extent

def digit : Extent → String
  | two => "2"
  | three => "3"
  | four => "4"

end Extent

namespace Scalar

def spelling : Scalar → String
  | bool => "bool"
  | int16 => "int16_t"
  | uint16 => "uint16_t"
  | int => "int"
  | uint => "uint"
  | int64 => "int64_t"
  | uint64 => "uint64_t"
  | float16 => "float16_t"
  | float => "float"
  | double => "double"

/-- What stands before `vec` in the name of a vector. -/
def vectorLetter : Scalar → String
  | bool => "b"
  | int16 => "i16"
  | uint16 => "u16"
  | int => "i"
  | uint => "u"
  | int64 => "i64"
  | uint64 => "u64"
  | float16 => "f16"
  | float => ""
  | double => "d"

end Scalar

def MatrixScalar.letter : MatrixScalar → String
  | float => ""
  | double => "d"

def Texel.letter : Texel → String
  | float => ""
  | int => "i"
  | uint => "u"

namespace Shape

def spelling : Shape → String
  | d1 => "1D"
  | d2 => "2D"
  | d3 => "3D"
  | cube => "Cube"
  | d1Array => "1DArray"
  | d2Array => "2DArray"
  | cubeArray => "CubeArray"
  | rect => "2DRect"
  | buffer => "Buffer"
  | multisample => "2DMS"
  | multisampleArray => "2DMSArray"

def all : List Shape :=
  [d1, d2, d3, cube, d1Array, d2Array, cubeArray, rect, buffer, multisample, multisampleArray]

end Shape

def ShadowShape.all : List ShadowShape :=
  [d1, d2, cube, d1Array, d2Array, cubeArray, rect]

/-- The suffix of a multisampled subpass input. -/
def multisampledSuffix (multisampled : Bool) : String :=
  if multisampled then "MS" else ""

def Family.spelling : Family → String
  | floats => "genFType"
  | doubles => "genDType"
  | ints => "genIType"
  | uints => "genUType"
  | bools => "genBType"
  | floatVectors => "genVecType"
  | intVectors => "genIVecType"
  | uintVectors => "genUVecType"
  | boolVectors => "genBVecType"
  | fourVectors => "gvec4"
  | samplers shape => "gsampler" ++ shape.spelling
  | images shape => "gimage" ++ shape.spelling
  | subpasses ms => "gsubpassInput" ++ multisampledSuffix ms

def BuiltinType.spelling : BuiltinType → String
  | void => "void"
  | scalar s => s.spelling
  | vector s n => s.vectorLetter ++ "vec" ++ n.digit
  | squareMatrix s n => s.letter ++ "mat" ++ n.digit
  | matrix s columns rows => s.letter ++ "mat" ++ columns.digit ++ "x" ++ rows.digit
  | sampler texel shape => texel.letter ++ "sampler" ++ shape.spelling
  | shadowSampler shape => "sampler" ++ shape.toShape.spelling ++ "Shadow"
  | texture texel shape => texel.letter ++ "texture" ++ shape.spelling
  | image texel shape => texel.letter ++ "image" ++ shape.spelling
  | subpass texel ms => texel.letter ++ "subpassInput" ++ multisampledSuffix ms
  | samplerState => "sampler"
  | comparisonState => "samplerShadow"
  | accelerationStructure => "accelerationStructureEXT"
  | rayQuery => "rayQueryEXT"
  | family f => f.spelling

def StorageClass.spelling : StorageClass → String
  | constant => "const"
  | input => "in"
  | output => "out"
  | attributeInput => "attribute"
  | uniform => "uniform"
  | varying => "varying"
  | buffer => "buffer"
  | shared => "shared"
  | rayPayload => "rayPayloadEXT"
  | rayPayloadIn => "rayPayloadInEXT"
  | hitAttribute => "hitAttributeEXT"
  | callableData => "callableDataEXT"
  | callableDataIn => "callableDataInEXT"

def Auxiliary.spelling : Auxiliary → String
  | centroid => "centroid"
  | sample => "sample"
  | patch => "patch"

def Interpolation.spelling : Interpolation → String
  | smooth => "smooth"
  | flat => "flat"
  | noperspective => "noperspective"

def Precision.spelling : Precision → String
  | low => "lowp"
  | medium => "mediump"
  | high => "highp"

def MemoryAccess.spelling : MemoryAccess → String
  | coherent => "coherent"
  | volatile => "volatile"
  | restrict => "restrict"
  | readonly => "readonly"
  | writeonly => "writeonly"

def Word.spelling : Word → String
  | layout => "layout"
  | invariant => "invariant"
  | precise => "precise"
  | inout => "inout"
  | precision => "precision"
  | subroutine => "subroutine"
  | struct => "struct"
  | breakLoop => "break"
  | continueLoop => "continue"
  | doLoop => "do"
  | forLoop => "for"
  | whileLoop => "while"
  | switch => "switch"
  | caseLabel => "case"
  | defaultLabel => "default"
  | ifBranch => "if"
  | elseBranch => "else"
  | discard => "discard"
  | returnValue => "return"
  | trueLiteral => "true"
  | falseLiteral => "false"

def RayJump.spelling : RayJump → String
  | ignoreIntersection => "ignoreIntersectionEXT"
  | terminateRay => "terminateRayEXT"

namespace Keyword

def spelling : Keyword → String
  | type t => t.spelling
  | storage s => s.spelling
  | auxiliary a => a.spelling
  | interpolation i => i.spelling
  | precision p => p.spelling
  | memory m => m.spelling
  | word w => w.spelling
  | rayJump j => j.spelling
  | reserved s => s

def wordClass : Keyword → KeywordClass
  | type (.family _) => .generic
  | type _ => .type
  | reserved _ => .reserved
  | _ => .plain

/-- The type a keyword names, whether concrete or a family. -/
def type? : Keyword → Option BuiltinType
  | type t => some t
  | _ => none

/-- The concrete type a keyword names. -/
def concreteType? (k : Keyword) : Option BuiltinType :=
  k.type?.filter fun t => !t.isFamily

private def typesInOrder : List BuiltinType :=
  let scalars : List Scalar :=
    [.bool, .int, .uint, .float, .double, .int16, .uint16, .int64, .uint64, .float16]
  let vectorScalars : List Scalar :=
    [.float, .double, .bool, .int, .uint, .int16, .uint16, .int64, .uint64, .float16]
  let texels : List Texel := [.float, .int, .uint]
  let matrices (s : MatrixScalar) : List BuiltinType :=
    Extent.all.map (BuiltinType.squareMatrix s) ++
      Extent.all.flatMap fun columns => Extent.all.map (BuiltinType.matrix s columns)
  let familyShapes : List Shape :=
    [.d1, .d1Array, .d2, .rect, .d2Array, .multisample, .multisampleArray, .d3, .cube, .cubeArray,
      .buffer]
  let imageFamilyShapes : List Shape :=
    [.d1, .d2, .d3, .cube, .cubeArray, .d2Array, .rect, .d1Array, .multisample, .multisampleArray,
      .buffer]
  BuiltinType.void :: scalars.map BuiltinType.scalar
    ++ vectorScalars.flatMap (fun s => Extent.all.map (BuiltinType.vector s))
    ++ matrices .float ++ matrices .double
    ++ Shape.all.map (BuiltinType.sampler .float) ++ ShadowShape.all.map BuiltinType.shadowSampler
    ++ Shape.all.map (BuiltinType.sampler .int) ++ Shape.all.map (BuiltinType.sampler .uint)
    ++ texels.flatMap (fun texel => Shape.all.map (BuiltinType.texture texel))
    ++ [BuiltinType.samplerState, .comparisonState]
    ++ texels.flatMap (fun texel => Shape.all.map (BuiltinType.image texel))
    ++ texels.flatMap (fun texel => [BuiltinType.subpass texel false, .subpass texel true])
    ++ [BuiltinType.accelerationStructure, .rayQuery]
    ++ ([Family.floats, .doubles, .ints, .uints, .bools, .floatVectors, .intVectors, .uintVectors,
        .boolVectors, .fourVectors] ++ familyShapes.map Family.samplers
        ++ imageFamilyShapes.map Family.images
        ++ [Family.subpasses false, .subpasses true]).map BuiltinType.family

private def plainInOrder : List Keyword :=
  [.storage .constant, .storage .uniform, .storage .buffer, .storage .shared,
    .storage .attributeInput, .storage .varying, .memory .coherent, .memory .volatile,
    .memory .restrict, .memory .readonly, .memory .writeonly, .word .layout,
    .auxiliary .centroid, .interpolation .flat, .interpolation .smooth,
    .interpolation .noperspective, .auxiliary .patch, .auxiliary .sample, .word .invariant,
    .word .precise, .storage .input, .storage .output, .word .inout, .precision .low,
    .precision .medium, .precision .high, .word .precision, .word .subroutine,
    .storage .rayPayload, .storage .rayPayloadIn, .storage .hitAttribute,
    .storage .callableData, .storage .callableDataIn,
    .word .struct, .word .breakLoop, .word .continueLoop, .word .doLoop, .word .forLoop,
    .word .whileLoop, .word .switch, .word .caseLabel, .word .defaultLabel, .word .ifBranch,
    .word .elseBranch, .word .discard, .word .returnValue, .word .trueLiteral,
    .word .falseLiteral, .rayJump .ignoreIntersection, .rayJump .terminateRay]

private def reservedInOrder : List String :=
  ["common", "partition", "active", "asm", "class", "union", "enum", "typedef", "template", "this",
    "resource", "goto", "inline", "noinline", "public", "static", "extern", "external",
    "interface", "long", "short", "half", "fixed", "unsigned", "superp", "input", "output",
    "hvec2", "hvec3", "hvec4", "fvec2", "fvec3", "fvec4", "filter", "sizeof", "cast", "namespace",
    "using", "sampler3DRect"]

/-- Every keyword, in the order of the language's word list. -/
def all : List Keyword :=
  typesInOrder.map .type ++ plainInOrder ++ reservedInOrder.map .reserved

/-- Sized spellings that name an existing type. -/
def aliases : List (String × Keyword) :=
  [("int32_t", .type (.scalar .int)), ("uint32_t", .type (.scalar .uint)),
    ("float32_t", .type (.scalar .float)), ("float64_t", .type (.scalar .double))]

/-- Every keyword under its spelling, followed by the aliases. -/
def table : List (String × Keyword) :=
  all.map (fun k => (k.spelling, k)) ++ aliases

/-- The keyword that a word spells. -/
def ofSpelling? (word : String) : Option Keyword :=
  table.lookup word

end Keyword

end ShaderBridge
