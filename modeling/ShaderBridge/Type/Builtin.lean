namespace ShaderBridge

/-- The scalar types, in the order in which one operand of an operator gives way to the other. -/
inductive Scalar where
  | bool | int16 | uint16 | int | uint | int64 | uint64 | float16 | float | double
deriving DecidableEq, Repr, Inhabited

/-- The number of components of a vector, or of columns or rows of a matrix. -/
inductive Extent where
  | two | three | four
deriving DecidableEq, Repr

namespace Extent

def toNat : Extent → Nat
  | two => 2
  | three => 3
  | four => 4

def ofNat? : Nat → Option Extent
  | 2 => some two
  | 3 => some three
  | 4 => some four
  | _ => none

theorem ofNat?_toNat (e : Extent) : ofNat? e.toNat = some e := by
  cases e <;> rfl

theorem ofNat?_eq_some {n : Nat} {e : Extent} : ofNat? n = some e ↔ n = e.toNat := by
  constructor
  · intro h
    unfold ofNat? at h
    split at h <;> simp_all [toNat] <;> subst h <;> rfl
  · rintro rfl
    exact ofNat?_toNat e

def all : List Extent := [two, three, four]

end Extent

inductive MatrixScalar where
  | float | double
deriving DecidableEq, Repr

def MatrixScalar.toScalar : MatrixScalar → Scalar
  | float => .float
  | double => .double

def MatrixScalar.ofScalar? : Scalar → Option MatrixScalar
  | .float => some float
  | .double => some double
  | _ => none

/-- What the elements of a texture or an image are read as. -/
inductive Texel where
  | float | int | uint
deriving DecidableEq, Repr

/-- The dimensionality of a texture or an image. -/
inductive Shape where
  | d1 | d2 | d3 | cube | d1Array | d2Array | cubeArray | rect | buffer | multisample
  | multisampleArray
deriving DecidableEq, Repr

/-- The dimensionalities that exist with a depth comparison. -/
inductive ShadowShape where
  | d1 | d2 | cube | d1Array | d2Array | cubeArray | rect
deriving DecidableEq, Repr

def ShadowShape.toShape : ShadowShape → Shape
  | d1 => .d1
  | d2 => .d2
  | cube => .cube
  | d1Array => .d1Array
  | d2Array => .d2Array
  | cubeArray => .cubeArray
  | rect => .rect

/-- The families of types that a prototype may range over. -/
inductive Family where
  | floats | doubles | ints | uints | bools
  | floatVectors | intVectors | uintVectors | boolVectors
  | fourVectors
  | samplers (shape : Shape)
  | images (shape : Shape)
  | subpasses (multisampled : Bool)
deriving DecidableEq, Repr

/-- A type of the language that is not declared by the program. -/
inductive BuiltinType where
  | void
  | scalar (s : Scalar)
  | vector (s : Scalar) (n : Extent)
  /-- A square matrix under its short name, a type apart from `matrix s n n`. -/
  | squareMatrix (s : MatrixScalar) (n : Extent)
  | matrix (s : MatrixScalar) (columns rows : Extent)
  /-- A texture together with the state it is sampled with. -/
  | sampler (texel : Texel) (shape : Shape)
  | shadowSampler (shape : ShadowShape)
  | texture (texel : Texel) (shape : Shape)
  | image (texel : Texel) (shape : Shape)
  | subpass (texel : Texel) (multisampled : Bool)
  | samplerState
  | comparisonState
  | accelerationStructure
  | rayQuery
  | family (f : Family)
deriving DecidableEq, Repr, Inhabited

namespace Scalar

def isInteger : Scalar → Bool
  | int16 | uint16 | int | uint | int64 | uint64 => true
  | _ => false

def isUnsigned : Scalar → Bool
  | uint16 | uint | uint64 => true
  | _ => false

def isFloat : Scalar → Bool
  | float16 | float | double => true
  | _ => false

end Scalar

namespace BuiltinType

def isInteger : BuiltinType → Bool
  | scalar s => s.isInteger
  | _ => false

def isUnsigned : BuiltinType → Bool
  | scalar s => s.isUnsigned
  | _ => false

def isFloat : BuiltinType → Bool
  | scalar s => s.isFloat
  | _ => false

def isScalar : BuiltinType → Bool
  | scalar _ => true
  | _ => false

def isVector : BuiltinType → Bool
  | vector _ _ => true
  | _ => false

def isFamily : BuiltinType → Bool
  | family _ => true
  | _ => false

/-- The number of components, which is one for everything that is not a vector. -/
def vectorSize : BuiltinType → Nat
  | vector _ n => n.toNat
  | _ => 1

/-- The component type of a vector or a matrix; any other type is its own component. -/
def component : BuiltinType → BuiltinType
  | vector s _ => scalar s
  | squareMatrix s _ => scalar s.toScalar
  | matrix s _ _ => scalar s.toScalar
  | t => t

/-- The type of `n` components of type `t`. One component of any type is that type itself. -/
def vectorOf? (t : BuiltinType) (n : Nat) : Option BuiltinType :=
  if n = 1 then some t
  else
    match t with
    | scalar s => (Extent.ofNat? n).map (vector s)
    | _ => none

def matrixExtents? : BuiltinType → Option (Extent × Extent)
  | squareMatrix _ n => some (n, n)
  | matrix _ columns rows => some (columns, rows)
  | _ => none

def matrixDims? (t : BuiltinType) : Option (Nat × Nat) :=
  t.matrixExtents?.map fun (columns, rows) => (columns.toNat, rows.toNat)

def isMatrix (t : BuiltinType) : Bool :=
  t.matrixExtents?.isSome

/-- The matrix of `columns` and `rows` with components of type `t`, under its short name if
square. -/
def matrixOf? (t : BuiltinType) (columns rows : Nat) : Option BuiltinType := do
  match t with
  | scalar s =>
    let s ← MatrixScalar.ofScalar? s
    let columns ← Extent.ofNat? columns
    let rows ← Extent.ofNat? rows
    return if columns = rows then squareMatrix s columns else matrix s columns rows
  | _ => none

def matrixColumn? : BuiltinType → Option BuiltinType
  | squareMatrix s n => some (vector s.toScalar n)
  | matrix s _ rows => some (vector s.toScalar rows)
  | _ => none

/-- A sampler type that carries its own sampling state. -/
def isCombinedSampler : BuiltinType → Bool
  | sampler _ shape => shape != .buffer
  | shadowSampler _ => true
  | _ => false

def isShadow : BuiltinType → Bool
  | shadowSampler _ | comparisonState => true
  | _ => false

def isTexture : BuiltinType → Bool
  | sampler _ _ | shadowSampler _ | texture _ _ => true
  | _ => false

def isImage : BuiltinType → Bool
  | image _ _ => true
  | _ => false

end BuiltinType

/-- The types a family stands for, smallest first. Position `i` of every family that one prototype
mentions belongs to its instance `i`. -/
def Family.instances : Family → List BuiltinType
  | floats => .scalar .float :: Extent.all.map (.vector .float)
  | doubles => .scalar .double :: Extent.all.map (.vector .double)
  | ints => .scalar .int :: Extent.all.map (.vector .int)
  | uints => .scalar .uint :: Extent.all.map (.vector .uint)
  | bools => .scalar .bool :: Extent.all.map (.vector .bool)
  | floatVectors => Extent.all.map (.vector .float)
  | intVectors => Extent.all.map (.vector .int)
  | uintVectors => Extent.all.map (.vector .uint)
  | boolVectors => Extent.all.map (.vector .bool)
  | fourVectors => [.vector .float .four, .vector .int .four, .vector .uint .four]
  | samplers shape => [.sampler .float shape, .sampler .int shape, .sampler .uint shape]
  | images shape => [.image .float shape, .image .int shape, .image .uint shape]
  | subpasses ms => [.subpass .float ms, .subpass .int ms, .subpass .uint ms]

/-- No family has more members than this. -/
def Family.maxInstances : Nat := 4

theorem Family.length_instances_le (f : Family) : f.instances.length ≤ maxInstances := by
  cases f <;> simp [instances, maxInstances, Extent.all]

theorem Family.not_isFamily_of_mem_instances {f : Family} {t : BuiltinType}
    (h : t ∈ f.instances) : t.isFamily = false := by
  have none_in (f : Family) : f.instances.all (fun t => !t.isFamily) = true := by
    cases f <;> rfl
  simpa using List.all_eq_true.mp (none_in f) t h

/-- The types a type stands for in a prototype; none for a type that is no family. -/
def BuiltinType.instances : BuiltinType → List BuiltinType
  | family f => f.instances
  | _ => []

end ShaderBridge
