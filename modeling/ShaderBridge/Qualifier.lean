namespace ShaderBridge

inductive StorageClass where
  | constant | input | output | attributeInput | uniform | varying | buffer | shared
  | rayPayload | rayPayloadIn | hitAttribute | callableData | callableDataIn
deriving DecidableEq, Repr

/-- The storage classes that may open an interface block. -/
def StorageClass.allowsBlock : StorageClass → Bool
  | input | output | uniform | buffer => true
  | _ => false

/-- How an input or output is sampled or shared. -/
inductive Auxiliary where
  | centroid | sample | patch
deriving DecidableEq, Repr

inductive Interpolation where
  | smooth | flat | noperspective
deriving DecidableEq, Repr

inductive Precision where
  | low | medium | high
deriving DecidableEq, Repr

/-- One word on how memory is accessed. -/
inductive MemoryAccess where
  | coherent | volatile | restrict | readonly | writeonly
deriving DecidableEq, Repr

structure MemoryFlags where
  coherent : Bool := false
  volatile : Bool := false
  restrict : Bool := false
  readonly : Bool := false
  writeonly : Bool := false
deriving DecidableEq, Repr, Inhabited

def MemoryFlags.add (flags : MemoryFlags) : MemoryAccess → MemoryFlags
  | .coherent => { flags with coherent := true }
  | .volatile => { flags with volatile := true }
  | .restrict => { flags with restrict := true }
  | .readonly => { flags with readonly := true }
  | .writeonly => { flags with writeonly := true }

end ShaderBridge
