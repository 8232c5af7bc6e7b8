namespace ShaderBridge.Intrinsic

def atomics : List String :=
  ["atomicAdd", "atomicAnd", "atomicOr", "atomicXor", "atomicMin", "atomicMax", "atomicCompSwap",
    "atomicExchange"]

def isAtomic (name : String) : Bool :=
  atomics.contains name

/-- Intrinsics under both their names. -/
def renamed : List (String × String) :=
  [("intBitsToFloat", "asfloat"), ("uintBitsToFloat", "asfloat"), ("floatBitsToInt", "asint"),
    ("floatBitsToUint", "asuint"), ("fract", "frac"), ("fma", "mad"), ("inversesqrt", "rsqrt"),
    ("mix", "lerp"), ("barrier", "GroupMemoryBarrierWithGroupSync"),
    ("groupMemoryBarrier", "AllMemoryBarrier"), ("atomicAdd", "InterlockedAdd"),
    ("atomicAnd", "InterlockedAnd"), ("atomicOr", "InterlockedOr"),
    ("atomicXor", "InterlockedXor"), ("atomicMin", "InterlockedMin"),
    ("atomicMax", "InterlockedMax"), ("atomicExchange", "InterlockedExchange"),
    ("atomicCompSwap", "InterlockedCompareExchange"), ("subgroupAll", "WaveActiveAllTrue"),
    ("subgroupAny", "WaveActiveAnyTrue"), ("subgroupAdd", "WaveActiveSum"),
    ("subgroupElect", "WaveIsFirstLane"), ("subgroupExclusiveAdd", "WavePrefixSum"),
    ("bitCount", "countbits"), ("nonuniformEXT", "NonUniformResourceIndex")]

/-- The name of an intrinsic in the target language, if it has another one there. -/
def targetName? (name : String) : Option String :=
  renamed.lookup name

theorem exists_targetName?_of_isAtomic {name : String} (h : isAtomic name = true) :
    ∃ target, targetName? name = some target := by
  simp only [isAtomic, atomics, List.contains_iff_mem, List.mem_cons, List.not_mem_nil,
    or_false] at h
  rcases h with rfl | rfl | rfl | rfl | rfl | rfl | rfl | rfl <;> exact ⟨_, rfl⟩

end ShaderBridge.Intrinsic
