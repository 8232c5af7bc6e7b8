/-!
The numbers that programs run on. A module that opens the scope has their own zero, one and powers,
also where numbers are seen as a ring.
-/

namespace ShaderBridge.PlainNumbers

attribute [scoped instance (high)] Zero.ofOfNat0 One.ofOfNat1 instPowNat

end ShaderBridge.PlainNumbers
