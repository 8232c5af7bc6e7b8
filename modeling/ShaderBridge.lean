import ShaderBridge.Main
import ShaderBridge.Proofs.Constant.Folding
import ShaderBridge.Proofs.Layout.Agreement
import ShaderBridge.Proofs.Layout.Component
import ShaderBridge.Proofs.Layout.Separation
import ShaderBridge.Proofs.Layout.Swizzled
import ShaderBridge.Proofs.Layout.Tiling
import ShaderBridge.Proofs.Lowering.HoistedAtomics
import ShaderBridge.Proofs.Lowering.OperandsOnce
import ShaderBridge.Proofs.Lowering.KeptWrites
import ShaderBridge.Proofs.Lowering.Program
import ShaderBridge.Proofs.Shader.Endings
import ShaderBridge.Proofs.Parse.Attempt
import ShaderBridge.Proofs.Parse.Calls
import ShaderBridge.Proofs.Macro.Feeds
import ShaderBridge.Proofs.Macro.Unchanged
import ShaderBridge.Proofs.Macro.Steps
import ShaderBridge.Proofs.Macro.Seams
import ShaderBridge.Proofs.Preprocess.Block
import ShaderBridge.Proofs.Preprocess.Comments
import ShaderBridge.Proofs.Preprocess.Elsewhere
import ShaderBridge.Proofs.Preprocess.Groups
import ShaderBridge.Proofs.Preprocess.Splitting
import ShaderBridge.Proofs.Preprocess.LineFeeds
import ShaderBridge.Proofs.Preprocess.Splice
import ShaderBridge.Proofs.Lowering.PrunedProgram
import ShaderBridge.Proofs.Parse.Dimensions
import ShaderBridge.Proofs.Parse.Labels
import ShaderBridge.Proofs.Parse.MemberAccess
import ShaderBridge.Proofs.Parse.OperatorTable
import ShaderBridge.Proofs.Parse.Termination
import ShaderBridge.Proofs.Shader.Concrete
import ShaderBridge.Proofs.Constant.Footprint
import ShaderBridge.Proofs.Constant.Positions
import ShaderBridge.Proofs.Lowering.SamplerPairs
import ShaderBridge.Proofs.Lowering.DeclarationOrder
import ShaderBridge.Proofs.Lowering.AtomicOrder
import ShaderBridge.Proofs.Token.Commented
import ShaderBridge.Proofs.Shader.ReadOnly
import ShaderBridge.Proofs.Lowering.FreshNames
import ShaderBridge.Proofs.Lowering.ReadBack
import ShaderBridge.Proofs.Shader.Coherent
import ShaderBridge.Proofs.Constant.StaticType
import ShaderBridge.Proofs.Macro.Halting
import ShaderBridge.Proofs.Preprocess.ConditionReading
import ShaderBridge.Proofs.Token.NumberLiteral
import ShaderBridge.Proofs.Preprocess.LineCounter
import ShaderBridge.Proofs.Macro.TokenWise
import ShaderBridge.Proofs.Token.Spans
import ShaderBridge.Proofs.Diagnostic.Pointing
