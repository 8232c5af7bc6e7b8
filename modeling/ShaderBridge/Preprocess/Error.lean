import ShaderBridge.Preprocess.Condition

namespace ShaderBridge

inductive PreprocessError where
  | unterminatedComment
  | expansion (e : ExpansionError)
  | condition (e : ConditionError)
  | definition (e : DefinitionError)
  | invalidMacroName (directive : String)
  | elifWithoutIf
  | elifAfterElse
  | elseWithoutIf
  | repeatedElse
  | unbalancedEndif
  | unterminatedGroup
  | invalidInclude
  | includeTooDeep (path : String)
  | includeNotFound (path : String)
  /-- An error on a line of an included text. -/
  | included (path : String) (line : Nat) (inner : PreprocessError)
deriving DecidableEq, Repr

def PreprocessError.message : PreprocessError → String
  | unterminatedComment => "Unterminated comment"
  | expansion e => e.message
  | condition e => e.message
  | definition e => e.message
  | invalidMacroName directive => "Invalid macro name in #" ++ directive
  | elifWithoutIf => "#elif without #if"
  | elifAfterElse => "#elif after #else found"
  | elseWithoutIf => "#else without #if"
  | repeatedElse => "Another else block found"
  | unbalancedEndif => "Unbalanced #endif"
  | unterminatedGroup => "Unterminated conditional directive"
  | invalidInclude => "Invalid include directive"
  | includeTooDeep path => "Include depth limit exceeded at '" ++ path ++ "'"
  | includeNotFound path => "Failed to include '" ++ path ++ "'"
  | included path line inner => path ++ ":" ++ decimal line ++ ": " ++ inner.message

end ShaderBridge
