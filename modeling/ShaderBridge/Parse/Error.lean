import ShaderBridge.Constant.Arithmetic
import ShaderBridge.Keyword
import ShaderBridge.Text.Chars

namespace ShaderBridge

inductive Expected where
  | layoutOpen | layoutName | layoutSeparator
  | typeName | typeOfParameter | declarationName
  | dimensionClose | precision | globalVariable
  | fieldsOpen (block : String)
  | fieldEnd | openingParen | functionAttributeClose | functionEnd
  | choiceColon | closingParen | arrayTypeClose | arrayOpen | constructorOpen | callOpen
  | argumentSeparator | memberName | subscriptClose | itemSeparator
  | returnEnd | statementEnd | hintsClose | hintInteger
  | ifOpen | ifClose | switchOpen | switchClose | switchBody | defaultColon | caseColon
  | forOpen | forStart | forCondition | forClose
  | doWhile | whileOpen | whileClose | doEnd
  | jumpEnd (jump : String)
deriving DecidableEq, Repr

namespace Expected

def message : Expected → String
  | layoutOpen => "expected '(' after 'layout'"
  | layoutName => "expected layout qualifier"
  | layoutSeparator => "expected ',' or ')' in layout qualifier list"
  | typeName => "expected typename"
  | typeOfParameter => "expected type"
  | declarationName => "expected name for declaration"
  | dimensionClose => "expected ']' after array size"
  | precision => "expected precision qualifier"
  | globalVariable => "expected global variable"
  | fieldsOpen block => "expected '\x7b' for " ++ block ++ " definition"
  | fieldEnd => "expected ';' after field declaration"
  | openingParen => "expected '('"
  | functionAttributeClose => "expected ']]' after function attribute"
  | functionEnd => "expected '\x7b' or ';'"
  | choiceColon => "expected ':' for else case in ternary statement"
  | closingParen => "expected ')'"
  | arrayTypeClose => "expected ']' in array constructor"
  | arrayOpen => "expected '(' for array constructor"
  | constructorOpen => "expected '(' for constructor call"
  | callOpen => "expected '(' for function call"
  | argumentSeparator => "expected ',' or ')' in argument list"
  | memberName => "expected field identifier or swizzle after '.'"
  | subscriptClose => "expected ']' after subscript"
  | itemSeparator => "expected ',' in initializer list"
  | returnEnd => "expected semicolon after return statement"
  | statementEnd => "expected ';' after statement"
  | hintsClose => "expected ']]' after attributes"
  | hintInteger => "expected const int"
  | ifOpen => "expected '(' after 'if'"
  | ifClose => "expected ')' after if condition"
  | switchOpen => "expected '(' after 'switch'"
  | switchClose => "expected ')' after switch expression"
  | switchBody => "expected '\x7b' after ')'"
  | defaultColon => "expected ':' after 'default' in case label"
  | caseColon => "expected ':' after case label"
  | forOpen => "expected '(' after 'for'"
  | forStart => "expected ';' after for-loop initializer"
  | forCondition => "expected ';' after for-loop condition"
  | forClose => "expected ')' after for-loop step"
  | doWhile => "expected 'while' after 'do'"
  | whileOpen => "expected '(' after 'while'"
  | whileClose => "expected ')' after while condition"
  | doEnd => "expected semicolon after do-while statement"
  | jumpEnd jump => "expected semicolon after " ++ jump ++ " statement"

end Expected

/-- The kinds of qualifiers of which a declaration may have only one. -/
inductive QualifierKind where
  | storage | auxiliary | interpolation | precision
deriving DecidableEq, Repr

def QualifierKind.name : QualifierKind → String
  | storage => "storage"
  | auxiliary => "auxiliary storage"
  | interpolation => "interpolation"
  | precision => "precision"

/-- The two ends of the pipeline, where values are neither interpolated nor sampled. -/
inductive PipelineEnd where
  | vertexInput | fragmentOutput
deriving DecidableEq, Repr

def PipelineEnd.name : PipelineEnd → String
  | vertexInput => "vertex shader input"
  | fragmentOutput => "fragment shader output"

inductive ParseError where
  | endOfFile
  | expected (e : Expected)
  | syntaxError
  | parameterSyntax
  | declarationSyntax
  | repeatedVersion
  | reservedKeyword
  | repeatedQualifier (kind : QualifierKind)
  | auxiliaryWithoutStorage
  | auxiliaryOn (place : PipelineEnd)
  | interpolationOn (place : PipelineEnd)
  | patchInput
  | patchOutput
  | patchInterpolation
  | unknownLayout
  | layoutWithoutValue
  | layoutNotConstant (name : String)
  | layoutValueMissing (name : String)
  | notConstant
  | constWithoutValue
  | dimensionNotConstant
  | familyOutsidePrototype
  | undeclared (name : String)
  | alreadyDeclared (name : String)
  | functionAttribute
  | mainParameters
  | mainResult
  | namedVoid
  | notAssignable
  | writeToInput
  | writeToConstant
  | noSuchField (name owner : String)
  | notSubscriptable
  | unknownHint
  | labelNotConstant
  | labelNotInteger
  | repeatedLabel (value : Int)
  | repeatedDefault
  | folding (e : FoldError)
  /-- The tokens were not used up in as many steps as they allow. Every step takes a token, so this
  does not happen. -/
  | unfinished
deriving DecidableEq, Repr

def ParseError.message : ParseError → String
  | endOfFile => "premature end of file"
  | expected e => e.message
  | syntaxError => "syntax error"
  | parameterSyntax => "syntax error in parameter list"
  | declarationSyntax => "syntax error during declaration statement"
  | repeatedVersion => "multiple version directives are not allowed"
  | reservedKeyword => "cannot use a reserved keyword"
  | repeatedQualifier kind => "multiple " ++ kind.name ++ " qualifiers in declaration"
  | auxiliaryWithoutStorage => "aux storage qualifiers can only be used with in/out storage"
  | auxiliaryOn place => "cannot use auxiliary storage qualifier on " ++ place.name
  | interpolationOn place => "cannot use interpolation qualifier on " ++ place.name
  | patchInput =>
    "applying 'patch' qualifier to input can only be done in tessellation evaluation shader"
  | patchOutput =>
    "applying 'patch' qualifier to output can only be done in tessellation control shader"
  | patchInterpolation =>
    "cannot use interpolation qualifier with auxiliary storage qualifier 'patch'"
  | unknownLayout => "unknown layout qualifier"
  | layoutWithoutValue => "unexpected layout qualifier value"
  | layoutNotConstant name =>
    "value for layout qualifier `" ++ name ++ "' is not a valid constant expression"
  | layoutValueMissing name =>
    "expected layout qualifier value for `" ++ name ++ "' layout qualifier"
  | notConstant => "not a valid constant expression"
  | constWithoutValue => "const-qualified variable declared but not initialized"
  | dimensionNotConstant => "array size is not a valid constant expression"
  | familyOutsidePrototype => "generics are only allowed for builtin prototypes"
  | undeclared name => "'" ++ name ++ "' was not declared in this scope"
  | alreadyDeclared name => "'" ++ name ++ "' is already declared in this scope"
  | functionAttribute => "invalid function attribute"
  | mainParameters => "'main' cannot have parameters"
  | mainResult => "'main' must be declared to return void"
  | namedVoid => "'void' parameter cannot be named"
  | notAssignable => "not a valid lvalue"
  | writeToInput => "cannot write to a variable declared as input"
  | writeToConstant => "cannot write to a const variable outside of its declaration"
  | noSuchField name owner =>
    "field '" ++ name ++ "' does not exist in structure " ++ owner
  | notSubscriptable => "cannot be subscripted"
  | unknownHint => "invalid attribute"
  | labelNotConstant => "case label is not a valid constant expression"
  | labelNotInteger => "case label must be scalar 'int' or 'uint'"
  | repeatedLabel value => "duplicate case label '" ++ decimal value ++ "'"
  | repeatedDefault => "duplicate 'default' case label"
  | folding e => e.message
  | unfinished => "syntax error"

end ShaderBridge
