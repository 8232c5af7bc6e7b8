import ShaderBridge.Builtin.LayoutName
import ShaderBridge.Parse.Expression

namespace ShaderBridge

structure Qualifiers where
  storage : Option StorageClass := none
  auxiliary : Option Auxiliary := none
  interpolation : Option Interpolation := none
  precision : Option Precision := none
  memory : MemoryFlags := {}
  invariant : Bool := false
  precise : Bool := false
  layout : List LayoutEntry := []
deriving DecidableEq, Repr, Inhabited

structure Declarator where
  qualifiers : Qualifiers
  type : TypeRef
  name : String
  dims : List (Option ExprId)
  initial : Option ExprId
deriving DecidableEq, Repr

namespace Declarator

/-- The global variable that a name stands for, with the first value that is left of its own. -/
def toGlobal (d : Declarator) (initial : Option ExprId) : Variable :=
  let q := d.qualifiers
  { name := d.name
    type := d.type
    dims := d.dims
    flags := { array := !d.dims.isEmpty, precise := q.precise, invariant := q.invariant }
    precision := q.precision
    role := .global
      { storage := q.storage
        auxiliary := q.auxiliary
        memory := q.memory
        interpolation := q.interpolation
        initial
        layout := q.layout } }

def toField (d : Declarator) : Variable :=
  { name := d.name
    type := d.type
    dims := d.dims
    flags := { array := !d.dims.isEmpty, precise := d.qualifiers.precise }
    precision := d.qualifiers.precision
    role := .field }

end Declarator

def StorageClass.blockName : StorageClass → String
  | input => "input block"
  | output => "output block"
  | uniform => "uniform block"
  | _ => "buffer block"

namespace Parse

def setOnce {α : Type} (kind : QualifierKind) (old : Option α) (new : α) : ParseM (Option α) := do
  if old.isSome then fail (.repeatedQualifier kind)
  return some new

def layoutEntry : ParseM LayoutEntry := do
  let name ←
    match ← peek with
    | .ident name => pure name
    | .keyword (.storage .shared) => pure StorageClass.shared.spelling
    | _ => fail (.expected .layoutName)
  match LayoutName.takesValue? name with
  | none => fail .unknownLayout
  | some takesValue =>
    advance
    if ← at? .eq then
      unless takesValue do fail .layoutWithoutValue
      advance
      let value ← expression [.comma, .rightParen]
      unless ← isConstant value do fail (.layoutNotConstant name)
      return ⟨name, some (← evaluate value)⟩
    if takesValue then fail (.layoutValueMissing name)
    return ⟨name, none⟩

/-- Adds an entry behind all others, in the place of an earlier one of its name. -/
def addLayout (layout : List LayoutEntry) (entry : LayoutEntry) : List LayoutEntry :=
  layout.filter (fun e => e.name != entry.name) ++ [entry]

/-- A layout list, added to the entries of earlier lists. -/
def layoutList (layout : List LayoutEntry) : ParseM (List LayoutEntry) := do
  advance
  expect .leftParen .layoutOpen
  let entries ← commaSeparated [.rightParen] (.expected .layoutSeparator) layoutEntry
  return entries.foldl addLayout layout

/-- The qualifiers with the one that comes next, unless something else comes next. -/
def qualifier? (q : Qualifiers) : ParseM (Option Qualifiers) := do
  match ← peek with
  | .keyword (.storage s) =>
    let storage ← setOnce .storage q.storage s
    advance
    return some { q with storage }
  | .keyword (.auxiliary a) =>
    let auxiliary ← setOnce .auxiliary q.auxiliary a
    advance
    return some { q with auxiliary }
  | .keyword (.interpolation i) =>
    let interpolation ← setOnce .interpolation q.interpolation i
    advance
    return some { q with interpolation }
  | .keyword (.precision p) =>
    let precision ← setOnce .precision q.precision p
    advance
    return some { q with precision }
  | .keyword (.memory m) =>
    advance
    return some { q with memory := q.memory.add m }
  | .keyword (.word .invariant) =>
    advance
    return some { q with invariant := true }
  | .keyword (.word .precise) =>
    advance
    return some { q with precise := true }
  | .keyword (.word .layout) => return some { q with layout := ← layoutList q.layout }
  | _ => return none

def qualifiers : ParseM Qualifiers :=
  repeatSteps (fun q => do
    match ← qualifier? q with
    | some q => return .inl q
    | none => return .inr q) {}

/-- The end of the pipeline that a stage reads from or writes to with a storage class. -/
def pipelineEnd? : Stage → Option StorageClass → Option PipelineEnd
  | .vertex, some .input => some .vertexInput
  | .fragment, some .output => some .fragmentOutput
  | _, _ => none

def qualifierConflict? (stage : Stage) (q : Qualifiers) : Option ParseError :=
  if q.auxiliary.isSome && q.storage != some .input && q.storage != some .output then
    some .auxiliaryWithoutStorage
  else
    match pipelineEnd? stage q.storage with
    | some place =>
      if q.auxiliary.isSome then some (.auxiliaryOn place)
      else if q.interpolation.isSome then some (.interpolationOn place)
      else none
    | none =>
      if q.auxiliary = some .patch then
        if q.storage = some .input ∧ stage ≠ .tessEvaluation then some .patchInput
        else if q.storage = some .output ∧ stage ≠ .tessControl then some .patchOutput
        else if q.interpolation.isSome then some .patchInterpolation
        else none
      else none

/-- The type whose name comes next, which for a keyword is the one that `named` gives. -/
def typeName? (named : Keyword → Option BuiltinType) : ParseM (Option TypeRef) := do
  match ← peek with
  | .keyword k => return (named k).map .builtin
  | .ident name => findType? name
  | _ => return none

/-- A name with its dimensions and its first value. `typeDims` are the dimensions written on the
type. -/
def declarator (q : Qualifiers) (type : TypeRef) (typeDims : List (Option ExprId)) :
    ParseM Declarator := do
  let name ← name?
  if name.isSome then advance
  let dims := typeDims ++ (← dimensions)
  let initial ←
    if ← take? .eq then do
      let value ← initialValue (some type) (!dims.isEmpty) [.semicolon, .comma]
      if q.storage = some .constant ∨ q.storage = some .uniform then
        unless ← isConstant value do fail .notConstant
      pure (some value)
    else do
      if q.storage = some .constant then fail .constWithoutValue
      pure none
  match name with
  | some name => return ⟨q, type, name, dims, initial⟩
  | none => fail (.expected .declarationName)

/-- Further names behind commas, which share the qualifiers, the type and its dimensions. -/
def furtherDeclarators (first : Declarator) (typeDims : List (Option ExprId)) :
    ParseM (List Declarator) :=
  repeatSteps (fun found => do
    if ← take? .comma then
      return .inl ((← declarator first.qualifiers first.type typeDims) :: found)
    return .inr found.reverse) [first]

/-- Names behind the type that comes next. Dimensions on the type are applied from the last to the
first. -/
def typedDeclaration (q : Qualifiers) : ParseM (List Declarator) := do
  match ← typeName? Keyword.type? with
  | none => fail (.expected .typeName)
  | some type =>
    advance
    let typeDims := (← dimensions).reverse
    furtherDeclarators (← declarator q type typeDims) typeDims

/-- A default precision, which has no effect. -/
def defaultPrecision : ParseM Unit := do
  advance
  match ← peek with
  | .keyword (.precision _) => advance
  | _ => fail (.expected .precision)
  match ← peek with
  | .keyword k => if k.concreteType?.isSome then advance else fail (.expected .typeName)
  | _ => fail (.expected .typeName)

def redeclareInvariant (name : String) : ParseM Unit := do
  match ← findVariable? name with
  | none => fail (.undeclared name)
  | some v =>
    if ((← shader).var v).global?.isNone then fail (.expected .globalVariable)
    modifyShader fun s =>
      ((), s.modifyVar v fun v => { v with flags := { v.flags with invariant := true } })
    advance

/-- The fields of a block without instance name are known where the block is declared. They may only
hide what the language declares. -/
def exposeFields (fields : List VarId) : ParseM Unit :=
  fields.forM fun field => do
    let name := ((← shader).var field).name
    match ← findVariable? name with
    | some existing =>
      unless ((← shader).var existing).flags.hidden do fail (.alreadyDeclared name)
    | none => pure ()
    declare field

def addStructure (name : Option String) (fields : List VarId) : ParseM StructId :=
  modifyShader fun s =>
    let (id, s) := s.addStruct { name, fields }
    let names := match name with
      | some name => Shader.putName s.structureNames name id
      | none => s.structureNames
    (id, { s with structures := s.structures.push id, structureNames := names })

def addBlock (name : Option String) (fields : List VarId) (block : BlockInfo) : ParseM StructId :=
  modifyShader fun s =>
    let (id, s) := s.addStruct { name, fields, block := some block }
    (id, { s with blocks := s.blocks.push id })

/-- The qualifiers of a declaration, which have to go together in the stage. -/
def declarationQualifiers : ParseM Qualifiers := do
  let q ← qualifiers
  match qualifierConflict? (← shader).stage q with
  | some e => fail e
  | none => pure ()
  if let .keyword (.reserved _) ← peek then fail .reservedKeyword
  return q

/-- Whether the name that comes next is one of a declared type. -/
def namesType? : ParseM Bool := do
  match ← name? with
  | some name => Option.isSome <$> findType? name
  | none => return false

/-- The storage class of the block that comes next, if one does. -/
def blockStorage? (q : Qualifiers) : ParseM (Option StorageClass) := do
  let opensBlock := !(← namesType?) && ((← name?).isSome || (← at? .semicolon))
  return q.storage.filter fun s => s.allowsBlock && opensBlock

/-- A declaration that begins with a name or with the keyword of a type. -/
def plainDeclaration (q : Qualifiers) : ParseM (List Declarator) := do
  match ← name? with
  | some name =>
    if q.invariant && !(← namesType?) && (← peekSecond) == .punct .semicolon then
      redeclareInvariant name
      return []
    else typedDeclaration q
  | none => typedDeclaration q

/-- Names of a type that was declared just before them. There may be none. -/
def declaratorsOf (q : Qualifiers) (type : TypeRef) : ParseM (List Declarator) := do
  if ← at? .semicolon then return []
  furtherDeclarators (← declarator q type []) []

mutual

/-- One declaration up to its semicolon or to the parameters of a function: the names that it
introduces, none where it declares a type or changes what exists. -/
def declarationWithin : Nat → ParseM (List Declarator)
  | 0 => do failAt (← span) .unfinished
  | fuel + 1 => do
    let q ← declarationQualifiers
    match ← blockStorage? q with
    | some storage =>
      let block ← blockWithin fuel storage q
      declaratorsOf { q with layout := [] } (.declared block)
    | none =>
      if ← atKeyword? (.word .struct) then
        advance
        let id ← structureWithin fuel
        declaratorsOf q (.declared id)
      else if ← atKeyword? (.word .precision) then
        defaultPrecision
        return []
      else plainDeclaration q

/-- The body of a structure, with its name if it has one. -/
def structureWithin : Nat → ParseM StructId
  | 0 => do failAt (← span) .unfinished
  | fuel + 1 => do
    let name ← name?
    if name.isSome then advance
    let fields ← fieldsWithin fuel "structure"
    addStructure name fields

/-- An interface block. Qualifiers that stand alone make an empty block without name. -/
def blockWithin : Nat → StorageClass → Qualifiers → ParseM StructId
  | 0, _, _ => do failAt (← span) .unfinished
  | fuel + 1, storage, q => do
    let name ← name?
    if name.isSome then advance
    let fields ←
      if name.isNone && (← at? .semicolon) then pure []
      else fieldsWithin fuel storage.blockName
    let id ← addBlock name fields { storage, memory := q.memory, layout := q.layout }
    if (← name?).isNone then exposeFields fields
    return id

def fieldsWithin : Nat → String → ParseM (List VarId)
  | 0, _ => do failAt (← span) .unfinished
  | fuel + 1, block => do
    expect .leftBrace (.fieldsOpen block)
    repeatSteps (fun found => do
      if ← take? .rightBrace then return .inr found.reverse
      if ← atEnd then fail .endOfFile
      let names ← declarationWithin fuel
      expect .semicolon .fieldEnd
      let fields ← names.mapM fun d => addVar d.toField
      return .inl (fields.reverse ++ found)) []

end

end Parse

end ShaderBridge
