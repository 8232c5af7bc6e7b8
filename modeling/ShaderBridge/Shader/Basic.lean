import ShaderBridge.Constant.Basic
import ShaderBridge.Keyword
import ShaderBridge.Operator
import ShaderBridge.Qualifier
import ShaderBridge.Stage

/-!
Shaders: everything that one source text declares. Expressions, statements, variables, functions and
structures live in tables of their own and refer to one another by their position there, so that
several places may share a node, and a node may be replaced where it stands.
-/

namespace ShaderBridge

/-! ### References -/

structure ExprId where
  index : Nat
deriving DecidableEq, Repr, Inhabited

structure StmtId where
  index : Nat
deriving DecidableEq, Repr, Inhabited

structure VarId where
  index : Nat
deriving DecidableEq, Repr, Inhabited

structure FuncId where
  index : Nat
deriving DecidableEq, Repr, Inhabited

structure StructId where
  index : Nat
deriving DecidableEq, Repr, Inhabited

/-- A type that a program may name: one of the language or one that it declares. -/
inductive TypeRef where
  | builtin (t : BuiltinType)
  | declared (id : StructId)
deriving DecidableEq, Repr, Inhabited

namespace TypeRef

def builtin? : TypeRef → Option BuiltinType
  | builtin t => some t
  | declared _ => none

def isFamily : TypeRef → Bool
  | builtin t => t.isFamily
  | declared _ => false

def isVector : TypeRef → Bool
  | builtin t => t.isVector
  | declared _ => false

end TypeRef

/-! ### Expressions -/

inductive Expr where
  | constant (value : Constant)
  | var (id : VarId)
  /-- A member of a structure where `field` is known, a swizzle otherwise. -/
  | member (operand : ExprId) (name : String) (field : Option VarId)
  | subscript (operand index : ExprId)
  /-- `target` is the overload that the call reaches, once that is settled. -/
  | call (name : String) (args : List ExprId) (target : Option FuncId)
  | construct (type : TypeRef) (args : List ExprId)
  | unary (op : UnaryOp) (operand : ExprId)
  | binary (op : BinaryOp) (left right : ExprId)
  | assign (op : AssignOp) (left right : ExprId)
  | sequence (left right : ExprId)
  | choice (condition onTrue onFalse : ExprId)
  | aggregate (items : List ExprId)
deriving DecidableEq, Repr

instance : Inhabited Expr := ⟨.constant default⟩

/-! ### Variables -/

structure LayoutEntry where
  name : String
  value : Option ExprId
deriving DecidableEq, Repr

structure VarFlags where
  array : Bool := false
  precise : Bool := false
  constant : Bool := false
  invariant : Bool := false
  /-- Declared by the language, not by the program. -/
  hidden : Bool := false
deriving DecidableEq, Repr, Inhabited

structure ParamQualifiers where
  constant : Bool := false
  input : Bool := false
  output : Bool := false
  inout : Bool := false
deriving DecidableEq, Repr, Inhabited

structure GlobalInfo where
  storage : Option StorageClass := none
  auxiliary : Option Auxiliary := none
  memory : MemoryFlags := {}
  interpolation : Option Interpolation := none
  initial : Option ExprId := none
  layout : List LayoutEntry := []
deriving DecidableEq, Repr, Inhabited

inductive VarRole where
  | global (info : GlobalInfo)
  | parameter (qualifiers : ParamQualifiers)
  | localVar (initial : Option ExprId)
  | field
deriving DecidableEq, Repr, Inhabited

structure Variable where
  name : String
  type : TypeRef
  /-- Outermost dimension first; `none` is a dimension without size. -/
  dims : List (Option ExprId) := []
  flags : VarFlags := {}
  precision : Option Precision := none
  role : VarRole := .field
deriving DecidableEq, Repr, Inhabited

namespace Variable

def global? (v : Variable) : Option GlobalInfo :=
  match v.role with
  | .global info => some info
  | _ => none

def storage? (v : Variable) : Option StorageClass :=
  v.global?.bind GlobalInfo.storage

def initial? (v : Variable) : Option ExprId :=
  match v.role with
  | .global info => info.initial
  | .localVar initial => initial
  | _ => none

def isArray (v : Variable) : Bool :=
  v.flags.array || !v.dims.isEmpty

/-- Whether the variable keeps its first value. -/
def isImmutable (v : Variable) : Bool :=
  v.storage? == some .constant || v.flags.constant

end Variable

/-! ### Structures -/

/-- What an interface block has beyond its fields. -/
structure BlockInfo where
  storage : StorageClass
  memory : MemoryFlags := {}
  layout : List LayoutEntry := []
deriving DecidableEq, Repr

/-- A structure, or an interface block. -/
structure StructDecl where
  name : Option String := none
  fields : List VarId := []
  block : Option BlockInfo := none
deriving DecidableEq, Repr, Inhabited

/-! ### Functions -/

structure Function where
  name : String
  returnType : TypeRef
  params : List VarId := []
  /-- Missing where a function is only announced. -/
  body : Option (List StmtId) := none
  builtin : Bool := false
  /-- An instance of a prototype that ranges over families of types. -/
  instantiated : Bool := false
  /-- The prototype that announced this definition. -/
  prototype : Option FuncId := none
deriving DecidableEq, Repr, Inhabited

def Function.isPrototype (f : Function) : Bool :=
  f.body.isNone

/-- Adds a function to the functions of its name. -/
def addOverload (name : String) (id : FuncId) :
    List (String × List FuncId) → List (String × List FuncId)
  | [] => [(name, [id])]
  | (other, ids) :: rest =>
    if other = name then (name, ids ++ [id]) :: rest
    else (other, ids) :: addOverload name id rest

theorem map_fst_addOverload (name : String) (id : FuncId) (entries : List (String × List FuncId)) :
    (addOverload name id entries).map Prod.fst =
      if name ∈ entries.map Prod.fst then entries.map Prod.fst
      else entries.map Prod.fst ++ [name] := by
  induction entries with
  | nil => rfl
  | cons entry rest ih =>
      obtain ⟨other, ids⟩ := entry
      by_cases h : other = name
      · simp [addOverload, h]
      · by_cases hmem : name ∈ rest.map Prod.fst
        · rw [if_pos hmem] at ih
          simp [addOverload, h, ih, hmem]
        · rw [if_neg hmem] at ih
          simp [addOverload, h, ih, hmem, Ne.symm h]

theorem ne_nil_of_mem_addOverload {name : String} {id : FuncId}
    {entries : List (String × List FuncId)} (h : ∀ entry ∈ entries, entry.2 ≠ []) :
    ∀ entry ∈ addOverload name id entries, entry.2 ≠ [] := by
  induction entries with
  | nil => simp [addOverload]
  | cons entry rest ih =>
      obtain ⟨hentry, hrest⟩ := List.forall_mem_cons.1 h
      unfold addOverload
      split
      · exact List.forall_mem_cons.2 ⟨by simp, hrest⟩
      · exact List.forall_mem_cons.2 ⟨hentry, ih hrest⟩

/-- Functions under their names. Every name has its own entry and at least one function. -/
structure FunctionTable where
  entries : List (String × List FuncId)
  nodup : (entries.map Prod.fst).Nodup
  nonempty : ∀ entry ∈ entries, entry.2 ≠ []

namespace FunctionTable

instance : EmptyCollection FunctionTable := ⟨⟨[], List.nodup_nil, List.forall_mem_nil _⟩⟩

instance : Inhabited FunctionTable := ⟨∅⟩

/-- The functions of a name. -/
def find (t : FunctionTable) (name : String) : List FuncId :=
  (t.entries.lookup name).getD []

def add (t : FunctionTable) (name : String) (id : FuncId) : FunctionTable where
  entries := addOverload name id t.entries
  nodup := by
    rw [map_fst_addOverload]
    split
    · exact t.nodup
    · next hnew =>
        refine List.nodup_append.2 ⟨t.nodup, List.pairwise_singleton _ _, fun a ha b hb heq => ?_⟩
        exact hnew (List.mem_singleton.1 hb ▸ heq ▸ ha)
  nonempty := ne_nil_of_mem_addOverload t.nonempty

/-- Takes functions out, and names that lose all theirs. -/
def retain (t : FunctionTable) (keep : FuncId → Bool) : FunctionTable where
  entries := (t.entries.map fun entry => (entry.1, entry.2.filter keep)).filter
    fun entry => !entry.2.isEmpty
  nodup := by
    refine List.Nodup.sublist (List.filter_sublist.map Prod.fst) ?_
    rw [List.map_map]
    exact t.nodup
  nonempty entry hentry := by
    have hlength := (List.mem_filter.1 hentry).2
    intro hnil
    rw [hnil] at hlength
    cases hlength

end FunctionTable

/-! ### Statements -/

/-- The hints that may stand in front of a branch or a loop. -/
structure FlowHints where
  unroll : Bool := false
  dontUnroll : Bool := false
  loop : Bool := false
  dependencyInfinite : Bool := false
  flatten : Bool := false
  dontFlatten : Bool := false
  branch : Bool := false
  dependencyLength : Option Int := none
  minIterations : Option Int := none
  maxIterations : Option Int := none
  iterationMultiple : Option Int := none
  peelCount : Option Int := none
  partialCount : Option Int := none
deriving DecidableEq, Repr, Inhabited

inductive Stmt where
  | block (body : List StmtId)
  | empty
  | declaration (vars : List VarId)
  | expression (e : ExprId)
  | branch (hints : FlowHints) (condition : ExprId) (onTrue : StmtId) (onFalse : Option StmtId)
  | switch (hints : FlowHints) (subject : ExprId) (body : List StmtId)
  /-- A label of a `switch`; without value it is the default. -/
  | label (value : Option ExprId)
  | whileLoop (hints : FlowHints) (condition body : StmtId)
  | doLoop (hints : FlowHints) (body : StmtId) (condition : ExprId)
  | forLoop (hints : FlowHints) (start : Option StmtId) (condition step : Option ExprId)
    (body : StmtId)
  | continueLoop
  | breakLoop
  | returnValue (value : Option ExprId)
  | discard
  | rayJump (j : RayJump)
deriving DecidableEq, Repr

instance : Inhabited Stmt := ⟨.empty⟩

/-! ### The whole -/

/-- The language version that a source text asks for. -/
structure Version where
  number : Nat
  profile : Option String
deriving DecidableEq, Repr

structure Shader where
  stage : Stage
  version : Option Version := none
  /-- The name and the behaviour of every extension. -/
  extensions : Array (String × String) := #[]
  exprs : Array Expr := #[]
  stmts : Array Stmt := #[]
  vars : Array Variable := #[]
  funcs : Array Function := #[]
  structs : Array StructDecl := #[]
  globals : Array VarId := #[]
  structures : Array StructId := #[]
  /-- What a structure name stands for. A name that is declared again keeps its place. -/
  structureNames : List (String × StructId) := []
  blocks : Array StructId := #[]
  /-- Functions in the order of their declaration, those of the language first. -/
  functions : Array FuncId := #[]
  /-- The same functions under their names. -/
  functionNames : FunctionTable := ∅
deriving Inhabited

namespace Shader

def expr (s : Shader) (id : ExprId) : Expr :=
  s.exprs.getD id.index default

def stmt (s : Shader) (id : StmtId) : Stmt :=
  s.stmts.getD id.index default

def var (s : Shader) (id : VarId) : Variable :=
  s.vars.getD id.index default

def func (s : Shader) (id : FuncId) : Function :=
  s.funcs.getD id.index default

def struct (s : Shader) (id : StructId) : StructDecl :=
  s.structs.getD id.index default

def addExpr (e : Expr) (s : Shader) : ExprId × Shader :=
  (⟨s.exprs.size⟩, { s with exprs := s.exprs.push e })

def addStmt (t : Stmt) (s : Shader) : StmtId × Shader :=
  (⟨s.stmts.size⟩, { s with stmts := s.stmts.push t })

def addVar (v : Variable) (s : Shader) : VarId × Shader :=
  (⟨s.vars.size⟩, { s with vars := s.vars.push v })

def addStruct (d : StructDecl) (s : Shader) : StructId × Shader :=
  (⟨s.structs.size⟩, { s with structs := s.structs.push d })

/-- Gives a name a meaning. A name that has one keeps its place. -/
def putName {α : Type} (names : List (String × α)) (name : String) (a : α) :
    List (String × α) :=
  if (names.lookup name).isSome then
    names.map fun entry => if entry.1 == name then (name, a) else entry
  else names ++ [(name, a)]

def addFunc (f : Function) (s : Shader) : Shader :=
  let id : FuncId := ⟨s.funcs.size⟩
  { s with
    funcs := s.funcs.push f
    functions := s.functions.push id
    functionNames := s.functionNames.add f.name id }

def setExpr (id : ExprId) (e : Expr) (s : Shader) : Shader :=
  { s with exprs := s.exprs.setIfInBounds id.index e }

def setStmt (id : StmtId) (t : Stmt) (s : Shader) : Shader :=
  { s with stmts := s.stmts.setIfInBounds id.index t }

def modifyVar (id : VarId) (f : Variable → Variable) (s : Shader) : Shader :=
  { s with vars := s.vars.modify id.index f }

def modifyFunc (id : FuncId) (f : Function → Function) (s : Shader) : Shader :=
  { s with funcs := s.funcs.modify id.index f }

def truncate (exprs vars : Nat) (s : Shader) : Shader :=
  { s with exprs := s.exprs.shrink exprs, vars := s.vars.shrink vars }

def constant? (s : Shader) (id : ExprId) : Option Constant :=
  match s.expr id with
  | .constant c => some c
  | _ => none

/-- All functions of a name, in the order of their declaration. -/
def overloads (s : Shader) (name : String) : List FuncId :=
  s.functionNames.find name

def userFunctions (s : Shader) : List FuncId :=
  s.functions.toList.filter fun id => !(s.func id).builtin

def main? (s : Shader) : Option FuncId :=
  (s.overloads "main").find? fun id => !(s.func id).isPrototype

def findStruct? (s : Shader) (name : String) : Option StructId :=
  s.structureNames.lookup name

def findGlobal? (s : Shader) (name : String) : Option VarId :=
  s.globals.toList.find? fun id => (s.var id).name == name

def typeName (s : Shader) : TypeRef → String
  | .builtin t => t.spelling
  | .declared id => (s.struct id).name.getD "<anonymous>"

/-- The integer that a layout list gives for a name. -/
def layoutValue? (s : Shader) (layout : List LayoutEntry) (name : String) : Option Int := do
  let entry ← layout.find? fun entry => entry.name == name
  let c ← s.constant? (← entry.value)
  c.toInt64?

end Shader

def hasLayout (layout : List LayoutEntry) (name : String) : Bool :=
  layout.any fun entry => entry.name == name

end ShaderBridge
