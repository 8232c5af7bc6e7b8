import ShaderBridge.Constant.Basic
import ShaderBridge.Hlsl.ByteLayout
import ShaderBridge.Operator

/-!
Programs of the target language. Parentheses are nodes of their own, so that a tree says exactly
what is written; whether they stand where the language needs them is a question about the tree.

Memory that is addressed by bytes has no assignments: a value is put into a temporary, its address
is computed once, and every leaf of it is stored by a call. The three steps together are one
expression here, because they stand where the assignment stood. Temporaries and offsets are told
apart by their numbers.
-/

namespace ShaderBridge.Hlsl

def tempName (index : Nat) : String :=
  "__temp" ++ decimal index

/-- The name of the address that the value of a temporary is stored at. -/
def offsetName (index : Nat) : String :=
  "__offset" ++ decimal index

/-- The function that reads an element of a field. -/
def accessorName (field : String) : String :=
  "__load_" ++ field

inductive Expr where
  | literal (value : Constant)
  | bytes (n : Nat)
  | name (name : String)
  | temp (index : Nat)
  | member (operand : Expr) (name : String)
  | index (operand index : Expr)
  | call (function : String) (args : List Expr)
  /-- The conversion of a list of values to a structure. -/
  | cast (type : String) (args : List Expr)
  /-- Values one after the other, with nothing around them. -/
  | list (items : List Expr)
  | unary (op : UnaryOp) (operand : Expr)
  | binary (op : BinaryOp) (left right : Expr)
  | assign (op : AssignOp) (left right : Expr)
  | sequence (left right : Expr)
  | choice (condition onTrue onFalse : Expr)
  | aggregate (items : List Expr)
  | group (inner : Expr)
  /-- Reads an element of a field of a storage block. -/
  | load (field : String) (index : Expr)
  /-- Puts `value` into the temporary `temp`, and from there into the leaves that begin at `address`
  of a resource. -/
  | store (temp : Nat) (type : String) (value address : Expr) (resource : String)
    (leaves : List Leaf)

instance : Inhabited Expr := ⟨.name ""⟩

/-- A declared name with its dimensions and its first value. -/
structure Declarator where
  name : String
  dims : List (Option Expr) := []
  initial : Option Expr := none

/-- What stands in front of a branch or a loop. -/
inductive Hint where
  | flatten | branch | unroll | loop
deriving DecidableEq, Repr

/-- The part of a loop that stands in front of its body. -/
inductive Header where
  | nothing
  | expression (e : Expr)
  /-- Variables that share one type. -/
  | declaration (type : String) (vars : List Declarator)

inductive Stmt where
  /-- Statements on lines of their own, with no braces around them. -/
  | lines (body : List Stmt)
  | block (body : List Stmt)
  | empty
  | declaration (constant : Bool) (type : String) (declarator : Declarator)
  | expression (e : Expr)
  /-- Declares the temporary `temp` and calls an atomic function, which leaves its result there. -/
  | atomic (temp : Nat) (type function : String) (args : List Expr)
  /-- Leaves the loop unless the condition holds. -/
  | breakUnless (condition : Expr)
  | branch (hint : Option Hint) (condition : Expr) (onTrue : Stmt) (onFalse : Option Stmt)
  | switch (hint : Option Hint) (subject : Expr) (body : List Stmt)
  | label (value : Option Expr)
  | whileLoop (hint : Option Hint) (condition : Header) (body : Stmt)
  | doLoop (hint : Option Hint) (body : Stmt) (condition : Expr)
  | forLoop (hint : Option Hint) (start : Header) (condition step : Option Expr) (body : Stmt)
  | continueLoop
  | breakLoop
  | returnValue (value : Option Expr)
  | discard

instance : Inhabited Stmt := ⟨.empty⟩

inductive RegisterClass where
  | buffer | sampler | texture | writable
deriving DecidableEq, Repr

structure Register where
  kind : RegisterClass
  slot : Int
  space : Option Int
deriving DecidableEq, Repr

structure Field where
  type : String
  name : String
  dims : List (Option Expr) := []
  /-- What the member is bound to. -/
  binding : Option String := none

structure Param where
  qualifiers : List String := []
  type : String
  name : String
  dims : List (Option Expr) := []

inductive Decl where
  /-- Text that is the same in every program. -/
  | fixed (text : String)
  | global (qualifiers : List String) (type : String) (declarator : Declarator)
    (register : Option Register)
  | record (name : String) (fields : List Field)
  | constantBuffer (name : String) (register : Option Register) (fields : List Field)
  | byteBuffer (readonly : Bool) (name : String) (register : Register)
  /-- The function that reads one element of a field from the resource it lives in. -/
  | accessor (function type resource : String) (stride : Nat) (leaves : List Leaf)
  /-- A function, only announced where there is no body. -/
  | function (threads : Option (Int × Int × Int)) (returnType name : String) (params : List Param)
    (body : Option (List Stmt))

/-- A program is what it declares, in order. -/
abbrev Program := List Decl

end ShaderBridge.Hlsl
