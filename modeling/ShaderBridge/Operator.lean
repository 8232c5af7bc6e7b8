namespace ShaderBridge

inductive UnaryOp where
  | plus | minus | bitNot | logicalNot
  | preIncrement | preDecrement | postIncrement | postDecrement
deriving DecidableEq, Repr

/-- Whether the operator changes its operand. -/
def UnaryOp.isStep : UnaryOp → Bool
  | preIncrement | preDecrement | postIncrement | postDecrement => true
  | _ => false

inductive BinaryOp where
  | mul | div | mod | add | sub | shl | shr
  | lt | gt | le | ge | eq | ne
  | bitAnd | bitXor | bitOr
  | logicalAnd | logicalXor | logicalOr
deriving DecidableEq, Repr

namespace BinaryOp

def spelling : BinaryOp → String
  | mul => "*"
  | div => "/"
  | mod => "%"
  | add => "+"
  | sub => "-"
  | shl => "<<"
  | shr => ">>"
  | lt => "<"
  | gt => ">"
  | le => "<="
  | ge => ">="
  | eq => "=="
  | ne => "!="
  | bitAnd => "&"
  | bitXor => "^"
  | bitOr => "|"
  | logicalAnd => "&&"
  | logicalXor => "^^"
  | logicalOr => "||"

def isComparison : BinaryOp → Bool
  | lt | gt | le | ge | eq | ne => true
  | _ => false

def isLogical : BinaryOp → Bool
  | logicalAnd | logicalXor | logicalOr => true
  | _ => false

def isShift : BinaryOp → Bool
  | shl | shr => true
  | _ => false

end BinaryOp

inductive AssignOp where
  | assign | add | sub | mul | div | mod | shl | shr | bitAnd | bitXor | bitOr
deriving DecidableEq, Repr

namespace AssignOp

def binary? : AssignOp → Option BinaryOp
  | assign => none
  | add => some .add
  | sub => some .sub
  | mul => some .mul
  | div => some .div
  | mod => some .mod
  | shl => some .shl
  | shr => some .shr
  | bitAnd => some .bitAnd
  | bitXor => some .bitXor
  | bitOr => some .bitOr

def spelling (op : AssignOp) : String :=
  match op.binary? with
  | none => "="
  | some binary => binary.spelling ++ "="

end AssignOp

end ShaderBridge
