import ShaderBridge.Hlsl.Literal
import ShaderBridge.Hlsl.Syntax

namespace ShaderBridge.Hlsl

def opened : String := " \x7b\n"

def closed : String := "\x7d"

def commaSeparated (items : List String) : String :=
  ", ".intercalate items

/-- The name of a function with as many components as a type has. -/
def sizedName (name : String) (t : BuiltinType) : String :=
  if t.vectorSize = 1 then name else name ++ decimal t.vectorSize

/-- The call that reads a leaf. Words of 32 bits are read as such, what has another size by its
type. -/
def loadText (resource : String) (t : BuiltinType) (address : String) : String :=
  let words := resource ++ "." ++ sizedName "Load" t ++ "(" ++ address ++ ")"
  match t.component with
  | .scalar .int | .scalar .uint => words
  | .scalar .float => "asfloat(" ++ words ++ ")"
  | .scalar .bool => words ++ " != 0"
  | _ => resource ++ ".Load<" ++ t.hlslName ++ ">(" ++ address ++ ")"

/-- The unsigned integers with as many components as a type has. -/
def wordsType (t : BuiltinType) : BuiltinType :=
  ((BuiltinType.scalar .uint).vectorOf? t.vectorSize).getD (.scalar .uint)

/-- The call that writes a leaf. -/
def storeText (resource : String) (t : BuiltinType) (address value : String) : String :=
  let words (value : String) : String :=
    resource ++ "." ++ sizedName "Store" t ++ "(" ++ address ++ ", " ++ value ++ ")"
  match t.component with
  | .scalar .int | .scalar .uint => words value
  | .scalar .float => words ("asuint(" ++ value ++ ")")
  | .scalar .bool => words ((wordsType t).hlslName ++ "(" ++ value ++ ")")
  | _ => resource ++ ".Store<" ++ t.hlslName ++ ">(" ++ address ++ ", " ++ value ++ ")"

def unaryText (op : UnaryOp) (operand : String) : String :=
  match op with
  | .plus => "+" ++ operand
  | .minus => "-" ++ operand
  | .bitNot => "~" ++ operand
  | .logicalNot => "!" ++ operand
  | .preIncrement => "++" ++ operand
  | .preDecrement => "--" ++ operand
  | .postIncrement => operand ++ "++"
  | .postDecrement => operand ++ "--"

def newLine (indent : String) : String :=
  "\n" ++ indent

mutual

/-- The text of an expression inside a statement with the given indentation. -/
def Expr.render (indent : String) : Expr → String
  | .literal c => String.ofList (literalText c)
  | .bytes n => decimal n
  | .name n => n
  | .temp k => tempName k
  | .member operand field => operand.render indent ++ "." ++ field
  | .index operand i => operand.render indent ++ "[" ++ i.render indent ++ "]"
  | .call function args => function ++ "(" ++ commaSeparated (renderAll indent args) ++ ")"
  | .cast type args => "(" ++ type ++ ")(" ++ commaSeparated (renderAll indent args) ++ ")"
  | .list items => commaSeparated (renderAll indent items)
  | .unary op operand => unaryText op (operand.render indent)
  | .binary op left right =>
    left.render indent ++ " " ++ op.spelling ++ " " ++ right.render indent
  | .assign op left right =>
    left.render indent ++ " " ++ op.spelling ++ " " ++ right.render indent
  | .sequence left right => left.render indent ++ ", " ++ right.render indent
  | .choice condition onTrue onFalse =>
    condition.render indent ++ " ? " ++ onTrue.render indent ++ " : " ++ onFalse.render indent
  | .aggregate items => "\x7b " ++ commaSeparated (renderAll indent items) ++ " \x7d"
  | .group inner => "(" ++ inner.render indent ++ ")"
  | .load field i => accessorName field ++ "(" ++ i.render indent ++ ")"
  | .store k type value address resource leaves =>
    type ++ " " ++ tempName k ++ " = " ++ value.render indent ++ ";" ++ newLine indent ++
      "uint " ++ offsetName k ++ " = " ++ address.render indent ++ ";" ++ newLine indent ++
      (";" ++ newLine indent).intercalate (leaves.map fun leaf =>
        storeText resource leaf.type (offsetName k ++ " + " ++ decimal leaf.offset) leaf.path)

def Expr.renderAll (indent : String) : List Expr → List String
  | [] => []
  | e :: es => e.render indent :: Expr.renderAll indent es

end

def dimsText (indent : String) (dims : List (Option Expr)) : String :=
  String.join (dims.map fun size => "[" ++ (size.map (Expr.render indent)).getD "" ++ "]")

def Declarator.render (indent : String) (d : Declarator) : String :=
  d.name ++ dimsText indent d.dims ++ ((d.initial.map fun e => " = " ++ e.render indent).getD "")

def Hint.text : Hint → String
  | flatten => "[flatten] "
  | branch => "[branch] "
  | unroll => "[unroll] "
  | loop => "[loop] "

def hintText (hint : Option Hint) : String :=
  (hint.map Hint.text).getD ""

def indented (indent : String) (lines : List String) : String :=
  String.join (lines.map fun line => indent ++ line ++ "\n")

/-- A part of a loop header that may be missing. -/
def clause (indent : String) (e : Option Expr) : String :=
  (e.map fun e => " " ++ e.render indent).getD ""

def Header.render (indent : String) : Header → String
  | nothing => ""
  | expression e => e.render indent
  | declaration _ [] => ""
  | declaration type vars => type ++ " " ++ commaSeparated (vars.map (Declarator.render indent))

mutual

/-- The text of a statement, `step` being what one level of braces adds to the indentation. -/
def Stmt.render (step indent : String) : Stmt → String
  | .lines body => (newLine indent).intercalate (renderAll step indent body)
  | .block body =>
    "\x7b\n" ++ indented (indent ++ step) (renderAll step (indent ++ step) body) ++ indent ++ closed
  | .empty => ";"
  | .declaration constant type declarator =>
    (if constant then "const " else "") ++ type ++ " " ++ declarator.render indent ++ ";"
  | .expression e => e.render indent ++ ";"
  | .atomic temp type function args =>
    type ++ " " ++ tempName temp ++ ";" ++ newLine indent ++
      function ++ "(" ++ commaSeparated (Expr.renderAll indent args ++ [tempName temp]) ++ ");"
  | .breakUnless condition => "if (!" ++ condition.render indent ++ ") break;"
  | .branch hint condition onTrue none =>
    hintText hint ++ "if (" ++ condition.render indent ++ ") " ++ onTrue.render step indent
  | .branch hint condition onTrue (some onFalse) =>
    hintText hint ++ "if (" ++ condition.render indent ++ ") " ++ onTrue.render step indent ++
      " else " ++ onFalse.render step indent
  | .switch hint subject body =>
    hintText hint ++ "switch (" ++ subject.render indent ++ ")" ++ opened ++
      indented (indent ++ step) (renderAll step (indent ++ step) body) ++ indent ++ closed
  | .label none => "default:"
  | .label (some value) => "case " ++ value.render indent ++ ":"
  | .whileLoop hint condition body =>
    hintText hint ++ "while (" ++ condition.render indent ++ ") " ++ body.render step indent
  | .doLoop hint body condition =>
    hintText hint ++ "do " ++ body.render step indent ++ newLine indent ++
      "while (" ++ condition.render indent ++ ");"
  | .forLoop hint start condition next body =>
    hintText hint ++ "for (" ++ start.render indent ++ ";" ++ clause indent condition ++ ";" ++
      clause indent next ++ ") " ++ body.render step indent
  | .continueLoop => "continue;"
  | .breakLoop => "break;"
  | .returnValue none => "return;"
  | .returnValue (some value) => "return " ++ value.render indent ++ ";"
  | .discard => "discard;"

def Stmt.renderAll (step indent : String) : List Stmt → List String
  | [] => []
  | s :: rest => s.render step indent :: Stmt.renderAll step indent rest

end

def RegisterClass.text : RegisterClass → String
  | buffer => "b"
  | sampler => "s"
  | texture => "t"
  | writable => "u"

def Register.text (r : Register) : String :=
  " : register(" ++ r.kind.text ++ decimal r.slot ++
    ((r.space.map fun space => ", space" ++ decimal space).getD "") ++ ")"

def registerText (r : Option Register) : String :=
  (r.map Register.text).getD ""

/-- Words that each have a blank behind them. -/
def wordsText (words : List String) : String :=
  String.join (words.map (· ++ " "))

/-- How the members of structures and the lines of accessors are indented. -/
def fieldIndent : String := "    "

def Field.render (f : Field) : String :=
  f.type ++ " " ++ f.name ++ dimsText "" f.dims ++
    ((f.binding.map (" : " ++ ·)).getD "") ++ ";"

def Param.render (p : Param) : String :=
  wordsText p.qualifiers ++ p.type ++ " " ++ p.name ++ dimsText "" p.dims

/-- The text of a declaration, with the line feed that ends it. -/
def Decl.render (step : String) : Decl → String
  | .fixed text => text
  | .global qualifiers type declarator register =>
    wordsText qualifiers ++ type ++ " " ++ declarator.name ++ dimsText "" declarator.dims ++
      registerText register ++ ((declarator.initial.map fun e => " = " ++ e.render "").getD "") ++
      ";\n"
  | .record name fields =>
    "struct " ++ name ++ opened ++ indented fieldIndent (fields.map Field.render) ++ closed ++ ";\n"
  | .constantBuffer name register fields =>
    "cbuffer " ++ name ++ registerText register ++ opened ++
      indented fieldIndent (fields.map Field.render) ++ closed ++ ";\n"
  | .byteBuffer readonly name register =>
    (if readonly then "ByteAddressBuffer " else "RWByteAddressBuffer ") ++ name ++ register.text ++
      ";\n"
  | .accessor reader type resource stride leaves =>
    let read (leaf : Leaf) : String :=
      leaf.path ++ " = " ++
        loadText resource leaf.type ("index * " ++ decimal stride ++ " + " ++ decimal leaf.offset)
          ++ ";"
    type ++ " " ++ reader ++ "(int index)" ++ opened ++
      indented fieldIndent ((type ++ " ret;") :: leaves.map read ++ ["return ret;"]) ++ closed ++
      "\n"
  | .function threads returnType name params body =>
    ((threads.map fun (x, y, z) =>
        "[numthreads(" ++ commaSeparated [decimal x, decimal y, decimal z] ++ ")]\n").getD "") ++
      returnType ++ " " ++ name ++ "(" ++ commaSeparated (params.map Param.render) ++ ")" ++
      match body with
      | none => ";\n"
      | some body => opened ++ indented step (Stmt.renderAll step step body) ++ closed ++ "\n"

/-- The text of a program whose braces each indent by `width` blanks. -/
def Program.render (width : Nat) (p : Program) : String :=
  String.join (p.map (Decl.render ("".pushn ' ' width)))

end ShaderBridge.Hlsl
