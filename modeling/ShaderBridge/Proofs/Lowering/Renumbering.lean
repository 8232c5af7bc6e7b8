import ShaderBridge.Proofs.Lowering.Run

namespace ShaderBridge

namespace Hlsl

variable {ρ : Nat → Nat}

/-- A leaf that is reached from a value of another name. -/
def Leaf.reroot (old new : String) (leaf : Leaf) : Leaf :=
  { leaf with path := new ++ String.ofList (leaf.path.toList.drop old.toList.length) }

mutual

/-- An expression with its temporaries under other numbers. -/
def Expr.renumber (ρ : Nat → Nat) : Expr → Expr
  | .literal c => .literal c
  | .bytes n => .bytes n
  | .name n => .name n
  | .temp k => .temp (ρ k)
  | .member operand field => .member (operand.renumber ρ) field
  | .index operand i => .index (operand.renumber ρ) (i.renumber ρ)
  | .call function args => .call function (renumberAll ρ args)
  | .cast type args => .cast type (renumberAll ρ args)
  | .list items => .list (renumberAll ρ items)
  | .unary op operand => .unary op (operand.renumber ρ)
  | .binary op left right => .binary op (left.renumber ρ) (right.renumber ρ)
  | .assign op left right => .assign op (left.renumber ρ) (right.renumber ρ)
  | .sequence left right => .sequence (left.renumber ρ) (right.renumber ρ)
  | .choice condition onTrue onFalse =>
    .choice (condition.renumber ρ) (onTrue.renumber ρ) (onFalse.renumber ρ)
  | .aggregate items => .aggregate (renumberAll ρ items)
  | .group inner => .group (inner.renumber ρ)
  | .load field i => .load field (i.renumber ρ)
  | .store k type value address resource leaves =>
    .store (ρ k) type (value.renumber ρ) (address.renumber ρ) resource
      (leaves.map (Leaf.reroot (tempName k) (tempName (ρ k))))

def Expr.renumberAll (ρ : Nat → Nat) : List Expr → List Expr
  | [] => []
  | e :: es => e.renumber ρ :: Expr.renumberAll ρ es

end

def Declarator.renumber (ρ : Nat → Nat) (d : Declarator) : Declarator :=
  { d with
    dims := d.dims.map (·.map (Expr.renumber ρ))
    initial := d.initial.map (Expr.renumber ρ) }

def Header.renumber (ρ : Nat → Nat) : Header → Header
  | .nothing => .nothing
  | .expression e => .expression (e.renumber ρ)
  | .declaration type vars => .declaration type (vars.map (Declarator.renumber ρ))

mutual

def Stmt.renumber (ρ : Nat → Nat) : Stmt → Stmt
  | .lines body => .lines (renumberAll ρ body)
  | .block body => .block (renumberAll ρ body)
  | .empty => .empty
  | .declaration constant type declarator =>
    .declaration constant type (declarator.renumber ρ)
  | .expression e => .expression (e.renumber ρ)
  | .atomic k type function args =>
    .atomic (ρ k) type function (args.map (Expr.renumber ρ))
  | .breakUnless condition => .breakUnless (condition.renumber ρ)
  | .branch hint condition onTrue none =>
    .branch hint (condition.renumber ρ) (onTrue.renumber ρ) none
  | .branch hint condition onTrue (some onFalse) =>
    .branch hint (condition.renumber ρ) (onTrue.renumber ρ) (some (onFalse.renumber ρ))
  | .switch hint subject body => .switch hint (subject.renumber ρ) (renumberAll ρ body)
  | .label value => .label (value.map (Expr.renumber ρ))
  | .whileLoop hint condition body =>
    .whileLoop hint (condition.renumber ρ) (body.renumber ρ)
  | .doLoop hint body condition => .doLoop hint (body.renumber ρ) (condition.renumber ρ)
  | .forLoop hint start condition step body =>
    .forLoop hint (start.renumber ρ) (condition.map (Expr.renumber ρ))
      (step.map (Expr.renumber ρ)) (body.renumber ρ)
  | .continueLoop => .continueLoop
  | .breakLoop => .breakLoop
  | .returnValue value => .returnValue (value.map (Expr.renumber ρ))
  | .discard => .discard

def Stmt.renumberAll (ρ : Nat → Nat) : List Stmt → List Stmt
  | [] => []
  | t :: ts => t.renumber ρ :: Stmt.renumberAll ρ ts

end

def Field.renumber (ρ : Nat → Nat) (f : Field) : Field :=
  { f with dims := f.dims.map (·.map (Expr.renumber ρ)) }

def Param.renumber (ρ : Nat → Nat) (p : Param) : Param :=
  { p with dims := p.dims.map (·.map (Expr.renumber ρ)) }

def Decl.renumber (ρ : Nat → Nat) : Decl → Decl
  | .global qualifiers type declarator register =>
    .global qualifiers type (declarator.renumber ρ) register
  | .record name fields => .record name (fields.map (Field.renumber ρ))
  | .constantBuffer name register fields =>
    .constantBuffer name register (fields.map (Field.renumber ρ))
  | .function threads returnType name params body =>
    .function threads returnType name (params.map (Param.renumber ρ))
      (body.map (List.map (Stmt.renumber ρ)))
  | d => d

/-- A program with its temporaries under other numbers. -/
def Program.renumber (ρ : Nat → Nat) (p : Program) : Program :=
  p.map (Decl.renumber ρ)

end Hlsl

end ShaderBridge
