import ShaderBridge.Proofs.Lowering.Reading
import ShaderBridge.Proofs.Shader.Following

/-!
What a function body has to do, and what is written for it. In the source an atomic call is part of
an expression, and its duty is to be carried out before what holds the expression; in the target
language it is a statement, and the expression reads a temporary. Both sides are listed in the order
in which they are written, with the bodies of branches and loops between marks.
-/

namespace ShaderBridge

open Hlsl

namespace Hlsl

/-- What happens in the functions of a program. -/
inductive Event where
  /-- A temporary is declared, and an atomic function leaves its result there. -/
  | carry (temp : Nat) (type function : String) (args : List Expr)
  | evaluate (e : Expr)
  | enter
  | leave

/-- Whether a statement is written as several, calls among them, with no braces around. -/
def Stmt.isLoose : Stmt → Bool
  | .atomic .. => true
  | .lines body => anyLoose body
  | _ => false
where
  anyLoose : List Stmt → Bool
    | [] => false
    | t :: rest => t.isLoose || anyLoose rest

/-- The events of a body. Where it is loose, what is written does not belong to the branch or the
loop. -/
def Event.inBody (loose : Bool) (events : List Event) : List Event :=
  if loose then .enter :: .leave :: events else .enter :: (events ++ [.leave])

mutual

def Stmt.events : Stmt → List Event
  | .lines body | .block body => eventsAll body
  | .empty | .continueLoop | .breakLoop | .discard => []
  | .declaration _ _ d => d.exprs.map .evaluate
  | .expression e | .breakUnless e => [.evaluate e]
  | .atomic temp type function args => [.carry temp type function args]
  | .branch _ c onTrue none => .evaluate c :: Event.inBody onTrue.isLoose onTrue.events
  | .branch _ c onTrue (some onFalse) =>
    .evaluate c :: (Event.inBody onTrue.isLoose onTrue.events ++
      Event.inBody onFalse.isLoose onFalse.events)
  | .switch _ c body => .evaluate c :: Event.inBody false (eventsAll body)
  | .label value | .returnValue value => value.toList.map .evaluate
  | .whileLoop _ header body =>
    header.exprs.map .evaluate ++ Event.inBody body.isLoose body.events
  | .doLoop _ body c => Event.inBody body.isLoose body.events ++ [.evaluate c]
  | .forLoop _ start c step body =>
    (start.exprs ++ (c.toList ++ step.toList)).map .evaluate ++
      Event.inBody body.isLoose body.events

def Stmt.eventsAll : List Stmt → List Event
  | [] => []
  | t :: rest => t.events ++ Stmt.eventsAll rest

end

def Program.events (p : Program) : List Event :=
  p.flatMap fun
    | .function _ _ _ _ (some body) => Stmt.eventsAll body
    | _ => []

mutual

/-- The temporaries that are declared where an expression stores values. -/
def Expr.temps : Expr → List Nat
  | .literal _ | .bytes _ | .name _ | .temp _ => []
  | .member e _ | .group e | .load _ e | .unary _ e => e.temps
  | .index a b | .binary _ a b | .sequence a b | .assign _ a b => a.temps ++ b.temps
  | .call _ args | .cast _ args | .list args | .aggregate args => tempsAll args
  | .choice c a b => c.temps ++ (a.temps ++ b.temps)
  | .store k _ value address _ _ => k :: (value.temps ++ address.temps)

def Expr.tempsAll : List Expr → List Nat
  | [] => []
  | e :: rest => e.temps ++ Expr.tempsAll rest

end

/-- The temporaries that are declared. -/
def Event.temps : Event → List Nat
  | .carry temp _ _ args => temp :: Expr.tempsAll args
  | .evaluate e => e.temps
  | .enter | .leave => []

end Hlsl

/-- What the functions of a shader have to do. -/
inductive Duty where
  | carry (call : ExprId)
  | evaluate (e : ExprId)
  /-- An expression that stands neither in a statement or declarator nor in the condition of a loop:
  at the start of a loop, in a declaration that is a condition, behind a label or in the length of
  an array. -/
  | aside (e : ExprId)
  /-- An expression whose calls are carried out where they stand. -/
  | inPlace (e : ExprId)
  /-- An expression that does not come from the source. -/
  | given (e : Hlsl.Expr)
  | enter
  | leave

def Duty.call? : Duty → Option ExprId
  | carry call => some call
  | _ => none

namespace Shader

/-- The entry point of a compute shader copies its inputs. -/
def inputDuties : List Duty :=
  (Stmt.sitesAll copyInputs).map fun site => .given site.expr

variable (s : Shader)

def carries (e : ExprId) : List Duty :=
  (s.atomicCalls e).map .carry

/-- The calls of an expression come before it. -/
def ahead (e : ExprId) : List Duty :=
  s.carries e ++ [.evaluate e]

/-- The calls in the initial value of a variable come before its declaration. -/
def declaratorDuties (v : VarId) : List Duty :=
  (s.var v).initial?.toList.flatMap s.carries ++
    (((s.var v).dims.flatMap Option.toList).map .aside ++ (s.var v).initial?.toList.map .evaluate)

/-- The duties of a condition that is tested in front of the body of its loop. -/
def conditionDuties (condition : StmtId) : List Duty :=
  match s.stmt condition with
  | .expression e => s.ahead e
  | _ => (s.headerExprs condition).map .aside

/-- The duties of a statement, followed to the given depth. Where the condition of a loop holds
atomic calls, each round begins with them and the test. -/
def dutiesWithin : Nat → StmtId → List Duty
  | 0, _ => []
  | depth + 1, id =>
    let body (stmts : List StmtId) : List Duty :=
      .enter :: (stmts.flatMap (dutiesWithin depth) ++ [.leave])
    let guarded (e : ExprId) (b : StmtId) : List Duty :=
      .enter :: (s.ahead e ++ ((s.blockBody b).flatMap (dutiesWithin depth) ++ [.leave]))
    match s.stmt id with
    | .block stmts => stmts.flatMap (dutiesWithin depth)
    | .declaration vars => vars.flatMap s.declaratorDuties
    | .expression e | .returnValue (some e) => s.ahead e
    | .branch _ c onTrue onFalse =>
      s.ahead c ++ (body [onTrue] ++ onFalse.toList.flatMap fun b => body [b])
    | .switch _ c stmts => s.ahead c ++ body stmts
    | .label value => value.toList.map .aside
    | .whileLoop _ c b =>
      match s.guard? c with
      | some e => .given (.literal (.bool true)) :: guarded e b
      | none => (s.conditionDuties c) ++ body [b]
    | .doLoop _ b c => body [b] ++ [.inPlace c]
    | .forLoop _ start c step b =>
      let start := (start.toList.flatMap s.headerExprs).map Duty.aside
      let step := step.toList.map Duty.inPlace
      match c.filter s.hasAtomics with
      | some e => start ++ (step ++ guarded e b)
      | none => start ++ (c.toList.flatMap s.ahead ++ (step ++ body [b]))
    | .rayJump j => [.given (.call j.hlslName [])]
    | .empty | .continueLoop | .breakLoop | .discard | .returnValue none => []

/-- The duties of a function that belongs to the program. -/
def functionDuties (id : FuncId) : List Duty :=
  if (s.func id).builtin then []
  else
    match (s.func id).body with
    | none => []
    | some body =>
      (if s.isComputeEntry (s.func id) then inputDuties else []) ++
        body.flatMap (s.dutiesWithin (s.stmts.size + 1))

/-- The duties of all functions, before anything is asked of what stands aside. -/
def plainDuties : List Duty :=
  s.functions.toList.flatMap s.functionDuties

/-- What stands aside asks for its calls to be carried out before it as well. -/
def withCalls : Duty → List Duty
  | .aside e => s.carries e ++ [.aside e]
  | d => [d]

def duties : List Duty :=
  s.plainDuties.flatMap s.withCalls

/-- What an expression is written as where the results of its calls are in their temporaries. The
test of a loop may be written with parentheses around it. -/
def ShownBy (temp : ExprId → Nat) (e : ExprId) (x : Hlsl.Expr) : Prop :=
  ∃ state : LoweringState, (∀ c ∈ s.atomicCalls e, state.hoisted.lookup c = some (temp c)) ∧
    (x = ((s.lowerExpr s.storageFields e).run state).1 ∨
      x = ((s.lowerExpr s.storageFields e).run state).1.asOperand)

/-- What a call is carried out by where the results of the calls in its arguments are in their
temporaries. -/
def CarriedBy (temp : ExprId → Nat) (call : ExprId) (t : Hlsl.Stmt) : Prop :=
  ∃ name args target, s.expr call = .call name args target ∧ ∃ state : LoweringState,
    (∀ arg ∈ args, ∀ c ∈ s.atomicCalls arg, state.hoisted.lookup c = some (temp c)) ∧
      t = ((s.hoistCall s.storageFields call name args).run state).1

/-- A duty is met by an event. -/
inductive MetBy (temp : ExprId → Nat) : Duty → Event → Prop where
  | carry {call : ExprId} {type function : String} {args : List Hlsl.Expr} :
      s.CarriedBy temp call (.atomic (temp call) type function args) →
      MetBy temp (.carry call) (.carry (temp call) type function args)
  | evaluate {e : ExprId} {x : Hlsl.Expr} :
      s.ShownBy temp e x → MetBy temp (.evaluate e) (.evaluate x)
  | aside {e : ExprId} {x : Hlsl.Expr} :
      s.ShownBy temp e x → MetBy temp (.aside e) (.evaluate x)
  | inPlace (e : ExprId) (x : Hlsl.Expr) : MetBy temp (.inPlace e) (.evaluate x)
  | given (x : Hlsl.Expr) : MetBy temp (.given x) (.evaluate x)
  | enter : MetBy temp .enter .enter
  | leave : MetBy temp .leave .leave

def isAtomicCall (e : ExprId) : Bool :=
  match s.expr e with
  | .call name _ _ => Intrinsic.isAtomic name
  | _ => false

/-- Every atomic call is carried out once, into a temporary of its own, before the statement that
holds it and after the calls in its own arguments; where it stood, the temporary is read. -/
structure HoistsAtomics (options : Options) : Prop where
  met : ∃ temp : ExprId → Nat,
    List.Forall₂ (s.MetBy temp) s.duties (s.toProgram options).events
  fresh : ((s.toProgram options).events.flatMap Event.temps).Nodup
  every : ∀ e, ∀ call ∈ s.nodes e, s.isAtomicCall call → call ∈ s.atomicCalls e
  nested : ∀ e before call after, s.atomicCalls e = before ++ call :: after →
    ∀ o ∈ (s.expr call).operands, ∀ c ∈ s.atomicCalls o, c ∈ before

/-- Whether all atomic calls stand where they can be carried out ahead, and stand there once. -/
structure AtomicsAhead : Prop where
  once : (s.plainDuties.filterMap Duty.call?).Nodup
  aside : ∀ e, .aside e ∈ s.plainDuties → s.atomicCalls e = []

end Shader

end ShaderBridge
