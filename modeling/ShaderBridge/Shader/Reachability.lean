import ShaderBridge.Shader.Basic
import Std.Data.HashSet

/-!
What a shader needs of what it declares. An item of a shader mentions others; what the interface of
the stage and `main` lead to in any number of steps is needed, and `prune?` drops the rest, unless
something that is needed is not there. `prune` passes over such items.
-/

namespace ShaderBridge

inductive Item where
  | expr (id : ExprId)
  | stmt (id : StmtId)
  | var (id : VarId)
  | func (id : FuncId)
  | struct (id : StructId)
deriving DecidableEq, Repr

namespace Item

/-- The kind and the position of an item, as one number. -/
def code : Item → Nat
  | expr id => 5 * id.index
  | stmt id => 5 * id.index + 1
  | var id => 5 * id.index + 2
  | func id => 5 * id.index + 3
  | struct id => 5 * id.index + 4

instance : Hashable Item := ⟨fun i => hash i.code⟩

def ofType? : TypeRef → Option Item
  | .builtin _ => none
  | .declared id => some (struct id)

end Item

def layoutItems (layout : List LayoutEntry) : List Item :=
  layout.filterMap fun entry => entry.value.map .expr

namespace Shader

def items (s : Shader) : List Item :=
  (List.range s.exprs.size).map (fun i => Item.expr ⟨i⟩) ++
  (List.range s.stmts.size).map (fun i => Item.stmt ⟨i⟩) ++
  (List.range s.vars.size).map (fun i => Item.var ⟨i⟩) ++
  (List.range s.funcs.size).map (fun i => Item.func ⟨i⟩) ++
  (List.range s.structs.size).map (fun i => Item.struct ⟨i⟩)

def has (s : Shader) : Item → Bool
  | .expr id => id.index < s.exprs.size
  | .stmt id => id.index < s.stmts.size
  | .var id => id.index < s.vars.size
  | .func id => id.index < s.funcs.size
  | .struct id => id.index < s.structs.size

theorem has_eq_true_iff {s : Shader} {x : Item} : s.has x = true ↔ x ∈ s.items := by
  cases x with
  | expr id => cases id; simp [has, items]
  | stmt id => cases id; simp [has, items]
  | var id => cases id; simp [has, items]
  | func id => cases id; simp [has, items]
  | struct id => cases id; simp [has, items]

/-- The items that an expression mentions. A call that reaches no overload may reach any. -/
def mentionedByExpr (s : Shader) (id : ExprId) : List Item :=
  match s.expr id with
  | .constant _ => []
  | .var v => [.var v]
  | .member operand _ _ | .unary _ operand => [.expr operand]
  | .subscript operand index => [.expr operand, .expr index]
  | .call _ args (some f) => .func f :: args.map .expr
  | .call name args none => (s.overloads name).map .func ++ args.map .expr
  | .construct type args => (Item.ofType? type).toList ++ args.map .expr
  | .binary _ left right | .assign _ left right | .sequence left right =>
    [.expr left, .expr right]
  | .choice condition onTrue onFalse => [.expr condition, .expr onTrue, .expr onFalse]
  | .aggregate items => items.map .expr

def mentionedByStmt (s : Shader) (id : StmtId) : List Item :=
  match s.stmt id with
  | .block body => body.map .stmt
  | .declaration vars => vars.map .var
  | .expression e => [.expr e]
  | .branch _ condition onTrue onFalse =>
    .expr condition :: .stmt onTrue :: onFalse.toList.map .stmt
  | .switch _ subject body => .expr subject :: body.map .stmt
  | .label value | .returnValue value => value.toList.map .expr
  | .whileLoop _ condition body => [.stmt condition, .stmt body]
  | .doLoop _ body condition => [.stmt body, .expr condition]
  | .forLoop _ start condition step body =>
    start.toList.map .stmt ++ condition.toList.map .expr ++ step.toList.map .expr ++ [.stmt body]
  | .empty | .continueLoop | .breakLoop | .discard | .rayJump _ => []

/-- A variable mentions its type, its sizes, its first value and the values of its layout. -/
def mentionedByVar (s : Shader) (id : VarId) : List Item :=
  let v := s.var id
  (Item.ofType? v.type).toList ++ v.dims.filterMap (fun size => size.map .expr) ++
    v.initial?.toList.map .expr ++ layoutItems ((v.global?.map GlobalInfo.layout).getD [])

/-- The functions of a shader that were announced by a prototype. -/
def announced (s : Shader) : List FuncId :=
  s.functions.toList.filter fun f => (s.func f).prototype.isSome

/-- A function mentions its signature and its body, its prototype, and the definitions that it
announces, which are among those given. -/
def mentionedByFunc (s : Shader) (announced : List FuncId) (id : FuncId) : List Item :=
  let f := s.func id
  (Item.ofType? f.returnType).toList ++ f.params.map .var ++ f.prototype.toList.map .func ++
    (announced.filter fun d => (s.func d).prototype == some id).map .func ++
    (f.body.getD []).map .stmt

def mentionedByStruct (s : Shader) (id : StructId) : List Item :=
  let d := s.struct id
  d.fields.map .var ++ layoutItems ((d.block.map BlockInfo.layout).getD [])

def mentions (s : Shader) (announced : List FuncId) : Item → List Item
  | .expr id => s.mentionedByExpr id
  | .stmt id => s.mentionedByStmt id
  | .var id => s.mentionedByVar id
  | .func id => s.mentionedByFunc announced id
  | .struct id => s.mentionedByStruct id

def unseen (s : Shader) (seen : Std.HashSet Item) : Nat :=
  (s.items.filter fun x => !seen.contains x).length

theorem unseen_insert_lt {s : Shader} {seen : Std.HashSet Item} {x : Item} (hx : s.has x = true)
    (hs : seen.contains x = false) : s.unseen (seen.insert x) < s.unseen seen := by
  have key (xs : List Item) (hm : x ∈ xs) :
      (xs.filter fun y => !(seen.insert x).contains y).length <
        (xs.filter fun y => !seen.contains y).length := by
    have le (xs : List Item) :
        (xs.filter fun y => !(seen.insert x).contains y).length ≤
          (xs.filter fun y => !seen.contains y).length := by
      simp only [← List.countP_eq_length_filter]
      refine List.countP_mono_left ?_
      intro y _ hy
      simp [Std.HashSet.contains_insert] at hy
      simpa using hy.2
    induction xs with
    | nil => simp at hm
    | cons y ys ih =>
      by_cases hy : y = x
      · subst hy
        have := le ys
        simp only [List.filter_cons, Std.HashSet.contains_insert, hs] at this ⊢
        simp at this ⊢
        omega
      · have := ih (by simpa [Ne.symm hy] using hm)
        simp only [List.filter_cons, Std.HashSet.contains_insert] at this ⊢
        have hxy : (x == y) = false := by simpa using Ne.symm hy
        simp only [hxy, Bool.false_or]
        split <;> simp_all
  exact key s.items (has_eq_true_iff.mp hx)

/-- The items that the given ones lead to, added to those seen before. -/
def reach (s : Shader) (announced : List FuncId) (seen : Std.HashSet Item) (work : List Item) :
    Std.HashSet Item :=
  match work with
  | [] => seen
  | x :: rest =>
    if _h : s.has x && !seen.contains x then
      reach s announced (seen.insert x) (s.mentions announced x ++ rest)
    else reach s announced seen rest
termination_by (s.unseen seen, work.length)
decreasing_by
  · simp only [Bool.and_eq_true, Bool.not_eq_eq_eq_not, Bool.not_true] at _h
    exact Prod.Lex.left _ _ (unseen_insert_lt _h.1 _h.2)
  · exact Prod.Lex.right _ (by simp)

/-- Whether a global variable belongs to the interface of its stage. -/
def isInterface (s : Shader) (id : VarId) : Bool :=
  match (s.var id).storage? with
  | some .input | some .output | some .uniform => true
  | _ => false

/-- What is needed from outside: the interface of the stage, and `main` or else every function. -/
def roots (s : Shader) : List Item :=
  s.blocks.toList.map Item.struct ++ (s.globals.toList.filter s.isInterface).map Item.var ++
    match s.main? with
    | some main => [.func main]
    | none => s.functions.toList.map .func

def needed (s : Shader) : Std.HashSet Item :=
  s.reach s.announced ∅ s.roots

/-- Drops the globals, structures and functions that are not among the given items. Functions of the
language stay, and all functions stay where there is no `main`. -/
def sweep (s : Shader) (needed : Std.HashSet Item) : Shader :=
  let keep (id : FuncId) : Bool := (s.func id).builtin || needed.contains (.func id)
  { s with
    globals := s.globals.filter fun id => needed.contains (.var id)
    structures := s.structures.filter fun id => needed.contains (.struct id)
    structureNames := s.structureNames.filter fun entry => needed.contains (.struct entry.2)
    functions := if s.main?.isSome then s.functions.filter keep else s.functions
    functionNames := if s.main?.isSome then s.functionNames.retain keep else s.functionNames }

/-- The shader without what is not needed. An item that is not there is passed over. -/
def prune (s : Shader) : Shader :=
  s.sweep s.needed

/-- What has been marked, and the functions among it that have not been looked into. -/
structure Marks where
  seen : Std.HashSet Item := ∅
  pending : List FuncId := []

/-- Marks an item and what it leads to, followed to the given depth. Variables and structures are
looked into when they are marked first, and functions are put off. Expressions and statements are
looked into wherever they are met, so that there is no result where one is not there, nor where one
is a part of itself. -/
def markWithin (s : Shader) (announced : List FuncId) : Nat → Item → Marks → Option Marks
  | 0, _, _ => none
  | depth + 1, x, m =>
    let lookInto (m : Marks) : Option Marks :=
      if s.has x then
        (s.mentions announced x).foldlM (fun m y => s.markWithin announced depth y m) m
      else none
    match x with
    | .func f => some (if m.seen.contains x then m else ⟨m.seen.insert x, f :: m.pending⟩)
    | .var _ | .struct _ =>
      if m.seen.contains x then some m else lookInto ⟨m.seen.insert x, m.pending⟩
    | .expr _ | .stmt _ => lookInto m

/-- How long a walk may pass through expressions and statements only. -/
def walkLength (s : Shader) : Nat :=
  s.items.length + 2

/-- Marks items, each as deep as there are walks between variables and structures that have not been
marked before. -/
def markAll (s : Shader) (announced : List FuncId) (xs : List Item) (m : Marks) : Option Marks :=
  xs.foldlM (fun m x => s.markWithin announced ((s.items.length + 1) * s.walkLength) x m) m

/-- Looks into the functions that have been put off, and into those that are marked on the way,
which are not more than the given number. -/
def markPendingWithin (s : Shader) (announced : List FuncId) :
    Nat → Marks → Option (Std.HashSet Item)
  | 0, _ => none
  | n + 1, m =>
    match m.pending with
    | [] => some m.seen
    | f :: rest => do
      if s.has (.func f) then
        s.markPendingWithin announced n
          (← s.markAll announced (s.mentions announced (.func f)) ⟨m.seen, rest⟩)
      else none

def marked? (s : Shader) : Option (Std.HashSet Item) := do
  s.markPendingWithin s.announced (s.items.length + 1) (← s.markAll s.announced s.roots {})

/-- Drops what is not needed, if all that is needed can be looked into. -/
def prune? (s : Shader) : Option Shader :=
  s.marked?.map s.sweep

end Shader

end ShaderBridge
