import Mathlib.Data.Fintype.Card
import Mathlib.Logic.Relation
import ShaderBridge.Shader.Basic
import ShaderBridge.Shader.Reachability

/-!
What the entries of the tables of a shader refer to, and when a shader is well formed: whatever is
referred to is there, and nothing leads back to itself.

Tables whose entries refer to one another are followed to a depth that is a number of entries. Such
a depth is enough for whatever is finite: entries at different levels are different entries.
-/

namespace ShaderBridge

/-- Where every level below `height` has an entry, and no entry has two levels, there are at least
as many entries as levels. -/
theorem height_le_of_levels {height size : Nat} (level : Nat → Nat → Prop)
    (hunique : ∀ i k l, level i k → level i l → k = l)
    (hlevel : ∀ k < height, ∃ i < size, level i k) : height ≤ size := by
  choose entry hsize hentry using hlevel
  let place : Fin height → Fin size := fun k => ⟨entry k k.isLt, hsize k k.isLt⟩
  have hinjective : Function.Injective place := by
    intro k l h
    have hkl : entry k k.isLt = entry l l.isLt := congrArg Fin.val h
    apply Fin.ext
    apply hunique _ _ _ (hentry k k.isLt)
    rw [hkl]
    exact hentry l l.isLt
  simpa using Fintype.card_le_of_injective place hinjective

theorem exists_height {α : Type} {r : α → α → Prop} {size : Nat} (index : α → Nat)
    (hinjective : Function.Injective index) (hsize : ∀ a b, r a b → index b < size)
    (hloops : ∀ a, ¬ Relation.TransGen r a a) :
    ∃ height : α → Nat, (∀ a b, r a b → height b < height a) ∧ (∀ a, height a ≤ size) ∧
      ∀ a, (∀ b, ¬ r a b) → height a = 0 := by
  classical
  let reached : α → Finset Nat := fun a =>
    (Finset.range size).filter fun i => ∃ b, index b = i ∧ Relation.TransGen r a b
  refine ⟨fun a => (reached a).card, fun a b hab => Finset.card_lt_card ?_, fun a => ?_,
    fun a ha => ?_⟩
  · refine (Finset.ssubset_iff_of_subset fun i hi => ?_).2 ⟨index b, ?_, ?_⟩
    · obtain ⟨hlt, c, hc, hbc⟩ := Finset.mem_filter.1 hi
      exact Finset.mem_filter.2 ⟨hlt, c, hc, .head hab hbc⟩
    · exact Finset.mem_filter.2 ⟨Finset.mem_range.2 (hsize a b hab), b, rfl, .single hab⟩
    · intro hmem
      obtain ⟨_, c, hc, hbc⟩ := Finset.mem_filter.1 hmem
      exact hloops b (hinjective hc ▸ hbc)
  · exact (Finset.card_filter_le _ _).trans (Finset.card_range size).le
  · refine Finset.card_eq_zero.2 (Finset.filter_eq_empty_iff.2 fun i _ => ?_)
    rintro ⟨b, _, hb⟩
    obtain ⟨c, hc, _⟩ := Relation.TransGen.head'_iff.1 hb
    exact ha c hc

theorem lt_of_transGen {α : Type} {r : α → α → Prop} {f : α → Nat}
    (hlt : ∀ a b, r a b → f b < f a) {a b : α} (hab : Relation.TransGen r a b) : f b < f a := by
  induction hab with
  | single hab => exact hlt _ _ hab
  | tail _ hbc ih => exact (hlt _ _ hbc).trans ih

/-- What a function gives does not depend on its depth where the depth exceeds the height, if it
depends only on what it gives for lower entries. -/
theorem eq_of_height {α β : Type} {r : α → α → Prop} {height : α → Nat}
    (hheight : ∀ a b, r a b → height b < height a) {f : Nat → α → β}
    (hstep : ∀ n m a, (∀ b, r a b → f n b = f m b) → f (n + 1) a = f (m + 1) a) {n m : Nat} {a : α}
    (hn : height a < n) (hm : height a < m) : f n a = f m a := by
  induction n generalizing m a with
  | zero => omega
  | succ n ih =>
      cases m with
      | zero => omega
      | succ m =>
          refine hstep n m a fun b hb => ih ?_ ?_
          · exact Nat.lt_of_lt_of_le (hheight a b hb) (Nat.le_of_lt_succ hn)
          · exact Nat.lt_of_lt_of_le (hheight a b hb) (Nat.le_of_lt_succ hm)

end ShaderBridge

namespace ShaderBridge

/-- The expressions that an expression is made of, from left to right. -/
def Expr.operands : Expr → List ExprId
  | .constant _ | .var _ => []
  | .member e _ _ | .unary _ e => [e]
  | .subscript a b | .binary _ a b | .assign _ a b | .sequence a b => [a, b]
  | .choice c a b => [c, a, b]
  | .call _ args _ | .construct _ args | .aggregate args => args

def Expr.isCall : Expr → Bool
  | .call .. => true
  | _ => false

namespace Shader

variable (s : Shader)

/-- The nodes of an expression, from the outside to the inside and from left to right, followed to
the given depth. -/
def nodesWithin : Nat → ExprId → List ExprId
  | 0, _ => []
  | depth + 1, e => e :: (s.expr e).operands.flatMap (nodesWithin depth)

/-- The nodes of an expression. -/
def nodes (e : ExprId) : List ExprId :=
  s.nodesWithin (s.exprs.size + 1) e

/-- An expression holds another one, a number of levels below. -/
inductive Holds : Nat → ExprId → ExprId → Prop where
  | here (e : ExprId) : Holds 0 e e
  | operand {level : Nat} {e o w : ExprId} :
      o ∈ (s.expr e).operands → Holds level o w → Holds (level + 1) e w

variable {s} {level level' depth : Nat} {e o w x : ExprId}

theorem index_lt_of_expr {y : Expr} (h : s.expr e = y) (hy : y ≠ default) :
    e.index < s.exprs.size := by
  by_contra hlt
  apply hy
  unfold expr at h
  rw [Array.getD_eq_getD_getElem?, Array.getElem?_eq_none (Nat.le_of_not_lt hlt)] at h
  exact h.symm

theorem Holds.trans (h : s.Holds level e x) (h' : s.Holds level' x w) :
    s.Holds (level + level') e w := by
  induction h with
  | here e => simpa using h'
  | operand ho h ih =>
      rw [Nat.succ_add]
      exact .operand ho (ih h')

theorem Holds.exists_level (h : s.Holds level e w) {k : Nat} (hk : k ≤ level) :
    ∃ x, s.Holds k e x ∧ s.Holds (level - k) x w := by
  induction h generalizing k with
  | here e => exact ⟨e, by simpa [Nat.le_zero.1 hk] using .here e, by simpa using .here e⟩
  | @operand level e o w ho h ih =>
      cases k with
      | zero => exact ⟨e, .here e, .operand ho h⟩
      | succ k =>
          obtain ⟨x, hx, hw⟩ := ih (Nat.le_of_succ_le_succ hk)
          exact ⟨x, .operand ho hx, by simpa using hw⟩

theorem Holds.index_lt (h : s.Holds level e w) (hw : w.index < s.exprs.size) :
    e.index < s.exprs.size := by
  cases h with
  | here => exact hw
  | operand ho =>
      apply index_lt_of_expr rfl
      intro hdefault
      rw [hdefault] at ho
      cases ho

theorem Holds.exists_lt (h : s.Holds level e w) (hw : w.index < s.exprs.size) :
    ∃ k < s.exprs.size, s.Holds k e w := by
  classical
  have hsome : ∃ n, s.Holds n e w := ⟨level, h⟩
  obtain ⟨n, hleast, hmin⟩ : ∃ n, s.Holds n e w ∧ ∀ m, s.Holds m e w → n ≤ m :=
    ⟨Nat.find hsome, Nat.find_spec hsome, fun m hm => Nat.find_min' hsome hm⟩
  refine ⟨n, ?_, hleast⟩
  -- The levels of the shortest way are those at which its nodes lie at the earliest.
  apply height_le_of_levels fun i k => s.Holds k e ⟨i⟩ ∧ ∀ m, s.Holds m e ⟨i⟩ → k ≤ m
  · rintro i k l ⟨hk, hkmin⟩ ⟨hl, hlmin⟩
    exact Nat.le_antisymm (hkmin l hl) (hlmin k hk)
  · intro k hk
    obtain ⟨x, hx, hrest⟩ := hleast.exists_level (Nat.le_of_lt_succ hk)
    refine ⟨x.index, hrest.index_lt hw, hx, ?_⟩
    intro m hm
    have hshorter := hmin _ (hm.trans hrest)
    omega

theorem mem_nodesWithin_iff :
    w ∈ s.nodesWithin depth e ↔ ∃ level < depth, s.Holds level e w := by
  induction depth generalizing e with
  | zero => simp [nodesWithin]
  | succ depth ih =>
      rw [nodesWithin, List.mem_cons, List.mem_flatMap]
      constructor
      · rintro (rfl | ⟨o, ho, hw⟩)
        · exact ⟨0, Nat.succ_pos depth, .here w⟩
        · obtain ⟨level, hlevel, hholds⟩ := ih.1 hw
          exact ⟨level + 1, Nat.succ_lt_succ hlevel, .operand ho hholds⟩
      · rintro ⟨level, hlevel, hholds⟩
        cases hholds with
        | here => exact .inl rfl
        | operand ho hholds => exact .inr ⟨_, ho, ih.2 ⟨_, Nat.lt_of_succ_lt_succ hlevel, hholds⟩⟩

end Shader

end ShaderBridge

namespace ShaderBridge

namespace Expr

/-- The arguments of a constructor, or the items of an array. -/
def items : Expr → List ExprId
  | construct _ args | aggregate args => args
  | _ => []

def links : Expr → List Item
  | constant _ | aggregate _ => []
  | var v => [.var v]
  | member operand _ field => .expr operand :: field.toList.map .var
  | subscript a b | binary _ a b | assign _ a b | sequence a b => [.expr a, .expr b]
  | call _ args target => target.toList.map .func ++ args.map .expr
  | construct type _ => (Item.ofType? type).toList
  | unary _ operand => [.expr operand]
  | choice c a b => [.expr c, .expr a, .expr b]

def references (e : Expr) : List Item :=
  e.links ++ e.items.map .expr

theorem mem_operands_iff {e : Expr} {o : ExprId} :
    o ∈ e.operands ↔ .expr o ∈ e.links ∨ o ∈ e.items := by
  cases e <;> simp [operands, links, items]
  case construct type args => cases type <;> simp [Item.ofType?]

end Expr

def Stmt.references : Stmt → List Item
  | .block body => body.map .stmt
  | .declaration vars => vars.map .var
  | .expression e => [.expr e]
  | .branch _ condition onTrue onFalse =>
    .expr condition :: .stmt onTrue :: onFalse.toList.map .stmt
  | .switch _ subject body => .expr subject :: body.map .stmt
  | .label value | .returnValue value => value.toList.map .expr
  | .whileLoop _ condition body => [.stmt condition, .stmt body]
  | .doLoop _ body condition => [.stmt body, .expr condition]
  | .forLoop _ start condition step body =>
    start.toList.map .stmt ++ condition.toList.map .expr ++ step.toList.map .expr ++ [.stmt body]
  | .empty | .continueLoop | .breakLoop | .discard | .rayJump _ => []

def Variable.references (v : Variable) : List Item :=
  (Item.ofType? v.type).toList ++ v.dims.filterMap (fun size => size.map .expr) ++
    v.initial?.toList.map .expr ++ layoutItems ((v.global?.map GlobalInfo.layout).getD [])

def Function.references (f : Function) : List Item :=
  (Item.ofType? f.returnType).toList ++ f.params.map .var ++ f.prototype.toList.map .func ++
    (f.body.getD []).map .stmt

def StructDecl.references (d : StructDecl) : List Item :=
  d.fields.map .var ++ layoutItems ((d.block.map BlockInfo.layout).getD [])

namespace Shader

def references (s : Shader) : Item → List Item
  | .expr id => (s.expr id).references
  | .stmt id => (s.stmt id).references
  | .var id => (s.var id).references
  | .func id => (s.func id).references
  | .struct id => (s.struct id).references

/-- The entries that stand in the lists of a shader. -/
def listed (s : Shader) : List Item :=
  s.globals.toList.map Item.var ++ s.structures.toList.map Item.struct ++
    s.structureNames.map (fun entry => Item.struct entry.2) ++ s.blocks.toList.map Item.struct ++
    s.functions.toList.map Item.func

/-- An expression leads to its operands, and a variable in it to the first value of the variable. -/
inductive LeadsTo (s : Shader) : ExprId → ExprId → Prop where
  | operand {e o : ExprId} : o ∈ (s.expr e).operands → LeadsTo s e o
  | initial {e i : ExprId} {v : VarId} :
      s.expr e = .var v → (s.var v).initial? = some i → LeadsTo s e i

/-- A structure has a field of another one. -/
def IsMadeOf (s : Shader) (t u : StructId) : Prop :=
  ∃ f ∈ (s.struct t).fields, (s.var f).type = .declared u

structure WellFormed (s : Shader) : Prop where
  listed : ∀ x ∈ s.listed, s.has x
  references : ∀ x, s.has x → ∀ y ∈ s.references x, s.has y
  exprs : ∀ e, ¬ Relation.TransGen s.LeadsTo e e
  stmts : ∀ t, ¬ Relation.TransGen (fun t u => .stmt u ∈ (s.stmt t).references) t t
  structs : ∀ t, ¬ Relation.TransGen s.IsMadeOf t t

end Shader

end ShaderBridge
