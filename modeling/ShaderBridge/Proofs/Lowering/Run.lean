import ShaderBridge.Hlsl.Lowering.Statement
import Mathlib.Data.List.Forall2

/-!
Runs of the lowering. What an expression becomes depends on the state only by the calls that have
been carried out before it, and the numbers of temporaries do not matter. So a computation is
described by the calls that it finds carried out, those that it leaves, and its result.

One level of an expression is lowered by lowering what stands in it and putting the results together
in one of a few forms. What holds of all that an expression is lowered to is shown form by form.
-/

namespace ShaderBridge

namespace Hlsl

/-- The calls whose results are in temporaries. -/
def LoweringState.done (state : LoweringState) : List ExprId :=
  state.hoisted.map Prod.fst

theorem isSome_lookup_hoisted (state : LoweringState) (id : ExprId) :
    (state.hoisted.lookup id).isSome = state.done.contains id := by
  unfold LoweringState.done
  induction state.hoisted with
  | nil => rfl
  | cons entry rest ih =>
      rcases entry with ⟨call, temp⟩
      rw [List.lookup_cons, List.map_cons, List.contains_cons, ← ih]
      cases id == call <;> rfl

variable {α β γ δ : Type} {done done₁ done₂ done₃ : List ExprId}

/-- Where the calls `done` have been carried out, a computation leaves the calls `done₁` and gives a
result with a property. -/
def Gives (m : LowerM α) (done done₁ : List ExprId) (P : α → Prop) : Prop :=
  ∀ state : LoweringState, state.done = done → P (m.run state).1 ∧ (m.run state).2.done = done₁

theorem gives_pure {P : α → Prop} {a : α} (h : P a) : Gives (pure a) done done P := by
  intro state hstate
  exact ⟨h, hstate⟩

theorem gives_bind {P : α → Prop} {Q : β → Prop} {m : LowerM α} {f : α → LowerM β}
    (hm : Gives m done done₁ P) (hf : ∀ a, P a → Gives (f a) done₁ done₂ Q) :
    Gives (m >>= f) done done₂ Q := by
  intro state hstate
  obtain ⟨hP, hdone⟩ := hm state hstate
  exact hf _ hP _ hdone

theorem gives_return {P : α → Prop} {Q : β → Prop} {m : LowerM α} {f : α → β}
    (hm : Gives m done done₁ P) (h : ∀ a, P a → Q (f a)) :
    Gives (do return f (← m)) done done₁ Q :=
  gives_bind hm fun a ha => gives_pure (h a ha)

theorem gives_map {P : β → Prop} {m : LowerM α} {f : α → β}
    (hm : Gives m done done₁ fun a => P (f a)) : Gives (f <$> m) done done₁ P := by
  intro state hstate
  exact hm state hstate

theorem gives_some {P : α → Prop} {m : LowerM α} (hm : Gives m done done₁ P) :
    Gives (some <$> m) done done₁ fun o => ∃ a, o = some a ∧ P a := by
  intro state hstate
  obtain ⟨hP, hdone⟩ := hm state hstate
  exact ⟨⟨_, rfl, hP⟩, hdone⟩

theorem Gives.imp {P Q : α → Prop} {m : LowerM α} (hm : Gives m done done₁ P)
    (h : ∀ a, P a → Q a) : Gives m done done₁ Q := by
  intro state hstate
  obtain ⟨hP, hdone⟩ := hm state hstate
  exact ⟨h _ hP, hdone⟩

theorem Gives.and {P Q : α → Prop} {m : LowerM α} (hQ : Gives m done done₁ Q)
    (hP : ∀ state : LoweringState, state.done = done → P (m.run state).1) :
    Gives m done done₁ fun a => P a ∧ Q a := by
  intro state hstate
  exact ⟨⟨hP state hstate, (hQ state hstate).1⟩, (hQ state hstate).2⟩

theorem gives_get {P : α → Prop} {f : LoweringState → LowerM α}
    (h : ∀ state : LoweringState, state.done = done → Gives (f state) done done₁ P) :
    Gives (get >>= f) done done₁ P := by
  intro state hstate
  exact h state hstate state hstate

theorem gives_freshTemp : Gives freshTemp done done fun _ => True := by
  intro state hstate
  exact ⟨trivial, hstate⟩

/-! ### Lists -/

theorem exists_of_mem_right {P : α → β → Prop} {l : List α} {l' : List β}
    (h : List.Forall₂ P l l') {b : β} (hb : b ∈ l') : ∃ a ∈ l, P a b := by
  induction h with
  | nil => cases hb
  | cons hab _ ih =>
      rcases List.mem_cons.1 hb with rfl | hb
      · exact ⟨_, List.mem_cons_self, hab⟩
      · obtain ⟨a, ha, hP⟩ := ih hb
        exact ⟨a, List.mem_cons_of_mem _ ha, hP⟩

theorem length_mapM (f : α → LowerM β) (l : List α) (state : LoweringState) :
    ((l.mapM f).run state).1.length = l.length := by
  induction l generalizing state with
  | nil => rfl
  | cons a rest ih =>
      rw [List.mapM_cons]
      exact congrArg Nat.succ (ih _)

theorem gives_mapM {l : List α} {f : α → LowerM β} {P : α → β → Prop}
    (hf : ∀ a ∈ l, Gives (f a) done done (P a)) :
    Gives (l.mapM f) done done (List.Forall₂ P l) := by
  induction l with
  | nil => exact gives_pure .nil
  | cons a rest ih =>
      rw [List.mapM_cons]
      apply gives_bind (hf a List.mem_cons_self)
      intro b hb
      apply gives_bind (ih fun a ha => hf a (List.mem_cons_of_mem _ ha))
      intro bs hbs
      exact gives_pure (.cons hb hbs)

theorem gives_mapM_const {l : List α} {f : α → LowerM β} {view : α → γ} {g : β → γ}
    (hf : ∀ a ∈ l, Gives (f a) done done fun b => g b = view a) :
    Gives (l.mapM f) done done fun bs => bs.map g = l.map view := by
  apply (gives_mapM hf).imp
  intro bs hbs
  induction hbs with
  | nil => rfl
  | cons hb _ ih =>
      rw [List.map_cons, List.map_cons, hb, ih fun a ha => hf a (List.mem_cons_of_mem _ ha)]

theorem gives_mapM_true {l : List α} {f : α → LowerM β}
    (hf : ∀ a ∈ l, Gives (f a) done done fun _ => True) :
    Gives (l.mapM f) done done fun _ => True :=
  (gives_mapM hf).imp fun _ _ => trivial

theorem gives_any {l : List α} {f : α → LowerM β} {view : α → Bool} {g : β → Bool}
    (hf : ∀ a ∈ l, Gives (f a) done done fun b => g b = view a) :
    Gives (l.mapM f) done done fun bs => bs.any g = l.any view := by
  apply (gives_mapM_const hf).imp
  intro bs hbs
  have hany := congrArg (fun flags : List Bool => flags.any id) hbs
  simpa only [List.any_map, Function.id_comp] using hany

theorem gives_option_any {o : Option α} {f : α → LowerM β} {view : α → Bool} {g : β → Bool}
    (hf : ∀ a, Gives (f a) done done fun b => g b = view a) :
    Gives (o.mapM f) done done fun b => b.any g = o.any view := by
  cases o with
  | none => exact gives_pure rfl
  | some a => exact gives_map (hf a)

/-! ### What an expression is lowered to -/

/-- The address that an access stands for, given what its indices are lowered to. -/
def Access.expr (a : Access) (indices : List Expr) : Expr :=
  .sum (List.zipWith (fun term index => .binary .mul index (.bytes term.2)) a.terms indices ++
    [.bytes a.offset])

section

variable {P : Expr → Prop} (hbytes : ∀ n, P (.bytes n))
  (hbinary : ∀ op a b, P a → P b → P (.binary op a b))
include hbytes hbinary

theorem sum_of_terms {es : List Expr} (h : ∀ e ∈ es, P e) : P (Expr.sum es) := by
  have hfold {e : Expr} {es : List Expr} (he : P e) (hes : ∀ e ∈ es, P e) :
      P (es.foldl (.binary .add) e) := by
    induction es generalizing e with
    | nil => exact he
    | cons next es ih =>
        obtain ⟨hnext, hes⟩ := List.forall_mem_cons.1 hes
        exact ih (hbinary .add e next he hnext) hes
  cases es with
  | nil => exact hbytes 0
  | cons e es => exact hfold (h e List.mem_cons_self) fun e he => h e (List.mem_cons_of_mem _ he)

theorem atomicAddress_of_terms {terms : List Expr} (h : ∀ e ∈ terms, P e) (offset : Nat) :
    P (Shader.atomicAddress terms offset) := by
  refine sum_of_terms hbytes hbinary ?_
  split
  · exact h
  · exact List.forall_mem_append.2 ⟨h, by simpa using hbytes offset⟩

theorem Access.expr_of_indices {a : Access} {indices : List Expr} (h : ∀ i ∈ indices, P i) :
    P (a.expr indices) := by
  have hterms (terms : List (ExprId × Nat)) : ∀ x ∈ List.zipWith
      (fun (term : ExprId × Nat) index => Expr.binary .mul index (.bytes term.2)) terms indices,
      P x := by
    induction indices generalizing terms with
    | nil => simp
    | cons index indices ih =>
        obtain ⟨hindex, hindices⟩ := List.forall_mem_cons.1 h
        cases terms with
        | nil => simp
        | cons term terms =>
            exact List.forall_mem_cons.2 ⟨hbinary _ _ _ hindex (hbytes _), ih hindices terms⟩
  exact sum_of_terms hbytes hbinary
    (List.forall_mem_append.2 ⟨hterms a.terms, by simpa using hbytes a.offset⟩)

end

section

variable {f : Expr → List α} (hbytes : ∀ n, f (.bytes n) = [])
  (hbinary : ∀ op a b, f (.binary op a b) = f a ++ f b)
include hbytes hbinary

theorem collect_sum (es : List Expr) : f (Expr.sum es) = es.flatMap f := by
  have hfold (e : Expr) (es : List Expr) :
      f (es.foldl (.binary .add) e) = f e ++ es.flatMap f := by
    induction es generalizing e with
    | nil => simp
    | cons e' es ih => rw [List.foldl_cons, ih, hbinary, List.flatMap_cons, List.append_assoc]
  cases es with
  | nil => exact hbytes 0
  | cons e es => exact hfold e es

theorem collect_atomicAddress (terms : List Expr) (offset : Nat) :
    f (Shader.atomicAddress terms offset) = terms.flatMap f := by
  unfold Shader.atomicAddress
  rw [collect_sum hbytes hbinary]
  split <;> simp [hbytes]

theorem Access.collect_expr {a : Access} {indices : List Expr}
    (h : indices.length = a.terms.length) : f (a.expr indices) = indices.flatMap f := by
  have hterms : (List.zipWith (fun (term : ExprId × Nat) index =>
      Expr.binary .mul index (.bytes term.2)) a.terms indices).flatMap f = indices.flatMap f := by
    generalize a.terms = terms at h
    induction indices generalizing terms with
    | nil => simp
    | cons index indices ih =>
        obtain ⟨term, terms, rfl⟩ := List.exists_cons_of_length_eq_add_one h.symm
        rw [List.zipWith_cons_cons, List.flatMap_cons, ih terms (Nat.succ.inj h), hbinary, hbytes,
          List.append_nil, List.flatMap_cons]
  rw [Access.expr, collect_sum hbytes hbinary, List.flatMap_append, hterms]
  simp [hbytes]

end

end Hlsl

namespace Shader

open Hlsl

variable (s : Shader) (buffers : List ByteBuffer)

def storedType (e : ExprId) : TypeRef :=
  (s.baseTypeOf? e).getD (.builtin (.scalar .uint))

/-- The index of an element of a combined sampler, which is lowered once more for the state. -/
def samplerIndex? (arg : ExprId) : Option ExprId :=
  (s.combinedSampler? arg).bind Prod.snd

/-- Lowers one argument of a call. -/
def lowerArg (lower : ExprId → LowerM Hlsl.Expr) (arg : ExprId) : LowerM (List Hlsl.Expr) := do
  let texture ← lower arg
  match s.combinedSampler? arg with
  | none => return [texture]
  | some (name, none) => return [texture, .name name]
  | some (name, some index) => return [texture, .index (.name name) (← lower index)]

/-- What is lowered in order to lower an expression, one after the other. -/
def lowered (e : ExprId) : List ExprId :=
  match s.expr e with
  | .constant _ | .var _ => []
  | .member o _ _ => if (s.bufferOf? buffers e).isSome then [] else [o]
  | .subscript o i => if (s.bufferOf? buffers o).isSome then [i] else [o, i]
  | .call _ args _ => args.flatMap fun a => a :: (s.samplerIndex? a).toList
  | .construct _ args | .aggregate args => args
  | .unary _ o => [o]
  | .binary op left right =>
    if s.isMatrixTimesVector op left right then [right, left] else [left, right]
  | .assign op left right =>
    match s.access? buffers left with
    | none => [left, right]
    | some access =>
      (if op.binary?.isSome then [left] else []) ++ right :: access.terms.map Prod.fst
  | .sequence left right => [left, right]
  | .choice c a b => [c, a, b]

/-- Whether an expression is an assignment that is lowered to a store. -/
def isStored (e : ExprId) : Bool :=
  match s.expr e with
  | .assign _ left _ => (s.access? buffers left).isSome
  | _ => false

/-- The temporary that the value to be stored is put into, if there is one. -/
def tempFor (e : ExprId) : LowerM Nat :=
  if s.isStored buffers e then freshTemp else pure 0

/-- What is passed for the arguments of a call. A combined sampler is followed by its state. -/
def passed : List ExprId → List Hlsl.Expr → List Hlsl.Expr
  | a :: args, x :: xs =>
    match s.combinedSampler? a, xs with
    | none, _ => x :: passed args xs
    | some (name, none), _ => x :: .name name :: passed args xs
    | some (name, some _), y :: ys => x :: .index (.name name) y :: passed args ys
    | some (_, some _), [] => []
  | _, _ => []

def constructed (type : TypeRef) (args : List ExprId) (xs : List Hlsl.Expr) : Hlsl.Expr :=
  match type with
  | .declared _ => .cast (s.hlslTypeName type) xs
  | .builtin t =>
    if t.isCombinedSampler then .list xs
    else
      match s.splat? t args with
      | some a =>
        let x := xs.getD 0 (.name "")
        .call t.hlslName [.member (if (s.constant? a).isSome then .group x else x)
          ("".pushn 'x' t.vectorSize)]
      | none => .call t.hlslName xs

/-- A value that is stored where an access leads. -/
def stored (access : Access) (left : ExprId) (temp : Nat) (value : Hlsl.Expr)
    (indices : List Hlsl.Expr) : Hlsl.Expr :=
  .store temp (s.hlslDeclaredType (s.storedType left)) value (access.expr indices)
    access.buffer.resource (s.leaves (s.storedType left) [] (tempName temp) 0).leaves

/-- What an expression is lowered to, given what is lowered for it and to what. -/
def assembled (e : ExprId) (temp : Nat) (xs : List Hlsl.Expr) : Hlsl.Expr :=
  let x (i : Nat) : Hlsl.Expr := xs.getD i (.name "")
  match s.expr e with
  | .constant c => .literal c
  | .var v =>
    match s.bufferOf? buffers e with
    | some buffer => s.loadExpr buffer (.bytes 0)
    | none => .name (s.var v).name
  | .member _ name _ =>
    match s.bufferOf? buffers e with
    | some buffer => s.loadExpr buffer (.bytes 0)
    | none => .member (x 0) name
  | .subscript o _ =>
    match s.bufferOf? buffers o with
    | some buffer => s.loadExpr buffer (x 0)
    | none => .index (x 0) (x 1)
  | .call name args _ => .call (functionName name) (s.passed args xs)
  | .construct type args => s.constructed type args xs
  | .unary op _ => if op = .minus then .group (.unary op (x 0)) else .unary op (x 0)
  | .binary op left right =>
    if s.isMatrixTimesVector op left right then .call "mul" [x 0, x 1]
    else .group (.binary (lowerBinaryOp op) (x 0).asOperand (x 1).asOperand)
  | .assign op left _ =>
    match s.access? buffers left, op.binary? with
    | none, _ => .assign op (x 0) (x 1)
    | some access, none => s.stored access left temp (x 0) (xs.drop 1)
    | some access, some binary =>
      s.stored access left temp (.group (.binary binary (x 0) (x 1))) (xs.drop 2)
  | .sequence _ _ => .group (.sequence (x 0) (x 1))
  | .choice _ _ _ => .group (.choice (x 0).asOperand (x 1).asOperand (x 2).asOperand)
  | .aggregate _ => .aggregate xs

/-! What an expression is lowered to, taken apart again: one case for each form. -/

/-- What is passed for the arguments of a call, by what is lowered for them. -/
inductive Passes : List ExprId → List ExprId → List Hlsl.Expr → List Hlsl.Expr → Prop where
  | nil : Passes [] [] [] []
  | plain {a : ExprId} {args os : List ExprId} {x : Hlsl.Expr} {xs ys : List Hlsl.Expr} :
      s.combinedSampler? a = none → Passes args os xs ys →
      Passes (a :: args) (a :: os) (x :: xs) (x :: ys)
  | whole {a : ExprId} {args os : List ExprId} {name : String} {x : Hlsl.Expr}
      {xs ys : List Hlsl.Expr} :
      s.combinedSampler? a = some (name, none) → Passes args os xs ys →
      Passes (a :: args) (a :: os) (x :: xs) (x :: .name name :: ys)
  | element {a i : ExprId} {args os : List ExprId} {name : String} {x y : Hlsl.Expr}
      {xs ys : List Hlsl.Expr} :
      s.combinedSampler? a = some (name, some i) → Passes args os xs ys →
      Passes (a :: args) (a :: i :: os) (x :: y :: xs) (x :: .index (.name name) y :: ys)

/-- What an expression is lowered to, by what is lowered for it. -/
inductive Forms (e : ExprId) (temp : Nat) : List ExprId → List Hlsl.Expr → Hlsl.Expr → Prop where
  | literal {c : Constant} : s.expr e = .constant c → Forms e temp [] [] (.literal c)
  | name {v : VarId} :
      s.expr e = .var v → s.bufferOf? buffers e = none → Forms e temp [] [] (.name (s.var v).name)
  | whole {v : VarId} {b : ByteBuffer} :
      s.expr e = .var v → s.bufferOf? buffers e = some b →
      Forms e temp [] [] (s.loadExpr b (.bytes 0))
  | field {o : ExprId} {name : String} {f : Option VarId} {b : ByteBuffer} :
      s.expr e = .member o name f → s.bufferOf? buffers e = some b →
      Forms e temp [] [] (s.loadExpr b (.bytes 0))
  | member {o : ExprId} {name : String} {f : Option VarId} (x : Hlsl.Expr) :
      s.expr e = .member o name f → s.bufferOf? buffers e = none →
      Forms e temp [o] [x] (.member x name)
  | element {o i : ExprId} {b : ByteBuffer} (x : Hlsl.Expr) :
      s.expr e = .subscript o i → s.bufferOf? buffers o = some b →
      Forms e temp [i] [x] (s.loadExpr b x)
  | subscript {o i : ExprId} (x y : Hlsl.Expr) :
      s.expr e = .subscript o i → s.bufferOf? buffers o = none →
      Forms e temp [o, i] [x, y] (.index x y)
  | call {name : String} {args os : List ExprId} {target : Option FuncId} {xs ys : List Hlsl.Expr} :
      s.expr e = .call name args target → s.Passes args os xs ys →
      Forms e temp os xs (.call (functionName name) ys)
  | cast {id : StructId} {args : List ExprId} (xs : List Hlsl.Expr) :
      s.expr e = .construct (.declared id) args →
      Forms e temp args xs (.cast (s.hlslTypeName (.declared id)) xs)
  | sampler {t : BuiltinType} {args : List ExprId} (xs : List Hlsl.Expr) :
      s.expr e = .construct (.builtin t) args → t.isCombinedSampler = true →
      Forms e temp args xs (.list xs)
  | splat {t : BuiltinType} {a : ExprId} (x : Hlsl.Expr) :
      s.expr e = .construct (.builtin t) [a] → t.isCombinedSampler = false →
      s.splat? t [a] = some a →
      Forms e temp [a] [x] (.call t.hlslName
        [.member (if (s.constant? a).isSome then .group x else x) ("".pushn 'x' t.vectorSize)])
  | construct {t : BuiltinType} {args : List ExprId} (xs : List Hlsl.Expr) :
      s.expr e = .construct (.builtin t) args → t.isCombinedSampler = false →
      s.splat? t args = none → Forms e temp args xs (.call t.hlslName xs)
  | minus {o : ExprId} (x : Hlsl.Expr) :
      s.expr e = .unary .minus o → Forms e temp [o] [x] (.group (.unary .minus x))
  | unary {op : UnaryOp} {o : ExprId} (x : Hlsl.Expr) :
      s.expr e = .unary op o → op ≠ .minus → Forms e temp [o] [x] (.unary op x)
  | product {op : BinaryOp} {left right : ExprId} (x y : Hlsl.Expr) :
      s.expr e = .binary op left right → s.isMatrixTimesVector op left right = true →
      Forms e temp [right, left] [x, y] (.call "mul" [x, y])
  | binary {op : BinaryOp} {left right : ExprId} (x y : Hlsl.Expr) :
      s.expr e = .binary op left right → s.isMatrixTimesVector op left right = false →
      Forms e temp [left, right] [x, y]
        (.group (.binary (lowerBinaryOp op) x.asOperand y.asOperand))
  | assign {op : AssignOp} {left right : ExprId} (x y : Hlsl.Expr) :
      s.expr e = .assign op left right → s.access? buffers left = none →
      Forms e temp [left, right] [x, y] (.assign op x y)
  | store {op : AssignOp} {left right : ExprId} {access : Access} (x : Hlsl.Expr)
      (indices : List Hlsl.Expr) :
      s.expr e = .assign op left right → s.access? buffers left = some access →
      op.binary? = none → indices.length = access.terms.length →
      Forms e temp (right :: access.terms.map Prod.fst) (x :: indices)
        (s.stored access left temp x indices)
  | update {op : AssignOp} {binary : BinaryOp} {left right : ExprId} {access : Access}
      (x y : Hlsl.Expr) (indices : List Hlsl.Expr) :
      s.expr e = .assign op left right → s.access? buffers left = some access →
      op.binary? = some binary → indices.length = access.terms.length →
      Forms e temp (left :: right :: access.terms.map Prod.fst) (x :: y :: indices)
        (s.stored access left temp (.group (.binary binary x y)) indices)
  | sequence {left right : ExprId} (x y : Hlsl.Expr) :
      s.expr e = .sequence left right →
      Forms e temp [left, right] [x, y] (.group (.sequence x y))
  | choice {c a b : ExprId} (x y z : Hlsl.Expr) :
      s.expr e = .choice c a b →
      Forms e temp [c, a, b] [x, y, z] (.group (.choice x.asOperand y.asOperand z.asOperand))
  | aggregate {items : List ExprId} (xs : List Hlsl.Expr) :
      s.expr e = .aggregate items → Forms e temp items xs (.aggregate xs)

variable {s buffers}

theorem eq_singleton_of_splat? {t : BuiltinType} {args : List ExprId} {only : ExprId}
    (h : s.splat? t args = some only) : args = [only] := by
  unfold splat? at h
  split at h
  · split at h
    · rw [Option.some.inj h]
    · contradiction
  · contradiction

theorem isStored_iff {e : ExprId} :
    s.isStored buffers e ↔ ∃ op left right a, s.expr e = .assign op left right ∧
      s.access? buffers left = some a := by
  unfold isStored
  cases s.expr e with
  | assign op left right => simp [Option.isSome_iff_exists]
  | _ => simp

section

variable (lower : ExprId → LowerM Hlsl.Expr)

theorem lowerArgs_eq (args : List ExprId) :
    s.lowerArgs lower args = List.flatten <$> args.mapM (s.lowerArg lower) :=
  rfl

theorem lowerArgs_cons (a : ExprId) (args : List ExprId) :
    s.lowerArgs lower (a :: args) = do
      return (← s.lowerArg lower a) ++ (← s.lowerArgs lower args) := by
  simp [lowerArgs_eq]

theorem lowerArgs_eq_passed (args : List ExprId) :
    s.lowerArgs lower args =
      s.passed args <$> (args.flatMap fun a => a :: (s.samplerIndex? a).toList).mapM lower := by
  induction args with
  | nil => rfl
  | cons a args ih =>
      rw [lowerArgs_cons, ih, List.flatMap_cons, List.cons_append, List.mapM_cons]
      unfold lowerArg samplerIndex?
      rcases hsampler : s.combinedSampler? a with _ | ⟨name, _ | index⟩ <;>
        simp [passed, hsampler]

theorem mapM_terms (terms : List (ExprId × Nat)) (f : ExprId × Nat → Hlsl.Expr → Hlsl.Expr) :
    (terms.mapM fun term => do return f term (← lower term.1)) =
      (List.zipWith f terms ·) <$> (terms.map Prod.fst).mapM lower := by
  induction terms with
  | nil => rfl
  | cons term terms ih =>
      rw [List.mapM_cons, ih, List.map_cons, List.mapM_cons]
      simp

theorem lowerConstruct_eq_constructed (type : TypeRef) (args : List ExprId) :
    s.lowerConstruct lower type args = s.constructed type args <$> args.mapM lower := by
  unfold lowerConstruct constructed
  cases type with
  | declared id => simp
  | builtin t =>
      dsimp only
      split
      · simp
      · cases hsplat : s.splat? t args with
        | none => simp
        | some only =>
            rw [eq_singleton_of_splat? hsplat]
            simp

end

theorem lowerStore_eq_stored (lower : ExprId → LowerM Hlsl.Expr) (access : Access) (op : AssignOp)
    (left right : ExprId) :
    s.lowerStore lower access op left right = do
      let temp ← freshTemp
      match op.binary? with
      | none =>
        let value ← lower right
        return s.stored access left temp value (← (access.terms.map Prod.fst).mapM lower)
      | some binary =>
        let value := .group (.binary binary (← lower left) (← lower right))
        return s.stored access left temp value (← (access.terms.map Prod.fst).mapM lower) := by
  unfold lowerStore lowerStoredValue stored Access.expr storedType
  simp only [mapM_terms]
  cases op.binary? <;> simp

theorem lowerWithin_succ (depth : Nat) (e : ExprId) :
    s.lowerWithin buffers (depth + 1) e = do
      match (← get).hoisted.lookup e with
      | some temp => return .temp temp
      | none =>
        let temp ← s.tempFor buffers e
        return s.assembled buffers e temp
          (← (s.lowered buffers e).mapM (s.lowerWithin buffers depth)) := by
  unfold lowerWithin tempFor isStored lowered assembled
  refine bind_congr fun state => ?_
  cases state.hoisted.lookup e with
  | some temp => rfl
  | none =>
  cases hexpr : s.expr e with
  | constant c => rfl
  | var v => cases s.bufferOf? buffers e <;> rfl
  | member o name field => cases hbuffer : s.bufferOf? buffers e <;> simp
  | subscript o i => cases hbuffer : s.bufferOf? buffers o <;> simp [hbuffer]
  | call name args target => simp [lowerArgs_eq_passed]
  | construct type args => simp [lowerConstruct_eq_constructed]
  | unary op o => cases op <;> simp
  | binary op left right =>
      cases hproduct : s.isMatrixTimesVector op left right <;> simp [hproduct]
  | assign op left right =>
      cases haccess : s.access? buffers left with
      | none => simp [haccess]
      | some access =>
          cases hop : op.binary? <;> simp [haccess, hop, lowerStore_eq_stored]
  | sequence left right => simp
  | choice c a b => simp
  | aggregate items => simp

theorem passes_passed {args : List ExprId} {xs : List Hlsl.Expr}
    (h : xs.length = (args.flatMap fun a => a :: (s.samplerIndex? a).toList).length) :
    s.Passes args (args.flatMap fun a => a :: (s.samplerIndex? a).toList) xs
      (s.passed args xs) := by
  induction args generalizing xs with
  | nil =>
      rw [List.eq_nil_of_length_eq_zero h]
      exact .nil
  | cons a args ih =>
      rw [List.flatMap_cons, List.cons_append] at h ⊢
      obtain ⟨x, xs, rfl⟩ := List.exists_cons_of_length_eq_add_one h
      have hrest := Nat.succ.inj h
      unfold passed
      cases hsampler : s.combinedSampler? a with
      | none =>
          rw [samplerIndex?, hsampler] at hrest ⊢
          exact .plain hsampler (ih hrest)
      | some sampler =>
          obtain ⟨name, _ | index⟩ := sampler
          · rw [samplerIndex?, hsampler] at hrest ⊢
            exact .whole hsampler (ih hrest)
          · rw [samplerIndex?, hsampler] at hrest ⊢
            obtain ⟨y, ys, rfl⟩ := List.exists_cons_of_length_eq_add_one hrest
            exact .element hsampler (ih (Nat.succ.inj hrest))

theorem Passes.run_eq {args os : List ExprId} {xs ys : List Hlsl.Expr} (h : s.Passes args os xs ys)
    {lower : ExprId → LowerM Hlsl.Expr} {state : LoweringState}
    (hxs : xs = ((os.mapM lower).run state).1) : ys = ((s.lowerArgs lower args).run state).1 := by
  have hpassed : os = args.flatMap (fun a => a :: (s.samplerIndex? a).toList) ∧
      ys = s.passed args xs := by
    clear hxs
    induction h with
    | nil => exact ⟨rfl, rfl⟩
    | plain hsampler _ ih | whole hsampler _ ih | element hsampler _ ih =>
        obtain ⟨hos, rfl⟩ := ih
        constructor
        · rw [List.flatMap_cons, ← hos, samplerIndex?, hsampler]
          rfl
        · simp [passed, hsampler]
  obtain ⟨rfl, rfl⟩ := hpassed
  rw [lowerArgs_eq_passed, hxs]
  rfl

theorem forms_constructed {e : ExprId} (temp : Nat) {type : TypeRef} {args : List ExprId}
    {xs : List Hlsl.Expr} (hexpr : s.expr e = .construct type args) (h : xs.length = args.length) :
    s.Forms buffers e temp args xs (s.constructed type args xs) := by
  unfold constructed
  cases type with
  | declared id => exact .cast xs hexpr
  | builtin t =>
      dsimp only
      cases hsampler : t.isCombinedSampler with
      | true => exact .sampler xs hexpr hsampler
      | false =>
          rw [if_neg Bool.false_ne_true]
          cases hsplat : s.splat? t args with
          | none => exact .construct xs hexpr hsampler hsplat
          | some a =>
              obtain rfl := eq_singleton_of_splat? hsplat
              obtain ⟨x, rfl⟩ := List.length_eq_one_iff.1 h
              exact .splat x hexpr hsampler hsplat

theorem forms_assembled {e : ExprId} (temp : Nat) {xs : List Hlsl.Expr}
    (h : xs.length = (s.lowered buffers e).length) :
    s.Forms buffers e temp (s.lowered buffers e) xs (s.assembled buffers e temp xs) := by
  unfold lowered assembled at *
  cases hexpr : s.expr e with
  | constant c =>
      rw [hexpr] at h
      rw [List.eq_nil_of_length_eq_zero h]
      exact .literal hexpr
  | var v =>
      rw [hexpr] at h
      rw [List.eq_nil_of_length_eq_zero h]
      cases hbuffer : s.bufferOf? buffers e with
      | none => exact .name hexpr hbuffer
      | some b => exact .whole hexpr hbuffer
  | member o name f =>
      rw [hexpr] at h
      cases hbuffer : s.bufferOf? buffers e with
      | none =>
          simp only [hbuffer] at h ⊢
          obtain ⟨x, rfl⟩ := List.length_eq_one_iff.1 h
          exact .member x hexpr hbuffer
      | some b =>
          simp only [hbuffer] at h ⊢
          rw [List.eq_nil_of_length_eq_zero h]
          exact .field hexpr hbuffer
  | subscript o i =>
      rw [hexpr] at h
      cases hbuffer : s.bufferOf? buffers o with
      | none =>
          simp only [hbuffer] at h ⊢
          obtain ⟨x, y, rfl⟩ := List.length_eq_two.1 h
          exact .subscript x y hexpr hbuffer
      | some b =>
          simp only [hbuffer] at h ⊢
          obtain ⟨x, rfl⟩ := List.length_eq_one_iff.1 h
          exact .element x hexpr hbuffer
  | call name args target =>
      rw [hexpr] at h
      exact .call hexpr (passes_passed h)
  | construct type args =>
      rw [hexpr] at h
      exact forms_constructed temp hexpr h
  | unary op o =>
      rw [hexpr] at h
      obtain ⟨x, rfl⟩ := List.length_eq_one_iff.1 h
      cases op with
      | minus => exact .minus x hexpr
      | _ => exact .unary x hexpr UnaryOp.noConfusion
  | binary op left right =>
      rw [hexpr] at h
      obtain ⟨x, y, rfl⟩ := List.length_eq_two.1 (h.trans (by dsimp only; split <;> rfl))
      dsimp only
      cases hproduct : s.isMatrixTimesVector op left right with
      | true => exact .product x y hexpr hproduct
      | false => exact .binary x y hexpr hproduct
  | assign op left right =>
      rw [hexpr] at h
      cases haccess : s.access? buffers left with
      | none =>
          simp only [haccess] at h ⊢
          obtain ⟨x, y, rfl⟩ := List.length_eq_two.1 h
          exact .assign x y hexpr haccess
      | some access =>
          cases hop : op.binary? with
          | none =>
              simp only [haccess, hop] at h ⊢
              obtain ⟨x, indices, rfl⟩ := List.exists_cons_of_length_eq_add_one h
              exact .store x indices hexpr haccess hop (by simpa using h)
          | some binary =>
              simp only [haccess, hop] at h ⊢
              obtain ⟨x, xs, rfl⟩ := List.exists_cons_of_length_eq_add_one h
              obtain ⟨y, indices, rfl⟩ := List.exists_cons_of_length_eq_add_one (Nat.succ.inj h)
              exact .update x y indices hexpr haccess hop (by simpa using h)
  | sequence left right =>
      rw [hexpr] at h
      obtain ⟨x, y, rfl⟩ := List.length_eq_two.1 h
      exact .sequence x y hexpr
  | choice c a b =>
      rw [hexpr] at h
      obtain ⟨x, y, z, rfl⟩ := List.length_eq_three.1 h
      exact .choice x y z hexpr
  | aggregate items => exact .aggregate xs hexpr

end Shader

namespace Hlsl

variable {s : Shader} {buffers : List ByteBuffer}

theorem gives_tempFor (e : ExprId) : Gives (s.tempFor buffers e) done done fun _ => True := by
  unfold Shader.tempFor
  split
  · exact gives_freshTemp
  · exact gives_pure trivial

/-- What an expression is lowered to has a property if what is lowered for it has one of which the
form keeps enough. -/
theorem gives_of_forms {P : ExprId → Expr → Prop} {Q : Expr → Prop} {depth : Nat} {e : ExprId}
    (hlower : ∀ o ∈ s.lowered buffers e, Gives (s.lowerWithin buffers depth o) done done (P o))
    (hresult : done.contains e = true → ∀ temp, Q (.temp temp))
    (hforms : done.contains e = false → ∀ {temp os xs x}, List.Forall₂ P os xs →
      s.Forms buffers e temp os xs x → Q x) :
    Gives (s.lowerWithin buffers (depth + 1) e) done done Q := by
  rw [Shader.lowerWithin_succ]
  apply gives_get
  intro state hstate
  have hhoisted := isSome_lookup_hoisted state e
  rw [hstate] at hhoisted
  cases hlookup : state.hoisted.lookup e with
  | some temp =>
      rw [hlookup] at hhoisted
      exact gives_pure (hresult hhoisted.symm temp)
  | none =>
      rw [hlookup] at hhoisted
      apply gives_bind (gives_tempFor e)
      intro temp _
      apply gives_bind (gives_mapM hlower)
      intro xs hxs
      exact gives_pure (hforms hhoisted.symm hxs (Shader.forms_assembled temp hxs.length_eq.symm))

end Hlsl

end ShaderBridge
