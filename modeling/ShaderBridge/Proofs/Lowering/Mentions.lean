import ShaderBridge.Proofs.Lowering.Declared
import ShaderBridge.Proofs.Lowering.Reading

namespace ShaderBridge

namespace Hlsl

/-! ### The target language -/

/-- A place where a program names something that is declared elsewhere. -/
inductive Mention where
  | name (name : String)
  | call (function : String) (args : List Expr)
  | type (text : String)
  /-- The function that reads a field of a storage block. -/
  | load (field : String)
  | resource (name : String)

mutual

/-- An empty name stands for what has been followed too deep, and names nothing. -/
def Expr.mentions : Expr → List Mention
  | .literal _ | .bytes _ | .temp _ => []
  | .name n => if n = "" then [] else [.name n]
  | .member e _ | .group e | .unary _ e => e.mentions
  | .load field i => .load field :: i.mentions
  | .index a b | .binary _ a b | .assign _ a b | .sequence a b => a.mentions ++ b.mentions
  | .call function args => .call function args :: mentionsAll args
  | .cast type args => .type type :: mentionsAll args
  | .list args | .aggregate args => mentionsAll args
  | .choice c a b => c.mentions ++ (a.mentions ++ b.mentions)
  | .store _ type value address resource _ =>
    .type type :: .resource resource :: (value.mentions ++ address.mentions)

def Expr.mentionsAll : List Expr → List Mention
  | [] => []
  | e :: rest => e.mentions ++ Expr.mentionsAll rest

end

def dimsMentions (dims : List (Option Expr)) : List Mention :=
  dims.flatMap fun dim => dim.toList.flatMap Expr.mentions

def Declarator.mentions (d : Declarator) : List Mention :=
  dimsMentions d.dims ++ d.initial.toList.flatMap Expr.mentions

/-- A header without variables names no type. -/
def Header.mentions : Header → List Mention
  | nothing | declaration _ [] => []
  | expression e => e.mentions
  | declaration type vars => .type type :: vars.flatMap Declarator.mentions

mutual

/-- An atomic function leaves its result in the last of its arguments. -/
def Stmt.mentions : Stmt → List Mention
  | .lines body | .block body => mentionsAll body
  | .empty | .continueLoop | .breakLoop | .discard => []
  | .declaration _ type d => .type type :: d.mentions
  | .expression e | .breakUnless e => e.mentions
  | .atomic temp type function args =>
    .type type :: .call function (args ++ [.temp temp]) :: Expr.mentionsAll args
  | .branch _ c onTrue none => c.mentions ++ onTrue.mentions
  | .branch _ c onTrue (some onFalse) => c.mentions ++ (onTrue.mentions ++ onFalse.mentions)
  | .switch _ c body => c.mentions ++ mentionsAll body
  | .label value | .returnValue value => value.toList.flatMap Expr.mentions
  | .whileLoop _ header body => header.mentions ++ body.mentions
  | .doLoop _ body c => body.mentions ++ c.mentions
  | .forLoop _ start c step body =>
    start.mentions ++ (c.toList.flatMap Expr.mentions ++
      (step.toList.flatMap Expr.mentions ++ body.mentions))

def Stmt.mentionsAll : List Stmt → List Mention
  | [] => []
  | t :: rest => t.mentions ++ Stmt.mentionsAll rest

end

def Field.mentions (f : Field) : List Mention :=
  .type f.type :: dimsMentions f.dims

def Param.mentions (p : Param) : List Mention :=
  .type p.type :: dimsMentions p.dims

def Decl.mentions : Decl → List Mention
  | .fixed _ | .byteBuffer .. => []
  | .global _ type d _ => .type type :: d.mentions
  | .record _ fields | .constantBuffer _ _ fields => fields.flatMap Field.mentions
  | .accessor _ type resource _ _ => [.type type, .resource resource]
  | .function _ returnType _ params body =>
    .type returnType :: (params.flatMap Param.mentions ++ body.toList.flatMap Stmt.mentionsAll)

attribute [local simp] Expr.mentions Expr.mentionsAll Stmt.mentionsAll

theorem mem_mentionsAll {m : Mention} {xs : List Expr} :
    m ∈ Expr.mentionsAll xs ↔ ∃ x ∈ xs, m ∈ x.mentions := by
  induction xs with
  | nil => simp
  | cons x rest ih => simp [ih]

theorem mem_stmtMentionsAll {m : Mention} {ts : List Stmt} :
    m ∈ Stmt.mentionsAll ts ↔ ∃ t ∈ ts, m ∈ t.mentions := by
  induction ts with
  | nil => simp
  | cons t rest ih => simp [ih]

end Hlsl

/-! ### The source -/

open Hlsl

/-- What something in a program is written for. -/
inductive Origin where
  | expr (e : ExprId)
  | type (t : TypeRef)
  | buffer (buffer : ByteBuffer)
  /-- What does not come from the source. -/
  | given (m : Mention)

namespace Shader

variable (s : Shader) (buffers : List ByteBuffer)

/-- What is mentioned for an expression itself, and not for its operands. -/
inductive Makes (e : ExprId) : Mention → Prop where
  | name {v : VarId} : s.expr e = .var v → Makes e (.name (s.var v).name)
  | state {v : VarId} {state : String} :
      s.expr e = .var v → samplerStateType? (s.var v).type = some state →
      Makes e (.name (samplerName (s.var v).name))
  | load {buffer : ByteBuffer} :
      s.bufferOf? buffers e = some buffer → Makes e (.load (s.var buffer.field).name)
  | stored {op : AssignOp} {left right : ExprId} {access : Access} :
      s.expr e = .assign op left right → s.access? buffers left = some access →
      Makes e (.resource access.buffer.resource)
  | temp {op : AssignOp} {left right : ExprId} {access : Access} :
      s.expr e = .assign op left right → s.access? buffers left = some access →
      Makes e (.type (s.hlslDeclaredType ((s.baseTypeOf? left).getD (.builtin (.scalar .uint)))))
  | cast {id : StructId} {args : List ExprId} :
      s.expr e = .construct (.declared id) args → Makes e (.type (s.hlslTypeName (.declared id)))
  | construct {t : BuiltinType} {args : List ExprId} (xs : List Hlsl.Expr) :
      s.expr e = .construct (.builtin t) args → Makes e (.call t.hlslName xs)
  | product {op : BinaryOp} {left right : ExprId} (xs : List Hlsl.Expr) :
      s.expr e = .binary op left right → Makes e (.call "mul" xs)
  | call {name : String} {args : List ExprId} {target : Option FuncId} (depth : Nat)
      (state : LoweringState) :
      s.expr e = .call name args target →
      Makes e (.call (functionName name)
        ((s.lowerArgs (s.lowerWithin buffers depth) args).run state).1)
  | carried {name : String} {args : List ExprId} {target : Option FuncId} {temp : Nat}
      {type function : String} {xs : List Hlsl.Expr} (state : LoweringState) :
      s.expr e = .call name args target → Intrinsic.isAtomic name = true →
      ((s.hoistCall buffers e name args).run state).1 = .atomic temp type function xs →
      Makes e (.call function (xs ++ [.temp temp]))
  | result {name : String} {args : List ExprId} {target : Option FuncId} :
      s.expr e = .call name args target → Intrinsic.isAtomic name = true →
      Makes e (.type (s.hlslDeclaredType
        ((args.head?.bind s.baseTypeOf?).getD (.builtin (.scalar .uint)))))

/-- What is mentioned for a part of the source. -/
inductive Yields : Origin → Mention → Prop where
  | expr {level : Nat} {e w : ExprId} {m : Mention} :
      s.Holds level e w → s.Makes buffers w m → Yields (.expr e) m
  | type (t : TypeRef) : Yields (.type t) (.type (s.hlslDeclaredType t))
  | element (t : TypeRef) (layout : List LayoutEntry) :
      Yields (.type t) (.type (s.hlslGlobalType t layout))
  | state {t : TypeRef} {state : String} :
      samplerStateType? t = some state → Yields (.type t) (.type state)
  | resource (b : ByteBuffer) : Yields (.buffer b) (.resource b.resource)
  | given (m : Mention) : Yields (.given m) m

variable {s}

theorem cases_combinedSampler? {a : ExprId} {name : String} {index : Option ExprId}
    (h : s.combinedSampler? a = some (name, index)) :
    ∃ v state, samplerStateType? (s.var v).type = some state ∧ name = samplerName (s.var v).name ∧
      (index = none ∧ s.expr a = .var v ∨
        ∃ o i, index = some i ∧ s.expr a = .subscript o i ∧ s.expr o = .var v) := by
  have hsampler {v : VarId} {i : Option ExprId}
      (h : ((samplerStateType? (s.var v).type).map fun _ => samplerName (s.var v).name).map
        (fun name => (name, i)) = some (name, index)) :
      ∃ state, samplerStateType? (s.var v).type = some state ∧
        name = samplerName (s.var v).name ∧ index = i := by
    cases hstate : samplerStateType? (s.var v).type with
    | none => rw [hstate] at h; cases h
    | some state =>
        rw [hstate] at h
        cases h
        exact ⟨state, rfl, rfl, rfl⟩
  unfold combinedSampler? at h
  cases hexpr : s.expr a with
  | var v =>
      rw [hexpr] at h
      obtain ⟨state, hstate, hname, hindex⟩ := hsampler h
      exact ⟨v, state, hstate, hname, .inl ⟨hindex, rfl⟩⟩
  | subscript o i =>
      rw [hexpr] at h
      dsimp only at h
      cases ho : s.expr o with
      | var v =>
          rw [ho] at h
          obtain ⟨state, hstate, hname, hindex⟩ := hsampler h
          exact ⟨v, state, hstate, hname, .inr ⟨o, i, hindex, rfl, ho⟩⟩
      | _ => rw [ho] at h; cases h
  | _ => rw [hexpr] at h; cases h

end Shader

namespace Hlsl

variable {s : Shader} {buffers : List ByteBuffer} {α β : Type}

theorem always_map {P : β → Prop} {m : LowerM α} {f : α → β} (hm : Always m fun a => P (f a)) :
    Always (f <$> m) P :=
  hm

theorem always_and {P Q : α → Prop} {m : LowerM α} (hP : Always m P) (hQ : Always m Q) :
    Always m fun a => P a ∧ Q a :=
  fun state => ⟨hP state, hQ state⟩

theorem always_get {P : α → Prop} {f : LoweringState → LowerM α}
    (hf : ∀ state, Always (f state) P) : Always (get >>= f) P :=
  fun state => hf state state

theorem always_forall₂ {P : α → β → Prop} {l : List α} {f : α → LowerM β}
    (hf : ∀ a ∈ l, Always (f a) (P a)) : Always (l.mapM f) (List.Forall₂ P l) := by
  induction l with
  | nil => exact always_pure .nil
  | cons a rest ih =>
      rw [List.mapM_cons]
      refine always_bind (hf a List.mem_cons_self) fun b hb => ?_
      refine always_bind (ih fun a ha => hf a (List.mem_cons_of_mem _ ha)) fun bs hbs => ?_
      exact always_pure (.cons hb hbs)

theorem always_option {P : α → β → Prop} {o : Option α} {f : α → LowerM β}
    (hf : ∀ a ∈ o, Always (f a) (P a)) :
    Always (o.mapM f) fun b => List.Forall₂ P o.toList b.toList := by
  cases o with
  | none => exact always_pure .nil
  | some a => exact always_map fun state => .cons (hf a rfl state) .nil

/-! ### Expressions -/

/-- An expression of the target language mentions only what is mentioned for a given one. -/
def WrittenFor (s : Shader) (buffers : List ByteBuffer) (e : ExprId) (x : Expr) : Prop :=
  ∀ m ∈ x.mentions, s.Yields buffers (.expr e) m

theorem yields_of_makes {e : ExprId} {m : Mention} (h : s.Makes buffers e m) :
    s.Yields buffers (.expr e) m :=
  .expr (.here e) h

theorem yields_of_holds {level : Nat} {e w : ExprId} {m : Mention} (hw : s.Holds level e w)
    (h : s.Yields buffers (.expr w) m) : s.Yields buffers (.expr e) m := by
  cases h with
  | expr hholds hmakes => exact .expr (hw.trans hholds) hmakes

theorem mentions_asOperand (x : Expr) : x.asOperand.mentions = x.mentions := by
  cases x <;> simp only [Expr.asOperand, Expr.mentions]

theorem mem_mentions_name {n : String} {m : Mention} (hm : m ∈ (Expr.name n).mentions) :
    m = .name n := by
  rw [Expr.mentions] at hm
  split at hm
  · cases hm
  · exact List.mem_singleton.1 hm

theorem writtenFor_nothing {e : ExprId} {x : Expr} (h : x.mentions = []) :
    WrittenFor s buffers e x :=
  fun _ hm => absurd (h ▸ hm) List.not_mem_nil

theorem writtenFor_pair {e : ExprId} {x a b : Expr} (h : x.mentions = a.mentions ++ b.mentions)
    (ha : WrittenFor s buffers e a) (hb : WrittenFor s buffers e b) : WrittenFor s buffers e x := by
  intro m hm
  rw [h] at hm
  exact (List.mem_append.1 hm).elim (ha _) (hb _)

theorem yields_of_mem_mentionsAll {e : ExprId} {es : List ExprId} {xs : List Expr}
    (hes : ∀ o ∈ es, ∃ level, s.Holds level e o)
    (h : List.Forall₂ (WrittenFor s buffers) es xs) :
    ∀ m ∈ Expr.mentionsAll xs, s.Yields buffers (.expr e) m := by
  intro m hm
  obtain ⟨x, hx, hm⟩ := mem_mentionsAll.1 hm
  obtain ⟨o, ho, hwritten⟩ := exists_of_mem_right h hx
  obtain ⟨level, hholds⟩ := hes o ho
  exact yields_of_holds hholds (hwritten m hm)

theorem holds_of_operand {e o : ExprId} (ho : o ∈ (s.expr e).operands) :
    ∃ level, s.Holds level e o :=
  ⟨1, .operand ho (.here o)⟩

theorem writtenFor_state {e a : ExprId} {name : String} {index : Option ExprId}
    (ha : a ∈ (s.expr e).operands) (hsampler : s.combinedSampler? a = some (name, index)) :
    WrittenFor s buffers e (.name name) := by
  obtain ⟨v, state, hstate, rfl, hshape⟩ := Shader.cases_combinedSampler? hsampler
  have hholds : ∃ w level, s.Holds level e w ∧ s.expr w = .var v := by
    rcases hshape with ⟨-, hexpr⟩ | ⟨o, i, -, hexpr, ho⟩
    · exact ⟨a, 1, .operand ha (.here a), hexpr⟩
    · exact ⟨o, 2, .operand ha (.operand (by simp [hexpr, Expr.operands]) (.here o)), ho⟩
  obtain ⟨w, level, hw, hexpr⟩ := hholds
  intro m hm
  rw [mem_mentions_name hm]
  exact yields_of_holds hw (yields_of_makes (.state hexpr hstate))

theorem writtenFor_of_passes {e : ExprId} {args os : List ExprId} {xs ys : List Expr}
    (h : s.Passes args os xs ys) (hargs : ∀ a ∈ args, a ∈ (s.expr e).operands)
    (hxs : ∀ x ∈ xs, WrittenFor s buffers e x) : ∀ y ∈ ys, WrittenFor s buffers e y := by
  induction h with
  | nil => exact hxs
  | plain _ _ ih =>
      rw [List.forall_mem_cons] at hargs hxs ⊢
      exact ⟨hxs.1, ih hargs.2 hxs.2⟩
  | whole hsampler _ ih =>
      simp only [List.forall_mem_cons] at hargs hxs ⊢
      exact ⟨hxs.1, writtenFor_state hargs.1 hsampler, ih hargs.2 hxs.2⟩
  | element hsampler _ ih =>
      simp only [List.forall_mem_cons] at hargs hxs ⊢
      exact ⟨hxs.1, writtenFor_pair rfl (writtenFor_state hargs.1 hsampler) hxs.2.1,
        ih hargs.2 hxs.2.2⟩

theorem writtenFor_stored {temp : Nat} {e left right : ExprId} {op : AssignOp} {access : Access}
    {value : Expr} {indices : List Expr} (hexpr : s.expr e = .assign op left right)
    (haccess : s.access? buffers left = some access) (hvalue : WrittenFor s buffers e value)
    (hindices : ∀ i ∈ indices, WrittenFor s buffers e i)
    (hlength : indices.length = access.terms.length) :
    WrittenFor s buffers e (s.stored access left temp value indices) := by
  have haddress : (access.expr indices).mentions = indices.flatMap Expr.mentions :=
    Access.collect_expr (fun _ => rfl) (fun _ _ _ => rfl) hlength
  intro m hm
  rw [Shader.stored, Expr.mentions, haddress] at hm
  rcases List.mem_cons.1 hm with rfl | hm
  · exact yields_of_makes (.temp hexpr haccess)
  rcases List.mem_cons.1 hm with rfl | hm
  · exact yields_of_makes (.stored hexpr haccess)
  rcases List.mem_append.1 hm with hm | hm
  · exact hvalue m hm
  · obtain ⟨i, hi, hm⟩ := List.mem_flatMap.1 hm
    exact hindices i hi m hm

theorem writtenFor_of_forms {depth temp : Nat} {e : ExprId} {os : List ExprId} {xs : List Expr}
    {x : Expr} {state : LoweringState} (h : s.Forms buffers e temp os xs x)
    (hrun : xs = ((os.mapM (s.lowerWithin buffers depth)).run state).1)
    (hxs : ∀ y ∈ xs, WrittenFor s buffers e y) : WrittenFor s buffers e x := by
  have hall {ys : List Expr} (hys : ∀ y ∈ ys, WrittenFor s buffers e y) {m : Mention}
      (hm : m ∈ Expr.mentionsAll ys) : s.Yields buffers (.expr e) m :=
    (mem_mentionsAll.1 hm).elim fun y hy => hys y hy.1 m hy.2
  have hmade {y : Expr} {m : Mention} {ys : List Expr} (hy : y.mentions = m :: Expr.mentionsAll ys)
      (hm : s.Yields buffers (.expr e) m) (hys : ∀ y ∈ ys, WrittenFor s buffers e y) :
      WrittenFor s buffers e y := by
    rw [WrittenFor, hy, List.forall_mem_cons]
    exact ⟨hm, fun m hm => hall hys hm⟩
  cases h with
  | name hexpr => exact fun m hm => mem_mentions_name hm ▸ yields_of_makes (.name hexpr)
  | whole hexpr hbuffer | field hexpr hbuffer =>
      exact hmade rfl (yields_of_makes (.load hbuffer)) hxs
  | @element o _ _ x hexpr hbuffer =>
      have ho : o ∈ (s.expr e).operands := by simp [hexpr, Expr.operands]
      have hload := yields_of_holds (.operand ho (.here o)) (yields_of_makes (.load hbuffer))
      intro m hm
      rcases List.mem_cons.1 hm with rfl | hm
      · exact hload
      · exact hxs x List.mem_cons_self m hm
  | call hexpr hpasses =>
      have hys := writtenFor_of_passes hpasses (by simp [hexpr, Expr.operands]) hxs
      rw [hpasses.run_eq hrun] at hys ⊢
      exact hmade rfl (yields_of_makes (.call depth state hexpr)) hys
  | cast xs hexpr => exact hmade rfl (yields_of_makes (.cast hexpr)) hxs
  | construct xs hexpr => exact hmade rfl (yields_of_makes (.construct xs hexpr)) hxs
  | product x y hexpr => exact hmade rfl (yields_of_makes (.product _ hexpr)) hxs
  | splat x hexpr =>
      refine hmade rfl (yields_of_makes (.construct _ hexpr)) ?_
      split <;> simpa [WrittenFor, Expr.mentions] using hxs
  | store x indices hexpr haccess hop hlength =>
      rw [List.forall_mem_cons] at hxs
      exact writtenFor_stored hexpr haccess hxs.1 hxs.2 hlength
  | update x y indices hexpr haccess hop hlength =>
      simp only [List.forall_mem_cons] at hxs
      exact writtenFor_stored hexpr haccess (writtenFor_pair rfl hxs.1 hxs.2.1) hxs.2.2 hlength
  | literal => exact writtenFor_nothing rfl
  | _ =>
      refine fun m hm => hall hxs ?_
      simpa [mentions_asOperand, Expr.mentions, Expr.mentionsAll] using hm

theorem always_of_forms {P : ExprId → Expr → Prop} {Q : Expr → Prop} {depth : Nat} {e : ExprId}
    (hlower : ∀ o ∈ s.lowered buffers e, Always (s.lowerWithin buffers depth o) (P o))
    (hresult : ∀ temp, Q (.temp temp))
    (hforms : ∀ {temp os xs x state}, xs = ((os.mapM (s.lowerWithin buffers depth)).run state).1 →
      List.Forall₂ P os xs → s.Forms buffers e temp os xs x → Q x) :
    Always (s.lowerWithin buffers (depth + 1) e) Q := by
  rw [Shader.lowerWithin_succ]
  refine always_get fun state => ?_
  split
  · exact always_pure (hresult _)
  · refine always_bind_any fun temp state => ?_
    have hxs := always_forall₂ hlower state
    exact hforms rfl hxs (Shader.forms_assembled temp hxs.length_eq.symm)

theorem always_lowerWithin (depth : Nat) (e : ExprId) :
    Always (s.lowerWithin buffers depth e) (WrittenFor s buffers e) := by
  induction depth generalizing e with
  | zero => exact always_pure (writtenFor_nothing rfl)
  | succ depth ih =>
      refine always_of_forms (P := fun _ => WrittenFor s buffers e) (fun o ho state m hm => ?_)
        (fun _ => writtenFor_nothing rfl) fun hrun hxs hforms => writtenFor_of_forms hforms hrun
          fun y hy => (exists_of_mem_right hxs hy).elim fun _ h => h.2
      obtain ⟨p, hp, level, hholds⟩ := Shader.exists_operand_of_mem_lowered ho
      exact yields_of_holds (.operand hp hholds) (ih o state m hm)

theorem always_writtenFor (e : ExprId) : Always (s.lowerExpr buffers e) (WrittenFor s buffers e) :=
  always_lowerWithin _ e

/-! ### Atomic calls -/

/-- The type of what an atomic call with some arguments is carried out on. -/
def atomicTarget (s : Shader) (args : List ExprId) : TypeRef :=
  (args.head?.bind s.baseTypeOf?).getD (.builtin (.scalar .uint))

/-- A statement that carries out an atomic call, if `W` tells what an expression is lowered into.
A target in a buffer stands there by its address, any other one is the first argument. -/
inductive CarriedAs (s : Shader) (buffers : List ByteBuffer) (W : ExprId → Expr → Prop)
    (name : String) (args : List ExprId) : Stmt → Prop where
  | named {temp : Nat} {xs : List Expr} :
      args.head?.bind (s.access? buffers) = none → List.Forall₂ W args xs →
      CarriedAs s buffers W name args (.atomic temp (s.hlslDeclaredType (atomicTarget s args))
        (Shader.atomicFunction name (atomicTarget s args)) xs)
  | addressed {temp : Nat} {access : Access} {terms values : List Expr} :
      args.head?.bind (s.access? buffers) = some access →
      List.Forall₂ (fun term x => ∃ i, x = .binary .mul (.bytes term.2) i ∧ W term.1 i)
        access.terms terms →
      List.Forall₂ W args.tail values →
      CarriedAs s buffers W name args (.atomic temp (s.hlslDeclaredType (atomicTarget s args))
        (access.buffer.resource ++ "." ++ Shader.atomicFunction name (atomicTarget s args))
        (Shader.atomicAddress terms access.offset :: values))

theorem always_carriedAs {W : ExprId → Expr → Prop}
    (hW : ∀ o, Always (s.lowerExpr buffers o) (W o)) (e : ExprId) (name : String)
    (args : List ExprId) :
    Always (s.hoistCall buffers e name args) (CarriedAs s buffers W name args) := by
  have hterm (term : ExprId × Nat) : Always (do
      return Expr.binary .mul (.bytes term.2) (← s.lowerExpr buffers term.1))
      fun x => ∃ i, x = .binary .mul (.bytes term.2) i ∧ W term.1 i :=
    always_bind (hW term.1) fun i hi => always_pure ⟨i, rfl, hi⟩
  refine always_bind_any fun temp => ?_
  have hrecord (t : Stmt) (ht : CarriedAs s buffers W name args t) : Always (do
      modify fun state : LoweringState => { state with hoisted := (e, temp) :: state.hoisted }
      return t) (CarriedAs s buffers W name args) :=
    always_bind_any fun _ => always_pure ht
  dsimp only
  cases haccess : args.head?.bind (s.access? buffers) with
  | none =>
      refine always_bind (always_forall₂ fun o _ => hW o) fun xs hxs => ?_
      exact always_bind (always_pure (.named haccess hxs)) hrecord
  | some access =>
      refine always_bind (always_forall₂ fun term _ => hterm term) fun terms hterms => ?_
      refine always_bind (always_forall₂ fun o _ => hW o) fun values hvalues => ?_
      exact always_bind (always_pure (.addressed haccess hterms hvalues)) hrecord

end Hlsl

end ShaderBridge
