import ShaderBridge.Proofs.Lowering.Writes
import ShaderBridge.Proofs.Shader.References

namespace ShaderBridge

/-! ### Calls that are carried out ahead -/

namespace Hlsl

def Expr.hasStore (e : Expr) : Bool :=
  e.writes fun _ => false

def Stmt.isAtomic : Stmt → Bool
  | .atomic .. => true
  | _ => false

end Hlsl

namespace Shader

open Hlsl

variable (s : Shader) (buffers : List ByteBuffer)

/-- Whether an expression is lowered to one that holds a store. -/
def stores (done : List ExprId) (id : ExprId) : Bool :=
  s.writesWithin buffers (fun _ _ => false) done (s.exprs.size + 1) id

/-- The calls that have been carried out once those of an expression are. -/
def doneBy (id : ExprId) (done : List ExprId) : List ExprId :=
  (s.atomicCalls id).reverse ++ done

variable {s buffers} {done : List ExprId}

theorem atomicCallsWithin_succ (depth : Nat) (id : ExprId) :
    s.atomicCallsWithin (depth + 1) id =
      (s.expr id).operands.flatMap (s.atomicCallsWithin depth) ++
        match s.expr id with
        | .call name _ _ => if Intrinsic.isAtomic name then [id] else []
        | _ => [] := by
  rw [atomicCallsWithin]
  cases s.expr id <;> simp [Expr.operands]

theorem atomicCall_of_mem {depth : Nat} {call id : ExprId}
    (h : call ∈ s.atomicCallsWithin depth id) :
    (∃ level, s.Holds level id call) ∧
      ∃ name args target, s.expr call = .call name args target ∧
        Intrinsic.isAtomic name = true := by
  induction depth generalizing id with
  | zero => cases h
  | succ depth ih =>
      rw [atomicCallsWithin_succ, List.mem_append, List.mem_flatMap] at h
      rcases h with ⟨o, ho, hcall⟩ | hself
      · obtain ⟨⟨level, hlevel⟩, hatomic⟩ := ih hcall
        exact ⟨⟨level + 1, .operand ho hlevel⟩, hatomic⟩
      · split at hself
        · next name args target hexpr =>
            split at hself
            · next hatomic =>
                rw [List.mem_singleton.1 hself]
                exact ⟨⟨0, .here id⟩, name, args, target, hexpr, hatomic⟩
            · cases hself
        · cases hself

theorem isCall_of_mem_atomicCallsWithin {depth : Nat} {call id : ExprId}
    (h : call ∈ s.atomicCallsWithin depth id) :
    ∃ name args target, s.expr call = .call name args target := by
  obtain ⟨-, name, args, target, hcall, -⟩ := atomicCall_of_mem h
  exact ⟨name, args, target, hcall⟩

theorem holds_of_mem_atomicCallsWithin {depth : Nat} {call id : ExprId}
    (h : call ∈ s.atomicCallsWithin depth id) : ∃ level, s.Holds level id call :=
  (atomicCall_of_mem h).1

end Shader

namespace Hlsl

variable {s : Shader} {buffers : List ByteBuffer} {done : List ExprId}

theorem gives_lowerExpr (id : ExprId) :
    Gives (s.lowerExpr buffers id) done done fun e => e.hasStore = s.stores buffers done id :=
  gives_lowerWithin (fun _ _ _ _ => rfl) _ id

theorem gives_hoistCall (id : ExprId) (name : String) (args : List ExprId) :
    Gives (s.hoistCall buffers id name args) done (id :: done) fun t => t.isAtomic := by
  have hlower (e : ExprId) : Gives (s.lowerExpr buffers e) done done fun _ => True :=
    (gives_lowerExpr e).imp fun _ _ => trivial
  unfold Shader.hoistCall
  apply gives_bind gives_freshTemp
  intro temp _
  have hrecord {t : Stmt} (ht : t.isAtomic) :
      Gives (do
        modify fun state : LoweringState => { state with hoisted := (id, temp) :: state.hoisted }
        return t) done (id :: done) fun t => t.isAtomic := by
    intro state hstate
    refine ⟨ht, ?_⟩
    rw [← hstate]
    rfl
  dsimp only
  cases args.head?.bind (s.access? buffers) with
  | none =>
      apply gives_bind (gives_mapM_true fun arg _ => hlower arg)
      intro values _
      exact gives_bind (P := fun t : Stmt => t.isAtomic) (gives_pure rfl) fun t ht => hrecord ht
  | some access =>
      apply gives_bind (P := fun _ => True)
      · apply gives_mapM_true
        intro term _
        apply gives_bind (hlower term.1)
        intro e _
        exact gives_pure trivial
      intro terms _
      apply gives_bind (gives_mapM_true fun arg _ => hlower arg)
      intro values _
      exact gives_bind (P := fun t : Stmt => t.isAtomic) (gives_pure rfl) fun t ht => hrecord ht

theorem gives_hoistCalls {calls : List ExprId}
    (hcalls : ∀ call ∈ calls, ∃ name args target, s.expr call = .call name args target) :
    Gives (calls.mapM fun call => do
      match s.expr call with
      | .call name args _ => return [← s.hoistCall buffers call name args]
      | _ => return []) done (calls.reverse ++ done) fun ts =>
        ts.flatten.length = calls.length ∧ ∀ t ∈ ts.flatten, t.isAtomic := by
  induction calls generalizing done with
  | nil => exact gives_pure ⟨rfl, by simp⟩
  | cons call rest ih =>
      rw [List.mapM_cons, List.reverse_cons, List.append_assoc]
      obtain ⟨name, args, target, hexpr⟩ := hcalls call List.mem_cons_self
      simp only [hexpr]
      apply gives_bind (P := fun ts : List Stmt => ∃ t, t.isAtomic ∧ ts = [t])
      · apply gives_bind (gives_hoistCall call name args)
        intro t ht
        exact gives_pure ⟨t, ht, rfl⟩
      rintro _ ⟨t, ht, rfl⟩
      apply gives_bind (ih fun call hcall => hcalls call (List.mem_cons_of_mem _ hcall))
      rintro ts ⟨hlength, hatomic⟩
      apply gives_pure
      constructor
      · simp [← hlength]
      · intro u hu
        rcases List.mem_cons.1 hu with rfl | hu
        · exact ht
        · exact hatomic u hu

theorem gives_hoistAtomics (id : ExprId) :
    Gives (s.hoistAtomics buffers id) done (s.doneBy id done) fun calls =>
      calls.isEmpty = !s.hasAtomics id ∧ ∀ t ∈ calls, t.isAtomic := by
  unfold Shader.hoistAtomics
  apply gives_bind (gives_hoistCalls fun call hcall => Shader.isCall_of_mem_atomicCallsWithin hcall)
  rintro ts ⟨hlength, hatomic⟩
  apply gives_pure
  refine ⟨?_, hatomic⟩
  unfold Shader.hasAtomics Shader.atomicCalls
  rw [Bool.not_not, Bool.eq_iff_iff, List.isEmpty_iff_length_eq_zero,
    List.isEmpty_iff_length_eq_zero, hlength]

end Hlsl

namespace Hlsl

/-! ### Statements of the target language -/

def Declarator.hasStore (d : Declarator) : Bool :=
  d.dims.any (fun dim => dim.any Expr.hasStore) || d.initial.any Expr.hasStore

def Header.hasStore : Header → Bool
  | nothing => false
  | expression e => e.hasStore
  | declaration _ vars => vars.any Declarator.hasStore

mutual

/-- Whether a statement is written as one statement. A store inside it is several, and so is an
atomic call, whose result is declared first; a label is none. -/
def Stmt.isSingle : Stmt → Bool
  | .lines body => isSingleLine body
  | .block _ | .empty | .continueLoop | .breakLoop | .discard | .returnValue none => true
  | .atomic .. | .label _ => false
  | .declaration _ _ d => !d.hasStore
  | .expression e | .breakUnless e | .returnValue (some e) | .switch _ e _ => !e.hasStore
  | .branch _ c onTrue none => !c.hasStore && onTrue.isSingle
  | .branch _ c onTrue (some onFalse) => !c.hasStore && onTrue.isSingle && onFalse.isSingle
  | .whileLoop _ header body => !header.hasStore && body.isSingle
  | .doLoop _ body c => body.isSingle && !c.hasStore
  | .forLoop _ start c step body =>
    !(start.hasStore || c.any Expr.hasStore || step.any Expr.hasStore) && body.isSingle

/-- Whether there is one line, and a single statement on it. -/
def Stmt.isSingleLine : List Stmt → Bool
  | [t] => t.isSingle
  | _ => false

end

mutual

/-- The bodies of the branches and loops in a statement. -/
def Stmt.bodies : Stmt → List Stmt
  | .lines body | .block body | .switch _ _ body => bodiesAll body
  | .branch _ _ onTrue none => onTrue :: onTrue.bodies
  | .branch _ _ onTrue (some onFalse) => onTrue :: onTrue.bodies ++ onFalse :: onFalse.bodies
  | .whileLoop _ _ body | .doLoop _ body _ | .forLoop _ _ _ _ body => body :: body.bodies
  | _ => []

def Stmt.bodiesAll : List Stmt → List Stmt
  | [] => []
  | t :: rest => t.bodies ++ Stmt.bodiesAll rest

end

/-- The bodies of all branches and loops of a program. -/
def Program.bodies (p : Program) : List Stmt :=
  p.flatMap fun
    | .function _ _ _ _ (some body) => Stmt.bodiesAll body
    | _ => []

theorem Stmt.bodiesAll_append (a b : List Stmt) :
    bodiesAll (a ++ b) = bodiesAll a ++ bodiesAll b := by
  induction a with
  | nil => rfl
  | cons t rest ih => rw [List.cons_append, bodiesAll, bodiesAll, ih, List.append_assoc]

theorem Stmt.bodiesAll_of_isAtomic {calls : List Stmt} (h : ∀ t ∈ calls, t.isAtomic) :
    bodiesAll calls = [] := by
  induction calls with
  | nil => rfl
  | cons t rest ih =>
      have ht := h t List.mem_cons_self
      rw [bodiesAll, ih fun u hu => h u (List.mem_cons_of_mem _ hu), List.append_nil]
      cases t <;> first | rfl | simp [isAtomic] at ht

/-- A statement behind calls is single if there are no calls. -/
theorem isSingle_behind {calls : List Stmt} (t : Stmt) :
    (Shader.behind calls t).isSingle = (calls.isEmpty && t.isSingle) := by
  unfold Shader.behind
  cases calls with
  | nil => rfl
  | cons call rest =>
      rw [List.isEmpty_cons]
      cases rest <;> rfl

theorem bodies_behind {calls : List Stmt} (h : ∀ u ∈ calls, u.isAtomic) (t : Stmt) :
    (Shader.behind calls t).bodies = t.bodies := by
  unfold Shader.behind
  split
  · rfl
  · rw [Stmt.bodies, Stmt.bodiesAll_append, Stmt.bodiesAll_of_isAtomic h, Stmt.bodiesAll,
      Stmt.bodiesAll, List.append_nil, List.nil_append]

end Hlsl

/-! ### Statements of the source -/

/-- What can be told of a statement before it is lowered. -/
structure Outline where
  /-- Whether it is written as one statement. -/
  single : Bool
  /-- The same of the bodies of the branches and loops in it. -/
  bodies : List Bool
  /-- The calls that have been carried out behind it. -/
  done : List ExprId

namespace Outline

/-- The outline of a statement as the body of a branch or a loop. -/
def asBody (o : Outline) (braces : Bool) : Outline :=
  { o with single := braces || o.single, bodies := (braces || o.single) :: o.bodies }

/-- Statements one after the other in braces. -/
def sequence {α : Type} (outline : List ExprId → α → Outline) (done : List ExprId) :
    List α → Outline
  | [] => ⟨true, [], done⟩
  | a :: rest =>
    let first := outline done a
    let others := sequence outline first.done rest
    ⟨true, first.bodies ++ others.bodies, others.done⟩

end Outline

namespace Shader

open Hlsl

variable (s : Shader) (buffers : List ByteBuffer)

def declaratorStores (done : List ExprId) (v : VarId) : Bool :=
  (s.var v).dims.any (fun dim => dim.any (s.stores buffers done)) ||
    (s.var v).initial?.any (s.stores buffers done)

def headerStores (done : List ExprId) (id : StmtId) : Bool :=
  match s.stmt id with
  | .declaration vars => vars.any (s.declaratorStores buffers done)
  | .expression e => s.stores buffers done e
  | _ => false

/-- Whether an expression needs nothing ahead of the statement that holds it, and stores nothing. -/
def isPlain (done : List ExprId) (id : ExprId) : Bool :=
  !s.hasAtomics id && !s.stores buffers (s.doneBy id done) id

/-- The calls that have been carried out behind the declaration of a variable. -/
def doneByLocal (done : List ExprId) (v : VarId) : List ExprId :=
  ((s.var v).initial?.map fun e => s.doneBy e done).getD done

/-- Whether a declared variable needs nothing ahead of its declaration, and stores nothing. -/
def isPlainLocal (done : List ExprId) (v : VarId) : Bool :=
  !(s.var v).initial?.any s.hasAtomics &&
    !s.declaratorStores buffers (s.doneByLocal done v) v

/-- The outline of a statement, followed to the given depth. Only what needs atomic calls gets
braces. -/
def outlineWithin : Nat → List ExprId → StmtId → Outline
  | 0, done, _ => ⟨true, [], done⟩
  | depth + 1, done, id =>
    let outline := outlineWithin depth
    let body (done : List ExprId) (id : StmtId) : Outline :=
      (outline done id).asBody (s.needsAtomics id)
    let guarded (done : List ExprId) (e : ExprId) (id : StmtId) : Outline :=
      (Outline.sequence outline (s.doneBy e done) (s.blockBody id)).asBody true
    match s.stmt id with
    | .block stmts => Outline.sequence outline done stmts
    | .declaration vars =>
      ⟨match vars with | [v] => s.isPlainLocal buffers done v | _ => false, [],
        vars.foldl s.doneByLocal done⟩
    | .expression e | .returnValue (some e) => ⟨s.isPlain buffers done e, [], s.doneBy e done⟩
    | .branch _ c onTrue none =>
      let onTrue := body (s.doneBy c done) onTrue
      { onTrue with single := s.isPlain buffers done c && onTrue.single }
    | .branch _ c onTrue (some onFalse) =>
      let onTrue := body (s.doneBy c done) onTrue
      let onFalse := body onTrue.done onFalse
      ⟨s.isPlain buffers done c && onTrue.single && onFalse.single, onTrue.bodies ++ onFalse.bodies,
        onFalse.done⟩
    | .switch _ c stmts =>
      { Outline.sequence outline (s.doneBy c done) stmts with single := s.isPlain buffers done c }
    | .label _ => ⟨false, [], done⟩
    | .whileLoop _ c b =>
      match s.guard? c with
      | some e => guarded done e b
      | none =>
        let b := body done b
        { b with single := !s.headerStores buffers done c && b.single }
    | .doLoop _ b c =>
      let b := body done b
      { b with single := b.single && !s.stores buffers b.done c }
    | .forLoop _ start c step b =>
      let stores := start.any (s.headerStores buffers done) || step.any (s.stores buffers done)
      match c.filter s.hasAtomics with
      | some e => { guarded done e b with single := !stores }
      | none =>
        let b := body done b
        { b with single := !(stores || c.any (s.stores buffers done)) && b.single }
    | _ => ⟨true, [], done⟩

end Shader

namespace Hlsl

variable {s : Shader} {buffers : List ByteBuffer} {done : List ExprId}

/-- A statement is lowered as its outline says. -/
def Follows (o : Outline) (t : Stmt) : Prop :=
  t.isSingle = o.single ∧ t.bodies.map Stmt.isSingle = o.bodies

theorem gives_sequence {α β : Type} {lower : α → LowerM β} {flags : β → List Bool}
    {outline : List ExprId → α → Outline}
    (hlower : ∀ done a, Gives (lower a) done (outline done a).done fun b =>
      flags b = (outline done a).bodies) (l : List α) :
    Gives (l.mapM lower) done (Outline.sequence outline done l).done fun bs =>
      bs.flatMap flags = (Outline.sequence outline done l).bodies := by
  induction l generalizing done with
  | nil => exact gives_pure rfl
  | cons a rest ih =>
      rw [List.mapM_cons]
      apply gives_bind (hlower done a)
      intro b hb
      apply gives_bind ih
      intro bs hbs
      apply gives_pure
      rw [List.flatMap_cons, hb, hbs]
      rfl

theorem map_bodiesAll (ts : List Stmt) :
    (Stmt.bodiesAll ts).map Stmt.isSingle = ts.flatMap fun t => t.bodies.map Stmt.isSingle := by
  induction ts with
  | nil => rfl
  | cons t rest ih => rw [Stmt.bodiesAll, List.map_append, ih, List.flatMap_cons]

theorem gives_statements {lower : StmtId → LowerM Stmt} {outline : List ExprId → StmtId → Outline}
    (hlower : ∀ done id, Gives (lower id) done (outline done id).done (Follows (outline done id)))
    (stmts : List StmtId) :
    Gives (stmts.mapM lower) done (Outline.sequence outline done stmts).done fun ts =>
      (Stmt.bodiesAll ts).map Stmt.isSingle = (Outline.sequence outline done stmts).bodies := by
  apply (gives_sequence (fun done id => (hlower done id).imp fun _ ht => ht.2) stmts).imp
  intro ts hts
  rw [map_bodiesAll, hts]

theorem gives_lowerDims (dims : List (Option ExprId)) :
    Gives (s.lowerDims buffers dims) done done fun ds =>
      ds.any (fun dim => dim.any Expr.hasStore) =
        dims.any fun dim => dim.any (s.stores buffers done) := by
  apply gives_any
  intro dim _
  exact gives_option_any gives_lowerExpr

theorem gives_lowerDeclarator (v : VarId) :
    Gives (s.lowerDeclarator buffers v) done done fun d =>
      d.hasStore = s.declaratorStores buffers done v := by
  unfold Shader.lowerDeclarator
  apply gives_bind (gives_lowerDims _)
  intro dims hdims
  apply gives_bind (gives_option_any gives_lowerExpr)
  intro initial hinitial
  apply gives_pure
  unfold Declarator.hasStore Shader.declaratorStores
  rw [hdims, hinitial]

theorem gives_lowerHeader (id : StmtId) :
    Gives (s.lowerHeader buffers id) done done fun h =>
      h.hasStore = s.headerStores buffers done id := by
  unfold Shader.lowerHeader Shader.headerStores
  cases s.stmt id with
  | declaration vars =>
      apply gives_bind (gives_any fun v _ => gives_lowerDeclarator v)
      intro ds hds
      exact gives_pure hds
  | expression e =>
      apply gives_bind (gives_lowerExpr e)
      intro e' he
      exact gives_pure he
  | _ => exact gives_pure rfl

theorem gives_lowerStart (start : Option StmtId) :
    Gives (s.lowerStart buffers start) done done fun h =>
      h.hasStore = start.any (s.headerStores buffers done) := by
  cases start with
  | none => exact gives_pure rfl
  | some id => exact gives_lowerHeader id

theorem gives_lowerLocal (v : VarId) :
    Gives (s.lowerLocal buffers v) done (s.doneByLocal done v) fun t =>
      t.isSingle = s.isPlainLocal buffers done v ∧ t.bodies = [] := by
  have hdeclare {calls : List Stmt}
      (hempty : calls.isEmpty = !(s.var v).initial?.any s.hasAtomics)
      (hatomic : ∀ u ∈ calls, u.isAtomic) :
      Gives (do
        let declarator ← s.lowerDeclarator buffers v
        return Shader.behind calls (.declaration (s.var v).flags.constant
          (s.hlslDeclaredType (s.var v).type) declarator))
        (s.doneByLocal done v) (s.doneByLocal done v) fun t =>
          t.isSingle = s.isPlainLocal buffers done v ∧ t.bodies = [] := by
    apply gives_bind (gives_lowerDeclarator v)
    intro d hd
    apply gives_pure
    rw [isSingle_behind, bodies_behind hatomic, hempty, Stmt.isSingle, hd]
    exact ⟨rfl, rfl⟩
  unfold Shader.lowerLocal
  unfold Shader.doneByLocal at hdeclare ⊢
  dsimp only
  cases hinitial : (s.var v).initial? with
  | none =>
      rw [hinitial] at hdeclare
      apply gives_bind (P := fun calls : List Stmt => calls = []) (gives_pure rfl)
      rintro _ rfl
      exact hdeclare rfl (by simp)
  | some e =>
      rw [hinitial] at hdeclare
      apply gives_bind (gives_hoistAtomics e)
      rintro calls ⟨hempty, hatomic⟩
      exact hdeclare hempty hatomic

theorem gives_lowerLocals (vars : List VarId) :
    Gives (vars.mapM (s.lowerLocal buffers)) done (vars.foldl s.doneByLocal done) fun ts =>
      ts.length = vars.length ∧ Stmt.bodiesAll ts = [] := by
  induction vars generalizing done with
  | nil => exact gives_pure ⟨rfl, rfl⟩
  | cons v rest ih =>
      rw [List.mapM_cons]
      apply gives_bind (gives_lowerLocal v)
      rintro t ⟨_, hbodies⟩
      apply gives_bind ih
      rintro ts ⟨hlength, hall⟩
      apply gives_pure
      constructor
      · rw [List.length_cons, List.length_cons, hlength]
      · rw [Stmt.bodiesAll, hbodies, hall, List.append_nil]

theorem gives_declaration (vars : List VarId) :
    Gives (vars.mapM (s.lowerLocal buffers)) done (vars.foldl s.doneByLocal done) fun ts =>
      Stmt.isSingleLine ts =
          (match vars with | [v] => s.isPlainLocal buffers done v | _ => false) ∧
        Stmt.bodiesAll ts = [] := by
  cases vars with
  | nil => exact gives_pure ⟨rfl, rfl⟩
  | cons v rest =>
      rw [List.mapM_cons]
      apply gives_bind (gives_lowerLocal v)
      rintro t ⟨hsingle, hbodies⟩
      apply gives_bind (gives_lowerLocals rest)
      rintro ts ⟨hlength, hall⟩
      apply gives_pure
      constructor
      · cases rest with
        | nil =>
            rw [List.length_eq_zero_iff.1 hlength, Stmt.isSingleLine, hsingle]
        | cons w rest =>
            cases ts with
            | nil => simp at hlength
            | cons u us => rfl
      · rw [Stmt.bodiesAll, hbodies, hall, List.append_nil]

theorem follows_behind {calls : List Stmt} {t : Stmt} {e : ExprId} {o : Outline}
    (hcalls : calls.isEmpty = (!s.hasAtomics e) ∧ ∀ u ∈ calls, u.isAtomic)
    (hsingle : (!s.hasAtomics e && t.isSingle) = o.single)
    (hbodies : t.bodies.map Stmt.isSingle = o.bodies) : Follows o (Shader.behind calls t) := by
  constructor
  · rw [isSingle_behind, hcalls.1, hsingle]
  · rw [bodies_behind hcalls.2, hbodies]

theorem gives_lowerBody {lower : StmtId → LowerM Stmt} {o : Outline} {id : StmtId}
    (h : Gives (lower id) done o.done (Follows o)) :
    Gives (s.lowerBody lower id) done (o.asBody (s.needsAtomics id)).done fun t =>
      t.isSingle = (o.asBody (s.needsAtomics id)).single ∧
        (t :: t.bodies).map Stmt.isSingle = (o.asBody (s.needsAtomics id)).bodies := by
  unfold Shader.lowerBody
  apply gives_bind h
  rintro t ⟨hsingle, hbodies⟩
  apply gives_pure
  unfold Outline.asBody
  cases s.needsAtomics id with
  | true =>
      refine ⟨rfl, ?_⟩
      simp [Stmt.isSingle, Stmt.bodies, Stmt.bodiesAll, hbodies]
  | false =>
      refine ⟨hsingle, ?_⟩
      simp [hsingle, hbodies]

theorem gives_lowerGuarded {lower : StmtId → LowerM Stmt}
    {outline : List ExprId → StmtId → Outline}
    (hlower : ∀ done id, Gives (lower id) done (outline done id).done (Follows (outline done id)))
    (e : ExprId) (id : StmtId) :
    Gives (s.lowerGuarded buffers lower e id) done
      (Outline.sequence outline (s.doneBy e done) (s.blockBody id)).done fun t =>
        t.isSingle ∧ t.bodies.map Stmt.isSingle =
          (Outline.sequence outline (s.doneBy e done) (s.blockBody id)).bodies := by
  unfold Shader.lowerGuarded
  apply gives_bind (gives_hoistAtomics e)
  rintro calls ⟨_, hatomic⟩
  apply gives_bind (gives_lowerExpr e)
  intro test _
  apply gives_bind (gives_statements hlower _)
  intro body hbody
  apply gives_pure
  refine ⟨rfl, ?_⟩
  rw [Stmt.bodies, Stmt.bodiesAll, bodies_behind hatomic]
  exact hbody

theorem gives_lowerValue {view : Expr → Stmt} (hsingle : ∀ x, (view x).isSingle = !x.hasStore)
    (hbodies : ∀ x, (view x).bodies = []) (e : ExprId) :
    Gives (do
      let calls ← s.hoistAtomics buffers e
      return Shader.behind calls (view (← s.lowerExpr buffers e))) done (s.doneBy e done)
      (Follows ⟨s.isPlain buffers done e, [], s.doneBy e done⟩) := by
  apply gives_bind (gives_hoistAtomics e)
  intro calls hcalls
  apply gives_bind (gives_lowerExpr e)
  intro x hx
  apply gives_pure
  apply follows_behind hcalls
  · rw [hsingle, hx]
    rfl
  · rw [hbodies]
    rfl

section

variable {depth : Nat} {id : StmtId}
  (ih : ∀ done id, Gives (s.lowerStmtWithin buffers depth id) done
    (s.outlineWithin buffers depth done id).done (Follows (s.outlineWithin buffers depth done id)))
include ih

theorem gives_branch {hints : FlowHints} {c : ExprId} {onTrue : StmtId}
    {onFalse : Option StmtId} (hstmt : s.stmt id = .branch hints c onTrue onFalse) :
    Gives (s.lowerStmtWithin buffers (depth + 1) id) done
      (s.outlineWithin buffers (depth + 1) done id).done
      (Follows (s.outlineWithin buffers (depth + 1) done id)) := by
  unfold Shader.lowerStmtWithin Shader.outlineWithin
  rw [hstmt]
  apply gives_bind (gives_hoistAtomics c)
  intro calls hcalls
  apply gives_bind (gives_lowerExpr c)
  intro c' hc
  apply gives_bind (gives_lowerBody (ih _ onTrue))
  rintro t ⟨htsingle, htbodies⟩
  cases onFalse with
  | none =>
      apply gives_bind (P := fun f : Option Stmt => f = none) (gives_pure rfl)
      rintro _ rfl
      apply gives_pure
      apply follows_behind hcalls
      · rw [Stmt.isSingle, hc, htsingle, ← Bool.and_assoc]
        rfl
      · exact htbodies
  | some onFalse =>
      have hfalse := gives_lowerBody (s := s) (ih
        ((s.outlineWithin buffers depth (s.doneBy c done) onTrue).asBody
          (s.needsAtomics onTrue)).done onFalse)
      apply gives_bind (gives_some hfalse)
      rintro _ ⟨u, rfl, husingle, hubodies⟩
      apply gives_pure
      apply follows_behind hcalls
      · rw [Stmt.isSingle, hc, htsingle, husingle, ← Bool.and_assoc, ← Bool.and_assoc]
        rfl
      · rw [Stmt.bodies, List.map_append, htbodies, hubodies]

theorem gives_whileLoop {hints : FlowHints} {c b : StmtId}
    (hstmt : s.stmt id = .whileLoop hints c b) :
    Gives (s.lowerStmtWithin buffers (depth + 1) id) done
      (s.outlineWithin buffers (depth + 1) done id).done
      (Follows (s.outlineWithin buffers (depth + 1) done id)) := by
  unfold Shader.lowerStmtWithin Shader.outlineWithin
  rw [hstmt]
  dsimp only
  cases s.guard? c with
  | some e =>
      apply gives_bind (gives_lowerGuarded ih e b)
      rintro t ⟨hsingle, hbodies⟩
      apply gives_pure
      constructor
      · rw [Stmt.isSingle, hsingle]
        rfl
      · rw [Stmt.bodies, List.map_cons, hsingle, hbodies]
        rfl
  | none =>
      apply gives_bind (gives_lowerHeader c)
      intro header hheader
      apply gives_bind (gives_lowerBody (ih _ b))
      rintro t ⟨hsingle, hbodies⟩
      apply gives_pure
      constructor
      · rw [Stmt.isSingle, hheader, hsingle]
      · exact hbodies

theorem gives_forLoop {hints : FlowHints} {start : Option StmtId} {c step : Option ExprId}
    {b : StmtId} (hstmt : s.stmt id = .forLoop hints start c step b) :
    Gives (s.lowerStmtWithin buffers (depth + 1) id) done
      (s.outlineWithin buffers (depth + 1) done id).done
      (Follows (s.outlineWithin buffers (depth + 1) done id)) := by
  have hvalue (o : Option ExprId) : Gives (o.mapM (s.lowerExpr buffers)) done done fun x =>
      x.any Expr.hasStore = o.any (s.stores buffers done) :=
    gives_option_any gives_lowerExpr
  unfold Shader.lowerStmtWithin Shader.outlineWithin
  rw [hstmt]
  dsimp only
  apply gives_bind (gives_lowerStart start)
  intro header hheader
  cases c.filter s.hasAtomics with
  | some e =>
      apply gives_bind (hvalue step)
      intro step' hstep
      apply gives_bind (gives_lowerGuarded ih e b)
      rintro t ⟨hsingle, hbodies⟩
      apply gives_pure
      constructor
      · rw [Stmt.isSingle, hheader, hstep, hsingle, Option.any_none, Bool.or_false, Bool.and_true]
      · rw [Stmt.bodies, List.map_cons, hsingle, hbodies]
        rfl
  | none =>
      apply gives_bind (hvalue c)
      intro c' hc
      apply gives_bind (hvalue step)
      intro step' hstep
      apply gives_bind (gives_lowerBody (ih _ b))
      rintro t ⟨hsingle, hbodies⟩
      apply gives_pure
      constructor
      · rw [Stmt.isSingle, hheader, hc, hstep, hsingle, Bool.or_right_comm]
      · exact hbodies

end

theorem gives_lowerStmtWithin (depth : Nat) (done : List ExprId) (id : StmtId) :
    Gives (s.lowerStmtWithin buffers depth id) done (s.outlineWithin buffers depth done id).done
      (Follows (s.outlineWithin buffers depth done id)) := by
  induction depth generalizing done id with
  | zero => exact gives_pure ⟨rfl, rfl⟩
  | succ depth ih =>
      cases hstmt : s.stmt id
      case branch => exact gives_branch ih hstmt
      case whileLoop => exact gives_whileLoop ih hstmt
      case forLoop => exact gives_forLoop ih hstmt
      all_goals
        unfold Shader.lowerStmtWithin Shader.outlineWithin
        rw [hstmt]
        dsimp only
      case block stmts =>
        apply gives_bind (gives_statements ih stmts)
        intro ts hts
        apply gives_pure
        refine ⟨?_, hts⟩
        cases stmts <;> rfl
      case declaration vars =>
        apply gives_bind (gives_declaration vars)
        rintro ts ⟨hsingle, hbodies⟩
        apply gives_pure
        refine ⟨hsingle, ?_⟩
        rw [Stmt.bodies, hbodies]
        rfl
      case expression e => exact gives_lowerValue (fun _ => rfl) (fun _ => rfl) e
      case switch hints c stmts =>
        apply gives_bind (gives_hoistAtomics c)
        intro calls hcalls
        apply gives_bind (gives_lowerExpr c)
        intro c' hc
        apply gives_bind (gives_statements ih stmts)
        intro ts hts
        apply gives_pure
        apply follows_behind hcalls
        · rw [Stmt.isSingle, hc]
          rfl
        · exact hts
      case label value =>
        apply gives_bind (gives_option_any gives_lowerExpr)
        intro value' _
        exact gives_pure ⟨rfl, rfl⟩
      case doLoop hints b c =>
        apply gives_bind (gives_lowerBody (ih _ b))
        rintro t ⟨hsingle, hbodies⟩
        apply gives_bind (gives_lowerExpr c)
        intro c' hc
        apply gives_pure
        constructor
        · rw [Stmt.isSingle, hc, hsingle]
        · exact hbodies
      case returnValue value =>
        cases value with
        | none => exact gives_pure ⟨rfl, rfl⟩
        | some e => exact gives_lowerValue (fun _ => rfl) (fun _ => rfl) e
      all_goals exact gives_pure ⟨rfl, rfl⟩

end Hlsl

end ShaderBridge
