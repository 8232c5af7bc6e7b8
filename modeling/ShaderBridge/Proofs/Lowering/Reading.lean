import ShaderBridge.Proofs.Layout.Buffer
import ShaderBridge.Proofs.Layout.Region

/-!
Writes to storage fields. In the source they are assignments and steps, which may stand in any
expression; in the target language they are stores, which are statements. So a write is carried out
where it is all that a statement is, and what is said here of the sites of expressions in function
bodies is what it takes that no write is lost.

Where an expression holds no such write, nor do the expressions inside of it, among which are the
indices of accesses. What they are lowered to only reads, in whatever state they are lowered, and so
do the atomic calls that are carried out ahead of it.
-/

/-! ## Sites -/

namespace ShaderBridge

open Hlsl

/-- Where an expression stands in a function body: on its own as a statement, or inside of one. -/
inductive Site (ε : Type) where
  | statement (e : ε)
  | inside (e : ε)

def Site.expr {ε : Type} : Site ε → ε
  | statement e | inside e => e

/-! ### The target language -/

namespace Hlsl

/-- Whether an expression is what is read from a field, or a part of it. -/
def Expr.isLoaded : Expr → Bool
  | .load .. => true
  | .member e _ | .index e _ => e.isLoaded
  | _ => false

/-- Whether an expression holds no store, and nothing that is read from a field is written to. -/
def Expr.onlyReads (e : Expr) : Bool :=
  !e.writes Expr.isLoaded

def Declarator.exprs (d : Declarator) : List Expr :=
  d.dims.flatMap Option.toList ++ d.initial.toList

def Header.exprs : Header → List Expr
  | nothing => []
  | expression e => [e]
  | declaration _ vars => vars.flatMap Declarator.exprs

mutual

def Stmt.sites : Stmt → List (Site Expr)
  | .lines body | .block body => sitesAll body
  | .empty | .continueLoop | .breakLoop | .discard => []
  | .declaration _ _ d => d.exprs.map .inside
  | .expression e => [.statement e]
  | .atomic _ _ _ args => args.map .inside
  | .breakUnless c => [.inside c]
  | .branch _ c onTrue none => .inside c :: onTrue.sites
  | .branch _ c onTrue (some onFalse) => .inside c :: (onTrue.sites ++ onFalse.sites)
  | .switch _ c body => .inside c :: sitesAll body
  | .label value | .returnValue value => value.toList.map .inside
  | .whileLoop _ header body => header.exprs.map .inside ++ body.sites
  | .doLoop _ body c => body.sites ++ [.inside c]
  | .forLoop _ start c step body =>
    (start.exprs ++ (c.toList ++ step.toList)).map .inside ++ body.sites

def Stmt.sitesAll : List Stmt → List (Site Expr)
  | [] => []
  | t :: rest => t.sites ++ Stmt.sitesAll rest

end

/-- The sites of the expressions in the functions of a program. -/
def Program.sites (p : Program) : List (Site Expr) :=
  p.flatMap fun
    | .function _ _ _ _ (some body) => Stmt.sitesAll body
    | _ => []

def storeAt? : Site Expr → Option Expr
  | .statement (.store temp type value address resource leaves) =>
    some (.store temp type value address resource leaves)
  | _ => none

/-- Whether all stores at a site are statements, and nothing that is read from a field is written
to. -/
def isTidy : Site Expr → Bool
  | .statement (.store _ _ value address _ _) => value.onlyReads && address.onlyReads
  | site => site.expr.onlyReads

end Hlsl

/-! ### The source -/

namespace Shader

variable (s : Shader)

/-- Whether a variable is declared in a storage block. -/
def isBlockField (v : VarId) : Bool :=
  s.blocks.toList.any fun id =>
    (s.struct id).block.any (fun info => info.storage == .buffer) && (s.struct id).fields.contains v

/-- Whether an expression names a storage field, or a part of one, followed to the given depth. -/
def namesFieldWithin : Nat → ExprId → Bool
  | 0, _ => false
  | depth + 1, e =>
    (s.namedVar? e).any s.isBlockField ||
      match s.expr e with
      | .member operand _ _ | .subscript operand _ => namesFieldWithin depth operand
      | _ => false

/-- What an assignment or a step writes to. -/
def written? (e : ExprId) : Option ExprId :=
  match s.expr e with
  | .assign _ left _ => some left
  | .unary op operand => if op.isStep then some operand else none
  | _ => none

/-- Whether an expression writes to a storage field or a part of one. -/
def isWrite (e : ExprId) : Bool :=
  (s.written? e).any (s.namesFieldWithin (s.exprs.size + 1))

/-- The writes to storage fields that an expression holds. -/
def writesIn (e : ExprId) : List ExprId :=
  (s.nodes e).filter s.isWrite

def writesAt (sites : List (Site ExprId)) : List ExprId :=
  sites.flatMap fun site => s.writesIn site.expr

def declaratorExprs (v : VarId) : List ExprId :=
  (s.var v).dims.flatMap Option.toList ++ (s.var v).initial?.toList

def headerExprs (id : StmtId) : List ExprId :=
  match s.stmt id with
  | .declaration vars => vars.flatMap s.declaratorExprs
  | .expression e => [e]
  | _ => []

/-- The sites of the expressions in a statement, followed to the given depth. -/
def sitesWithin : Nat → StmtId → List (Site ExprId)
  | 0, _ => []
  | depth + 1, id =>
    match s.stmt id with
    | .block stmts => stmts.flatMap (sitesWithin depth)
    | .declaration vars => vars.flatMap fun v => (s.declaratorExprs v).map .inside
    | .expression e => [.statement e]
    | .branch _ c onTrue onFalse =>
      .inside c :: (sitesWithin depth onTrue ++ onFalse.toList.flatMap (sitesWithin depth))
    | .switch _ c stmts => .inside c :: stmts.flatMap (sitesWithin depth)
    | .label value | .returnValue value => value.toList.map .inside
    | .whileLoop _ c b =>
      match s.guard? c with
      | some e => .inside e :: (s.blockBody b).flatMap (sitesWithin depth)
      | none => (s.headerExprs c).map .inside ++ sitesWithin depth b
    | .doLoop _ b c => sitesWithin depth b ++ [.inside c]
    | .forLoop _ start c step b =>
      let start := start.toList.flatMap s.headerExprs
      match c.filter s.hasAtomics with
      | some e =>
        (start ++ step.toList).map .inside ++
          .inside e :: (s.blockBody b).flatMap (sitesWithin depth)
      | none => (start ++ (c.toList ++ step.toList)).map .inside ++ sitesWithin depth b
    | .empty | .continueLoop | .breakLoop | .discard | .rayJump _ => []

/-- The sites of the expressions in a function that belongs to the program. -/
def functionSites (id : FuncId) : List (Site ExprId) :=
  if (s.func id).builtin then []
  else ((s.func id).body.getD []).flatMap (s.sitesWithin (s.stmts.size + 1))

def sites : List (Site ExprId) :=
  s.functions.toList.flatMap s.functionSites

/-! ### Writes and stores -/

/-- What an index of an access is lowered to. -/
def LoweredTo (e : ExprId) (x : Hlsl.Expr) : Prop :=
  ∃ state, x = ((s.lowerWithin s.storageFields s.exprs.size e).run state).1

/-- A write is carried out by a store whose leaves cover all bytes of what is written to. -/
def StoredBy (w : ExprId) (store : Hlsl.Expr) : Prop :=
  ∃ target a temp type value indices leaves, s.written? w = some target ∧
    s.access? s.storageFields target = some a ∧
    store = .store temp type value (a.expr indices) a.buffer.resource leaves ∧
    List.Forall₂ (fun term => s.LoweredTo term.1) a.terms indices ∧
    ∀ value, s.KeepsConstants value → ∀ r, s.region? value target = some r →
      r.resource = a.buffer.resource ∧ ∀ p, s.HasByte r p →
        ∃ leaf ∈ leaves, ∃ b, leaf.Covers b ∧ r.place p = a.address (fun i => value i) + (b : Nat)

/-- Whether the writes of an expression at its site are carried out: there are none, or the
expression is a statement on its own and the only write in it, an assignment whose access reaches
what is written to. -/
def Settled : Site ExprId → Prop
  | .inside e => s.writesIn e = []
  | .statement e =>
    s.writesIn e = [] ∨ s.writesIn e = [e] ∧ ∃ op left right a, s.expr e = .assign op left right ∧
      s.access? s.storageFields left = some a ∧ s.Reaches left a

/-- Every write to a storage field in a function body is carried out by a store of its own, all
stores are statements, and nothing that is read from a field is written to. -/
structure KeepsWrites (options : Options) : Prop where
  stored : List.Forall₂ s.StoredBy (s.writesAt s.sites)
    ((s.toProgram options).sites.filterMap storeAt?)
  tidy : ∀ site ∈ (s.toProgram options).sites, isTidy site

end Shader

end ShaderBridge

/-! ## Expressions that only read -/

namespace ShaderBridge

open Hlsl

namespace Shader

variable (s : Shader)

/-- An expression that holds no write to a storage field. -/
def Quiet (e : ExprId) : Prop :=
  ∀ level w, s.Holds level e w → s.isWrite w = false

variable {s} {level : Nat} {e o w : ExprId}

theorem Quiet.of_holds (h : s.Quiet e) (hw : s.Holds level e w) : s.Quiet w := by
  intro level' x hx
  exact h _ x (hw.trans hx)

theorem Quiet.operand (h : s.Quiet e) (ho : o ∈ (s.expr e).operands) : s.Quiet o :=
  h.of_holds (.operand ho (.here o))

theorem Quiet.isWrite_eq_false (h : s.Quiet e) : s.isWrite e = false :=
  h 0 e (.here e)

theorem index_lt_of_isWrite (h : s.isWrite w) : w.index < s.exprs.size := by
  apply index_lt_of_expr rfl
  intro hdefault
  unfold isWrite written? at h
  rw [hdefault] at h
  cases h

theorem quiet_of_nodesWithin (h : ∀ w ∈ s.nodesWithin s.exprs.size o, s.isWrite w = false) :
    s.Quiet o := by
  intro level w hw
  by_contra hwrite
  rw [Bool.not_eq_false] at hwrite
  obtain ⟨k, hk, hholds⟩ := hw.exists_lt (index_lt_of_isWrite hwrite)
  rw [h w (mem_nodesWithin_iff.2 ⟨k, hk, hholds⟩)] at hwrite
  cases hwrite

theorem writesIn_eq (e : ExprId) :
    s.writesIn e = (if s.isWrite e then [e] else []) ++
      ((s.expr e).operands.flatMap (s.nodesWithin s.exprs.size)).filter s.isWrite := by
  unfold writesIn nodes nodesWithin
  rw [List.filter_cons]
  split
  · rfl
  · rfl

theorem forall_operands_iff (e : ExprId) :
    ((s.expr e).operands.flatMap (s.nodesWithin s.exprs.size)).filter s.isWrite = [] ↔
      ∀ o ∈ (s.expr e).operands, s.Quiet o := by
  rw [List.filter_eq_nil_iff]
  constructor
  · intro h o ho
    apply quiet_of_nodesWithin
    intro w hw
    simpa using h w (List.mem_flatMap.2 ⟨o, ho, hw⟩)
  · intro h w hw
    obtain ⟨o, ho, hw⟩ := List.mem_flatMap.1 hw
    obtain ⟨level, _, hholds⟩ := mem_nodesWithin_iff.1 hw
    simpa using h o ho level w hholds

theorem writesIn_eq_nil_iff (e : ExprId) : s.writesIn e = [] ↔ s.Quiet e := by
  rw [writesIn_eq, List.append_eq_nil_iff, forall_operands_iff]
  constructor
  · rintro ⟨hself, hoperands⟩ level w hw
    cases hw with
    | here => simpa using hself
    | operand ho hw => exact hoperands _ ho _ w hw
  · intro h
    constructor
    · rw [h.isWrite_eq_false]
      rfl
    · intro o ho
      exact h.operand ho

theorem writesIn_eq_self_iff (h : s.isWrite e) :
    s.writesIn e = [e] ↔ ∀ o ∈ (s.expr e).operands, s.Quiet o := by
  rw [writesIn_eq, if_pos h, List.singleton_append, List.cons_eq_cons, forall_operands_iff]
  exact and_iff_right rfl

/-! ### Names of fields -/

theorem isBlockField_of_mem_storageFields {buffer : ByteBuffer} (h : buffer ∈ s.storageFields) :
    s.isBlockField buffer.field := by
  obtain ⟨id, hid, hbuffer⟩ := List.mem_flatMap.1 h
  have hfield : buffer.field ∈ (s.struct id).fields := by
    rw [← field_byteBuffers]
    exact List.mem_map_of_mem (mem_byteBuffers_of_mem_blockBuffers hbuffer)
  apply List.any_eq_true.2
  refine ⟨id, hid, ?_⟩
  unfold blockBuffers at hbuffer
  cases hblock : (s.struct id).block with
  | none =>
      rw [hblock] at hbuffer
      cases hbuffer
  | some info =>
      cases hname : (s.struct id).name with
      | none =>
          rw [hblock, hname] at hbuffer
          cases hbuffer
      | some name =>
          rw [hblock, hname] at hbuffer
          dsimp only at hbuffer
          split at hbuffer
          · next hstorage =>
              rw [Bool.and_eq_true] at hstorage
              rw [Option.any_some, hstorage.2, Bool.true_and]
              exact List.contains_iff_mem.2 hfield
          · cases hbuffer

theorem isBlockField_of_bufferOf? (h : (s.bufferOf? s.storageFields e).isSome) :
    (s.namedVar? e).any s.isBlockField := by
  obtain ⟨buffer, hbuffer⟩ := Option.isSome_iff_exists.1 h
  unfold bufferOf? at hbuffer
  obtain ⟨v, hv, hfind⟩ := Option.bind_eq_some_iff.1 hbuffer
  have hmem := isBlockField_of_mem_storageFields (List.mem_of_find?_eq_some hfind)
  rw [field_of_find? hfind] at hmem
  rw [hv, Option.any_some, hmem]

theorem namesFieldWithin_of_bufferOf? (h : (s.bufferOf? s.storageFields e).isSome) (depth : Nat) :
    s.namesFieldWithin (depth + 1) e := by
  unfold namesFieldWithin
  rw [isBlockField_of_bufferOf? h, Bool.true_or]

theorem namesFieldWithin_mono {depth depth' : Nat} (hdepth : depth ≤ depth')
    (h : s.namesFieldWithin depth e) : s.namesFieldWithin depth' e := by
  induction depth generalizing depth' e with
  | zero => cases h
  | succ depth ih =>
      obtain ⟨n, rfl⟩ := Nat.exists_eq_succ_of_ne_zero (Nat.ne_zero_of_lt hdepth)
      unfold namesFieldWithin at h ⊢
      rw [Bool.or_eq_true] at h ⊢
      apply h.imp_right
      cases s.expr e with
      | member | subscript => exact ih (Nat.le_of_succ_le_succ hdepth)
      | _ => exact id

theorem namesFieldWithin_of_access {depth : Nat}
    (h : (s.accessWithin? s.storageFields depth e).isSome) : s.namesFieldWithin depth e := by
  induction depth generalizing e with
  | zero => cases h
  | succ depth ih =>
      obtain ⟨a, ha⟩ := Option.isSome_iff_exists.1 h
      cases accessStep_of_accessWithin? ha with
      | field hsome => exact namesFieldWithin_of_bufferOf? (Option.isSome_of_eq_some hsome) depth
      | subscript _ _ he hwhole | member _ _ he hwhole =>
          have hinner := ih (Option.isSome_of_eq_some hwhole)
          unfold namesFieldWithin
          rw [he, Bool.or_eq_true]
          exact .inr hinner

theorem holds_of_mem_terms {buffers : List ByteBuffer} {depth : Nat} {a : Access}
    (h : s.accessWithin? buffers depth e = some a) {term : ExprId × Nat} (hterm : term ∈ a.terms) :
    ∃ level, s.Holds level e term.1 := by
  induction depth generalizing e a with
  | zero => cases h
  | succ depth ih =>
      cases accessStep_of_accessWithin? h with
      | field => cases hterm
      | @subscript operand index whole _ _ he hwhole =>
          rcases List.mem_append.1 hterm with hterm | hterm
          · obtain ⟨level, hlevel⟩ := ih hwhole hterm
            exact ⟨level + 1, .operand (by simp [he, Expr.operands]) hlevel⟩
          · rw [List.mem_singleton.1 hterm]
            exact ⟨1, .operand (by simp [he, Expr.operands]) (.here index)⟩
      | member _ _ he hwhole =>
          obtain ⟨level, hlevel⟩ := ih hwhole hterm
          exact ⟨level + 1, .operand (by simp [he, Expr.operands]) hlevel⟩

end Shader

def Hlsl.Expr.isStore : Hlsl.Expr → Bool
  | .store .. => true
  | _ => false

namespace Shader

variable (s : Shader) (buffers : List ByteBuffer) (done : List ExprId)

/-- Whether an expression is lowered to what is read from a field, or to a part of it. -/
def loadedWithin : Nat → ExprId → Bool
  | 0, _ => false
  | depth + 1, e =>
    if done.contains e then false
    else
      match s.expr e with
      | .var _ => (s.bufferOf? buffers e).isSome
      | .member operand _ _ => (s.bufferOf? buffers e).isSome || loadedWithin depth operand
      | .subscript operand _ => (s.bufferOf? buffers operand).isSome || loadedWithin depth operand
      | _ => false

end Shader

namespace Hlsl

variable {s : Shader} {buffers : List ByteBuffer} {done : List ExprId}

theorem isLoaded_of_forms {depth temp : Nat} {e : ExprId} {os : List ExprId} {xs : List Expr}
    {x : Expr} (h : s.Forms buffers e temp os xs x) (hdone : done.contains e = false)
    (hxs : List.Forall₂ (fun o x => x.isLoaded = s.loadedWithin buffers done depth o) os xs) :
    x.isLoaded = s.loadedWithin buffers done (depth + 1) e := by
  unfold Shader.loadedWithin
  rw [hdone, if_neg Bool.false_ne_true]
  cases h with
  | name hexpr hbuffer | whole hexpr hbuffer =>
      simp [hexpr, hbuffer, Shader.loadExpr, Expr.isLoaded]
  | field hexpr hbuffer => simp [hexpr, hbuffer, Shader.loadExpr, Expr.isLoaded]
  | member x hexpr hbuffer | subscript x y hexpr hbuffer =>
      obtain _ | ⟨hx, _⟩ := hxs
      simp [hexpr, hbuffer, hx, Expr.isLoaded]
  | element x hexpr hbuffer => simp [hexpr, hbuffer, Shader.loadExpr, Expr.isLoaded]
  | _ => simp [*, Shader.stored, Expr.isLoaded]

theorem isStored_of_forms {temp : Nat} {e : ExprId} {os : List ExprId} {xs : List Expr} {x : Expr}
    (h : s.Forms buffers e temp os xs x) (hstore : x.isStore) : s.isStored buffers e := by
  cases h with
  | store x indices hexpr haccess | update x y indices hexpr haccess =>
      exact Shader.isStored_iff.2 ⟨_, _, _, _, hexpr, haccess⟩
  | _ => cases hstore

/-- Whether an expression is lowered to what is read from a field can be told from the source, and
only an assignment to a buffer is lowered to a store. -/
theorem gives_isLoaded (depth : Nat) (id : ExprId) :
    Gives (s.lowerWithin buffers depth id) done done fun e =>
      e.isLoaded = s.loadedWithin buffers done depth id ∧
        (e.isStore → s.isStored buffers id) := by
  induction depth generalizing id with
  | zero => exact gives_pure ⟨rfl, nofun⟩
  | succ depth ih =>
      refine gives_of_forms (fun o _ => ih o) (fun hdone temp => ?_)
        fun hdone _ _ _ _ hxs hforms => ?_
      · rw [Shader.loadedWithin, if_pos hdone]
        exact ⟨rfl, nofun⟩
      · exact ⟨isLoaded_of_forms hforms hdone (hxs.imp fun _ _ h => h.1), isStored_of_forms hforms⟩

end Hlsl

namespace Shader

variable {s : Shader} {done : List ExprId} {depth : Nat} {e : ExprId}

theorem namesFieldWithin_of_loadedWithin (h : s.loadedWithin s.storageFields done depth e) :
    s.namesFieldWithin (depth + 1) e := by
  induction depth generalizing e with
  | zero => cases h
  | succ depth ih =>
      unfold loadedWithin at h
      unfold namesFieldWithin
      rw [Bool.or_eq_true]
      split at h
      · cases h
      · cases hexpr : s.expr e with
        | var v =>
            rw [hexpr] at h
            exact .inl (isBlockField_of_bufferOf? h)
        | member operand name field =>
            rw [hexpr] at h
            exact (Bool.or_eq_true _ _ ▸ h).imp isBlockField_of_bufferOf? ih
        | subscript operand index =>
            rw [hexpr] at h
            right
            rcases Bool.or_eq_true _ _ ▸ h with hbuffer | h
            · exact namesFieldWithin_of_bufferOf? hbuffer depth
            · exact ih h
        | _ =>
            rw [hexpr] at h
            cases h

theorem isWrite_of_written? {w o : ExprId} (h : s.written? w = some o)
    (ho : s.namesFieldWithin (s.exprs.size + 1) o) : s.isWrite w := by
  unfold isWrite
  rw [h]
  exact ho

theorem exists_of_samplerIndex? {arg index : ExprId} (h : s.samplerIndex? arg = some index) :
    ∃ operand v, s.expr arg = .subscript operand index ∧ s.expr operand = .var v := by
  unfold samplerIndex? combinedSampler? at h
  cases hexpr : s.expr arg with
  | subscript operand i =>
      rw [hexpr] at h
      cases hoperand : s.expr operand with
      | var v =>
          simp only [hoperand, Option.map_map, Option.bind_map, Option.bind_eq_some_iff] at h
          obtain ⟨state, _, hindex⟩ := h
          cases hindex
          exact ⟨operand, v, rfl, hoperand⟩
      | _ => simp [hoperand] at h
  | var v =>
      simp only [hexpr, Option.map_map, Option.bind_map, Option.bind_eq_some_iff] at h
      obtain ⟨state, _, hindex⟩ := h
      cases hindex
  | _ => simp [hexpr] at h

theorem operand_of_samplerIndex? {arg index : ExprId} (h : s.samplerIndex? arg = some index) :
    index ∈ (s.expr arg).operands := by
  obtain ⟨operand, v, hexpr, _⟩ := exists_of_samplerIndex? h
  simp [hexpr, Expr.operands]

theorem exists_operand_of_mem_lowered {buffers : List ByteBuffer} {o : ExprId}
    (h : o ∈ s.lowered buffers e) : ∃ p ∈ (s.expr e).operands, ∃ level, s.Holds level p o := by
  have hself (ho : o ∈ (s.expr e).operands) : ∃ p ∈ (s.expr e).operands, ∃ level,
      s.Holds level p o := ⟨o, ho, 0, .here o⟩
  unfold lowered at h
  cases hexpr : s.expr e with
  | constant c | var v =>
      rw [hexpr] at h
      cases h
  | call name args target =>
      rw [hexpr] at h hself
      obtain ⟨a, ha, ho⟩ := List.mem_flatMap.1 h
      rcases List.mem_cons.1 ho with rfl | ho
      · exact hself ha
      · exact ⟨a, ha, 1, .operand (operand_of_samplerIndex? (Option.mem_toList.1 ho)) (.here o)⟩
  | assign op left right =>
      rw [hexpr] at h hself
      dsimp only at h
      cases haccess : s.access? buffers left with
      | none => exact hself (by simpa [haccess, Expr.operands] using h)
      | some access =>
          simp only [haccess, List.mem_append, List.mem_cons, List.mem_map] at h
          obtain hleft | rfl | ⟨term, hterm, rfl⟩ := h
          · exact hself (by simp_all [Expr.operands])
          · exact hself (by simp [Expr.operands])
          · exact ⟨left, by simp [Expr.operands], holds_of_mem_terms haccess hterm⟩
  | member operand name field | subscript operand index | binary op left right =>
      rw [hexpr] at h hself
      dsimp only at h
      refine hself ?_
      split at h <;> simp_all [Expr.operands, or_comm]
  | _ =>
      rw [hexpr] at h hself
      exact hself h

theorem writesWithin_of_quiet (hdepth : depth ≤ s.exprs.size + 1) (h : s.Quiet e) :
    s.writesWithin s.storageFields (s.loadedWithin s.storageFields done) done depth e = false := by
  induction depth generalizing e with
  | zero => rfl
  | succ depth ih =>
      have hquiet {o : ExprId} (ho : s.Quiet o) :
          s.writesWithin s.storageFields (s.loadedWithin s.storageFields done) done depth o =
            false :=
        ih (Nat.le_of_succ_le hdepth) ho
      have hoperands : ∀ o ∈ (s.expr e).operands, s.writesWithin s.storageFields
          (s.loadedWithin s.storageFields done) done depth o = false :=
        fun o ho => hquiet (h.operand ho)
      -- What an assignment in a quiet expression writes to is no field, hence it is never loaded.
      have hnames {o : ExprId} (ho : s.written? e = some o) :
          s.namesFieldWithin (s.exprs.size + 1) o = false := by
        by_contra htrue
        rw [Bool.not_eq_false] at htrue
        have hwrite := isWrite_of_written? ho htrue
        rw [h.isWrite_eq_false] at hwrite
        cases hwrite
      have hloaded {o : ExprId} (ho : s.written? e = some o) :
          s.loadedWithin s.storageFields done depth o = false := by
        by_contra htrue
        rw [Bool.not_eq_false] at htrue
        have hfield := namesFieldWithin_mono hdepth (namesFieldWithin_of_loadedWithin htrue)
        rw [hnames ho] at hfield
        cases hfield
      unfold writesWithin
      split
      · rfl
      · cases hexpr : s.expr e with
        | constant | var => rfl
        | call name args target =>
            apply List.any_eq_false.2
            intro arg harg
            have hmem : arg ∈ (s.expr e).operands := by
              rw [hexpr]
              exact harg
            cases hsampler : s.samplerIndex? arg with
            | none => simp [hoperands arg hmem]
            | some index =>
                have hindex := hquiet ((h.operand hmem).operand (operand_of_samplerIndex? hsampler))
                simp [hoperands arg hmem, hindex]
        | construct type args | aggregate args =>
            rw [hexpr] at hoperands
            apply List.any_eq_false.2
            intro arg harg
            simp [hoperands arg harg]
        | unary op operand =>
            have hstep :
                (op.isStep && s.loadedWithin s.storageFields done depth operand) = false := by
              cases hop : op.isStep with
              | false => rfl
              | true => exact hloaded (by simp [written?, hexpr, hop])
            rw [hexpr] at hoperands
            simp only [Expr.operands, List.forall_mem_singleton] at hoperands
            dsimp only
            rw [hstep, hoperands, Bool.false_or]
        | assign op left right =>
            have hwritten : s.written? e = some left := by simp [written?, hexpr]
            have haccess : (s.access? s.storageFields left).isSome = false := by
              by_contra htrue
              rw [Bool.not_eq_false] at htrue
              have hfield := namesFieldWithin_of_access htrue
              rw [hnames hwritten] at hfield
              cases hfield
            rw [hexpr] at hoperands
            simp only [Expr.operands, List.forall_mem_cons] at hoperands
            simp [haccess, hloaded hwritten, hoperands]
        | _ =>
            rw [hexpr] at hoperands
            simp only [Expr.operands, List.forall_mem_cons] at hoperands
            simp [hoperands]

end Shader

end ShaderBridge
