import ShaderBridge.Hlsl.Program
import ShaderBridge.Proofs.Lowering.Body
import ShaderBridge.Proofs.Parse.Accepted

namespace ShaderBridge

namespace Hlsl

def Decl.isFunction : Decl → Bool
  | .function .. => true
  | _ => false

end Hlsl

namespace Shader

open Hlsl

variable (s : Shader)

/-- The fields of a block that live in byte-addressed memory. -/
def blockBuffers (id : StructId) : List ByteBuffer :=
  match (s.struct id).block, (s.struct id).name with
  | some info, some _ =>
    if !sizesGroup info && info.storage == .buffer then s.byteBuffers id else []
  | _, _ => []

/-- What such a block becomes. -/
def blockStorage (id : StructId) : Program :=
  match (s.struct id).block, (s.struct id).name with
  | some info, some _ =>
    if !sizesGroup info && info.storage == .buffer then s.storageDecls id info else []
  | _, _ => []

/-- All fields that live in byte-addressed memory. -/
def storageFields : List ByteBuffer :=
  s.blocks.toList.flatMap s.blockBuffers

/-- The outline of the body of a function, which only functions of the program have. -/
def outlineFunction (done : List ExprId) (id : FuncId) : Outline :=
  if (s.func id).builtin then ⟨true, [], done⟩
  else
    match (s.func id).body with
    | none => ⟨true, [], done⟩
    | some body =>
      Outline.sequence (s.outlineWithin s.storageFields (s.stmts.size + 1)) done body

end Shader

namespace Hlsl

variable {s : Shader} {buffers : List ByteBuffer} {done : List ExprId}

def NoFunction (p : Program) : Prop :=
  ∀ d ∈ p, d.isFunction = false

theorem NoFunction.append {p q : Program} (hp : NoFunction p) (hq : NoFunction q) :
    NoFunction (p ++ q) := by
  intro d hd
  rcases List.mem_append.1 hd with hd | hd
  · exact hp d hd
  · exact hq d hd

theorem NoFunction.flatten {ps : List Program} (h : ∀ p ∈ ps, NoFunction p) :
    NoFunction ps.flatten := by
  intro d hd
  obtain ⟨p, hp, hd⟩ := List.mem_flatten.1 hd
  exact h p hp d hd

theorem gives_forall {α β : Type} {P : β → Prop} {l : List α} {f : α → LowerM β}
    (hf : ∀ a ∈ l, Gives (f a) done done P) :
    Gives (l.mapM f) done done fun bs => ∀ b ∈ bs, P b := by
  apply (gives_mapM (P := fun _ => P) hf).imp
  intro bs hbs b hb
  obtain ⟨_, _, hP⟩ := exists_of_mem_right hbs hb
  exact hP

theorem gives_lowerField (v : VarId) : Gives (s.lowerField buffers v) done done fun _ => True := by
  apply gives_bind (gives_lowerDims _)
  intro dims _
  exact gives_pure trivial

theorem gives_lowerSamplerState (v : Variable) (g : GlobalInfo) :
    Gives (s.lowerSamplerState buffers v g) done done NoFunction := by
  unfold Shader.lowerSamplerState
  cases samplerStateType? v.type with
  | none => exact gives_pure (by simp [NoFunction])
  | some state =>
      apply gives_bind (gives_lowerDims _)
      intro dims _
      exact gives_pure (by simp [NoFunction, Decl.isFunction])

theorem gives_lowerGlobal (v : VarId) :
    Gives (s.lowerGlobal buffers v) done done NoFunction := by
  unfold Shader.lowerGlobal
  dsimp only
  cases (s.var v).global? with
  | none => exact gives_pure (by simp [NoFunction])
  | some g =>
      apply gives_bind (gives_lowerDeclarator v)
      intro d _
      apply gives_bind (gives_lowerSamplerState _ g)
      intro state hstate
      exact gives_pure (List.forall_mem_cons.2 ⟨rfl, hstate⟩)

theorem gives_lowerRecord (id : StructId) :
    Gives (s.lowerRecord buffers id) done done fun d => d.isFunction = false := by
  apply gives_bind (gives_mapM_true fun v _ => gives_lowerField v)
  intro fields _
  exact gives_pure rfl

theorem noFunction_storageDecls (id : StructId) (info : BlockInfo) :
    NoFunction (s.storageDecls id info) := by
  refine List.forall_mem_cons.2 ⟨rfl, ?_⟩
  intro d hd
  obtain ⟨buffer, _, rfl⟩ := List.mem_map.1 hd
  rfl

theorem gives_lowerBlock (id : StructId) :
    Gives (s.lowerBlock buffers id) done done fun r =>
      NoFunction r.1 ∧ s.blockStorage id ⊆ r.1 ∧ r.2 = s.blockBuffers id := by
  unfold Shader.lowerBlock Shader.blockStorage Shader.blockBuffers
  dsimp only
  have hnone : NoFunction [] := by simp [NoFunction]
  cases (s.struct id).block with
  | none => exact gives_pure ⟨hnone, List.Subset.refl _, rfl⟩
  | some info =>
  cases (s.struct id).name with
  | none => exact gives_pure ⟨hnone, List.Subset.refl _, rfl⟩
  | some name =>
  dsimp only
  cases Shader.sizesGroup info with
  | true => exact gives_pure ⟨hnone, List.Subset.refl _, rfl⟩
  | false =>
      simp only [Bool.false_eq_true, if_false, Bool.not_false, Bool.true_and]
      cases hstorage : info.storage with
      | buffer =>
          simp only [beq_self_eq_true, if_true]
          exact gives_pure ⟨noFunction_storageDecls id info, List.Subset.refl _, rfl⟩
      | uniform =>
          apply gives_bind (gives_mapM_true fun v _ => gives_lowerField v)
          intro fields _
          exact gives_pure ⟨by simp [NoFunction, Decl.isFunction], List.nil_subset _, rfl⟩
      | _ =>
          apply gives_bind (gives_lowerRecord id)
          intro d hd
          exact gives_pure ⟨by simpa [NoFunction] using hd, List.nil_subset _, rfl⟩

theorem gives_lowerBlocks (ids : List StructId) :
    Gives (s.lowerBlocks buffers ids) done done fun r =>
      NoFunction r.1 ∧ ids.flatMap s.blockStorage ⊆ r.1 ∧
        r.2 = buffers ++ ids.flatMap s.blockBuffers := by
  induction ids generalizing buffers with
  | nil => exact gives_pure ⟨by simp [NoFunction], List.Subset.refl _, by simp⟩
  | cons id rest ih =>
      unfold Shader.lowerBlocks
      apply gives_bind (gives_lowerBlock id)
      rintro ⟨first, added⟩ ⟨hfirst, hstorage, rfl⟩
      apply gives_bind ih
      rintro ⟨others, all⟩ ⟨hothers, hrest, rfl⟩
      apply gives_pure
      refine ⟨hfirst.append hothers, ?_, ?_⟩
      · rw [List.flatMap_cons]
        exact List.append_subset.2 ⟨List.subset_append_of_subset_left _ hstorage,
          List.subset_append_of_subset_right _ hrest⟩
      · rw [List.flatMap_cons, List.append_assoc]

theorem Program.bodies_append (p q : Program) : bodies (p ++ q) = p.bodies ++ q.bodies :=
  List.flatMap_append

theorem Program.bodies_of_noFunction {p : Program} (h : NoFunction p) : p.bodies = [] := by
  apply List.flatMap_eq_nil_iff.2
  intro d hd
  have hfunction := h d hd
  cases d <;> first | rfl | simp [Decl.isFunction] at hfunction

theorem Program.bodies_flatten (ps : List Program) : bodies ps.flatten = ps.flatMap bodies := by
  induction ps with
  | nil => rfl
  | cons p rest ih => rw [List.flatten_cons, bodies_append, ih, List.flatMap_cons]

theorem gives_lowerParam {buffers : List ByteBuffer} (v : VarId) :
    Gives (s.lowerParam buffers v) done done fun _ => True := by
  apply gives_bind (gives_lowerDims _)
  intro dims _
  exact gives_pure trivial

theorem bodiesAll_copyInputs : Stmt.bodiesAll Shader.copyInputs = [] :=
  rfl

theorem gives_lowerFunction (done : List ExprId) (id : FuncId) :
    Gives (s.lowerFunction s.storageFields id) done (s.outlineFunction done id).done fun p =>
      p.bodies.map Stmt.isSingle = (s.outlineFunction done id).bodies := by
  unfold Shader.lowerFunction Shader.outlineFunction
  dsimp only
  cases (s.func id).builtin with
  | true => exact gives_pure rfl
  | false =>
      simp only [Bool.false_eq_true, if_false]
      apply gives_bind (gives_mapM_true fun v _ => gives_lowerParam v)
      intro params _
      cases (s.func id).body with
      | none => exact gives_pure rfl
      | some body =>
          have hbody :
              Gives (body.mapM (s.lowerStmt s.storageFields)) done
                (Outline.sequence (s.outlineWithin s.storageFields (s.stmts.size + 1)) done
                  body).done fun ts =>
                (Stmt.bodiesAll ts).map Stmt.isSingle = (Outline.sequence
                  (s.outlineWithin s.storageFields (s.stmts.size + 1)) done body).bodies :=
            gives_statements (gives_lowerStmtWithin _) body
          apply gives_bind (P := fun b : Option (List Stmt) => ∃ ts, b = some ts ∧
            (Stmt.bodiesAll ts).map Stmt.isSingle = (Outline.sequence
              (s.outlineWithin s.storageFields (s.stmts.size + 1)) done body).bodies)
          · apply gives_some
            apply gives_bind hbody
            intro ts hts
            apply gives_pure
            split
            · rw [Stmt.bodiesAll_append, bodiesAll_copyInputs, List.nil_append, hts]
            · exact hts
          · rintro _ ⟨ts, rfl, hts⟩
            apply gives_pure
            rw [← hts]
            simp [Program.bodies]

theorem gives_lowerFunctions :
    Gives (s.functions.toList.mapM (s.lowerFunction s.storageFields)) []
      (Outline.sequence s.outlineFunction [] s.functions.toList).done fun ps =>
        ps.flatMap (fun p => p.bodies.map Stmt.isSingle) =
          (Outline.sequence s.outlineFunction [] s.functions.toList).bodies :=
  gives_sequence gives_lowerFunction s.functions.toList

theorem gives_lower (options : Options) {P : List Program → Prop}
    (h : Gives (s.functions.toList.mapM (s.lowerFunction s.storageFields)) [] done P) :
    Gives (s.lower options) [] done fun p =>
      ∃ front functions, p = front ++ functions.flatten ∧ NoFunction front ∧
        s.blocks.toList.flatMap s.blockStorage ⊆ front ∧ P functions := by
  apply gives_bind (gives_forall fun v _ => gives_lowerGlobal v)
  intro plain hplain
  apply gives_bind (gives_forall fun id _ => gives_lowerRecord id)
  intro records hrecords
  apply gives_bind (gives_lowerBlocks _)
  rintro ⟨blocks, fields⟩ ⟨hblocks, hstorage, rfl⟩
  apply gives_bind (gives_forall fun v _ => gives_lowerGlobal v)
  intro others hothers
  apply gives_bind h
  intro functions hfunctions
  apply gives_pure
  refine ⟨s.helperDecls options ++ plain.flatten ++ records ++ s.inputDecls ++ blocks ++
    others.flatten, functions, rfl, ?_, ?_, hfunctions⟩
  · have hhelpers : NoFunction (s.helperDecls options) := by
      unfold Shader.helperDecls
      split
      · simp [NoFunction, Decl.isFunction]
      · simp [NoFunction]
    have hinputs : NoFunction s.inputDecls := by
      unfold Shader.inputDecls
      split
      · show ∀ d ∈ Shader.computeDecls, d.isFunction = false
        decide
      · simp [NoFunction]
    exact ((((hhelpers.append (.flatten hplain)).append hrecords).append hinputs).append
      hblocks).append (.flatten hothers)
  · exact List.subset_append_of_subset_left _ (List.subset_append_of_subset_right _ hstorage)

theorem blockStorage_subset_toProgram (options : Options) {id : StructId}
    (hid : id ∈ s.blocks.toList) : s.blockStorage id ⊆ s.toProgram options := by
  obtain ⟨⟨front, functions, hprogram, _, hstorage, _⟩, _⟩ :=
    gives_lower options gives_lowerFunctions {} rfl
  unfold Shader.toProgram
  intro d hd
  rw [hprogram]
  exact List.mem_append_left _ (hstorage (List.mem_flatMap.2 ⟨id, hid, hd⟩))

end Hlsl

end ShaderBridge

namespace ShaderBridge

open Hlsl

namespace Shader

variable (s : Shader)

/-- Whether the bodies of the branches and loops of a shader, in order, stay single statements. -/
def bodiesStaySingle : List Bool :=
  (Outline.sequence s.outlineFunction [] s.functions.toList).bodies

end Shader

/-- The bodies of the branches and loops of a program are single statements where the shader says
so, and nowhere else. -/
theorem Shader.bodies_single (s : Shader) (options : Options) :
    (s.toProgram options).bodies.map Stmt.isSingle = s.bodiesStaySingle := by
  obtain ⟨⟨front, functions, hprogram, hfront, _, hbodies⟩, _⟩ :=
    gives_lower options gives_lowerFunctions {} rfl
  unfold Shader.toProgram Shader.bodiesStaySingle
  rw [hprogram, Program.bodies_append, Program.bodies_of_noFunction hfront, List.nil_append,
    Program.bodies_flatten, List.map_flatMap, hbodies]

/-- The tokens of `buffer B { int x[]; } b; void f(int c) { if (c > 0) b.x[1] = 2; }`. -/
def storeUnderBranch : List TokenKind :=
  [.keyword (.storage .buffer), .ident "B", .punct .leftBrace, .keyword (.type (.scalar .int)),
    .ident "x", .punct .leftBracket, .punct .rightBracket, .punct .semicolon, .punct .rightBrace,
    .ident "b", .punct .semicolon, .keyword (.type .void), .ident "f", .punct .leftParen,
    .keyword (.type (.scalar .int)), .ident "c", .punct .rightParen, .punct .leftBrace,
    .keyword (.word .ifBranch), .punct .leftParen, .ident "c", .punct .gt, .number (.int 0),
    .punct .rightParen, .ident "b", .punct .dot, .ident "x", .punct .leftBracket,
    .number (.int 1), .punct .rightBracket, .punct .eq, .number (.int 2), .punct .semicolon,
    .punct .rightBrace, .endOfFile]

/-- A store under a branch is written as three statements with no braces around them. Two of them
are carried out whatever the condition is. -/
theorem Shader.exists_body_not_single :
    ∃ s : Shader, s.Accepted ∧
      ((s.toProgram {}).bodies.map Stmt.isSingle, s.toHlsl {}) =
        ([false],
          "RWByteAddressBuffer x : register(u-1, space0);\n" ++
          "int __load_x(int index) \x7b\n" ++
          "    int ret;\n" ++
          "    ret = x.Load(index * 4 + 0);\n" ++
          "    return ret;\n" ++
          "\x7d\n" ++
          "void f(int c) \x7b\n" ++
          "    if ((c > 0)) int __temp0 = 2;\n" ++
          "    uint __offset0 = 1 * 4 + 0;\n" ++
          "    x.Store(__offset0 + 0, __temp0);\n" ++
          "\x7d\n") := by
  apply Parse.exists_accepted (f := fun s : Shader =>
    ((s.toProgram {}).bodies.map Stmt.isSingle, s.toHlsl {}))
  show (Parse.plainShader? .fragment storeUnderBranch).map _ = _
  decide +kernel

end ShaderBridge
