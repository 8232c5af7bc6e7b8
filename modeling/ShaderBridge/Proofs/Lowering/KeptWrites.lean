import ShaderBridge.Proofs.Lowering.Matching
import ShaderBridge.Proofs.Parse.Structure

namespace ShaderBridge

open Hlsl

namespace Hlsl

variable {s : Shader}

theorem onlyReads_asOperand (e : Expr) : e.asOperand.onlyReads = e.onlyReads := by
  unfold Expr.onlyReads
  rw [Expr.writes_asOperand]

theorem matches_inside {e : ExprId} {calls : List Stmt} {x : Expr}
    (hcalls : ReadsAt s (s.atomicCalls e) (Stmt.sitesAll calls)) (hx : s.Quiet e → x.onlyReads) :
    Matches s [.inside e] (Stmt.sitesAll calls ++ [.inside x]) :=
  (hcalls.of_calls.join (readsAt_inside hx)).matches

theorem keeps_lowerLocal (v : VarId) :
    Keeps s (s.lowerLocal s.storageFields v) fun t =>
      Matches s ((s.declaratorExprs v).map .inside) t.sites := by
  have hdeclaration {calls : List Stmt}
      (hcalls : ReadsAt s (s.declaratorExprs v) (Stmt.sitesAll calls)) :
      Keeps s (do
        let declarator ← s.lowerDeclarator s.storageFields v
        return Shader.behind calls (.declaration (s.var v).flags.constant
          (s.hlslDeclaredType (s.var v).type) declarator))
        fun t => Matches s ((s.declaratorExprs v).map .inside) t.sites := by
    apply keeps_bind (keeps_lowerDeclarator v)
    intro d hd
    apply keeps_pure
    rw [sites_behind]
    exact (hcalls.join hd).matches
  unfold Shader.lowerLocal
  dsimp only
  cases hinitial : (s.var v).initial? with
  | none =>
      have hnone : ReadsAt s (s.declaratorExprs v) (Stmt.sitesAll []) := readsAt_nil _
      exact hdeclaration hnone
  | some e =>
      apply keeps_bind (keeps_hoistAtomics e)
      intro calls hcalls
      apply hdeclaration
      apply hcalls.of_calls.imp
      intro hquiet e' he'
      apply hquiet e'
      rw [Shader.declaratorExprs, hinitial]
      exact List.mem_append_right _ he'

theorem keeps_lowerBody {lower : StmtId → LowerM Stmt} {sites : StmtId → List (Site ExprId)}
    (hlower : ∀ id, Keeps s (lower id) fun t => Matches s (sites id) t.sites) (id : StmtId) :
    Keeps s (s.lowerBody lower id) fun t => Matches s (sites id) t.sites := by
  unfold Shader.lowerBody
  apply keeps_bind (hlower id)
  intro t ht
  apply keeps_pure
  split
  · rw [Stmt.sites, Stmt.sitesAll, Stmt.sitesAll, List.append_nil]
    exact ht
  · exact ht

theorem keeps_statements {lower : StmtId → LowerM Stmt} {sites : StmtId → List (Site ExprId)}
    (hlower : ∀ id, Keeps s (lower id) fun t => Matches s (sites id) t.sites)
    (ids : List StmtId) :
    Keeps s (ids.mapM lower) fun ts => Matches s (ids.flatMap sites) (Stmt.sitesAll ts) := by
  apply (keeps_mapM fun id _ => hlower id).imp
  intro ts hts
  rw [sitesAll_eq_flatMap]
  exact matches_flatMap hts

theorem keeps_lowerGuarded {lower : StmtId → LowerM Stmt} {sites : StmtId → List (Site ExprId)}
    (hlower : ∀ id, Keeps s (lower id) fun t => Matches s (sites id) t.sites) (e : ExprId)
    (id : StmtId) :
    Keeps s (s.lowerGuarded s.storageFields lower e id) fun t =>
      Matches s (.inside e :: (s.blockBody id).flatMap sites) t.sites := by
  unfold Shader.lowerGuarded
  apply keeps_bind (keeps_hoistAtomics e)
  intro calls hcalls
  apply keeps_bind (keeps_lowerExpr e)
  intro x hx
  apply keeps_bind (keeps_statements hlower _)
  intro ts hts
  apply keeps_pure
  rw [Stmt.sites, Stmt.sitesAll, sites_behind, Stmt.sites]
  apply Matches.append (P := [.inside e]) _ hts
  exact matches_inside hcalls fun hquiet => (onlyReads_asOperand x).trans (hx hquiet)

theorem sites_branch (hint : Option Hint) (c : Expr) (onTrue : Stmt) (onFalse : Option Stmt) :
    (Stmt.branch hint c onTrue onFalse).sites =
      .inside c :: (onTrue.sites ++ onFalse.toList.flatMap Stmt.sites) := by
  cases onFalse with
  | none => simp [Stmt.sites]
  | some onFalse => simp [Stmt.sites]

theorem matches_tidy {q : Site Expr} (hstore : storeAt? q = none) (htidy : isTidy q) :
    Matches s [] [q] := by
  have hstores : [q].filterMap storeAt? = [] := List.filterMap_cons_none hstore
  have hreads : ReadsAt s [] [q] := ⟨hstores, fun _ => List.forall_mem_singleton.2 htidy⟩
  exact hreads.matches

section

variable {depth : Nat} {id : StmtId}
  (ih : ∀ id, Keeps s (s.lowerStmtWithin s.storageFields depth id) fun t =>
    Matches s (s.sitesWithin depth id) t.sites)
include ih

theorem keeps_branch {hints : FlowHints} {c : ExprId} {onTrue : StmtId} {onFalse : Option StmtId}
    (hstmt : s.stmt id = .branch hints c onTrue onFalse) :
    Keeps s (s.lowerStmtWithin s.storageFields (depth + 1) id) fun t =>
      Matches s (s.sitesWithin (depth + 1) id) t.sites := by
  unfold Shader.lowerStmtWithin Shader.sitesWithin
  rw [hstmt]
  apply keeps_bind (keeps_hoistAtomics c)
  intro calls hcalls
  apply keeps_bind (keeps_lowerExpr c)
  intro x hx
  apply keeps_bind (keeps_lowerBody ih onTrue)
  intro t ht
  apply keeps_bind (keeps_option (keeps_lowerBody ih))
  intro t' ht'
  apply keeps_pure
  rw [sites_behind, sites_branch, List.append_cons]
  exact (matches_inside hcalls hx).append (ht.append (matches_flatMap ht'))

theorem keeps_whileLoop {hints : FlowHints} {c b : StmtId}
    (hstmt : s.stmt id = .whileLoop hints c b) :
    Keeps s (s.lowerStmtWithin s.storageFields (depth + 1) id) fun t =>
      Matches s (s.sitesWithin (depth + 1) id) t.sites := by
  unfold Shader.lowerStmtWithin Shader.sitesWithin
  rw [hstmt]
  dsimp only
  cases s.guard? c with
  | some e =>
      apply keeps_bind (keeps_lowerGuarded ih e b)
      intro t ht
      exact keeps_pure ((matches_tidy rfl rfl).append ht)
  | none =>
      apply keeps_bind (keeps_lowerHeader c)
      intro header hheader
      apply keeps_bind (keeps_lowerBody ih b)
      intro t ht
      exact keeps_pure (hheader.matches.append ht)

theorem keeps_forLoop {hints : FlowHints} {start : Option StmtId} {c step : Option ExprId}
    {b : StmtId} (hstmt : s.stmt id = .forLoop hints start c step b) :
    Keeps s (s.lowerStmtWithin s.storageFields (depth + 1) id) fun t =>
      Matches s (s.sitesWithin (depth + 1) id) t.sites := by
  unfold Shader.lowerStmtWithin Shader.sitesWithin
  rw [hstmt]
  apply keeps_bind (keeps_lowerStart start)
  intro header hheader
  dsimp only
  cases c.filter s.hasAtomics with
  | some e =>
      apply keeps_bind (keeps_lowerOption step)
      intro step' hstep
      apply keeps_bind (keeps_lowerGuarded ih e b)
      intro t ht
      apply keeps_pure
      have hreads := hheader.append hstep
      rw [← List.map_append] at hreads
      exact hreads.matches.append ht
  | none =>
      apply keeps_bind (keeps_lowerOption c)
      intro c' hc
      apply keeps_bind (keeps_lowerOption step)
      intro step' hstep
      apply keeps_bind (keeps_lowerBody ih b)
      intro t ht
      apply keeps_pure
      have hreads := hheader.append (hc.append hstep)
      rw [← List.map_append, ← List.map_append] at hreads
      exact hreads.matches.append ht

end

/-- A statement gives stores for its writes. -/
theorem keeps_lowerStmtWithin (depth : Nat) (id : StmtId) :
    Keeps s (s.lowerStmtWithin s.storageFields depth id) fun t =>
      Matches s (s.sitesWithin depth id) t.sites := by
  induction depth generalizing id with
  | zero => exact keeps_pure matches_nil
  | succ depth ih =>
      cases hstmt : s.stmt id
      case branch => exact keeps_branch ih hstmt
      case whileLoop => exact keeps_whileLoop ih hstmt
      case forLoop => exact keeps_forLoop ih hstmt
      all_goals
        unfold Shader.lowerStmtWithin Shader.sitesWithin
        rw [hstmt]
        dsimp only
      case block stmts =>
        apply keeps_bind (keeps_statements ih stmts)
        intro ts hts
        exact keeps_pure hts
      case declaration vars =>
        apply keeps_bind (keeps_mapM fun v _ => keeps_lowerLocal v)
        intro ts hts
        apply keeps_pure
        rw [Stmt.sites, sitesAll_eq_flatMap]
        exact matches_flatMap hts
      case expression e => exact keeps_statement e
      case switch hints c stmts =>
        apply keeps_bind (keeps_hoistAtomics c)
        intro calls hcalls
        apply keeps_bind (keeps_lowerExpr c)
        intro x hx
        apply keeps_bind (keeps_statements ih stmts)
        intro ts hts
        apply keeps_pure
        rw [sites_behind, Stmt.sites, List.append_cons]
        exact (matches_inside hcalls hx).append hts
      case label value =>
        apply keeps_bind (keeps_lowerOption value)
        intro x hx
        exact keeps_pure hx.matches
      case doLoop hints b c =>
        apply keeps_bind (keeps_lowerBody ih b)
        intro t ht
        apply keeps_bind (keeps_lowerExpr c)
        intro x hx
        exact keeps_pure (ht.append (readsAt_inside hx).matches)
      case returnValue value =>
        cases value with
        | none => exact keeps_pure matches_nil
        | some e =>
            apply keeps_bind (keeps_hoistAtomics e)
            intro calls hcalls
            apply keeps_bind (keeps_lowerExpr e)
            intro x hx
            apply keeps_pure
            rw [sites_behind]
            exact matches_inside hcalls hx
      case rayJump j => exact keeps_pure (matches_tidy rfl rfl)
      all_goals exact keeps_pure matches_nil

theorem matches_copyInputs : Matches s [] (Stmt.sitesAll Shader.copyInputs) := by
  apply ReadsAt.matches (l := [])
  refine ⟨rfl, fun _ => ?_⟩
  apply List.all_eq_true.1
  rfl

theorem sites_function (threads : Option (Int × Int × Int)) (returnType name : String)
    (params : List Param) (body : Option (List Stmt)) :
    Program.sites [.function threads returnType name params body] =
      body.toList.flatMap Stmt.sitesAll := by
  cases body with
  | none => rfl
  | some body => simp [Program.sites]

theorem keeps_lowerFunction (id : FuncId) :
    Keeps s (s.lowerFunction s.storageFields id) fun p =>
      Matches s (s.functionSites id) p.sites := by
  unfold Shader.lowerFunction Shader.functionSites
  dsimp only
  cases (s.func id).builtin with
  | true => exact keeps_pure matches_nil
  | false =>
      simp only [Bool.false_eq_true, if_false]
      apply keeps_bind (keeps_mapM (P := fun _ _ => True) fun v _ =>
        keeps_of_gives fun _ _ => gives_lowerParam v)
      intro params _
      have hbody (body : List StmtId) : Keeps s (do
          return (if s.isComputeEntry (s.func id) then Shader.copyInputs else []) ++
            (← body.mapM (s.lowerStmt s.storageFields))) fun ts =>
          Matches s (body.flatMap (s.sitesWithin (s.stmts.size + 1))) (Stmt.sitesAll ts) := by
        apply keeps_bind (keeps_statements (keeps_lowerStmtWithin _) body)
        intro ts hts
        apply keeps_pure
        split
        · rw [sitesAll_append]
          exact matches_copyInputs.append hts
        · exact hts
      apply keeps_bind (keeps_option hbody)
      intro body' hbody'
      apply keeps_pure
      rw [sites_function]
      have hsites : ((s.func id).body.getD []).flatMap (s.sitesWithin (s.stmts.size + 1)) =
          (s.func id).body.toList.flatMap fun body =>
            body.flatMap (s.sitesWithin (s.stmts.size + 1)) := by
        cases (s.func id).body with
        | none => rfl
        | some body => simp
      rw [hsites]
      exact matches_flatMap hbody'

theorem Program.sites_append (p q : Program) : sites (p ++ q) = p.sites ++ q.sites :=
  List.flatMap_append

theorem Program.sites_of_noFunction {p : Program} (h : NoFunction p) : p.sites = [] := by
  apply List.flatMap_eq_nil_iff.2
  intro d hd
  have hfunction := h d hd
  cases d <;> first | rfl | simp [Decl.isFunction] at hfunction

theorem Program.sites_flatten (ps : List Program) : sites ps.flatten = ps.flatMap sites := by
  induction ps with
  | nil => rfl
  | cons p rest ih => rw [List.flatten_cons, sites_append, ih, List.flatMap_cons]

theorem matches_toProgram (s : Shader) (options : Options) :
    Matches s s.sites (s.toProgram options).sites := by
  have hfunctions : Keeps s (s.functions.toList.mapM (s.lowerFunction s.storageFields))
      (List.Forall₂ (fun id p => Matches s (s.functionSites id) p.sites) s.functions.toList) :=
    keeps_mapM fun id _ => keeps_lowerFunction id
  obtain ⟨⟨front, functions, hprogram, hfront, _, hsites, _⟩, _⟩ :=
    gives_lower options (gives_lowerFunctions.and fun state hstate =>
      (hfunctions state (by rw [hstate]; exact fun _ h => nomatch h)).1) {} rfl
  unfold Shader.toProgram Shader.sites
  rw [hprogram, Program.sites_append, Program.sites_of_noFunction hfront, List.nil_append,
    Program.sites_flatten]
  exact matches_flatMap hsites

end Hlsl

/-- All writes to storage fields are carried out exactly if each is all that a statement is, and is
an assignment whose access reaches what is written to. -/
theorem Shader.keepsWrites_iff (s : Shader) (options : Options) :
    s.KeepsWrites options ↔ ∀ site ∈ s.sites, s.Settled site := by
  have hmatches := matches_toProgram s options
  constructor
  · intro h
    exact hmatches.settled_iff.2 ⟨h.stored, h.tidy⟩
  · intro h
    obtain ⟨hstored, htidy⟩ := hmatches.settled_iff.1 h
    exact ⟨hstored, htidy⟩

namespace Shader

variable {s : Shader} {w left right : ExprId} {op : AssignOp}

end Shader

/-- The tokens of `buffer B { int x[]; int y; } b; void f() { b.y++; }`. -/
def stepOfField : List TokenKind :=
  [.keyword (.storage .buffer), .ident "B", .punct .leftBrace, .keyword (.type (.scalar .int)),
    .ident "x", .punct .leftBracket, .punct .rightBracket, .punct .semicolon,
    .keyword (.type (.scalar .int)), .ident "y", .punct .semicolon, .punct .rightBrace, .ident "b",
    .punct .semicolon, .keyword (.type .void), .ident "f", .punct .leftParen, .punct .rightParen,
    .punct .leftBrace, .ident "b", .punct .dot, .ident "y", .punct .plusPlus, .punct .semicolon,
    .punct .rightBrace, .endOfFile]

def stepOfLoad : String :=
  "RWByteAddressBuffer B : register(u-1, space0);\n" ++
  "int __load_x(int index) \x7b\n" ++
  "    int ret;\n" ++
  "    ret = B.Load(index * 8 + 0);\n" ++
  "    return ret;\n" ++
  "\x7d\n" ++
  "int __load_y(int index) \x7b\n" ++
  "    int ret;\n" ++
  "    ret = B.Load(index * 8 + 4);\n" ++
  "    return ret;\n" ++
  "\x7d\n" ++
  "void f() \x7b\n" ++
  "    __load_y(0)++;\n" ++
  "\x7d\n"

/-- A step of a field is written as a step of what is read from it, and nothing is stored. -/
theorem Shader.exists_write_lost :
    ∃ s : Shader, s.Accepted ∧ ¬s.KeepsWrites {} ∧ s.toHlsl {} = stepOfLoad := by
  obtain ⟨s, hs, hfacts⟩ := Parse.exists_accepted
    (f := fun s => ((s.toProgram {}).sites.all isTidy, s.toHlsl {}))
    (show (Parse.plainShader? .fragment stepOfField).map _ = some (false, stepOfLoad) by
      decide +kernel)
  rw [Prod.mk.injEq] at hfacts
  obtain ⟨htidy, htext⟩ := hfacts
  refine ⟨s, hs, fun hkeeps => ?_, htext⟩
  rw [List.all_eq_true.2 hkeeps.tidy] at htidy
  cases htidy

end ShaderBridge
