import ShaderBridge.Proofs.Lowering.Fresh
import ShaderBridge.Proofs.Token.Spelling

namespace ShaderBridge

namespace Hlsl

/-- A declaration, wherever it stands in a program. -/
inductive Declaration where
  | named (name : String)
  /-- The temporary that an atomic function leaves its result in. -/
  | result (temp : Nat)
  /-- The value and the address of a store, and the leaves that are stored. -/
  | store (temp : Nat) (leaves : List Leaf)

namespace Declaration

def names : Declaration → List String
  | named name => [name]
  | result k => [tempName k]
  | store k _ => [tempName k, offsetName k]

def temp? : Declaration → Option Nat
  | named _ => none
  | result k | store k _ => some k

end Declaration

mutual

def Expr.declarations : Expr → List Declaration
  | .literal _ | .bytes _ | .name _ | .temp _ => []
  | .member e _ | .group e | .load _ e | .unary _ e => e.declarations
  | .index a b | .binary _ a b | .sequence a b | .assign _ a b => a.declarations ++ b.declarations
  | .call _ args | .cast _ args | .list args | .aggregate args => declarationsAll args
  | .choice c a b => c.declarations ++ (a.declarations ++ b.declarations)
  | .store k _ value address _ leaves =>
    .store k leaves :: (value.declarations ++ address.declarations)

def Expr.declarationsAll : List Expr → List Declaration
  | [] => []
  | e :: rest => e.declarations ++ Expr.declarationsAll rest

end

def Declarator.declarations (d : Declarator) : List Declaration :=
  .named d.name :: d.exprs.flatMap Expr.declarations

def Header.declarations : Header → List Declaration
  | nothing => []
  | expression e => e.declarations
  | declaration _ vars => vars.flatMap Declarator.declarations

mutual

def Stmt.declarations : Stmt → List Declaration
  | .lines body | .block body => declarationsAll body
  | .empty | .continueLoop | .breakLoop | .discard => []
  | .declaration _ _ d => d.declarations
  | .expression e | .breakUnless e => e.declarations
  | .atomic temp _ _ args => .result temp :: args.flatMap Expr.declarations
  | .branch _ c onTrue none => c.declarations ++ onTrue.declarations
  | .branch _ c onTrue (some onFalse) =>
    c.declarations ++ (onTrue.declarations ++ onFalse.declarations)
  | .switch _ c body => c.declarations ++ declarationsAll body
  | .label value | .returnValue value => value.toList.flatMap Expr.declarations
  | .whileLoop _ header body => header.declarations ++ body.declarations
  | .doLoop _ body c => body.declarations ++ c.declarations
  | .forLoop _ start c step body =>
    (start.declarations ++ (c.toList ++ step.toList).flatMap Expr.declarations) ++ body.declarations

def Stmt.declarationsAll : List Stmt → List Declaration
  | [] => []
  | t :: rest => t.declarations ++ Stmt.declarationsAll rest

end

def dimsDeclarations (dims : List (Option Expr)) : List Declaration :=
  (dims.flatMap Option.toList).flatMap Expr.declarations

def Field.declarations (f : Field) : List Declaration :=
  .named f.name :: dimsDeclarations f.dims

def Param.declarations (p : Param) : List Declaration :=
  .named p.name :: dimsDeclarations p.dims

/-- The longest runs of letters, digits and underscores in a text, and what stands between them. -/
def wordsOf (text : String) : List String :=
  (text.toList.splitBy fun a b => isWordChar a == isWordChar b).map String.ofList

/-- Of a fixed text every word is taken for a name that it declares. -/
def Decl.declarations : Decl → List Declaration
  | .fixed text => (wordsOf text).map .named
  | .global _ _ d _ => d.declarations
  | .record name fields | .constantBuffer name _ fields =>
    .named name :: fields.flatMap Field.declarations
  | .byteBuffer _ name _ => [.named name]
  | .accessor reader _ _ _ _ => [.named reader, .named "index", .named "ret"]
  | .function _ _ name params body =>
    .named name :: (params.flatMap Param.declarations ++
      body.toList.flatMap Stmt.declarationsAll)

def Program.declarations (p : Program) : List Declaration :=
  p.flatMap Decl.declarations

/-- The names that a program declares, each as often as it does. -/
def Program.declaredNames (p : Program) : List String :=
  p.declarations.flatMap Declaration.names

theorem decimal_natCast (k : Nat) : decimal k = String.ofList (Nat.toDigits 10 k) := rfl

theorem decimal_inj {k l : Nat} (h : decimal k = decimal l) : k = l := by
  rw [decimal_natCast, decimal_natCast, String.ofList_inj] at h
  rw [← digitsValue_toDigits k, h, digitsValue_toDigits]

theorem tempName_inj {k l : Nat} (h : tempName k = tempName l) : k = l :=
  decimal_inj (String.append_right_inj _ |>.1 h)

theorem offsetName_inj {k l : Nat} (h : offsetName k = offsetName l) : k = l :=
  decimal_inj (String.append_right_inj _ |>.1 h)

theorem tempName_ne_offsetName (k l : Nat) : tempName k ≠ offsetName l := by
  intro h
  have h := congrArg String.toList h
  simp [tempName, offsetName] at h

theorem filterMap_named (name : String) (ds : List Declaration) :
    (Declaration.named name :: ds).filterMap Declaration.temp? = ds.filterMap Declaration.temp? :=
  rfl

theorem filterMap_result (k : Nat) (ds : List Declaration) :
    (Declaration.result k :: ds).filterMap Declaration.temp? =
      k :: ds.filterMap Declaration.temp? :=
  rfl

theorem filterMap_store (k : Nat) (leaves : List Leaf) (ds : List Declaration) :
    (Declaration.store k leaves :: ds).filterMap Declaration.temp? =
      k :: ds.filterMap Declaration.temp? :=
  rfl

mutual

theorem Expr.filterMap_declarations :
    ∀ e : Expr, e.declarations.filterMap Declaration.temp? = e.temps
  | .literal _ | .bytes _ | .name _ | .temp _ => rfl
  | .member e _ | .group e | .load _ e | .unary _ e => by
    rw [Expr.declarations, Expr.temps, Expr.filterMap_declarations e]
  | .index a b | .binary _ a b | .sequence a b | .assign _ a b => by
    rw [Expr.declarations, Expr.temps, List.filterMap_append, Expr.filterMap_declarations a,
      Expr.filterMap_declarations b]
  | .call _ args | .cast _ args | .list args | .aggregate args => by
    rw [Expr.declarations, Expr.temps, Expr.filterMap_declarationsAll args]
  | .choice c a b => by
    rw [Expr.declarations, Expr.temps, List.filterMap_append, List.filterMap_append,
      Expr.filterMap_declarations c, Expr.filterMap_declarations a, Expr.filterMap_declarations b]
  | .store k _ value address _ leaves => by
    rw [Expr.declarations, Expr.temps, filterMap_store, List.filterMap_append,
      Expr.filterMap_declarations value, Expr.filterMap_declarations address]

theorem Expr.filterMap_declarationsAll :
    ∀ es : List Expr, (Expr.declarationsAll es).filterMap Declaration.temp? = Expr.tempsAll es
  | [] => rfl
  | e :: rest => by
    rw [Expr.declarationsAll, Expr.tempsAll, List.filterMap_append, Expr.filterMap_declarations e,
      Expr.filterMap_declarationsAll rest]

end

theorem filterMap_exprs (es : List Expr) :
    (es.flatMap Expr.declarations).filterMap Declaration.temp? = es.flatMap Expr.temps := by
  rw [List.filterMap_flatMap]
  simp only [Expr.filterMap_declarations]

theorem filterMap_declarator (d : Declarator) :
    d.declarations.filterMap Declaration.temp? = d.temps := by
  rw [Declarator.declarations, filterMap_named, filterMap_exprs, Declarator.temps]

theorem filterMap_header (h : Header) :
    h.declarations.filterMap Declaration.temp? = h.temps := by
  cases h with
  | nothing => rfl
  | expression e =>
      rw [Header.declarations, Expr.filterMap_declarations, Header.temps, Header.exprs,
        List.flatMap_singleton]
  | declaration type vars =>
      rw [Header.declarations, List.filterMap_flatMap, Header.temps, Header.exprs,
        List.flatMap_assoc]
      simp only [filterMap_declarator]
      rfl

mutual

theorem Stmt.filterMap_declarations :
    ∀ t : Stmt, t.declarations.filterMap Declaration.temp? = t.temps
  | .lines body | .block body => by
    rw [Stmt.declarations, Stmt.temps, Stmt.events, Stmt.filterMap_declarationsAll body,
      temps_eventsAll]
  | .empty | .continueLoop | .breakLoop | .discard => rfl
  | .declaration _ _ d => by
    rw [Stmt.declarations, filterMap_declarator, temps_declaration]
  | .expression e | .breakUnless e => by
    rw [Stmt.declarations, Stmt.temps, Stmt.events, List.flatMap_singleton,
      Expr.filterMap_declarations, Event.temps]
  | .atomic temp _ _ args => by
    rw [Stmt.declarations, Stmt.temps, Stmt.events, List.flatMap_singleton, Event.temps,
      filterMap_result, filterMap_exprs, tempsAll_eq_flatMap]
  | .branch _ c onTrue none => by
    rw [Stmt.declarations, Stmt.temps, Stmt.events, List.flatMap_cons, temps_inBody, Event.temps,
      List.filterMap_append, Expr.filterMap_declarations, Stmt.filterMap_declarations onTrue,
      Stmt.temps]
  | .branch _ c onTrue (some onFalse) => by
    rw [Stmt.declarations, Stmt.temps, Stmt.events, List.flatMap_cons, List.flatMap_append,
      temps_inBody, temps_inBody, Event.temps, List.filterMap_append, List.filterMap_append,
      Expr.filterMap_declarations, Stmt.filterMap_declarations onTrue,
      Stmt.filterMap_declarations onFalse, Stmt.temps, Stmt.temps]
  | .switch _ c body => by
    rw [Stmt.declarations, Stmt.temps, Stmt.events, List.flatMap_cons, temps_inBody, Event.temps,
      List.filterMap_append, Expr.filterMap_declarations, Stmt.filterMap_declarationsAll body,
      temps_eventsAll]
  | .label value => by
    rw [Stmt.declarations, Stmt.temps, Stmt.events, temps_evaluate, filterMap_exprs]
  | .returnValue value => by
    rw [Stmt.declarations, Stmt.temps, Stmt.events, temps_evaluate, filterMap_exprs]
  | .whileLoop _ header body => by
    rw [Stmt.declarations, Stmt.temps, Stmt.events, List.flatMap_append, temps_evaluate,
      temps_inBody, List.filterMap_append, filterMap_header, Stmt.filterMap_declarations body,
      Header.temps, Stmt.temps]
  | .doLoop _ body c => by
    rw [Stmt.declarations, Stmt.temps, Stmt.events, List.flatMap_append, List.flatMap_singleton,
      temps_inBody, List.filterMap_append, Expr.filterMap_declarations,
      Stmt.filterMap_declarations body, Stmt.temps, Event.temps]
  | .forLoop hint start c step body => by
    have hevents : (Stmt.forLoop hint start c step body).temps =
        (start.temps ++ (c.toList ++ step.toList).flatMap Expr.temps) ++ body.temps := by
      rw [Stmt.temps, Stmt.events, List.flatMap_append, temps_evaluate, temps_inBody,
        List.flatMap_append, Header.temps, Stmt.temps]
    rw [Stmt.declarations, List.filterMap_append, List.filterMap_append, filterMap_header,
      filterMap_exprs, Stmt.filterMap_declarations body, hevents]

theorem Stmt.filterMap_declarationsAll :
    ∀ ts : List Stmt, (Stmt.declarationsAll ts).filterMap Declaration.temp? =
      ts.flatMap Stmt.temps
  | [] => rfl
  | t :: rest => by
    rw [Stmt.declarationsAll, List.filterMap_append, Stmt.filterMap_declarations t,
      Stmt.filterMap_declarationsAll rest, List.flatMap_cons]

end

def Program.temps (p : Program) : List Nat :=
  p.declarations.filterMap Declaration.temp?

theorem Program.declarations_append (p q : Program) :
    Program.declarations (p ++ q) = p.declarations ++ q.declarations :=
  List.flatMap_append

theorem Program.temps_append (p q : Program) : Program.temps (p ++ q) = p.temps ++ q.temps := by
  rw [Program.temps, Program.declarations_append, List.filterMap_append]
  rfl

theorem count_names_le {ds : List Declaration} {name : String} {k : Nat}
    (h : ∀ d ∈ ds, d.names.count name ≤ d.temp?.toList.count k) :
    (ds.flatMap Declaration.names).count name ≤ (ds.filterMap Declaration.temp?).count k := by
  induction ds with
  | nil => exact Nat.le_refl 0
  | cons d ds ih =>
      rw [List.filterMap_eq_flatMap_toList] at ih ⊢
      rw [List.flatMap_cons, List.flatMap_cons, List.count_append, List.count_append]
      exact Nat.add_le_add (h d List.mem_cons_self)
        (ih fun d hd => h d (List.mem_cons_of_mem _ hd))

/-- Where no name looks like that of a temporary, such a name is declared at most as often as its
number is drawn. -/
theorem count_tempName_le {ds : List Declaration}
    (h : ∀ name, .named name ∈ ds → ∀ k, name ≠ tempName k) (k : Nat) :
    (ds.flatMap Declaration.names).count (tempName k) ≤
      (ds.filterMap Declaration.temp?).count k := by
  have hcount (l : Nat) : [tempName l].count (tempName k) ≤ [l].count k := by
    by_cases hl : l = k
    · rw [hl, List.count_singleton_self, List.count_singleton_self]
    · simp [mt tempName_inj hl]
  refine count_names_le fun d hd => ?_
  cases d with
  | named name => simp [Declaration.names, h name hd k]
  | result l => exact hcount l
  | store l leaves =>
      have hoffset : [offsetName l].count (tempName k) = 0 := by
        simp [(tempName_ne_offsetName k l).symm]
      rw [Declaration.names, ← List.singleton_append, List.count_append, hoffset]
      exact hcount l

theorem count_offsetName_le {ds : List Declaration}
    (h : ∀ name, .named name ∈ ds → ∀ k, name ≠ offsetName k) (k : Nat) :
    (ds.flatMap Declaration.names).count (offsetName k) ≤
      (ds.filterMap Declaration.temp?).count k := by
  refine count_names_le fun d hd => ?_
  cases d with
  | named name => simp [Declaration.names, h name hd k]
  | result l => simp [Declaration.names, tempName_ne_offsetName]
  | store l leaves =>
      rw [Declaration.names, List.count_cons_of_ne (tempName_ne_offsetName l k)]
      by_cases hl : l = k
      · rw [hl]
        exact Nat.le_of_eq (by simp [Declaration.temp?])
      · simp [mt offsetName_inj hl]

end Hlsl

end ShaderBridge
