import ShaderBridge.Proofs.Parse.Delivers
import ShaderBridge.Proofs.Parse.Steps
import ShaderBridge.Proofs.Parse.TypeFirst

namespace ShaderBridge

/-! ### Sizes -/

/-- What a text says of a variable: its name, its type and the sizes of its dimensions, some of
which may be left open. -/
structure SizedName where
  name : String
  type : TypeRef
  sizes : List (Option Constant)

namespace Shader

/-- A dimension has a size that has been folded to a constant, or no size. -/
def IsSize (s : Shader) (dim : Option ExprId) (size : Option Constant) : Prop :=
  dim.map (fun id => s.exprs[id.index]?) = size.map fun c => some (.constant c)

abbrev HasSizes (s : Shader) (dims : List (Option ExprId)) (sizes : List (Option Constant)) :
    Prop :=
  List.Forall₂ s.IsSize dims sizes

/-- A variable is what a text says of it. -/
structure IsVariable (s : Shader) (v : VarId) (x : SizedName) : Prop where
  known : v.index < s.vars.size
  name : (s.var v).name = x.name
  type : (s.var v).type = x.type
  dims : s.HasSizes (s.var v).dims x.sizes

variable {s s' : Shader} {dims : List (Option ExprId)} {sizes sizes' : List (Option Constant)}

theorem Grows.getElem?_constant (hg : s.Grows s') {id : ExprId} {c : Constant}
    (h : s.exprs[id.index]? = some (.constant c)) : s'.exprs[id.index]? = some (.constant c) := by
  have hlt : id.index < s.exprs.size := (Array.getElem?_eq_some_iff.1 h).1
  have hlt' : id.index < s'.exprs.size := Nat.lt_of_lt_of_le hlt hg.exprs
  have hexpr := hg.expr id hlt
  rw [expr_of_getElem? h] at hexpr
  generalize hx : s'.expr id = x at hexpr
  cases hexpr
  simpa [Shader.expr, hlt'] using hx

theorem IsSize.grows {dim : Option ExprId} {size : Option Constant} (h : s.IsSize dim size)
    (hg : s.Grows s') : s'.IsSize dim size := by
  cases dim with
  | none => exact h
  | some id =>
      cases size with
      | none => cases h
      | some c => exact congrArg some (hg.getElem?_constant (Option.some.inj h))

theorem IsSize.unique {dim : Option ExprId} {size size' : Option Constant}
    (h : s.IsSize dim size) (h' : s.IsSize dim size') : size = size' := by
  have hinj : Function.Injective fun c : Constant => some (Expr.constant c) := by
    intro c c' heq
    cases heq
    rfl
  exact Option.map_injective hinj (h.symm.trans h')

theorem HasSizes.grows (h : s.HasSizes dims sizes) (hg : s.Grows s') : s'.HasSizes dims sizes :=
  h.imp fun _ _ h => h.grows hg

theorem HasSizes.unique (h : s.HasSizes dims sizes) (h' : s.HasSizes dims sizes') :
    sizes = sizes' :=
  Relator.RightUnique.forall₂ (fun _ _ _ h h' => h.unique h') h h'

theorem IsVariable.grows {v : VarId} {x : SizedName} (h : s.IsVariable v x) (hg : s.Grows s') :
    s'.IsVariable v x := by
  have hv := hg.var v h.known
  exact ⟨Nat.lt_of_lt_of_le h.known hg.vars, by rw [hv, h.name], by rw [hv, h.type],
    by rw [hv]; exact h.dims.grows hg⟩

theorem IsVariable.congr {v : VarId} {x : SizedName} (h : s.IsVariable v x)
    (hexprs : s'.exprs = s.exprs) (hvars : s'.vars = s.vars) : s'.IsVariable v x := by
  have hv : s'.var v = s.var v := by rw [Shader.var, hvars, Shader.var]
  refine ⟨by rw [hvars]; exact h.known, by rw [hv, h.name], by rw [hv, h.type], ?_⟩
  rw [hv]
  exact h.dims.imp fun dim size hsize => by rwa [IsSize, hexprs]

theorem isVariable_addVar (v : Variable) {x : SizedName} (hname : v.name = x.name)
    (htype : v.type = x.type) (hdims : s.HasSizes v.dims x.sizes) :
    (s.addVar v).2.IsVariable (s.addVar v).1 x := by
  have hv : (s.addVar v).2.var (s.addVar v).1 = v := by
    rw [var_addVar]
    exact if_pos rfl
  exact ⟨by simp [addVar], by rw [hv, hname], by rw [hv, htype], by
    rw [hv]
    exact hdims.grows (.addVar s v)⟩

end Shader

namespace Parse

/-! ### Texts -/

/-- The tokens of a dimension, brackets included, and the size that it gives. -/
structure DimText where
  tokens : List TokenKind
  size : Option Constant

/-- A name with dimensions. -/
structure NameText where
  name : String
  dims : List DimText

/-- A type with dimensions, and the names behind it. -/
structure ArrayText where
  word : TokenKind
  type : TypeRef
  dims : List DimText
  first : NameText
  others : List NameText

def NameText.tokens (x : NameText) : List TokenKind :=
  .ident x.name :: x.dims.flatMap DimText.tokens

/-- A name behind a type that gives it sizes as well. -/
def NameText.sized (x : NameText) (type : TypeRef) (sizes : List (Option Constant)) : SizedName :=
  ⟨x.name, type, sizes ++ x.dims.map DimText.size⟩

namespace ArrayText

/-- The type with its dimensions. -/
def typeTokens (d : ArrayText) : List TokenKind :=
  d.word :: d.dims.flatMap DimText.tokens

/-- Names with a comma in front of each. -/
def furtherTokens (names : List NameText) : List TokenKind :=
  names.flatMap fun x => .punct .comma :: x.tokens

def tokens (d : ArrayText) : List TokenKind :=
  d.typeTokens ++ d.first.tokens ++ furtherTokens d.others

def names (d : ArrayText) : List NameText :=
  d.first :: d.others

def typeSizes (d : ArrayText) : List (Option Constant) :=
  d.dims.map DimText.size

theorem typeTokens_append (d : ArrayText) (ks : List TokenKind) :
    d.typeTokens ++ d.first.tokens ++ ks = d.word :: (d.dims.flatMap DimText.tokens ++
      .ident d.first.name :: (d.first.dims.flatMap DimText.tokens ++ ks)) := by
  simp [typeTokens, NameText.tokens]

theorem tokens_append (d : ArrayText) (ks : List TokenKind) :
    d.tokens ++ ks = d.word :: (d.dims.flatMap DimText.tokens ++
      .ident d.first.name :: (d.first.dims.flatMap DimText.tokens ++
        (furtherTokens d.others ++ ks))) := by
  rw [tokens, List.append_assoc, typeTokens_append]

/-- What is declared everywhere but in the parameters of a function. -/
def declared (d : ArrayText) : List SizedName :=
  d.names.map fun x => x.sized d.type d.typeSizes.reverse

/-- What the first name is as a parameter of a function. -/
def parameter (d : ArrayText) : SizedName :=
  d.first.sized d.type d.typeSizes

end ArrayText

/-! ### What stays where a shader grows -/

def Persists (K : Shader → Prop) : Prop :=
  ∀ s s' : Shader, s.Grows s' → K s → K s'

variable {α β : Type} {C : Shader → List (List VarId) → Prop} {K L : Shader → Prop}
  {k : TokenKind} {ks : List TokenKind} {rest : List Token} {st : ParserState}

theorem Persists.and (hK : Persists K) (hL : Persists L) : Persists fun s => K s ∧ L s :=
  fun s s' hg h => ⟨hK s s' hg h.1, hL s s' hg h.2⟩

theorem persists_isSize (dim : Option ExprId) (size : Option Constant) :
    Persists fun s => s.IsSize dim size :=
  fun _ _ hg h => h.grows hg

theorem persists_hasSizes (dims : List (Option ExprId)) (sizes : List (Option Constant)) :
    Persists fun s => s.HasSizes dims sizes :=
  fun _ _ hg h => h.grows hg

theorem persists_collects {R : Shader → α → β → Prop} (hR : ∀ a b, Persists fun s => R s a b)
    (found : List α) (left items : List β) : Persists fun s => Collects (R s) found left items :=
  fun s s' hg h => h.imp fun a b hab => hR a b s s' hg hab

theorem persists_forall₂ {R : Shader → α → β → Prop} (hR : ∀ a b, Persists fun s => R s a b)
    (as : List α) (bs : List β) : Persists fun s => List.Forall₂ (R s) as bs :=
  fun s s' hg h => h.imp fun a b hab => hR a b s s' hg hab

theorem persists_isVariable (v : VarId) (x : SizedName) : Persists fun s => s.IsVariable v x :=
  fun _ _ hg h => h.grows hg

theorem Delivers.growing {m : ParseM α} {E : α → Shader → List (List VarId) → Prop}
    {ks' : List TokenKind}
    (hm : Delivers (Ahead ks rest C) m fun a => Ahead ks' rest (E a)) (hgrows : Along Growing m)
    (hK : Persists K) :
    Delivers (Ahead ks rest fun s scopes => C s scopes ∧ K s) m
      fun a => Ahead ks' rest fun s scopes => E a s scopes ∧ K s := by
  refine delivers_weaken (delivers_imp (hm.keeping (K := fun st => K st.shader) ?_) ?_) ?_
  · intro st a st' h hrun
    exact hK _ _ (hgrows st a st' hrun) h
  · exact fun st h => ⟨h.imp And.left, h.2.2⟩
  · exact fun a st h => ⟨h.1.1, h.1.2, h.2⟩

/-! ### Texts that are read alike -/

/-- Where `Q` holds, the tokens are read as a dimension of the size, and `Q` goes on to hold. -/
structure DimText.ReadIn (Q : Shader → List (List VarId) → Prop) (d : DimText) : Prop where
  opens : ∃ ks, d.tokens = .punct .leftBracket :: ks
  reads : ∀ rest, Delivers (Ahead d.tokens rest Q) dimension fun dim =>
    Ahead [] rest fun s scopes => Q s scopes ∧ s.IsSize dim d.size

/-- A word that names a type where `Q` holds. Variables of the type may be declared. -/
inductive NamesTypeIn (Q : Shader → List (List VarId) → Prop) : TokenKind → TypeRef → Prop where
  | builtin (t : BuiltinType) :
      t.isFamily = false → t ≠ .void → NamesTypeIn Q (.keyword (.type t)) (.builtin t)
  | declared (name : String) (id : StructId) :
      (∀ s scopes, Q s scopes → s.findStruct? name = some id) →
        NamesTypeIn Q (.ident name) (.declared id)

structure ArrayText.ReadIn (Q : Shader → List (List VarId) → Prop) (d : ArrayText) : Prop where
  type : NamesTypeIn Q d.word d.type
  typeDims : ∀ dim ∈ d.dims, dim.ReadIn Q
  nameDims : ∀ x ∈ d.names, ∀ dim ∈ x.dims, dim.ReadIn Q

/-- `Q` goes on to hold where variables are added, and where some of the given names get into
scope. -/
structure HoldsBeside (Q : Shader → List (List VarId) → Prop) (names : List String) : Prop where
  addVar : ∀ s scopes v, Q s scopes → Q (s.addVar v).2 scopes
  declare : ∀ s scope scopes v, v.index < s.vars.size → (s.var v).name ∈ names →
    Q s (scope :: scopes) → Q s ((v :: scope) :: scopes)

variable {Q : Shader → List (List VarId) → Prop} {sizes : List (Option Constant)}

/-! ### Dimensions and names -/

theorem DimText.ReadIn.tokens_ne_nil {d : DimText} (h : d.ReadIn Q) : d.tokens ≠ [] := by
  obtain ⟨ks, hks⟩ := h.opens
  rw [hks]
  exact List.cons_ne_nil _ ks

theorem delivers_dimensions {dims : List DimText} (hdims : ∀ d ∈ dims, d.ReadIn Q)
    (hk : k ≠ .punct .leftBracket) :
    Delivers (Ahead (dims.flatMap DimText.tokens ++ k :: ks) rest Q) dimensions
      fun found => Ahead (k :: ks) rest fun s scopes =>
        Q s scopes ∧ s.HasSizes found (dims.map DimText.size) := by
  refine delivers_imp (delivers_repeatSteps dims
    (I := fun left found => Ahead (left.flatMap DimText.tokens ++ k :: ks) rest fun s scopes =>
      Q s scopes ∧ Collects s.IsSize found (left.map DimText.size) (dims.map DimText.size))
    ?_ ?_ ?_)
    fun st h => h.imp fun hQ => ⟨hQ, .start _⟩
  · intro d hd left found
    obtain ⟨kinds, hopens⟩ := (hdims d hd).opens
    have hread := (delivers_in_front (hdims d hd).reads (left.flatMap DimText.tokens ++ k :: ks)
      rest).growing along_dimension (persists_collects persists_isSize found
        ((d :: left).map DimText.size) (dims.map DimText.size))
    rw [← List.append_assoc, ← List.flatMap_cons] at hread
    refine delivers_bind_look (fun st h => run_at? ?_) ?_
    · rw [List.flatMap_cons, hopens] at h
      exact h.kindAt
    · exact delivers_bind hread fun dim => delivers_pure fun st h =>
        ⟨_, rfl, h.imp fun ⟨⟨hQ, hdim⟩, hfound⟩ => ⟨hQ, hfound.cons hdim⟩⟩
  · intro found
    refine delivers_bind_look (fun st h => run_at?_other (h.kindAt ▸ hk)) ?_
    exact delivers_pure fun st h => ⟨_, rfl, h.imp fun ⟨hQ, hfound⟩ => ⟨hQ, hfound.all⟩⟩
  · intro st h
    refine Nat.le_trans ?_ h.length_le
    rw [List.length_append]
    exact Nat.le_trans (length_le_flatMap fun d hd => (hdims d hd).tokens_ne_nil)
      (Nat.le_add_right _ _)

/-- A declarator without qualifiers and value is what a text says of it. -/
structure IsDeclarator (s : Shader) (d : Declarator) (x : SizedName) : Prop where
  name : d.name = x.name
  type : d.type = x.type
  dims : s.HasSizes d.dims x.sizes
  qualifiers : d.qualifiers = {}
  initial : d.initial = none

theorem IsDeclarator.congr {s s' : Shader} {d : Declarator} {x : SizedName} (h : IsDeclarator s d x)
    (hexprs : s'.exprs = s.exprs) : IsDeclarator s' d x :=
  { h with dims := h.dims.imp fun dim size hsize => by rwa [Shader.IsSize, hexprs] }

theorem persists_isDeclarator (d : Declarator) (x : SizedName) :
    Persists fun s => IsDeclarator s d x :=
  fun _ _ hg h => { h with dims := h.dims.grows hg }

/-- What comes behind a name is no dimension of it and no value. -/
def EndsName (k : TokenKind) : Prop :=
  k ≠ .punct .leftBracket ∧ k ≠ .punct .eq

theorem delivers_declarator {x : NameText} (hx : ∀ d ∈ x.dims, d.ReadIn Q) (hk : EndsName k)
    (hK : Persists K) (type : TypeRef) (typeDims : List (Option ExprId))
    (sizes : List (Option Constant)) :
    Delivers (Ahead (x.tokens ++ k :: ks) rest fun s scopes =>
        Q s scopes ∧ s.HasSizes typeDims sizes ∧ K s)
      (declarator {} type typeDims)
      fun d => Ahead (k :: ks) rest fun s scopes =>
        (Q s scopes ∧ IsDeclarator s d (x.sized type sizes)) ∧ s.HasSizes typeDims sizes ∧ K s := by
  refine delivers_bind_look (fun st h => h.run_name?) ?_
  refine delivers_bind (delivers_advance TokenKind.noConfusion) fun _ => ?_
  refine delivers_bind ((delivers_dimensions hx hk.1).growing along_dimensions
    ((persists_hasSizes typeDims sizes).and hK)) fun dims => ?_
  refine delivers_bind_look (fun st h => run_take?_other (h.kindAt ▸ hk.2)) ?_
  refine delivers_pure fun st h => h.imp fun ⟨⟨hQ, hdims⟩, htype, hkept⟩ => ⟨⟨hQ, ?_⟩, htype, hkept⟩
  exact ⟨rfl, rfl, List.rel_append htype hdims, rfl, rfl⟩

theorem furtherTokens_cons (x : NameText) (names : List NameText) (ks : List TokenKind) :
    ArrayText.furtherTokens (x :: names) ++ ks =
      .punct .comma :: (x.tokens ++ (ArrayText.furtherTokens names ++ ks)) := by
  simp only [ArrayText.furtherTokens, List.flatMap_cons, List.cons_append, List.append_assoc]

theorem exists_furtherTokens (names : List NameText) (hk : EndsName k) (ks : List TokenKind) :
    ∃ k' ks', ArrayText.furtherTokens names ++ k :: ks = k' :: ks' ∧ EndsName k' := by
  cases names with
  | nil => exact ⟨k, ks, rfl, hk⟩
  | cons x names => exact ⟨_, _, furtherTokens_cons x names _, by decide, by decide⟩

theorem length_le_furtherTokens (names : List NameText) :
    names.length ≤ (ArrayText.furtherTokens names).length :=
  length_le_flatMap fun x _ => List.cons_ne_nil _ x.tokens

theorem delivers_furtherDeclarators {names : List NameText}
    (hnames : ∀ x ∈ names, ∀ d ∈ x.dims, d.ReadIn Q) (hk : EndsName k)
    (hcomma : k ≠ .punct .comma) (type : TypeRef) (typeDims : List (Option ExprId))
    (first : Declarator) {x : SizedName} (hx : x.type = type) :
    Delivers (Ahead (ArrayText.furtherTokens names ++ k :: ks) rest fun s scopes =>
        Q s scopes ∧ s.HasSizes typeDims sizes ∧ IsDeclarator s first x)
      (furtherDeclarators first typeDims)
      fun found => Ahead (k :: ks) rest fun s scopes => Q s scopes ∧
        List.Forall₂ (IsDeclarator s) found (x :: names.map fun y => y.sized type sizes) := by
  intro st h
  have hplain : first.qualifiers = {} := h.2.2.2.qualifiers
  have htype : first.type = type := h.2.2.2.type.trans hx
  unfold furtherDeclarators
  rw [hplain, htype]
  refine delivers_imp (delivers_repeatSteps names
    (I := fun left found => Ahead (ArrayText.furtherTokens left ++ k :: ks) rest fun s scopes =>
      Q s scopes ∧ s.HasSizes typeDims sizes ∧ Collects (IsDeclarator s) found
        (left.map fun y => y.sized type sizes) (x :: names.map fun y => y.sized type sizes))
    ?_ ?_ ?_) (fun st h => h.imp ?_) st h
  · intro y hy left found
    obtain ⟨k', ks', hnext, hends⟩ := exists_furtherTokens left hk ks
    rw [furtherTokens_cons, hnext]
    refine delivers_bind_eq (delivers_take? .comma) ?_
    refine delivers_bind (delivers_declarator (hnames y hy) hends
      (persists_collects persists_isDeclarator found _ _) type typeDims sizes) fun d => ?_
    exact delivers_pure fun st h => ⟨_, rfl, h.imp fun ⟨⟨hQ, hd⟩, hdims, hfound⟩ =>
      ⟨hQ, hdims, hfound.cons hd⟩⟩
  · intro found
    refine delivers_bind_look (fun st h => run_take?_other (h.kindAt ▸ hcomma)) ?_
    exact delivers_pure fun st h => ⟨_, rfl, h.imp fun ⟨hQ, _, hfound⟩ => ⟨hQ, hfound.all⟩⟩
  · intro st h
    refine Nat.le_trans (length_le_furtherTokens names) (Nat.le_trans ?_ h.length_le)
    rw [List.length_append]
    exact Nat.le_add_right _ _
  · exact fun ⟨hQ, hdims, hfirst⟩ =>
      ⟨hQ, hdims, Collects.append (l := [x]) (.start _) (.cons hfirst .nil)⟩

/-! ### Sizes that are read alike -/

theorem run_expression_primary {e : ExprId} {st' : ParserState}
    (hprimary : ∀ fuel, (primary (fuel + 1) [.rightBracket]).run st = .ok (e, st'))
    (hnext : kindAt st'.tokens = .punct .rightBracket) :
    (expression [.rightBracket]).run st = .ok (e, st') := by
  refine (run_bind_of (a := 8 * st.tokens.length + 13 + 3) rfl).trans ?_
  have hoperand : (operand (8 * st.tokens.length + 13 + 2) [.rightBracket]).run st = .ok (e, st') :=
    (run_bind_of (hprimary _)).trans (run_selections_done (by rw [hnext]; rfl) _ e)
  refine (run_bind_of hoperand).trans (run_operations_done ?_ _ e)
  intro op n h
  rw [hnext] at h
  cases h

/-- An expression is constant and folds to a literal, and nothing is added on the way. -/
structure FoldsTo (s : Shader) (id e : ExprId) (c : Constant) : Prop where
  constant : s.isConstant id
  folds : (Folding.evaluate id).run.run s = (.ok e, s)
  value : s.exprs[e.index]? = some (.constant c)

theorem run_evaluateWithin_constant {s : Shader} {id : ExprId} {c : Constant}
    (h : s.expr id = .constant c) (n : Nat) :
    (Folding.evaluateWithin (n + 1) id).run.run s = (.ok id, s) := by
  rw [Folding.evaluateWithin, Folding.run_bind, Folding.run_get]
  dsimp only
  rw [h]
  rfl

theorem foldsTo_of_constant {s : Shader} {id : ExprId} {c : Constant}
    (h : s.exprs[id.index]? = some (.constant c)) : FoldsTo s id id c where
  constant := by
    rw [Shader.isConstant, Shader.foldingDepth, Shader.isConstantWithin, Shader.expr_of_getElem? h]
  folds := by
    rw [Folding.evaluate, Folding.run_bind, Folding.run_get]
    exact run_evaluateWithin_constant (Shader.expr_of_getElem? h) _
  value := h

theorem foldsTo_of_var {s : Shader} {id e : ExprId} {v : VarId} {c : Constant}
    (h : s.expr id = .var v) (himmutable : (s.var v).isImmutable)
    (hinitial : (s.var v).initial? = some e) (he : s.exprs[e.index]? = some (.constant c)) :
    FoldsTo s id e c := by
  have hsize : e.index < s.exprs.size := (Array.getElem?_eq_some_iff.1 he).1
  have hvalue := Shader.expr_of_getElem? he
  obtain ⟨n, hn⟩ : ∃ n, s.foldingDepth = n + 2 :=
    ⟨s.exprs.size + s.vars.size - 1, by unfold Shader.foldingDepth; omega⟩
  refine ⟨?_, ?_, he⟩
  · rw [Shader.isConstant, hn, Shader.isConstantWithin, h]
    dsimp only
    rw [himmutable, hinitial, Bool.true_and, Option.any_some, Shader.isConstantWithin, hvalue]
  · rw [Folding.evaluate, Folding.run_bind, Folding.run_get]
    dsimp only
    rw [hn, Folding.evaluateWithin, Folding.run_bind, Folding.run_get]
    dsimp only
    rw [h]
    dsimp only
    rw [Folding.run_bind, Folding.run_get]
    dsimp only
    rw [hinitial]
    exact run_evaluateWithin_constant hvalue n

/-- A token is read as an expression that folds to a constant. -/
structure ReadsConstant (st : ParserState) (tokens : List Token) (x : Expr) (e : ExprId)
    (c : Constant) : Prop where
  primary : ∀ fuel, (primary (fuel + 1) [.rightBracket]).run st =
    .ok ((st.shader.addExpr x).1, { st with tokens, shader := (st.shader.addExpr x).2 })
  folded : FoldsTo (st.shader.addExpr x).2 (st.shader.addExpr x).1 e c

theorem run_evaluate_of (st : ParserState) {id e : ExprId}
    (h : (Folding.evaluate id).run.run st.shader = (.ok e, st.shader)) :
    (evaluate id).run st = .ok (e, st) := by
  obtain ⟨tokens, s, scopes, calls⟩ := st
  refine (run_bind_of (a := Except.ok e) ?_).trans rfl
  show Except.ok ((StateT.run (Folding.evaluate id).run s).1,
    (⟨tokens, (StateT.run (Folding.evaluate id).run s).2, scopes, calls⟩ : ParserState)) = _
  rw [show StateT.run (Folding.evaluate id).run s = (Except.ok e, s) from h]

theorem readIn_empty : DimText.ReadIn Q ⟨[.punct .leftBracket, .punct .rightBracket], none⟩ where
  opens := ⟨_, rfl⟩
  reads rest := by
    refine delivers_bind (delivers_advance TokenKind.noConfusion) fun _ => ?_
    refine delivers_bind_eq (delivers_take? .rightBracket) ?_
    exact delivers_pure fun st h => h.imp fun hQ => ⟨hQ, rfl⟩

theorem readIn_of_readsConstant {c : Constant} (hk : k ≠ .punct .rightBracket)
    (h : ∀ (st : ParserState) (t : Token) (tokens : List Token), st.tokens = t :: tokens →
      t.kind = k → kindAt tokens = .punct .rightBracket → Q st.shader st.scopes →
      ∃ x e, ReadsConstant st tokens x e c ∧ Q (st.shader.addExpr x).2 st.scopes) :
    DimText.ReadIn Q ⟨[.punct .leftBracket, k, .punct .rightBracket], some c⟩ where
  opens := ⟨_, rfl⟩
  reads rest := by
    refine delivers_bind (delivers_advance TokenKind.noConfusion) fun _ => ?_
    refine delivers_bind_look (fun st h => run_take?_other (h.kindAt ▸ hk)) ?_
    intro st hst
    obtain ⟨place, tokens, htokens, hnext⟩ := hst.exists_cons
    obtain ⟨x, e, hread, hQ⟩ := h st _ tokens htokens rfl hnext.kindAt hst.2
    obtain ⟨place', tokens', htokens', hnext'⟩ := hnext.exists_cons
    dsimp only at htokens'
    have hsize := run_expression_primary hread.primary hnext.kindAt
    obtain ⟨hconstant, hfolds, hvalue⟩ := hread.folded
    generalize (st.shader.addExpr x).1 = id at *
    generalize (st.shader.addExpr x).2 = s at *
    refine ⟨some e, { st with tokens := tokens', shader := s }, ?_, hnext'.1, hQ,
      congrArg some hvalue⟩
    have hlook : (isConstant id).run { st with tokens := tokens, shader := s } =
        .ok (true, { st with tokens := tokens, shader := s }) :=
      congrArg (fun b => Except.ok (b, _)) hconstant
    refine (run_bind_of hsize).trans ((run_bind_of hlook).trans ?_)
    refine (run_bind_of (run_evaluate_of { st with tokens := tokens, shader := s } hfolds)).trans ?_
    exact run_bind_of (run_expect htokens' rfl)

theorem readIn_literal (c : Constant)
    (hQ : ∀ s scopes, Q s scopes → Q (s.addExpr (.constant c)).2 scopes) :
    DimText.ReadIn Q ⟨[.punct .leftBracket, .number c, .punct .rightBracket], some c⟩ := by
  refine readIn_of_readsConstant TokenKind.noConfusion fun st t tokens htokens ht _ h => ?_
  refine ⟨.constant c, (st.shader.addExpr (.constant c)).1,
    ⟨fun fuel => run_primary_literal htokens ht fuel, ?_⟩, hQ _ _ h⟩
  exact foldsTo_of_constant (Shader.getElem?_addExpr _ _)

/-- A name stands for a variable that keeps a constant as its first value. -/
structure NamesConstant (name : String) (c : Constant) (s : Shader) (scopes : List (List VarId)) :
    Prop where
  known : ∀ v ∈ scopes.flatten, v.index < s.vars.size
  exists_var : ∃ v e, scopes.flatten.find? (fun id => (s.var id).name == name) = some v ∧
    (s.var v).isImmutable ∧ (s.var v).initial? = some e ∧ s.exprs[e.index]? = some (.constant c)

theorem NamesConstant.addExpr {name : String} {c : Constant} {s : Shader}
    {scopes : List (List VarId)} (h : NamesConstant name c s scopes) (x : Expr) :
    NamesConstant name c (s.addExpr x).2 scopes := by
  obtain ⟨v, e, hfind, himmutable, hinitial, he⟩ := h.exists_var
  exact ⟨h.known, v, e, hfind, himmutable, hinitial,
    (Shader.Grows.addExpr s x).getElem?_constant he⟩

theorem NamesConstant.holdsBeside {name : String} (c : Constant) {names : List String}
    (h : name ∉ names) : HoldsBeside (NamesConstant name c) names where
  addVar s scopes w hs := by
    obtain ⟨v, e, hfind, himmutable, hinitial, he⟩ := hs.exists_var
    have hknown : v.index < s.vars.size := hs.known v (List.mem_of_find?_eq_some hfind)
    have hv := Shader.var_addVar_of_lt (s := s) w hknown
    have hmore := (Shader.Grows.addVar s w).vars
    refine ⟨fun u hu => Nat.lt_of_lt_of_le (hs.known u hu) hmore, v, e, ?_, ?_, ?_, he⟩
    · rw [← hfind]
      exact List.find?_congr fun u hu => by rw [Shader.var_addVar_of_lt w (hs.known u hu)]
    · rw [hv]
      exact himmutable
    · rw [hv]
      exact hinitial
  declare s scope scopes w hw hname hs := by
    obtain ⟨v, e, hfind, hfolds⟩ := hs.exists_var
    have hother : ((s.var w).name == name) = false :=
      beq_false_of_ne fun heq => h (heq ▸ hname)
    refine ⟨?_, v, e, ?_, hfolds⟩
    · rw [List.flatten_cons, List.cons_append]
      exact List.forall_mem_cons.2 ⟨hw, hs.known⟩
    · rw [List.flatten_cons, List.cons_append, List.find?_cons, hother]
      exact hfind

theorem readIn_constant (name : String) (c : Constant) :
    DimText.ReadIn (NamesConstant name c)
      ⟨[.punct .leftBracket, .ident name, .punct .rightBracket], some c⟩ := by
  refine readIn_of_readsConstant TokenKind.noConfusion fun st t tokens htokens ht hnext h => ?_
  obtain ⟨v, e, hfind, himmutable, hinitial, he⟩ := h.exists_var
  refine ⟨.var v, e, ⟨fun fuel => ?_, ?_⟩, h.addExpr _⟩
  · exact run_primary_var htokens ht (by rw [hnext]; decide) hfind fuel
  · exact foldsTo_of_var (Shader.expr_addExpr_self _ _) himmutable hinitial
      ((Shader.Grows.addExpr st.shader (.var v)).getElem?_constant he)

end Parse

end ShaderBridge
