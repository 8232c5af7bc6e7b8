import ShaderBridge.Proofs.Parse.Run
import ShaderBridge.Proofs.Parse.Statement
import ShaderBridge.Proofs.Shader.Members
import ShaderBridge.Proofs.Shader.Resolved

/-!
Properties of the state of a parse that go with items that are at hand and with expressions that
have been folded. Where the small steps keep such a property, all rules for expressions and for the
variables of a local declaration keep it. A rule leaves what it has been given and adds what it
returns.
-/

namespace ShaderBridge

namespace Parse

def typeItems (t : TypeRef) : List Item :=
  (Item.ofType? t).toList

def dimItems (dims : List (Option ExprId)) : List Item :=
  dims.filterMap fun dim => dim.map .expr

/-- The shader and the scopes are the same. -/
def SameTables (st st' : ParserState) : Prop :=
  st'.shader = st.shader ∧ st'.scopes = st.scopes

instance : Frame SameTables where
  refl _ := ⟨rfl, rfl⟩
  trans h h' := ⟨h'.1.trans h.1, h'.2.trans h.2⟩
  advance := by
    intro st a st' h
    unfold advance at h
    cases h
    dsimp only
    split
    · split <;> exact ⟨rfl, rfl⟩
    · exact ⟨rfl, rfl⟩

/-- A property of states that is kept by all that happens while an expression or the variables of a
local declaration are parsed. Only items at hand are referred to, only constant expressions are
folded, and only what may be written to is assigned to. -/
class Tracks (S : List ExprId → List Item → ParserState → Prop) : Prop where
  subset {fs : List ExprId} {xs ys : List Item} {st : ParserState} :
    S fs xs st → ys ⊆ xs → S fs ys st
  fewer {fs gs : List ExprId} {xs : List Item} {st : ParserState} :
    S fs xs st → gs ⊆ fs → S gs xs st
  same {fs : List ExprId} {xs : List Item} {st st' : ParserState} :
    S fs xs st → SameTables st st' → S fs xs st'
  addExpr {fs : List ExprId} {ys : List Item} (xs : List Item) {e : Expr} :
    e.references ⊆ ys → xs ⊆ ys → e.isGeneric = false → e.isAssign = false →
      e.isMember = false → Leads (S fs ys) (addExpr e) fun id => S fs (.expr id :: xs)
  addAssign {fs : List ExprId} {ys : List Item} (xs : List Item) (op : AssignOp)
    {left right : ExprId} : (Expr.assign op left right).references ⊆ ys → xs ⊆ ys →
      Leads (fun st => S fs ys st ∧ (checkTarget left).run st = .ok ((), st))
        (Parse.addExpr (.assign op left right)) fun id => S fs (.expr id :: xs)
  evaluate {fs : List ExprId} {xs : List Item} {id : ExprId} :
    Leads (fun st => S fs (.expr id :: xs) st ∧ (isConstant id).run st = .ok (true, st))
      (evaluate id) fun id' => S (id' :: fs) (.expr id' :: xs)
  findVariable? {fs : List ExprId} {xs : List Item} (name : String) :
    Leads (S fs xs) (findVariable? name) fun v => S fs (v.toList.map .var ++ xs)
  findType? {fs : List ExprId} {xs : List Item} (name : String) :
    Leads (S fs xs) (findType? name) fun t st =>
      S fs (t.toList.flatMap typeItems ++ xs) st ∧ ∀ type ∈ t, type.isFamily = false
  memberOf {fs : List ExprId} {xs : List Item} (operand : ExprId) :
    Leads (S fs (.expr operand :: xs)) (memberOf operand) fun id => S fs (.expr id :: xs)
  addVar {fs : List ExprId} {ys : List Item} (xs : List Item) {v : Variable} :
    v.references ⊆ ys → xs ⊆ ys → v.isGeneric = false → v.constantPositions ⊆ fs →
      Leads (S fs ys) (addVar v) fun id => S fs (.var id :: xs)
  declare {fs : List ExprId} {xs : List Item} {id : VarId} :
    .var id ∈ xs → Leads (S fs xs) (declare id) fun _ => S fs xs

variable {α β : Type} {S : List ExprId → List Item → ParserState → Prop} [Tracks S]
  {fs gs : List ExprId} {xs ys : List Item} {Q : α → ParserState → Prop}

theorem Leads.given {m : ParseM α} (hm : Leads (S fs xs) m Q) (h : xs ⊆ ys) :
    Leads (S fs ys) m Q :=
  leads_imp hm fun _ hst => Tracks.subset hst h

theorem Leads.folded {m : ParseM α} (hm : Leads (S fs xs) m Q) (h : fs ⊆ gs) :
    Leads (S gs xs) m Q :=
  leads_imp hm fun _ hst => Tracks.fewer hst h

theorem tracks_same {m : ParseM α} (hm : Along SameTables m) :
    Leads (S fs xs) m fun _ => S fs xs :=
  fun st a st' h hrun => Tracks.same h (hm st a st' hrun)

theorem tracks_advance : Leads (S fs xs) advance fun _ => S fs xs :=
  tracks_same Frame.advance

theorem tracks_addExpr (xs : List Item) {e : Expr} (he : e.references ⊆ ys) (hxs : xs ⊆ ys)
    (hgeneric : e.isGeneric = false := by rfl) (hassign : e.isAssign = false := by rfl)
    (hmember : e.isMember = false := by rfl) :
    Leads (S fs ys) (addExpr e) fun id => S fs (.expr id :: xs) :=
  Tracks.addExpr xs he hxs hgeneric hassign hmember

theorem tracks_commaSeparated_folded {item : ParseM α} (itemsOf : α → List Item)
    (foldedOf : α → List ExprId)
    (hitem : ∀ (found : List α) (xs : List Item),
      Leads (S (found.flatMap foldedOf ++ fs) xs) item fun a =>
        S ((a :: found).flatMap foldedOf ++ fs) (itemsOf a ++ xs))
    (closing : List Punct) (separator : ParseError) :
    Leads (S fs xs) (commaSeparated closing separator item) fun l =>
      S (l.flatMap foldedOf ++ fs) (l.flatMap itemsOf ++ xs) := by
  refine leads_repeatSteps (I := fun found =>
    S (found.flatMap foldedOf ++ fs) (found.flatMap itemsOf ++ xs)) (fun found => ?_) []
  refine leads_bind_read (reads_atAny? closing) fun atClosing => ?_
  refine leads_ite (fun _ => ?_) fun _ => ?_
  · refine leads_bind tracks_advance fun _ => leads_pure fun st h =>
      Tracks.fewer (Tracks.subset h ?_) ?_ <;> grind
  refine leads_bind (hitem found _) fun a => ?_
  have hnext : Leads (S ((a :: found).flatMap foldedOf ++ fs)
      (itemsOf a ++ (found.flatMap itemsOf ++ xs)))
      (pure (.inl (a :: found)) : ParseM (List α ⊕ List α)) fun next st =>
        next.elim (fun found => S (found.flatMap foldedOf ++ fs)
          (found.flatMap itemsOf ++ xs) st) fun l =>
          S (l.flatMap foldedOf ++ fs) (l.flatMap itemsOf ++ xs) st :=
    leads_pure fun st h => Tracks.subset h (by grind)
  refine leads_bind (tracks_same (along_take? .comma)) fun atComma => ?_
  refine leads_ite (fun _ => ?_) fun _ => ?_
  · exact hnext
  refine leads_bind_read (reads_atAny? closing) fun atClosing => ?_
  refine leads_ite (fun _ => ?_) fun _ => leads_fail_bind _ _
  exact hnext

theorem tracks_commaSeparated {item : ParseM α} (itemsOf : α → List Item)
    (hitem : ∀ xs, Leads (S fs xs) item fun a => S fs (itemsOf a ++ xs))
    (closing : List Punct) (separator : ParseError) :
    Leads (S fs xs) (commaSeparated closing separator item) fun l =>
      S fs (l.flatMap itemsOf ++ xs) := by
  have hnone (l : List α) : (l.flatMap fun _ => ([] : List ExprId)) = [] := by simp
  refine leads_weaken
    (tracks_commaSeparated_folded itemsOf (fun _ => []) (fun found xs => ?_) closing
    separator) fun l st h => by simpa only [hnone, List.nil_append] using h
  simpa only [hnone, List.nil_append] using hitem xs

/-! ### Expressions -/

theorem not_isFamily_of_concreteType? {k : Keyword} {t : BuiltinType}
    (h : k.concreteType? = some t) :
    t.isFamily = false := by
  simpa using (Option.filter_eq_some_iff.1 h).2

theorem tracks_combine (op : InfixOp) (left right : ExprId) :
    Leads (S fs (.expr right :: .expr left :: xs)) (combine op left right) fun id =>
      S fs (.expr id :: xs) := by
  unfold combine
  cases op with
  | assign op =>
      refine leads_bind_look (reads_checkTarget left) fun _ => Tracks.addAssign _ op ?_ ?_
      · simp [Expr.references, Expr.links, Expr.items]
      · grind
  | _ =>
      refine tracks_addExpr _ ?_ ?_
      · simp [Expr.references, Expr.links, Expr.items]
      · grind

theorem tracks_constant (value : Constant) :
    Leads (S fs xs) (addExpr (.constant value)) fun id => S fs (.expr id :: xs) :=
  tracks_addExpr xs (List.nil_subset _) (List.Subset.refl _)

theorem tracks_literal (value : Constant) :
    Leads (S fs xs) (literal value) fun id => S fs (.expr id :: xs) :=
  leads_bind tracks_advance fun _ => tracks_constant value

theorem tracks_variableNamed (name : String) :
    Leads (S fs xs) (variableNamed name) fun id => S fs (.expr id :: xs) := by
  refine leads_bind (Tracks.findVariable? name) fun found => ?_
  cases found with
  | none => exact leads_fail _
  | some v =>
      refine leads_bind tracks_advance fun _ => tracks_addExpr _ ?_ ?_
      · simp [Expr.references, Expr.links, Expr.items]
      · simp

-- Some of these rules use the instance only through one another.
set_option linter.unusedSectionVars false in
mutual

theorem tracks_expressionWithin : ∀ (fuel : Nat) (ends : List Punct) (xs : List Item),
    Leads (S fs xs) (expressionWithin fuel ends) fun id => S fs (.expr id :: xs)
  | 0, _, _ => leads_unfinished
  | fuel + 1, ends, xs =>
    leads_bind (tracks_operand fuel ends xs) fun left => tracks_operations fuel ends 0 left xs

theorem tracks_operations : ∀ (fuel : Nat) (ends : List Punct) (level : Nat) (left : ExprId)
    (xs : List Item),
    Leads (S fs (.expr left :: xs)) (operations fuel ends level left) fun id =>
      S fs (.expr id :: xs)
  | 0, _, _, _, _ => leads_unfinished
  | fuel + 1, ends, level, left, xs => by
    refine leads_bind_read (reads_nextInfix? ends) fun next => ?_
    cases next with
    | none => exact leads_pure fun st h => h
    | some next =>
        obtain ⟨op, binding⟩ := next
        refine leads_ite (fun _ => leads_pure fun st h => h) fun _ => ?_
        refine leads_bind tracks_advance fun _ => ?_
        refine leads_ite (fun _ => ?_) fun _ => ?_
        · refine leads_bind (tracks_expressionWithin fuel _ _) fun onTrue => ?_
          refine leads_bind (tracks_same (along_expect _ _)) fun _ => ?_
          refine leads_bind (tracks_expressionWithin fuel ends _) fun onFalse => ?_
          refine leads_bind (tracks_addExpr xs ?_ ?_) fun e =>
            tracks_operations fuel ends level e xs
          · simp [Expr.references, Expr.links, Expr.items]
          · grind
        · refine leads_bind (tracks_operand fuel ends _) fun right => ?_
          refine leads_bind (tracks_rightOperand fuel ends _ _ right _) fun right => ?_
          exact leads_bind (tracks_combine op left right) fun e =>
            tracks_operations fuel ends level e xs

theorem tracks_rightOperand : ∀ (fuel : Nat) (ends : List Punct) (toRight : Bool) (binding : Nat)
    (right : ExprId) (xs : List Item),
    Leads (S fs (.expr right :: xs)) (rightOperand fuel ends toRight binding right) fun id =>
      S fs (.expr id :: xs)
  | 0, _, _, _, _, _ => leads_unfinished
  | fuel + 1, ends, toRight, binding, right, xs => by
    have hextend (level : Nat) :
        Leads (S fs (.expr right :: xs)) (do
          let right ← operations fuel ends level right
          rightOperand fuel ends toRight binding right) fun id => S fs (.expr id :: xs) :=
      leads_bind (tracks_operations fuel ends level right xs) fun right =>
        tracks_rightOperand fuel ends toRight binding right xs
    refine leads_bind_read (reads_nextInfix? ends) fun next => ?_
    cases next with
    | none => exact leads_pure fun st h => h
    | some next =>
        refine leads_ite (fun _ => hextend _) fun _ => ?_
        exact leads_ite (fun _ => hextend _) fun _ => leads_pure fun st h => h

theorem tracks_operand : ∀ (fuel : Nat) (ends : List Punct) (xs : List Item),
    Leads (S fs xs) (operand fuel ends) fun id => S fs (.expr id :: xs)
  | 0, _, _ => leads_unfinished
  | fuel + 1, ends, xs =>
    leads_bind (tracks_primary fuel ends xs) fun base => tracks_selections fuel base xs

theorem tracks_selections : ∀ (fuel : Nat) (base : ExprId) (xs : List Item),
    Leads (S fs (.expr base :: xs)) (selections fuel base)
        fun id => S fs (.expr id :: xs)
  | 0, _, _ => leads_unfinished
  | fuel + 1, base, xs => by
    have hstep (op : UnaryOp) :
        Leads (S fs (.expr base :: xs)) (do advance; addExpr (.unary op base)) fun id =>
          S fs (.expr id :: xs) := by
      refine leads_bind tracks_advance fun _ => tracks_addExpr _ ?_ ?_
      · simp [Expr.references, Expr.links, Expr.items]
      · grind
    refine leads_bind_read reads_peek fun kind => ?_
    split
    · refine leads_bind tracks_advance fun _ => ?_
      exact leads_bind (Tracks.memberOf base) fun e => tracks_selections fuel e xs
    · exact leads_bind (tracks_subscriptOf fuel base xs) fun e => tracks_selections fuel e xs
    · exact hstep _
    · exact hstep _
    · exact leads_pure fun st h => h

theorem tracks_subscriptOf : ∀ (fuel : Nat) (base : ExprId) (xs : List Item),
    Leads (S fs (.expr base :: xs)) (subscriptOf fuel base)
        fun id => S fs (.expr id :: xs)
  | 0, _, _ => leads_unfinished
  | fuel + 1, base, xs => by
    refine leads_bind_read reads_shader fun s => ?_
    refine leads_ite (fun _ => ?_) fun _ => leads_fail_bind _ _
    refine leads_bind tracks_advance fun _ => ?_
    refine leads_bind (tracks_expressionWithin fuel _ _) fun index => ?_
    have hclose (index : ExprId) :
        Leads (S fs (.expr index :: .expr base :: xs)) (do
          expect .rightBracket .subscriptClose
          addExpr (.subscript base index)) fun id => S fs (.expr id :: xs) := by
      refine leads_bind (tracks_same (along_expect _ _)) fun _ => tracks_addExpr _ ?_ ?_
      · simp [Expr.references, Expr.links, Expr.items]
      · grind
    refine leads_bind_look (reads_isConstant index) fun constant => ?_
    refine leads_ite (fun hconstant => ?_) fun _ => leads_imp (hclose index) fun st h => h.1
    refine leads_bind (leads_imp Tracks.evaluate fun st h => ⟨h.1, hconstant ▸ h.2⟩) fun index => ?_
    exact (hclose index).folded (List.subset_cons_self _ _)

theorem tracks_primary : ∀ (fuel : Nat) (ends : List Punct) (xs : List Item),
    Leads (S fs xs) (primary fuel ends) fun id => S fs (.expr id :: xs)
  | 0, _, _ => leads_unfinished
  | fuel + 1, ends, xs => by
    refine leads_bind_read reads_peek fun kind => ?_
    split
    · split
      · refine leads_bind tracks_advance fun _ => ?_
        refine leads_bind (tracks_operand fuel ends xs) fun base => tracks_addExpr _ ?_ ?_
        · simp [Expr.references, Expr.links, Expr.items]
        · grind
      · refine leads_ite (fun _ => ?_) fun _ => leads_fail _
        refine leads_bind tracks_advance fun _ => ?_
        refine leads_bind (tracks_expressionWithin fuel _ xs) fun inner => ?_
        refine leads_bind (tracks_same (along_expect _ _)) fun _ => leads_pure fun st h => h
    · exact tracks_literal _
    · exact tracks_literal _
    · split
      · next t ht =>
          refine (tracks_construction fuel (.builtin t) xs ?_).given
            (by simp [typeItems, Item.ofType?])
          exact not_isFamily_of_concreteType? ht
      · exact leads_fail _
    · exact tracks_literal _
    · next name =>
        refine leads_bind_read reads_peekSecond fun second => ?_
        refine leads_ite (fun _ => ?_) fun _ => tracks_variableNamed name
        refine leads_bind (Tracks.findType? name) fun type => leads_of_and fun htype => ?_
        cases type with
        | some type => exact (tracks_construction fuel type xs (htype type rfl)).given (by grind)
        | none =>
            refine leads_bind tracks_advance fun _ => ?_
            refine leads_bind (tracks_arguments fuel _ _) fun args => ?_
            refine leads_bind (tracks_addExpr xs ?_ ?_) fun call => ?_
            · simp [Expr.references, Expr.links, Expr.items]
            · grind
            have hrecord : Along SameTables
                (modify fun st : ParserState => { st with calls := call :: st.calls }) := by
              intro st a st' h
              cases h
              exact ⟨rfl, rfl⟩
            exact leads_bind (tracks_same hrecord) fun _ => leads_pure fun st h => h
    · exact leads_fail _

theorem tracks_construction : ∀ (fuel : Nat) (type : TypeRef) (xs : List Item),
    type.isFamily = false →
      Leads (S fs (typeItems type ++ xs)) (construction fuel type) fun id =>
        S fs (.expr id :: xs)
  | 0, _, _, _ => leads_unfinished
  | fuel + 1, type, xs, htype => by
    refine leads_bind tracks_advance fun _ => ?_
    refine leads_bind (tracks_same (along_take? _)) fun array => ?_
    refine leads_ite (fun _ => ?_) fun _ => ?_
    · refine leads_bind (tracks_arrayTypeEnd fuel _) fun _ => ?_
      refine leads_bind (tracks_arguments fuel _ _) fun items => tracks_addExpr _ ?_ ?_
      · simp [Expr.references, Expr.links, Expr.items]
      · grind
    · refine leads_bind (tracks_arguments fuel _ _) fun args => tracks_addExpr _ ?_ ?_ htype
      · simp [Expr.references, Expr.links, Expr.items, typeItems]
      · grind

theorem tracks_arrayTypeEnd : ∀ (fuel : Nat) (xs : List Item),
    Leads (S fs xs) (arrayTypeEnd fuel) fun _ => S fs xs
  | 0, _ => leads_unfinished
  | fuel + 1, xs => by
    refine leads_bind_read (reads_at? .rightBracket) fun closed => ?_
    refine leads_ite (fun _ => tracks_same (along_expect _ _)) fun _ => ?_
    refine leads_bind (tracks_expressionWithin fuel _ xs) fun size => ?_
    exact (tracks_same (along_expect _ _)).given (by grind)

theorem tracks_arguments : ∀ (fuel : Nat) (opening : Expected) (xs : List Item),
    Leads (S fs xs) (arguments fuel opening) fun args => S fs (args.map .expr ++ xs)
  | 0, _, _ => leads_unfinished
  | fuel + 1, _, xs => by
    refine leads_bind (tracks_same (along_expect _ _)) fun _ => ?_
    simp only [List.map_eq_flatMap]
    exact tracks_commaSeparated _ (tracks_expressionWithin fuel _) _ _

theorem tracks_itemsWithin : ∀ (fuel : Nat) (ends : List Punct) (xs : List Item),
    Leads (S fs xs) (itemsWithin fuel ends) fun id => S fs (.expr id :: xs)
  | 0, _, _ => leads_unfinished
  | fuel + 1, ends, xs => by
    refine leads_bind_read reads_peek fun kind => ?_
    refine leads_bind_read reads_peekSecond fun second => ?_
    have hitems (parens : Bool) :
        Leads (S fs xs) (do
          if (← at? .leftBrace) || (parens && (← at? .leftParen)) then
            advance
            let items ← commaSeparated [.rightBrace, .rightParen] (.expected .itemSeparator)
              (itemsWithin fuel (ends ++ [.rightParen, .comma]))
            addExpr (.aggregate items)
          else expressionWithin fuel ends) fun id => S fs (.expr id :: xs) := by
      refine leads_bind_read (reads_at? _) fun _ => leads_bind_read (reads_at? _) fun _ => ?_
      refine leads_ite (fun _ => ?_) fun _ => tracks_expressionWithin fuel ends xs
      refine leads_bind tracks_advance fun _ => ?_
      refine leads_bind (tracks_commaSeparated (fun id => [Item.expr id])
        (tracks_itemsWithin fuel _) _ _) fun items => tracks_addExpr _ ?_ ?_
      · simp [Expr.references, Expr.links, Expr.items, List.map_eq_flatMap]
      · grind
    refine leads_ite (fun _ => ?_) fun _ => hitems false
    refine leads_bind tracks_advance fun _ => ?_
    refine leads_bind tracks_advance fun _ => ?_
    refine leads_bind (tracks_arrayTypeEnd fuel xs) fun _ => ?_
    refine leads_bind_read (reads_at? _) fun opened => ?_
    exact leads_ite (fun _ => hitems true) fun _ => leads_fail_bind _ _

end

theorem tracks_expression (ends : List Punct) (xs : List Item) :
    Leads (S fs xs) (expression ends) fun id => S fs (.expr id :: xs) :=
  leads_bind_read reads_fuel fun fuel => tracks_expressionWithin fuel ends xs

theorem tracks_initialValue (type : Option TypeRef) (isArray : Bool) (ends : List Punct)
    (xs : List Item) :
    Leads (S fs xs) (initialValue type isArray ends)
        fun id => S fs (.expr id :: xs) := by
  refine leads_ite (fun _ => ?_) fun _ => tracks_expression ends xs
  exact leads_bind_read reads_fuel fun fuel => tracks_itemsWithin fuel ends xs

theorem tracks_dimension (xs : List Item) :
    Leads (S fs xs) dimension fun dim =>
      S (dim.toList ++ fs) (dim.toList.map .expr ++ xs) := by
  refine leads_bind tracks_advance fun _ => ?_
  refine leads_bind (tracks_same (along_take? _)) fun closed => ?_
  refine leads_ite (fun _ => leads_pure fun st h => h) fun _ => ?_
  refine leads_bind (tracks_expression _ xs) fun size => ?_
  refine leads_bind_look (reads_isConstant size) fun constant => ?_
  refine leads_ite (fun hconstant => ?_) fun _ => leads_fail_bind _ _
  refine leads_bind (leads_imp Tracks.evaluate fun st h => ⟨h.1, hconstant ▸ h.2⟩) fun size => ?_
  exact leads_bind (tracks_same (along_expect _ _)) fun _ => leads_pure fun st h => h

theorem tracks_dimensions (xs : List Item) :
    Leads (S fs xs) dimensions fun dims =>
      S (dimSizes dims ++ fs) (dimItems dims ++ xs) := by
  refine leads_repeatSteps (I := fun dims =>
    S (dimSizes dims ++ fs) (dimItems dims ++ xs)) (fun found => ?_) []
  refine leads_bind_read (reads_at? .leftBracket) fun more => ?_
  refine leads_ite (fun _ => ?_) fun _ => leads_pure fun st h =>
    Tracks.fewer (Tracks.subset h ?_) ?_
  · refine leads_bind (tracks_dimension _) fun dim => leads_pure fun st h => ?_
    cases dim <;> exact h
  · simp [dimItems]
  · simp [dimSizes]

/-! ### The variables of a local declaration -/

theorem tracks_typeName? (named : Keyword → Option BuiltinType) :
    Leads (S fs xs) (typeName? named) fun t st =>
      S fs (t.toList.flatMap typeItems ++ xs) st ∧
        ∀ type ∈ t, type.isFamily → ∃ k, type.builtin? = named k := by
  refine leads_bind_read reads_peek fun kind => ?_
  split
  · next k =>
      refine leads_pure fun st h => ?_
      cases hnamed : named k with
      | none => exact ⟨h, fun type htype => by cases htype⟩
      | some t => exact ⟨h, fun type htype _ => ⟨k, by cases htype; exact hnamed.symm⟩⟩
  · refine fun st t st' h hrun => ?_
    obtain ⟨hsound, htype⟩ := Tracks.findType? _ st t st' h hrun
    exact ⟨hsound, fun type ht hfamily => by rw [htype type ht] at hfamily; cases hfamily⟩
  · exact leads_pure fun st h => ⟨h, fun type htype => by cases htype⟩

theorem tracks_concreteTypeName? :
    Leads (S fs xs) (typeName? Keyword.concreteType?) fun t st =>
      S fs (t.toList.flatMap typeItems ++ xs) st ∧ ∀ type ∈ t, type.isFamily = false := by
  refine leads_weaken (tracks_typeName? _) fun t st h => ⟨h.1, fun type htype => ?_⟩
  by_contra hgeneric
  obtain ⟨k, hk⟩ := h.2 type htype (Bool.not_eq_false _ ▸ hgeneric)
  cases type with
  | builtin t => exact hgeneric (not_isFamily_of_concreteType? hk.symm)
  | declared id => exact hgeneric rfl

theorem tracks_localVariable? (t : LocalType) (isFirst : Bool) (ends : List Punct) (xs : List Item)
    (htype : t.type.isFamily = false) (hfolded : dimSizes t.typeDims ⊆ fs) :
    Leads (S fs (typeItems t.type ++ dimItems t.typeDims ++ xs))
      (localVariable? t isFirst ends)
      fun v => S fs (v.toList.map .var ++ xs) := by
  refine leads_bind (tracks_same along_parenthesizedName?) fun name => ?_
  cases name with
  | none => exact leads_pure fun st h => Tracks.subset h (by grind)
  | some name =>
      refine leads_bind (tracks_dimensions _) fun dims => ?_
      refine leads_bind_read (reads_atAny? _) fun follows => ?_
      let v (initial : Option ExprId) (flags : VarFlags) : Variable :=
        { name, type := t.type, dims := t.typeDims ++ dims, flags, precision := t.precision,
          role := .localVar initial }
      have hadd (initial : Option ExprId) (flags : VarFlags) :
          Leads (S (dimSizes dims ++ fs) (initial.toList.map .expr ++ (dimItems dims ++
            (typeItems t.type ++ dimItems t.typeDims ++ xs)))) (do
            if t.constant && initial.isNone then fail .constWithoutValue
            let var ← addVar (v initial flags)
            declare var
            return some var) fun v => S fs (v.toList.map .var ++ xs) := by
        have hv : (v initial flags).references ⊆ initial.toList.map .expr ++ (dimItems dims ++
            (typeItems t.type ++ dimItems t.typeDims ++ xs)) := by
          simp only [v, Variable.references, Variable.initial?, Variable.global?, typeItems,
            dimItems, layoutItems, List.filterMap_append]
          grind
        have hpositions : (v initial flags).constantPositions ⊆ dimSizes dims ++ fs := by
          simp only [v, Variable.constantPositions, Variable.global?, dimSizes,
            List.filterMap_append]
          simp only [dimSizes] at hfolded
          grind [layoutValues]
        have hdeclare : Leads (S (dimSizes dims ++ fs) (initial.toList.map .expr ++
            (dimItems dims ++ (typeItems t.type ++ dimItems t.typeDims ++ xs)))) (do
            let var ← addVar (v initial flags)
            declare var
            return some var) fun v => S fs (v.toList.map .var ++ xs) := by
          refine leads_bind (Tracks.addVar xs hv (by grind) htype hpositions) fun var => ?_
          refine leads_bind (Tracks.declare List.mem_cons_self) fun _ => leads_pure fun st h => ?_
          exact Tracks.fewer h (List.subset_append_right _ _)
        exact leads_ite (fun _ => leads_fail_bind _ _) fun _ => hdeclare
      refine leads_ite (fun _ => leads_pure fun st h =>
        Tracks.fewer (Tracks.subset h (by grind)) (by grind))
        fun _ => ?_
      refine leads_bind (tracks_same (along_take? _)) fun assigned => ?_
      refine leads_ite (fun _ => ?_) fun _ => hadd none _
      refine leads_bind (Q := fun initial => S (dimSizes dims ++ fs)
        (initial.toList.map .expr ++ (dimItems dims ++
          (typeItems t.type ++ dimItems t.typeDims ++ xs)))) (leads_map some ?_) fun initial =>
            hadd initial _
      exact tracks_initialValue _ _ _ _

theorem tracks_localVariables? (t : LocalType) (ends : List Punct) (xs : List Item)
    (htype : t.type.isFamily = false) (hfolded : dimSizes t.typeDims ⊆ fs) :
    Leads (S fs (typeItems t.type ++ dimItems t.typeDims ++ xs)) (localVariables? t ends)
      fun vars => S fs ((vars.getD []).map .var ++ xs) := by
  refine leads_imp (P := S fs (([] : List VarId).map .var ++ (typeItems t.type ++
    dimItems t.typeDims ++ xs))) ?_ fun st h => h
  refine leads_repeatSteps (I := fun found => S fs (found.map .var ++ (typeItems t.type ++
    dimItems t.typeDims ++ xs))) (fun found => ?_) []
  refine leads_bind ((tracks_localVariable? t _ ends (found.map .var ++ (typeItems t.type ++
    dimItems t.typeDims ++ xs)) htype hfolded).given (by grind)) fun var => ?_
  cases var with
  | none => exact leads_pure fun st h => Tracks.subset h (by grind)
  | some var =>
      refine leads_bind_read (reads_atAny? ends) fun done => ?_
      refine leads_ite (fun _ => leads_pure fun st h => Tracks.subset h (by grind)) fun _ => ?_
      refine leads_bind (tracks_same (along_take? _)) fun more => ?_
      exact leads_ite (fun _ => leads_pure fun st h => h) fun _ => leads_fail_bind _ _

end Parse

end ShaderBridge
