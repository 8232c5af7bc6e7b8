import ShaderBridge.Proofs.Lowering.CallNames

namespace ShaderBridge

namespace Hlsl

mutual

/-- The arguments of a call that an expression stands for. A list stands for its items. -/
def Expr.spread : Expr → List Expr
  | .list items => spreadAll items
  | e => [e]

def Expr.spreadAll : List Expr → List Expr
  | [] => []
  | e :: rest => e.spread ++ Expr.spreadAll rest

end

theorem spreadAll_append (xs ys : List Expr) :
    Expr.spreadAll (xs ++ ys) = Expr.spreadAll xs ++ Expr.spreadAll ys := by
  induction xs with
  | nil => rfl
  | cons x rest ih => rw [List.cons_append, Expr.spreadAll, Expr.spreadAll, ih, List.append_assoc]

end Hlsl

open Hlsl

/-! ### The states of combined samplers -/

namespace Shader

variable (s : Shader) (buffers : List ByteBuffer)

/-- The number of dimensions that the state of a combined sampler is declared with. No state is
declared for a local variable or a field. -/
def stateDims? (v : VarId) : Option Nat :=
  (samplerStateType? (s.var v).type).bind fun _ =>
    match (s.var v).role with
    | .global _ => some (s.var v).dims.length
    | .parameter _ => some 0
    | _ => none

/-- The state that goes with a texture, and the dimensions that it has left. -/
inductive Companion : ExprId → Hlsl.Expr → Nat → Prop where
  | whole {e : ExprId} {v : VarId} {dims : Nat} :
      s.expr e = .var v → s.stateDims? v = some dims →
      Companion e (.name (samplerName (s.var v).name)) dims
  | element {e o i : ExprId} {state : Hlsl.Expr} {dims : Nat} (depth : Nat)
      (before : LoweringState) :
      s.expr e = .subscript o i → Companion o state (dims + 1) →
      Companion e (.index state ((s.lowerWithin buffers depth i).run before).1) dims

/-- What is written for an argument meets what is declared for a parameter: either is alone, or
each is followed by a state. -/
inductive Met (a : ExprId) : List Hlsl.Expr → List Param → Prop where
  | single (x : Hlsl.Expr) (p : Param) : Met a [x] [p]
  | paired {companion : Hlsl.Expr} {state : Param} (x : Hlsl.Expr) (p : Param) :
      s.Companion buffers a companion state.dims.length → Met a [x, companion] [p, state]

/-- What is written for arguments meets, one by one, what is declared for parameters. -/
inductive Paired : List ExprId → List VarId → List Hlsl.Expr → List Param → Prop where
  | nil : Paired [] [] [] []
  | cons {a : ExprId} {p : VarId} {args : List ExprId} {params : List VarId}
      {xs ys : List Hlsl.Expr} {ps qs : List Param} (depth : Nat) (state : LoweringState) :
      ((s.lowerArg (s.lowerWithin buffers depth) a).run state).1 = xs → ParamShape s p ps →
      s.Met buffers a (Hlsl.Expr.spreadAll xs) ps → Paired args params ys qs →
      Paired (a :: args) (p :: params) (xs ++ ys) (ps ++ qs)

/-- A combined sampler that a constructor makes of a texture and a state. -/
def IsMade (e : ExprId) : Prop :=
  ∃ t args, s.expr e = .construct (.builtin t) args ∧ t.isCombinedSampler = true

/-- A variable whose state is declared without dimensions, or an element of one whose state is
declared with a single dimension. -/
def PassesState (e : ExprId) : Prop :=
  (∃ v, s.expr e = .var v ∧ s.stateDims? v = some 0) ∨
    ∃ o i v, s.expr e = .subscript o i ∧ s.expr o = .var v ∧ s.stateDims? v = some 1

/-- An argument fits a combined sampler if it passes a state, and any other parameter if it is no
combined sampler. -/
def Fits (a : ExprId) (p : VarId) : Prop :=
  match samplerStateType? (s.var p).type with
  | some _ => s.PassesState a
  | none => s.combinedSampler? a = none

variable {s buffers} {a : ExprId} {p : VarId}

theorem exists_state_of_stateDims? {v : VarId} {dims : Nat} (h : s.stateDims? v = some dims) :
    ∃ state, samplerStateType? (s.var v).type = some state :=
  (Option.bind_eq_some_iff.1 h).imp fun _ h => h.1

theorem Companion.of_var {v : VarId} {state : Hlsl.Expr} {dims : Nat}
    (h : s.Companion buffers a state dims) (hexpr : s.expr a = .var v) :
    s.stateDims? v = some dims := by
  cases h with
  | whole hvar hdims =>
      rw [hexpr] at hvar
      cases hvar
      exact hdims
  | element depth before hsubscript =>
      rw [hexpr] at hsubscript
      cases hsubscript

theorem Companion.of_subscript {o i : ExprId} {v : VarId} {state : Hlsl.Expr} {dims : Nat}
    (h : s.Companion buffers a state dims) (hexpr : s.expr a = .subscript o i)
    (ho : s.expr o = .var v) : s.stateDims? v = some (dims + 1) := by
  cases h with
  | whole hvar hdims =>
      rw [hexpr] at hvar
      cases hvar
  | element depth before hsubscript hoperand =>
      rw [hexpr] at hsubscript
      cases hsubscript
      exact hoperand.of_var ho

/-! ### What is written for an argument -/

theorem always_spread (depth : Nat) (h : ¬ s.IsMade a) :
    Always (s.lowerWithin buffers depth a) fun x => x.spread = [x] := by
  cases depth with
  | zero => exact always_pure rfl
  | succ depth =>
      refine always_of_forms (P := fun _ _ => True) (fun _ _ _ => trivial) (fun _ => rfl)
        fun _ _ hforms => ?_
      cases hforms with
      | sampler xs hexpr ht => exact absurd ⟨_, _, hexpr, ht⟩ h
      | _ => rfl

theorem always_lowerArg_spread (depth : Nat) (ha : ¬ s.IsMade a) :
    Always (s.lowerArg (s.lowerWithin buffers depth) a) fun xs => ∃ x,
      (s.combinedSampler? a = none ∧ Hlsl.Expr.spreadAll xs = [x]) ∨
      ∃ v y, (samplerStateType? (s.var v).type).isSome ∧ Hlsl.Expr.spreadAll xs = [x, y] ∧
        (s.expr a = .var v ∧ y = .name (samplerName (s.var v).name) ∨
          ∃ o i before, s.expr a = .subscript o i ∧ s.expr o = .var v ∧
            y = .index (.name (samplerName (s.var v).name))
              ((s.lowerWithin buffers depth i).run before).1) := by
  refine always_bind (always_spread depth ha) fun x hspread => ?_
  cases hsampler : s.combinedSampler? a with
  | none => exact always_pure ⟨x, .inl ⟨rfl, by simp [Hlsl.Expr.spreadAll, hspread]⟩⟩
  | some sampler =>
      obtain ⟨name, index⟩ := sampler
      obtain ⟨v, state, hstate, rfl, hshape⟩ := cases_combinedSampler? hsampler
      have hsome : (samplerStateType? (s.var v).type).isSome := by simp [hstate]
      rcases hshape with ⟨rfl, hexpr⟩ | ⟨o, i, rfl, hexpr, ho⟩
      · refine always_pure ⟨x, .inr ⟨v, _, hsome, ?_, .inl ⟨hexpr, rfl⟩⟩⟩
        simp [Hlsl.Expr.spreadAll, Hlsl.Expr.spread, hspread]
      · have hindex : Always (s.lowerWithin buffers depth i) fun y =>
            ∃ before, y = ((s.lowerWithin buffers depth i).run before).1 :=
          fun before => ⟨before, rfl⟩
        refine always_bind hindex ?_
        rintro _ ⟨before, rfl⟩
        refine always_pure ⟨x, .inr ⟨v, _, hsome, ?_, .inr ⟨o, i, before, hexpr, ho, rfl⟩⟩⟩
        simp [Hlsl.Expr.spreadAll, Hlsl.Expr.spread, hspread]

theorem combinedSampler?_ne_none {v : VarId} (hstate : (samplerStateType? (s.var v).type).isSome)
    (h : s.expr a = .var v ∨ ∃ o i, s.expr a = .subscript o i ∧ s.expr o = .var v) :
    s.combinedSampler? a ≠ none := by
  obtain ⟨state, hstate⟩ := Option.isSome_iff_exists.1 hstate
  rcases h with h | ⟨o, i, h, ho⟩
  · simp [combinedSampler?, h, hstate]
  · simp [combinedSampler?, h, ho, hstate]

theorem PassesState.combinedSampler?_ne_none (h : s.PassesState a) :
    s.combinedSampler? a ≠ none := by
  have hsampler {v : VarId} {dims : Nat} (hdims : s.stateDims? v = some dims) :
      (samplerStateType? (s.var v).type).isSome :=
    Option.isSome_iff_exists.2 (exists_state_of_stateDims? hdims)
  rcases h with ⟨v, hexpr, hdims⟩ | ⟨o, i, v, hexpr, ho, hdims⟩
  · exact Shader.combinedSampler?_ne_none (hsampler hdims) (.inl hexpr)
  · exact Shader.combinedSampler?_ne_none (hsampler hdims) (.inr ⟨o, i, hexpr, ho⟩)

theorem PassesState.stateDims?_of_var {v : VarId} (h : s.PassesState a)
    (hexpr : s.expr a = .var v) : s.stateDims? v = some 0 := by
  rcases h with ⟨w, hw, hdims⟩ | ⟨o, i, w, hw, -⟩
  · rw [hexpr] at hw
    cases hw
    exact hdims
  · rw [hexpr] at hw
    cases hw

theorem PassesState.stateDims?_of_subscript {o i : ExprId} {v : VarId} (h : s.PassesState a)
    (hexpr : s.expr a = .subscript o i) (ho : s.expr o = .var v) : s.stateDims? v = some 1 := by
  rcases h with ⟨w, hw, -⟩ | ⟨_, _, w, hw, hoperand, hdims⟩
  · rw [hexpr] at hw
    cases hw
  · rw [hexpr] at hw
    cases hw
    rw [ho] at hoperand
    cases hoperand
    exact hdims

theorem Companion.passesState {state : Hlsl.Expr} (h : s.Companion buffers a state 0)
    (hsampler : s.combinedSampler? a ≠ none) : s.PassesState a := by
  obtain ⟨⟨name, index⟩, hsampler⟩ := Option.ne_none_iff_exists'.1 hsampler
  obtain ⟨v, -, -, -, ⟨-, hexpr⟩ | ⟨o, i, -, hexpr, ho⟩⟩ := cases_combinedSampler? hsampler
  · exact .inl ⟨v, hexpr, h.of_var hexpr⟩
  · exact .inr ⟨o, i, v, hexpr, ho, h.of_subscript hexpr ho⟩

theorem met_iff {depth : Nat} {before : LoweringState} {xs : List Hlsl.Expr} {ps : List Param}
    (hxs : ((s.lowerArg (s.lowerWithin buffers depth) a).run before).1 = xs)
    (hps : ParamShape s p ps) (ha : ¬ s.IsMade a) :
    s.Met buffers a (Hlsl.Expr.spreadAll xs) ps ↔ s.Fits a p := by
  obtain ⟨texture, -, rfl⟩ := hps
  unfold Fits
  obtain ⟨x, ⟨hsampler, hspread⟩ | ⟨v, y, hstate, hspread, hshape⟩⟩ :=
    hxs ▸ always_lowerArg_spread depth ha before
  · rw [hspread]
    cases samplerStateType? (s.var p).type with
    | none => exact iff_of_true (.single x texture) hsampler
    | some type =>
        exact iff_of_false (fun h => by cases h) fun h => h.combinedSampler?_ne_none hsampler
  · have hsampler : s.combinedSampler? a ≠ none := combinedSampler?_ne_none hstate
      (hshape.imp And.left fun ⟨o, i, _, hexpr, ho, _⟩ => ⟨o, i, hexpr, ho⟩)
    rw [hspread]
    cases samplerStateType? (s.var p).type with
    | none => exact iff_of_false (fun h => by cases h) hsampler
    | some type =>
        refine ⟨?_, fun h => .paired x texture ?_⟩
        · rintro (_ | ⟨_, _, hcompanion⟩)
          exact hcompanion.passesState hsampler
        · rcases hshape with ⟨hexpr, rfl⟩ | ⟨o, i, between, hexpr, ho, rfl⟩
          · exact .whole hexpr (h.stateDims?_of_var hexpr)
          · exact .element depth between hexpr (.whole ho (h.stateDims?_of_subscript hexpr ho))

/-! ### Calls -/

variable {args : List ExprId} {params : List VarId}

theorem Met.length_eq {xs : List Hlsl.Expr} {ps : List Param} (h : s.Met buffers a xs ps) :
    xs.length = ps.length := by
  cases h <;> rfl

theorem Paired.length_eq {passed : List Hlsl.Expr} {taken : List Param}
    (h : s.Paired buffers args params passed taken) :
    (Hlsl.Expr.spreadAll passed).length = taken.length := by
  induction h with
  | nil => rfl
  | cons depth state hwritten hshape hmet _ ih =>
      rw [spreadAll_append, List.length_append, List.length_append, ih, hmet.length_eq]

theorem length_of_shapes {slots slots' : List (List Param)}
    (h : List.Forall₂ (ParamShape s) params slots)
    (h' : List.Forall₂ (ParamShape s) params slots') :
    slots.flatten.length = slots'.flatten.length := by
  induction h generalizing slots' with
  | nil =>
      cases h'
      rfl
  | cons hslot _ ih =>
      cases h' with
      | cons hslot' hrest' =>
          obtain ⟨_, -, rfl⟩ := hslot
          obtain ⟨_, -, rfl⟩ := hslot'
          rw [List.flatten_cons, List.flatten_cons, List.length_append, List.length_append,
            ih hrest']
          rfl

theorem Paired.exists_slots {passed : List Hlsl.Expr} {taken : List Param}
    (h : s.Paired buffers args params passed taken) :
    ∃ slots, taken = slots.flatten ∧ List.Forall₂ (ParamShape s) params slots := by
  induction h with
  | nil => exact ⟨[], rfl, .nil⟩
  | cons depth state _ hshape _ _ ih =>
      obtain ⟨slots, rfl, hslots⟩ := ih
      exact ⟨_ :: slots, rfl, .cons hshape hslots⟩

theorem Paired.fits {passed : List Hlsl.Expr} {taken : List Param}
    (h : s.Paired buffers args params passed taken) (hargs : ∀ a ∈ args, ¬ s.IsMade a) :
    List.Forall₂ s.Fits args params := by
  induction h with
  | nil => exact .nil
  | cons depth state hwritten hshape hmet _ ih =>
      obtain ⟨ha, hargs⟩ := List.forall_mem_cons.1 hargs
      exact .cons ((met_iff hwritten hshape ha).1 hmet) (ih hargs)

theorem paired_of_fits {depth : Nat} {groups : List (List Hlsl.Expr)} {slots : List (List Param)}
    (hgroups : List.Forall₂ (fun a xs => ∃ before,
      ((s.lowerArg (s.lowerWithin buffers depth) a).run before).1 = xs) args groups)
    (hslots : List.Forall₂ (ParamShape s) params slots) (hfits : List.Forall₂ s.Fits args params)
    (hargs : ∀ a ∈ args, ¬ s.IsMade a) :
    s.Paired buffers args params groups.flatten slots.flatten := by
  induction hfits generalizing groups slots with
  | nil =>
      cases hgroups
      cases hslots
      exact .nil
  | cons hfit _ ih =>
      obtain ⟨ha, hargs⟩ := List.forall_mem_cons.1 hargs
      cases hgroups with
      | cons hgroup hgroups =>
          cases hslots with
          | cons hslot hslots =>
              obtain ⟨before, hwritten⟩ := hgroup
              exact .cons depth before hwritten hslot ((met_iff hwritten hslot ha).2 hfit)
                (ih hgroups hslots hargs)

/-- The arguments of a call that is not carried out before meet the parameters of a declaration if
and only if they fit them, and the declaration has no parameters of its own. -/
theorem paired_lowerArgs_iff {depth : Nat} {before : LoweringState} {first : List Param}
    {slots : List (List Param)} (hslots : List.Forall₂ (ParamShape s) params slots)
    (hargs : ∀ a ∈ args, ¬ s.IsMade a) :
    s.Paired buffers args params ((s.lowerArgs (s.lowerWithin buffers depth) args).run before).1
        (first ++ slots.flatten) ↔ first = [] ∧ List.Forall₂ s.Fits args params := by
  constructor
  · intro h
    refine ⟨?_, h.fits hargs⟩
    obtain ⟨slots', htaken, hslots'⟩ := h.exists_slots
    have hlength := congrArg List.length htaken
    rw [List.length_append, length_of_shapes hslots hslots'] at hlength
    exact List.length_eq_zero_iff.1 (by omega)
  · rintro ⟨rfl, hfits⟩
    have hgroups : Always (args.mapM (s.lowerArg (s.lowerWithin buffers depth)))
        (List.Forall₂ (fun a xs => ∃ before,
          ((s.lowerArg (s.lowerWithin buffers depth) a).run before).1 = xs) args) :=
      always_forall₂ fun a _ before => ⟨before, rfl⟩
    rw [lowerArgs_eq]
    exact paired_of_fits (hgroups before) hslots hfits hargs

theorem always_length_hoistCall (e : ExprId) (name : String) (args : List ExprId) :
    Always (s.hoistCall buffers e name args) fun t => ∃ temp type function xs,
      t = .atomic temp type function xs ∧ xs.length = args.length := by
  refine always_imp (always_carriedAs (W := fun _ _ => True) (fun _ _ => trivial) e name args)
    fun t ht => ?_
  cases ht with
  | named _ hxs => exact ⟨_, _, _, _, rfl, hxs.length_eq.symm⟩
  | addressed haccess _ hxs =>
      cases args with
      | nil => cases haccess
      | cons a rest => exact ⟨_, _, _, _, rfl, congrArg Nat.succ hxs.length_eq.symm⟩

theorem stateDims?_of_declaredAs {options : Options} {earlier : List Subject} {v : VarId} {d : Decl}
    (h : s.DeclaredAs options earlier (.samplerState v) d) : ∃ type declarator register,
      d = .global [] type declarator register ∧ s.stateDims? v = some declarator.dims.length := by
  obtain ⟨type, declarator, register, rfl, hglobal, htype, hdims⟩ := h.belongs.shape
  refine ⟨type, declarator, register, rfl, ?_⟩
  unfold Variable.global? at hglobal
  unfold stateDims?
  rw [htype, hdims, Option.bind_some]
  split at hglobal
  · next hrole => rw [hrole]
  · cases hglobal

/-- The state of a global variable is declared with the dimensions of the variable. Where a call
that is bound to a function of the shader is written in its place, and makes no combined sampler on
its own, its arguments meet the parameters of the function if and only if they fit them one by one
and the function is no entry point that is passed its inputs. What carries out the call of an atomic
function before is given every argument once, and where to leave its result. -/
theorem Accepted.paired_iff_fits (h : s.Accepted) (options : Options) :
    (∀ earlier v d, s.DeclaredAs options earlier (.samplerState v) d →
      ∃ type declarator register, d = .global [] type declarator register ∧
        s.stateDims? v = some declarator.dims.length) ∧
    ∀ e name args f, s.expr e = .call name args (some f) → (s.func f).builtin = false →
      .function f ∈ s.subjects options ∧
      ∀ earlier d, s.DeclaredAs options earlier (.function f) d →
        ∃ threads returnType declared taken body,
          d = .function threads returnType declared taken body ∧
          ∀ buffers function passed, s.Makes buffers e (.call function passed) →
            (Intrinsic.isAtomic name = true ∧ ∃ values temp, passed = values ++ [.temp temp] ∧
              values.length = args.length) ∨
            (s.Paired buffers args (s.func f).params passed taken →
              (Hlsl.Expr.spreadAll passed).length = taken.length) ∧
            ((∀ a ∈ args, ¬ s.IsMade a) →
              (s.Paired buffers args (s.func f).params passed taken ↔
                s.isComputeEntry (s.func f) = false ∧
                  List.Forall₂ s.Fits args (s.func f).params)) := by
  refine ⟨fun earlier v d => stateDims?_of_declaredAs, fun e name args f hexpr huser => ⟨?_, ?_⟩⟩
  · exact function_mem_subjects (h.mem_functions hexpr).1 huser options
  intro earlier d hdeclared
  obtain ⟨threads, returnType, declared, slots, body, rfl, hslots⟩ := hdeclared.belongs.shape
  have hentry : entryParams s (s.func f) = [] ↔ s.isComputeEntry (s.func f) = false := by
    unfold entryParams
    split <;> simp_all
  refine ⟨_, _, _, _, _, rfl, fun buffers function passed hmakes => ?_⟩
  cases hmakes with
  | construct xs hother => rw [hexpr] at hother; cases hother
  | product xs hother => rw [hexpr] at hother; cases hother
  | call depth state hcall =>
      rw [hexpr] at hcall
      cases hcall
      exact .inr ⟨Paired.length_eq, fun hargs =>
        (paired_lowerArgs_iff hslots hargs).trans (and_congr_left' hentry)⟩
  | carried state hcall hatomic hcarried =>
      rw [hexpr] at hcall
      cases hcall
      obtain ⟨_, _, _, values, hshape, hlength⟩ := always_length_hoistCall e name args state
      rw [hcarried] at hshape
      cases hshape
      exact .inl ⟨hatomic, _, _, rfl, hlength⟩

end Shader

/-- The tokens of `uniform sampler2D t; uniform sampler2D u[2]; float f(sampler2D a, sampler2D b);
float g() { return f(t, u[1]); }`. -/
def samplerElement : List TokenKind :=
  [.keyword (.storage .uniform), .keyword (.type (.sampler .float .d2)), .ident "t",
    .punct .semicolon, .keyword (.storage .uniform), .keyword (.type (.sampler .float .d2)),
    .ident "u", .punct .leftBracket, .number (.integer .int 2), .punct .rightBracket,
    .punct .semicolon, .keyword (.type (.scalar .float)), .ident "f", .punct .leftParen,
    .keyword (.type (.sampler .float .d2)), .ident "a", .punct .comma,
    .keyword (.type (.sampler .float .d2)), .ident "b", .punct .rightParen, .punct .semicolon,
    .keyword (.type (.scalar .float)), .ident "g", .punct .leftParen, .punct .rightParen,
    .punct .leftBrace, .keyword (.word .returnValue), .ident "f", .punct .leftParen, .ident "t",
    .punct .comma, .ident "u", .punct .leftBracket, .number (.integer .int 1),
    .punct .rightBracket, .punct .rightParen, .punct .semicolon, .punct .rightBrace, .endOfFile]

/-- A sampler and an element of an array of samplers are passed with their states. -/
theorem Shader.exists_paired :
    ∃ s : Shader, s.Accepted ∧ s.expr ⟨21⟩ = .call "f" [⟨17⟩, ⟨20⟩] (some ⟨0⟩) ∧
      .function ⟨0⟩ ∈ s.subjects {} ∧
      ∀ earlier d, s.DeclaredAs {} earlier (.function ⟨0⟩) d →
        ∃ threads returnType declared taken body,
          d = .function threads returnType declared taken body ∧
          ∀ buffers function passed, s.Makes buffers ⟨21⟩ (.call function passed) →
            s.Paired buffers [⟨17⟩, ⟨20⟩] (s.func ⟨0⟩).params passed taken := by
  obtain ⟨s, hs, hfacts⟩ := Parse.exists_accepted
    (f := fun s => ([21, 17, 20, 18].map fun i => s.expr ⟨i⟩,
      [(s.func ⟨0⟩).builtin, s.isComputeEntry (s.func ⟨0⟩)], (s.func ⟨0⟩).params,
      [s.stateDims? ⟨36⟩, s.stateDims? ⟨37⟩, s.stateDims? ⟨38⟩, s.stateDims? ⟨39⟩]))
    (show (Parse.plainShader? .fragment samplerElement).map _ =
        some ([.call "f" [⟨17⟩, ⟨20⟩] (some ⟨0⟩), .var ⟨36⟩, .subscript ⟨18⟩ ⟨19⟩, .var ⟨37⟩],
          [false, false], [⟨38⟩, ⟨39⟩], [some 0, some 1, some 0, some 0]) by
      decide +kernel)
  simp only [Prod.mk.injEq, List.map_cons, List.map_nil, List.cons.injEq, and_true] at hfacts
  obtain ⟨⟨hcall, ht, hu, hoperand⟩, ⟨huser, hentry⟩, hparams, htdims, hudims, ha, hb⟩ := hfacts
  obtain ⟨hmem, hpaired⟩ := (Accepted.paired_iff_fits hs {}).2 _ _ _ _ hcall huser
  have hfits : List.Forall₂ s.Fits [⟨17⟩, ⟨20⟩] (s.func ⟨0⟩).params := by
    rw [hparams]
    obtain ⟨_, ha⟩ := exists_state_of_stateDims? ha
    obtain ⟨_, hb⟩ := exists_state_of_stateDims? hb
    refine .cons ?_ (.cons ?_ .nil)
    · rw [Fits, ha]
      exact .inl ⟨_, ht, htdims⟩
    · rw [Fits, hb]
      exact .inr ⟨_, _, _, hu, hoperand, hudims⟩
  have hargs : ∀ a ∈ [⟨17⟩, ⟨20⟩], ¬ s.IsMade a := by
    rintro a hmem ⟨t, args, hmade, -⟩
    rcases List.mem_pair.1 hmem with rfl | rfl
    · rw [ht] at hmade
      cases hmade
    · rw [hu] at hmade
      cases hmade
  refine ⟨s, hs, hcall, hmem, fun earlier d hd => ?_⟩
  obtain ⟨threads, returnType, declared, taken, body, rfl, hmakes⟩ := hpaired earlier d hd
  refine ⟨threads, returnType, declared, taken, body, rfl, fun buffers function passed hm => ?_⟩
  rcases hmakes buffers function passed hm with ⟨hatomic, -⟩ | ⟨-, hiff⟩
  · cases hatomic
  · exact (hiff hargs).2 ⟨hentry, hfits⟩

/-- The tokens of `uniform sampler2D t[2][2]; float f(sampler2D a);
float g() { return f(t[1][0]); }`. -/
def nestedElement : List TokenKind :=
  [.keyword (.storage .uniform), .keyword (.type (.sampler .float .d2)), .ident "t",
    .punct .leftBracket, .number (.integer .int 2), .punct .rightBracket, .punct .leftBracket,
    .number (.integer .int 2), .punct .rightBracket, .punct .semicolon,
    .keyword (.type (.scalar .float)), .ident "f", .punct .leftParen,
    .keyword (.type (.sampler .float .d2)), .ident "a", .punct .rightParen, .punct .semicolon,
    .keyword (.type (.scalar .float)), .ident "g", .punct .leftParen, .punct .rightParen,
    .punct .leftBrace, .keyword (.word .returnValue), .ident "f", .punct .leftParen, .ident "t",
    .punct .leftBracket, .number (.integer .int 1), .punct .rightBracket, .punct .leftBracket,
    .number (.integer .int 0), .punct .rightBracket, .punct .rightParen, .punct .semicolon,
    .punct .rightBrace, .endOfFile]

/-- An element of an array of arrays of samplers is passed without its state. -/
theorem Shader.exists_not_paired :
    ∃ s : Shader, s.Accepted ∧
      (∃ e name args f, s.expr e = .call name args (some f) ∧ (s.func f).builtin = false ∧
        args.length = (s.func f).params.length ∧
        ∃ buffers function passed, s.Makes buffers e (.call function passed) ∧
          ∃ earlier threads returnType declared taken body, s.DeclaredAs {} earlier (.function f)
              (.function threads returnType declared taken body) ∧
            (Hlsl.Expr.spreadAll passed).length < taken.length) ∧
      s.toHlsl {} =
        "Texture2D<float4> t[2][2];\n" ++
        "SamplerState t_sampler[2][2];\n" ++
        "float f(Texture2D a, SamplerState a_sampler);\n" ++
        "float g() \x7b\n" ++
        "    return f(t[1][0]);\n" ++
        "\x7d\n" := by
  obtain ⟨s, hs, hfacts⟩ := Parse.exists_accepted
    (f := fun s => (s.expr ⟨23⟩, s.func ⟨0⟩,
      [(Hlsl.Expr.spreadAll ((s.lowerArgs (s.lowerWithin [] 4) [⟨22⟩]).run {}).1).length,
        (samplerStateType? (s.var ⟨37⟩).type).toList.length], s.toHlsl {}))
    (show (Parse.plainShader? .fragment nestedElement).map _ =
        some (.call "f" [⟨22⟩] (some ⟨0⟩),
          { name := "f", returnType := .builtin (.scalar .float), params := [⟨37⟩] }, [1, 1],
          "Texture2D<float4> t[2][2];\n" ++
          "SamplerState t_sampler[2][2];\n" ++
          "float f(Texture2D a, SamplerState a_sampler);\n" ++
          "float g() \x7b\n" ++
          "    return f(t[1][0]);\n" ++
          "\x7d\n") by
      decide +kernel)
  simp only [Prod.mk.injEq, List.cons.injEq, and_true] at hfacts
  obtain ⟨hcall, hfunc, ⟨hpassed, hstate⟩, htext⟩ := hfacts
  have huser : (s.func ⟨0⟩).builtin = false := by rw [hfunc]
  have hparams : (s.func ⟨0⟩).params = [⟨37⟩] := by rw [hfunc]
  obtain ⟨earlier, d, hd⟩ := exists_declaredAs_of_subject
    (function_mem_subjects (hs.mem_functions hcall).1 huser {})
  obtain ⟨threads, returnType, declared, slots, body, rfl, hslots⟩ := hd.belongs.shape
  refine ⟨s, hs, ⟨⟨23⟩, "f", [⟨22⟩], ⟨0⟩, hcall, huser, by rw [hparams]; rfl, [], _, _,
    .call 4 {} hcall, earlier, threads, returnType, declared, _, body, hd, ?_⟩, htext⟩
  rw [hparams] at hslots
  obtain _ | ⟨⟨texture, -, rfl⟩, _ | _⟩ := hslots
  simp [hpassed, Option.toList_map, hstate]

end ShaderBridge
