import ShaderBridge.Proofs.Shader.WellFormed

namespace ShaderBridge

namespace Shader

open Relation

/-- What can be reached from the interface of the stage and from `main`, or else from any function.
-/
inductive Reachable (s : Shader) : Item → Prop where
  | block {d : StructId} : d ∈ s.blocks → Reachable s (.struct d)
  | interface {v : VarId} {c : StorageClass} :
      v ∈ s.globals → (s.var v).storage? = some c → c ∈ [.input, .output, .uniform] →
        Reachable s (.var v)
  | main {f : FuncId} : s.main? = some f → Reachable s (.func f)
  | function {f : FuncId} : s.main? = none → f ∈ s.functions → Reachable s (.func f)
  | returnType {f : FuncId} {d : StructId} :
      Reachable s (.func f) → (s.func f).returnType = .declared d → Reachable s (.struct d)
  | param {f : FuncId} {p : VarId} :
      Reachable s (.func f) → p ∈ (s.func f).params → Reachable s (.var p)
  | body {f : FuncId} {b : List StmtId} {t : StmtId} :
      Reachable s (.func f) → (s.func f).body = some b → t ∈ b → Reachable s (.stmt t)
  | prototype {f p : FuncId} :
      Reachable s (.func f) → (s.func f).prototype = some p → Reachable s (.func p)
  | definition {p d : FuncId} :
      Reachable s (.func p) → d ∈ s.functions → (s.func d).prototype = some p →
        Reachable s (.func d)
  | varType {v : VarId} {d : StructId} :
      Reachable s (.var v) → (s.var v).type = .declared d → Reachable s (.struct d)
  | size {v : VarId} {e : ExprId} :
      Reachable s (.var v) → some e ∈ (s.var v).dims → Reachable s (.expr e)
  | initial {v : VarId} {e : ExprId} :
      Reachable s (.var v) → (s.var v).initial? = some e → Reachable s (.expr e)
  | globalLayout {v : VarId} {g : GlobalInfo} {l : LayoutEntry} {e : ExprId} :
      Reachable s (.var v) → (s.var v).global? = some g → l ∈ g.layout → l.value = some e →
        Reachable s (.expr e)
  | field {d : StructId} {v : VarId} :
      Reachable s (.struct d) → v ∈ (s.struct d).fields → Reachable s (.var v)
  | blockLayout {d : StructId} {b : BlockInfo} {l : LayoutEntry} {e : ExprId} :
      Reachable s (.struct d) → (s.struct d).block = some b → l ∈ b.layout → l.value = some e →
        Reachable s (.expr e)
  | part {t : StmtId} {x : Item} :
      Reachable s (.stmt t) → x ∈ (s.stmt t).references → Reachable s x
  | operand {e o : ExprId} :
      Reachable s (.expr e) → o ∈ (s.expr e).operands → Reachable s (.expr o)
  | mention {e : ExprId} {v : VarId} :
      Reachable s (.expr e) → s.expr e = .var v → Reachable s (.var v)
  | constructed {e : ExprId} {d : StructId} {args : List ExprId} :
      Reachable s (.expr e) → s.expr e = .construct (.declared d) args → Reachable s (.struct d)
  | callee {e : ExprId} {name : String} {args : List ExprId} {f : FuncId} :
      Reachable s (.expr e) → s.expr e = .call name args (some f) → Reachable s (.func f)
  | overload {e : ExprId} {name : String} {args : List ExprId} {f : FuncId} :
      Reachable s (.expr e) → s.expr e = .call name args none → f ∈ s.overloads name →
        Reachable s (.func f)

variable {s : Shader}

theorem ofType?_eq_some_iff {t : TypeRef} {x : Item} :
    Item.ofType? t = some x ↔ ∃ d, t = .declared d ∧ x = .struct d := by
  cases t <;> simp [Item.ofType?, eq_comm]

theorem mem_layoutItems_iff {layout : List LayoutEntry} {x : Item} :
    x ∈ layoutItems layout ↔ ∃ l ∈ layout, ∃ e, l.value = some e ∧ x = .expr e := by
  simp only [layoutItems, List.mem_filterMap, Option.map_eq_some_iff]
  grind

theorem mem_mentionedByExpr_iff {e : ExprId} {x : Item} :
    x ∈ s.mentionedByExpr e ↔
      (∃ o ∈ (s.expr e).operands, x = .expr o) ∨ (∃ v, s.expr e = .var v ∧ x = .var v) ∨
      (∃ d args, s.expr e = .construct (.declared d) args ∧ x = .struct d) ∨
      (∃ name args f, s.expr e = .call name args (some f) ∧ x = .func f) ∨
      ∃ name args f, s.expr e = .call name args none ∧ f ∈ s.overloads name ∧ x = .func f := by
  unfold mentionedByExpr
  cases hexpr : s.expr e with
  | call name args target => cases target <;> simp [Expr.operands] <;> grind
  | construct type args =>
      simp only [List.mem_append, Option.mem_toList, ofType?_eq_some_iff,
        List.mem_map, Expr.operands]
      grind
  | _ => simp [Expr.operands] <;> grind

theorem isInterface_iff {v : VarId} :
    s.isInterface v ↔ ∃ c ∈ [StorageClass.input, .output, .uniform], (s.var v).storage? =
      some c := by
  unfold isInterface
  cases (s.var v).storage? with
  | none => simp
  | some c => cases c <;> simp

theorem mem_roots_iff {x : Item} :
    x ∈ s.roots ↔
      (∃ d ∈ s.blocks, x = .struct d) ∨ (∃ v ∈ s.globals, s.isInterface v ∧ x = .var v) ∨
      (∃ f, s.main? = some f ∧ x = .func f) ∨
      s.main? = none ∧ ∃ f ∈ s.functions, x = .func f := by
  unfold roots
  cases s.main? <;> simp <;> grind

theorem mem_mentionedByVar_iff {v : VarId} {x : Item} :
    x ∈ s.mentionedByVar v ↔
      (∃ d, (s.var v).type = .declared d ∧ x = .struct d) ∨
      (∃ e, some e ∈ (s.var v).dims ∧ x = .expr e) ∨
      (∃ e, (s.var v).initial? = some e ∧ x = .expr e) ∨
      ∃ g, (s.var v).global? = some g ∧ ∃ l ∈ g.layout, ∃ e, l.value = some e ∧ x = .expr e := by
  simp only [mentionedByVar, List.mem_append, Option.mem_toList,
    ofType?_eq_some_iff, mem_layoutItems_iff, List.mem_filterMap, Option.map_eq_some_iff,
    List.mem_map]
  cases (s.var v).global? <;> simp <;> grind

theorem mem_mentionedByFunc_iff {f : FuncId} {x : Item} :
    x ∈ s.mentionedByFunc s.announced f ↔
      (∃ d, (s.func f).returnType = .declared d ∧ x = .struct d) ∨
      (∃ p ∈ (s.func f).params, x = .var p) ∨
      (∃ p, (s.func f).prototype = some p ∧ x = .func p) ∨
      (∃ d ∈ s.functions, (s.func d).prototype = some f ∧ x = .func d) ∨
      ∃ b, (s.func f).body = some b ∧ ∃ t ∈ b, x = .stmt t := by
  simp only [mentionedByFunc, announced, List.mem_append, Option.mem_toList,
    ofType?_eq_some_iff, List.mem_map, List.mem_filter, Array.mem_toList_iff]
  cases (s.func f).body <;> simp <;> grind

theorem mem_mentionedByStruct_iff {d : StructId} {x : Item} :
    x ∈ s.mentionedByStruct d ↔
      (∃ v ∈ (s.struct d).fields, x = .var v) ∨
      ∃ b, (s.struct d).block = some b ∧ ∃ l ∈ b.layout, ∃ e, l.value = some e ∧ x = .expr e := by
  simp only [mentionedByStruct, List.mem_append, mem_layoutItems_iff, List.mem_map]
  cases (s.struct d).block <;> simp <;> grind

theorem Reachable.induction {P : Item → Prop} (hroots : ∀ x ∈ s.roots, P x)
    (hmentions : ∀ x y, P x → y ∈ s.mentions s.announced x → P y) {x : Item} (h : s.Reachable x) :
    P x := by
  induction h with
  | block hd => exact hroots _ (mem_roots_iff.2 (.inl ⟨_, hd, rfl⟩))
  | interface hv hstorage hc =>
      have hinterface := isInterface_iff.2 ⟨_, hc, hstorage⟩
      exact hroots _ (mem_roots_iff.2 (.inr (.inl ⟨_, hv, hinterface, rfl⟩)))
  | main hf => exact hroots _ (mem_roots_iff.2 (.inr (.inr (.inl ⟨_, hf, rfl⟩))))
  | function hnone hf => exact hroots _ (mem_roots_iff.2 (.inr (.inr (.inr ⟨hnone, _, hf, rfl⟩))))
  | part _ hx ih => exact hmentions _ _ ih hx
  | returnType _ _ ih | param _ _ ih | body _ _ _ ih | prototype _ _ ih | definition _ _ _ ih =>
      exact hmentions _ _ ih (mem_mentionedByFunc_iff.2 (by grind))
  | varType _ _ ih | size _ _ ih | initial _ _ ih | globalLayout _ _ _ _ ih =>
      exact hmentions _ _ ih (mem_mentionedByVar_iff.2 (by grind))
  | field _ _ ih | blockLayout _ _ _ _ ih =>
      exact hmentions _ _ ih (mem_mentionedByStruct_iff.2 (by grind))
  | operand _ _ ih | mention _ _ ih | constructed _ _ ih | callee _ _ ih | overload _ _ _ ih =>
      exact hmentions _ _ ih (mem_mentionedByExpr_iff.2 (by grind))

/-- Whether items include what is needed from outside and what any of them mentions. -/
def isClosed (s : Shader) (items : List Item) : Bool :=
  s.roots.all items.contains && items.all fun x => (s.mentions s.announced x).all items.contains

theorem reachable_of_mem_roots {x : Item} (h : x ∈ s.roots) : s.Reachable x := by
  rcases mem_roots_iff.1 h with ⟨d, hd, rfl⟩ | ⟨v, hv, hinterface, rfl⟩ | ⟨f, hf, rfl⟩ |
    ⟨hnone, f, hf, rfl⟩
  · exact .block hd
  · obtain ⟨c, hc, hstorage⟩ := isInterface_iff.1 hinterface
    exact .interface hv hstorage hc
  · exact .main hf
  · exact .function hnone hf

theorem Reachable.mentioned {x y : Item} (hx : s.Reachable x)
    (hy : y ∈ s.mentions s.announced x) : s.Reachable y := by
  cases x with
  | expr e =>
      rcases mem_mentionedByExpr_iff.1 hy with ⟨o, ho, rfl⟩ | ⟨v, hv, rfl⟩ |
        ⟨d, args, hd, rfl⟩ | ⟨name, args, f, hf, rfl⟩ | ⟨name, args, f, hcall, hf, rfl⟩
      · exact .operand hx ho
      · exact .mention hx hv
      · exact .constructed hx hd
      · exact .callee hx hf
      · exact .overload hx hcall hf
  | stmt t => exact .part hx hy
  | var v =>
      rcases mem_mentionedByVar_iff.1 hy with ⟨d, hd, rfl⟩ | ⟨e, he, rfl⟩ | ⟨e, he, rfl⟩ |
        ⟨g, hg, l, hl, e, he, rfl⟩
      · exact .varType hx hd
      · exact .size hx he
      · exact .initial hx he
      · exact .globalLayout hx hg hl he
  | func f =>
      rcases mem_mentionedByFunc_iff.1 hy with ⟨d, hd, rfl⟩ | ⟨p, hp, rfl⟩ | ⟨p, hp, rfl⟩ |
        ⟨d, hd, hp, rfl⟩ | ⟨b, hb, t, ht, rfl⟩
      · exact .returnType hx hd
      · exact .param hx hp
      · exact .prototype hx hp
      · exact .definition hx hd hp
      · exact .body hx hb ht
  | struct d =>
      rcases mem_mentionedByStruct_iff.1 hy with ⟨v, hv, rfl⟩ | ⟨b, hb, l, hl, e, he, rfl⟩
      · exact .field hx hv
      · exact .blockLayout hx hb hl he

theorem Reachable.holds {e w : ExprId} {level : Nat} (he : s.Reachable (.expr e))
    (h : s.Holds level e w) : s.Reachable (.expr w) := by
  induction h with
  | here => exact he
  | operand ho _ ih => exact ih (.operand he ho)

variable {announced : List FuncId}

/-- One item mentions another, and both are there. -/
def Step (s : Shader) (announced : List FuncId) (x y : Item) : Prop :=
  s.has x ∧ y ∈ s.mentions announced x ∧ s.has y

/-- Everything in a set has what it mentions in the set too, or else among the work. -/
def ClosedUpTo (s : Shader) (announced : List FuncId) (seen : Std.HashSet Item)
    (work : List Item) : Prop :=
  ∀ x y, x ∈ seen → y ∈ s.mentions announced x → s.has y → y ∈ seen ∨ y ∈ work

theorem closedUpTo_reach {seen : Std.HashSet Item} {work : List Item}
    (h : s.ClosedUpTo announced seen work) :
    (∀ x ∈ seen, x ∈ s.reach announced seen work) ∧
      (∀ w ∈ work, s.has w → w ∈ s.reach announced seen work) ∧
      s.ClosedUpTo announced (s.reach announced seen work) [] := by
  induction seen, work using reach.induct s announced with
  | case1 seen =>
      rw [reach]
      exact ⟨fun x hx => hx, fun w hw => absurd hw List.not_mem_nil, h⟩
  | case2 seen x rest hx ih =>
      rw [reach, dif_pos hx]
      obtain ⟨hhas, hnew⟩ := Bool.and_eq_true_iff.1 hx
      obtain ⟨hseen, hwork, hclosed⟩ := ih (fun y z hy hz hhasz => by
        simp only [Std.HashSet.mem_insert, beq_iff_eq, List.mem_append] at hy ⊢
        rcases hy with rfl | hy
        · exact .inr (.inl hz)
        · rcases h y z hy hz hhasz with hz | hz
          · exact .inl (.inr hz)
          · rcases List.mem_cons.1 hz with rfl | hz
            · exact .inl (.inl rfl)
            · exact .inr (.inr hz))
      refine ⟨fun y hy => hseen y (by simp [hy]), fun w hw hhasw => ?_, hclosed⟩
      rcases List.mem_cons.1 hw with rfl | hw
      · exact hseen _ (by simp)
      · exact hwork w (List.mem_append_right _ hw) hhasw
  | case3 seen x rest hx ih =>
      rw [reach, dif_neg hx]
      have hdone : s.has x → x ∈ seen := by
        intro hhas
        simp only [hhas, Bool.true_and, Bool.not_eq_true', Bool.not_eq_false] at hx
        simpa using hx
      obtain ⟨hseen, hwork, hclosed⟩ := ih (fun y z hy hz hhasz => by
        rcases h y z hy hz hhasz with hz | hz
        · exact .inl hz
        · rcases List.mem_cons.1 hz with rfl | hz
          · exact .inl (hdone hhasz)
          · exact .inr hz)
      refine ⟨hseen, fun w hw hhasw => ?_, hclosed⟩
      rcases List.mem_cons.1 hw with rfl | hw
      · exact hseen _ (hdone hhasw)
      · exact hwork w hw hhasw

theorem exists_way_of_mem_reach {seen : Std.HashSet Item} {work : List Item} {x : Item}
    (hx : x ∈ s.reach announced seen work) :
    x ∈ seen ∨ ∃ w ∈ work, s.has w ∧ ReflTransGen (s.Step announced) w x := by
  induction seen, work using reach.induct s announced with
  | case1 seen =>
      rw [reach] at hx
      exact .inl hx
  | case2 seen y rest hy ih =>
      rw [reach, dif_pos hy] at hx
      obtain ⟨hhas, _⟩ := Bool.and_eq_true_iff.1 hy
      rcases ih hx with hx | ⟨w, hw, hhasw, hway⟩
      · simp only [Std.HashSet.mem_insert, beq_iff_eq] at hx
        rcases hx with rfl | hx
        · exact .inr ⟨_, List.mem_cons_self, hhas, .refl⟩
        · exact .inl hx
      · rcases List.mem_append.1 hw with hw | hw
        · exact .inr ⟨y, List.mem_cons_self, hhas, .head ⟨hhas, hw, hhasw⟩ hway⟩
        · exact .inr ⟨w, List.mem_cons_of_mem _ hw, hhasw, hway⟩
  | case3 seen y rest hy ih =>
      rw [reach, dif_neg hy] at hx
      rcases ih hx with hx | ⟨w, hw, hhasw, hway⟩
      · exact .inl hx
      · exact .inr ⟨w, List.mem_cons_of_mem _ hw, hhasw, hway⟩

theorem Linked.has_of_mem_mentions (h : s.Linked) {x y : Item}
    (hy : y ∈ s.mentions s.announced x) : s.has x := by
  by_contra hx
  cases x <;> simp only [has, decide_eq_true_eq, Nat.not_lt] at hx
  case expr e => rw [mentions, mentionedByExpr, expr_of_size_le hx] at hy; cases hy
  case stmt t => rw [mentions, mentionedByStmt, stmt_of_size_le hx] at hy; cases hy
  case var v => rw [mentions, mentionedByVar, var_of_size_le hx] at hy; cases hy
  case struct d => rw [mentions, mentionedByStruct, struct_of_size_le hx] at hy; cases hy
  case func f =>
    have hdefault := func_of_size_le hx
    rcases mem_mentionedByFunc_iff.1 hy with ⟨d, hd, _⟩ | ⟨p, hp, _⟩ | ⟨p, hp, _⟩ |
      ⟨d, _, hd, _⟩ | ⟨b, hb, _⟩
    · rw [hdefault] at hd; cases hd
    · rw [hdefault] at hp; cases hp
    · rw [hdefault] at hp; cases hp
    · have hhas : s.has (.func f) := h.func d (.func f) (by simp [Function.references, hd])
      simp only [has, decide_eq_true_eq] at hhas
      omega
    · rw [hdefault] at hb; cases hb

/-- What is found needed is what can be reached. -/
theorem Linked.mem_needed_iff (h : s.Linked) {x : Item} :
    x ∈ s.needed ↔ s.has x ∧ s.Reachable x := by
  constructor
  · intro hx
    obtain ⟨w, hw, hhas, hway⟩ := (exists_way_of_mem_reach hx).resolve_left (by simp)
    clear hx
    induction hway with
    | refl => exact ⟨hhas, reachable_of_mem_roots hw⟩
    | tail _ hstep ih => exact ⟨hstep.2.2, ih.2.mentioned hstep.2.1⟩
  · rintro ⟨hhas, hx⟩
    have hstart : s.ClosedUpTo s.announced ∅ s.roots := fun y z hy => by simp at hy
    obtain ⟨-, hroots, hclosed⟩ := closedUpTo_reach hstart
    refine hx.induction (P := fun x => s.has x → x ∈ s.needed) hroots
      (fun y z hy hz hhas => ?_) hhas
    exact (hclosed y z (hy (h.has_of_mem_mentions hz)) hz hhas).resolve_right List.not_mem_nil

end Shader

end ShaderBridge
