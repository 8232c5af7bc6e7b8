import ShaderBridge.Proofs.Parse.Calls
import ShaderBridge.Proofs.Parse.Structure
import ShaderBridge.Proofs.Shader.Members

namespace ShaderBridge

def Expr.unbound : Expr → Expr
  | .call name args _ => .call name args none
  | e => e

namespace Shader

open Relation

/-- The shader with no call bound, in which only the first functions can be called. -/
def asRead (s : Shader) (n : Nat) : Shader :=
  s.among (s.exprs.map Expr.unbound) n

/-- What there was in front of an expression when it was read. No call had been bound, and items of
constructors and of arrays may have been replaced since. -/
structure WasRead (s : Shader) (e : ExprId) (exprs : Array Expr) : Prop where
  size : exprs.size = e.index
  refolds : ∀ d : ExprId, d.index < e.index →
    (exprs.getD d.index default).Refolds (s.expr d).unbound

/-- An access selects what it does in another shader, and here it selects the same if and only if
its operand is of the same structure in both, or of none. -/
structure SettledIn (s t : Shader) (operand : ExprId) (name : String) (field : Option VarId) :
    Prop where
  memberIs : t.MemberIs operand name field
  memberIs_iff : s.MemberIs operand name field ↔ ∀ id,
    t.baseTypeOf? operand = some (.declared id) ↔ s.baseTypeOf? operand = some (.declared id)

/-- Every array that makes up the type of an expression has the items that it had before, the first
of which stands in front of it. -/
def KeepsItems (s : Shader) (exprs : Array Expr) (e : ExprId) : Prop :=
  ∀ d items, ReflTransGen s.TypedBy e d → s.expr d = .aggregate items →
    exprs.getD d.index default = .aggregate items ∧ ∀ first ∈ items.head?, first.index < d.index

variable {s t : Shader} {operand : ExprId} {name : String} {field : Option VarId} {n : Nat}

theorem expr_asRead (s : Shader) (n : Nat) (e : ExprId) :
    (s.asRead n).expr e = (s.expr e).unbound := by
  simp only [asRead, among, upTo, expr, Array.getD_eq_getD_getElem?, Array.getElem?_map]
  cases s.exprs[e.index]? <;> rfl

theorem Recorded.unbound_bindCalls {calls : List ExprId} (h : s.Recorded calls)
    (bound : List ExprId) (e : ExprId) : ((s.bindCalls bound).expr e).unbound = s.expr e := by
  have hrebinds := rebinds_bindCalls s bound e
  have hunbound := h.unbound e
  generalize s.expr e = old at hrebinds hunbound
  generalize (s.bindCalls bound).expr e = new at hrebinds
  cases hrebinds with
  | same =>
      cases old with
      | call name args target => rw [hunbound name args target rfl]; rfl
      | _ => rfl
  | call name args target target' => rw [hunbound name args target rfl]; rfl

theorem typeOf?_asRead (h : ∀ d, ReflTransGen s.TypedBy operand d → (s.expr d).isCall = false) :
    (s.asRead n).typeOf? operand = s.typeOf? operand := by
  have hsize : (s.asRead n).exprs.size = s.exprs.size := Array.size_map
  unfold typeOf?
  rw [hsize]
  refine typeWithin?_congr fun d hd => .of_expr ?_ (fun _ => rfl) (fun _ => rfl) (fun _ => rfl)
    fun name args hcall => ?_
  · rw [expr_asRead]
    have hnot := h d hd
    cases hexpr : s.expr d with
    | call => rw [hexpr] at hnot; cases hnot
    | _ => rfl
  · have hnot := h d hd
    rw [hcall] at hnot
    cases hnot

theorem typedBy_asRead (s : Shader) (n : Nat) (e : ExprId) :
    ((s.asRead n).expr e).typedBy = (s.expr e).typedBy := by
  rw [expr_asRead]
  cases s.expr e <;> rfl

theorem KeepsItems.lt_of_typedBy {exprs : Array Expr} (h : s.KeepsItems exprs operand)
    (hlinked : s.Linked) {d : ExprId} (hd : ReflTransGen s.TypedBy operand d) :
    ∀ c ∈ (s.expr d).typedBy, c.index < d.index := by
  intro c hc
  cases hexpr : s.expr d with
  | aggregate items =>
      rw [hexpr] at hc
      exact (h d items hd hexpr).2 c (Option.mem_toList.1 hc)
  | constant | var | construct =>
      rw [hexpr] at hc
      cases hc
  | _ =>
      refine hlinked.before d c ?_
      rw [hexpr] at hc ⊢
      exact Expr.typedBy_subset _ hc

theorem KeepsItems.typeOf?_asRead {e : ExprId} {exprs : Array Expr}
    (h : s.KeepsItems exprs operand) (hlinked : s.Linked) (hexprs : s.WasRead e exprs)
    (hoperand : operand.index < e.index) (he : e.index < s.exprs.size) :
    (s.asRead n).typeOf? operand = (s.among exprs n).typeOf? operand := by
  have hpath {d : ExprId} (hd : ReflTransGen (s.asRead n).TypedBy operand d) :
      ReflTransGen s.TypedBy operand d :=
    ReflTransGen.mono (fun d c hc => by
      change c ∈ (s.expr d).typedBy
      rw [← typedBy_asRead s n]
      exact hc) _ _ hd
  have hfront {d : ExprId} (hd : ReflTransGen s.TypedBy operand d) : d.index < e.index := by
    induction hd with
    | refl => exact hoperand
    | tail hd hc ih => exact (h.lt_of_typedBy hlinked hd _ hc).trans ih
  symm
  refine typeWithin?_congr_of_lt (fun d hd => ⟨⟨?_, fun _ _ => rfl, fun _ _ _ _ => rfl,
    fun _ _ _ => ⟨rfl, fun _ _ => ⟨rfl, rfl⟩⟩⟩, ?_⟩) ?_ ?_
  · have hrefolds := hexprs.refolds d (hfront (hpath hd))
    have hitems := h d
    rw [expr_asRead]
    change exprs.getD d.index default = (s.expr d).unbound ∨ ∃ type args args',
      (s.expr d).unbound = .construct type args ∧
        exprs.getD d.index default = Expr.construct type args'
    generalize hold : exprs.getD d.index default = old at hrefolds
    generalize hnew : (s.expr d).unbound = new at hrefolds
    cases hrefolds with
    | same => exact .inl rfl
    | construct type args args' => exact .inr ⟨type, args', args, rfl, rfl⟩
    | aggregate items items' =>
        have hexpr : s.expr d = .aggregate items' := by
          cases hexpr : s.expr d <;> rw [hexpr] at hnew <;> cases hnew
          rfl
        exact .inl (hold.symm.trans (hitems items' (hpath hd) hexpr).1)
  · intro c hc
    rw [typedBy_asRead] at hc
    exact h.lt_of_typedBy hlinked (hpath hd) c hc
  · have hsize : (s.asRead n).exprs.size = s.exprs.size := Array.size_map
    omega
  · have hsize : (s.among exprs n).exprs.size = e.index := hexprs.size
    omega

theorem KeepsItems.of_typedBy {exprs : Array Expr} {e : ExprId}
    (he : ∀ items, s.expr e ≠ .aggregate items)
    (h : ∀ d ∈ (s.expr e).typedBy, s.KeepsItems exprs d) : s.KeepsItems exprs e := by
  intro d items hd hitems
  rcases ReflTransGen.cases_head hd with rfl | ⟨c, hc, hd⟩
  · exact absurd hitems (he items)
  · exact h c hc d items hd hitems

theorem MemberIs.of_owner (hread : t.MemberIs operand name field)
    (hstructs : t.structs = s.structs) (hvars : t.vars = s.vars)
    (h : ∀ id, t.baseTypeOf? operand = some (.declared id) ↔
      s.baseTypeOf? operand = some (.declared id)) : s.MemberIs operand name field := by
  cases hread with
  | components hnone => exact .components fun id hid => hnone id ((h id).2 hid)
  | field howner hfound =>
      refine .field ((h _).1 howner) ?_
      rw [← hfound]
      unfold Shader.struct Shader.var
      rw [hstructs, hvars]

theorem MemberIs.settledIn (hread : t.MemberIs operand name field) (howns : s.OwnsFields [])
    (hstructs : t.structs = s.structs) (hvars : t.vars = s.vars) :
    s.SettledIn t operand name field := by
  refine ⟨hread, fun h id => ?_, hread.of_owner hstructs hvars⟩
  cases h with
  | components hnone =>
      cases hread with
      | components hnone' => exact iff_of_false (hnone' id) (hnone id)
  | @field owner f howner hfound =>
      cases hread with
      | @field owner' _ howner' hfound' =>
          have heq : owner' = owner := by
            refine howns.owner_unique ?_ (List.mem_of_find?_eq_some hfound)
            have hmem := List.mem_of_find?_eq_some hfound'
            unfold Shader.struct at hmem ⊢
            rwa [← hstructs]
          rw [howner, howner', heq]

/-- An access selects what it does among the expressions and functions that there were when it was
read, and it can call no more functions than the accesses behind it. In the finished shader it
selects the same if and only if its operand is of the same structure there, or of none. Where no
items of arrays have been replaced that make up the type of the operand, this is the type that it
has as long as no call is bound, and if no call makes it up, the access selects the same in the
finished shader. -/
theorem Accepted.memberIs_asRead (h : s.Accepted) :
    ∃ known : Nat → Nat, Monotone known ∧ (∀ i, known i ≤ s.funcs.size) ∧
      ∀ e operand name field, s.expr e = .member operand name field →
        ∃ exprs, s.WasRead e exprs ∧
          s.SettledIn (s.among exprs (known e.index)) operand name field ∧
          (s.KeepsItems exprs operand →
            s.SettledIn (s.asRead (known e.index)) operand name field ∧
            ((∀ d, ReflTransGen s.TypedBy operand d → (s.expr d).isCall = false) →
              s.MemberIs operand name field)) := by
  have howns := h.ownsFields
  have hlinked := h.consistent.linked
  obtain ⟨s₀, calls, hrecorded, ⟨known, hmono, hle, hmembers⟩, rfl⟩ := h.exists_recorded
  have hunbound := hrecorded.unbound_bindCalls calls.reverse
  obtain ⟨bound, hrest⟩ := sameRest_bindCalls s₀ calls.reverse
  refine ⟨known, hmono, fun i => by rw [hrest]; exact hle i, fun e operand name field he => ?_⟩
  have hold : s₀.expr e = .member operand name field := by
    rw [← hunbound, he]
    rfl
  obtain ⟨exprs, hexprs, hread⟩ := hmembers e operand name field hold
  have hwas : (s₀.bindCalls calls.reverse).WasRead e exprs :=
    ⟨hexprs.size, fun d hd => by rw [hunbound]; exact hexprs.refolds d hd⟩
  have hread : ((s₀.bindCalls calls.reverse).among exprs (known e.index)).MemberIs operand name
      field := by
    rw [hrest]
    exact hread
  refine ⟨exprs, hwas, hread.settledIn howns rfl rfl, fun hkeeps => ?_⟩
  have hoperand : operand.index < e.index :=
    hlinked.before e operand (by simp [before, he, Expr.operands])
  have hsize : e.index < (s₀.bindCalls calls.reverse).exprs.size := by
    by_contra hge
    rw [expr_of_size_le (Nat.not_lt.1 hge)] at he
    cases he
  have htype := hkeeps.typeOf?_asRead (n := known e.index) hlinked hwas hoperand hsize
  have hasRead : ((s₀.bindCalls calls.reverse).asRead (known e.index)).MemberIs operand name
      field :=
    hread.of_owner rfl rfl fun id => by
      rw [baseTypeOf?, baseTypeOf?, htype]
  refine ⟨hasRead.settledIn howns rfl rfl, fun hcalls => hasRead.of_owner rfl rfl fun id => ?_⟩
  rw [baseTypeOf?, baseTypeOf?, Shader.typeOf?_asRead hcalls]

/-- The tokens of `struct S { float x; }; S f(float a); void main() { f(1.0).x; f(1).z; }`. -/
def accessesOfCalls : List TokenKind :=
  [.keyword (.word .struct), .ident "S", .punct .leftBrace, .keyword (.type (.scalar .float)),
    .ident "x", .punct .semicolon, .punct .rightBrace, .punct .semicolon,
    .ident "S", .ident "f", .punct .leftParen, .keyword (.type (.scalar .float)), .ident "a",
    .punct .rightParen, .punct .semicolon,
    .keyword (.type .void), .ident "main", .punct .leftParen, .punct .rightParen, .punct .leftBrace,
    .ident "f", .punct .leftParen, .number (.real .float 0x3F800000), .punct .rightParen,
    .punct .dot, .ident "x", .punct .semicolon,
    .ident "f", .punct .leftParen, .number (.integer .int 1), .punct .rightParen,
    .punct .dot, .ident "z", .punct .semicolon, .punct .rightBrace, .endOfFile]

theorem exists_accessesOfCalls :
    ∃ s : Shader, s.Accepted ∧
      s.expr ⟨18⟩ = .member ⟨17⟩ "x" (some ⟨36⟩) ∧ s.expr ⟨21⟩ = .member ⟨20⟩ "z" none ∧
      s.baseTypeOf? ⟨20⟩ = some (.declared ⟨0⟩) ∧
      ∀ exprs, s.KeepsItems exprs ⟨17⟩ ∧ s.KeepsItems exprs ⟨20⟩ := by
  obtain ⟨s, hs, hfacts⟩ := Parse.exists_accepted
    (f := fun s => (([16, 17, 18, 19, 20, 21].map fun i => s.expr ⟨i⟩), s.baseTypeOf? ⟨20⟩))
    (show (Parse.plainShader? .fragment accessesOfCalls).map _ =
      some ([.constant (.real .float 0x3F800000), .call "f" [⟨16⟩] (some ⟨0⟩),
        .member ⟨17⟩ "x" (some ⟨36⟩), .constant (.integer .int 1), .call "f" [⟨19⟩] (some ⟨0⟩),
        .member ⟨20⟩ "z" none], some (.declared ⟨0⟩)) by decide +kernel)
  simp only [List.map_cons, List.map_nil, Prod.mk.injEq, List.cons.injEq, and_true] at hfacts
  obtain ⟨⟨harg, hcall, hfield, harg', hcall', hcomponents⟩, htype⟩ := hfacts
  have hkeeps {call arg : ExprId} {value : Constant} {target : Option FuncId} (exprs : Array Expr)
      (hcall : s.expr call = .call "f" [arg] target) (harg : s.expr arg = .constant value) :
      s.KeepsItems exprs call := by
    refine .of_typedBy (by simp [hcall]) fun d hd => ?_
    rw [hcall, Expr.typedBy, List.mem_singleton] at hd
    subst hd
    exact .of_typedBy (by simp [harg]) (by simp [harg, Expr.typedBy])
  exact ⟨s, hs, hfield, hcomponents, htype,
    fun exprs => ⟨hkeeps exprs hcall harg, hkeeps exprs hcall' harg'⟩⟩

theorem exists_memberIs_asRead :
    ∃ s : Shader, s.Accepted ∧ s.expr ⟨18⟩ = .member ⟨17⟩ "x" (some ⟨36⟩) ∧
      s.expr ⟨21⟩ = .member ⟨20⟩ "z" none ∧
      (∀ exprs, s.KeepsItems exprs ⟨17⟩ ∧ s.KeepsItems exprs ⟨20⟩) ∧
      ∃ m n, m ≤ n ∧ n ≤ s.funcs.size ∧ (s.asRead m).MemberIs ⟨17⟩ "x" (some ⟨36⟩) ∧
        (s.asRead n).MemberIs ⟨20⟩ "z" none := by
  obtain ⟨s, hs, hfield, hcomponents, -, hkeeps⟩ := exists_accessesOfCalls
  obtain ⟨known, hmono, hle, hmembers⟩ := Accepted.memberIs_asRead hs
  obtain ⟨exprs, -, -, hselected⟩ := hmembers _ _ _ _ hfield
  obtain ⟨exprs', -, -, hselected'⟩ := hmembers _ _ _ _ hcomponents
  exact ⟨s, hs, hfield, hcomponents, hkeeps, known 18, known 21, hmono (by decide), hle 21,
    (hselected (hkeeps exprs).1).1.memberIs, (hselected' (hkeeps exprs').2).1.memberIs⟩

/-- The operand of `f(1).z` is a structure without such a field. When the access was read, no
function took an integer. -/
theorem exists_member_without_field :
    ∃ s : Shader, s.Accepted ∧ s.expr ⟨21⟩ = .member ⟨20⟩ "z" none ∧
      s.baseTypeOf? ⟨20⟩ = some (.declared ⟨0⟩) ∧ ¬ s.MemberIs ⟨20⟩ "z" none := by
  obtain ⟨s, hs, -, hcomponents, htype, -⟩ := exists_accessesOfCalls
  refine ⟨s, hs, hcomponents, htype, fun h => ?_⟩
  cases h with
  | components hnone => exact hnone _ htype

end Shader

end ShaderBridge
