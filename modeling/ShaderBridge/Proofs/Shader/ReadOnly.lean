import ShaderBridge.Proofs.Parse.SoundSource

namespace ShaderBridge

namespace Expr

/-- What an expression assigns to. -/
def assigned? : Expr → Option ExprId
  | assign _ left _ => some left
  | _ => none

/-- What an expression counts up or down. -/
def stepped? : Expr → Option ExprId
  | unary op operand => if op.isStep then some operand else none
  | _ => none

end Expr

namespace Shader

def AssignedTo (s : Shader) (e : ExprId) : Prop :=
  ∃ a, (s.expr a).assigned? = some e

def SteppedOn (s : Shader) (e : ExprId) : Prop :=
  ∃ a, (s.expr a).stepped? = some e

/-- A field of a block of inputs, which is in scope where the block has no instance name. -/
def IsInputField (s : Shader) (v : VarId) : Prop :=
  ∃ d ∈ s.blocks, (∃ b, (s.struct d).block = some b ∧ b.storage = .input) ∧
    v ∈ (s.struct d).fields

/-- Constants and inputs are only read. -/
def ReadOnly (s : Shader) (v : VarId) : Prop :=
  (s.var v).isReadOnly ∨ s.IsInputField v

/-- An expression bottoms out in a variable that is not only read. -/
def Writable (s : Shader) (e : ExprId) : Prop :=
  ∃ v, s.BottomsOut e v ∧ ¬s.ReadOnly v

variable {s : Shader}

theorem Resolved.assignedTo (h : s.Resolved) {e : ExprId} (he : s.AssignedTo e) :
    ∃ v, s.BottomsOut e v ∧ (s.var v).isReadOnly = false := by
  obtain ⟨a, ha⟩ := he
  unfold Expr.assigned? at ha
  split at ha
  · next hexpr =>
      cases ha
      exact h.targets a _ _ _ hexpr
  · cases ha

/-- Nothing is written to that is only read, as long as this is so of what is counted up or down,
and as long as no field of a block of inputs is assigned to. -/
theorem Accepted.writable_iff (h : s.Accepted) :
    (∀ e, s.AssignedTo e ∨ s.SteppedOn e → s.Writable e) ↔
      (∀ e, s.SteppedOn e → s.Writable e) ∧
        ∀ e v, s.AssignedTo e → s.BottomsOut e v → ¬s.IsInputField v := by
  constructor
  · intro hwritable
    refine ⟨fun e he => hwritable e (.inr he), fun e v he hv hinput => ?_⟩
    obtain ⟨w, hw, hread⟩ := hwritable e (.inl he)
    exact hread (hv.unique hw ▸ .inr hinput)
  · rintro ⟨hstepped, hfields⟩ e (he | he)
    · obtain ⟨v, hv, hdeclared⟩ := h.resolved.assignedTo he
      refine ⟨v, hv, ?_⟩
      rintro (hread | hinput)
      · rw [hdeclared] at hread
        cases hread
      · exact hfields e v he hv hinput
    · exact hstepped e he

end Shader

/-- The tokens of a global `float x` and of a function with some statements in front of `x++`. -/
def countingUp (storage : StorageClass) (statements : List TokenKind) : List TokenKind :=
  [.keyword (.storage storage), .keyword (.type (.scalar .float)), .ident "x", .punct .semicolon,
    .keyword (.type .void), .ident "main", .punct .leftParen, .punct .rightParen,
    .punct .leftBrace] ++
  statements ++
  [.ident "x", .punct .plusPlus, .punct .semicolon, .punct .rightBrace, .endOfFile]

namespace Shader

theorem mem_exprs_of_ne_default {s : Shader} {e : ExprId} (h : s.expr e ≠ default) :
    s.expr e ∈ s.exprs.toList := by
  rw [Shader.expr, Array.getD_eq_getD_getElem?] at h ⊢
  cases hget : s.exprs[e.index]? with
  | none => exact absurd (by rw [hget]; rfl) h
  | some x => exact Array.mem_toList_iff.2 (Array.mem_of_getElem? hget)

/-- An output is assigned to by `x = 1;` and counted up. -/
theorem Accepted.writable_output : ∃ s : Shader, s.Accepted ∧ s.AssignedTo ⟨16⟩ ∧ s.SteppedOn ⟨19⟩ ∧
    ∀ e, s.AssignedTo e ∨ s.SteppedOn e → s.Writable e := by
  obtain ⟨s, hs, hfacts⟩ := Parse.exists_accepted
    (f := fun s => (((s.expr ⟨18⟩).assigned?, s.exprs.toList.filterMap Expr.stepped?),
      s.expr ⟨19⟩, (s.var ⟨36⟩).isReadOnly, s.blocks))
    (show (Parse.plainShader? .fragment (countingUp .output
        [.ident "x", .punct .eq, .number (.integer .int 1), .punct .semicolon])).map _ =
        some ((some ⟨16⟩, [⟨19⟩]), .var ⟨36⟩, false, #[]) by
      decide +kernel)
  simp only [Prod.mk.injEq] at hfacts
  obtain ⟨⟨hassigned, hstepped⟩, hexpr, hread, hblocks⟩ := hfacts
  have hfield (v : VarId) : ¬s.IsInputField v := by
    rintro ⟨d, hd, -⟩
    rw [hblocks] at hd
    exact Array.not_mem_empty d hd
  have hwritable : s.Writable ⟨19⟩ :=
    ⟨⟨36⟩, .var hexpr, fun h => h.elim (by simp [hread]) (hfield _)⟩
  obtain ⟨x, hx, hstep⟩ := List.mem_filterMap.1 (hstepped ▸ List.mem_singleton_self (⟨19⟩ : ExprId))
  obtain ⟨i, hi, rfl⟩ := List.getElem_of_mem hx
  have hat : s.expr ⟨i⟩ = s.exprs.toList[i] := by
    rw [Shader.expr, Array.getD_eq_getD_getElem?, Array.getElem?_eq_getElem]
    rfl
  refine ⟨s, hs, ⟨⟨18⟩, hassigned⟩, ⟨⟨i⟩, by rw [hat, hstep]⟩, (Accepted.writable_iff hs).2
    ⟨fun e he => ?_, fun _ v _ _ => hfield v⟩⟩
  obtain ⟨a, ha⟩ := he
  have hmem := List.mem_filterMap.2 ⟨_, mem_exprs_of_ne_default
    (fun hdefault => by rw [hdefault] at ha; cases ha), ha⟩
  rw [hstepped, List.mem_singleton] at hmem
  exact hmem ▸ hwritable

/-- An input is counted up. -/
theorem exists_input_stepped : ∃ s : Shader, s.Accepted ∧
    ¬∀ e, s.AssignedTo e ∨ s.SteppedOn e → s.Writable e := by
  obtain ⟨s, hs, hfacts⟩ := Parse.exists_accepted
    (f := fun s => ((s.expr ⟨17⟩).stepped?, s.expr ⟨16⟩, (s.var ⟨36⟩).isReadOnly))
    (show (Parse.plainShader? .fragment (countingUp .input [])).map _ =
        some (some ⟨16⟩, .var ⟨36⟩, true) by
      decide +kernel)
  simp only [Prod.mk.injEq] at hfacts
  obtain ⟨hstepped, hexpr, hread⟩ := hfacts
  refine ⟨s, hs, fun hwritable => ?_⟩
  obtain ⟨v, hv, hnot⟩ := hwritable _ (.inr ⟨_, hstepped⟩)
  exact hnot (hv.unique (.var hexpr) ▸ .inl hread)

end Shader

end ShaderBridge
