import ShaderBridge.Hlsl.ByteLayout
import ShaderBridge.Proofs.Parse.SoundSource

namespace ShaderBridge

/-- What is made of several expressions and stays so when it is folded. -/
def Expr.isComposite : Expr → Bool
  | .construct .. | .aggregate _ | .sequence .. => true
  | _ => false

namespace Shader

variable {s : Shader}

/-- The sizes of all dimensions and the values in all layout lists. -/
def constantPositions (s : Shader) : List ExprId :=
  s.vars.toList.flatMap Variable.constantPositions ++
    s.structs.toList.flatMap StructDecl.constantPositions

theorem mem_constantPositions_iff {e : ExprId} :
    e ∈ s.constantPositions ↔ (∃ v, e ∈ (s.var v).constantPositions) ∨
      ∃ d, e ∈ (s.struct d).constantPositions := by
  have hentry {α : Type} [Inhabited α] (table : Array α) (positions : α → List ExprId)
      (hdefault : positions default = []) : e ∈ table.toList.flatMap positions ↔
        ∃ i : Nat, e ∈ positions (table.getD i default) := by
    simp only [List.mem_flatMap, Array.mem_toList_iff, Array.getD_eq_getD_getElem?]
    constructor
    · rintro ⟨a, ha, he⟩
      obtain ⟨i, hi⟩ := Array.mem_iff_getElem?.1 ha
      exact ⟨i, by rwa [hi]⟩
    · rintro ⟨i, he⟩
      cases hget : table[i]? with
      | none => rw [hget, Option.getD_none, hdefault] at he; cases he
      | some a => exact ⟨a, Array.mem_of_getElem? hget, by rwa [hget] at he⟩
  rw [constantPositions, List.mem_append, hentry s.vars _ rfl, hentry s.structs _ rfl]
  exact or_congr ⟨fun ⟨i, he⟩ => ⟨⟨i⟩, he⟩, fun ⟨v, he⟩ => ⟨v.index, he⟩⟩
    ⟨fun ⟨i, he⟩ => ⟨⟨i⟩, he⟩, fun ⟨d, he⟩ => ⟨d.index, he⟩⟩

theorem Resolved.hasFolded (h : s.Resolved) {e : ExprId} (he : e ∈ s.constantPositions) :
    s.HasFolded e := by
  rcases mem_constantPositions_iff.1 he with ⟨v, he⟩ | ⟨d, he⟩
  · exact (h.vars v).2 e he
  · exact h.structs d e he

theorem HasFolded.isSome_constant?_iff {e : ExprId} (h : s.HasFolded e) :
    (s.constant? e).isSome ↔ (s.expr e).isComposite = false := by
  have hfolded := h.2
  unfold constant?
  cases hexpr : s.expr e with
  | constant => exact iff_of_true rfl rfl
  | construct | aggregate | sequence => exact iff_of_false Bool.noConfusion Bool.noConfusion
  | _ => rw [hexpr] at hfolded; cases hfolded

/-- What stands where a constant is asked for is there, and it is a literal unless it is a
constructor, an array or a comma sequence. -/
theorem Accepted.literal_iff_not_composite (h : s.Accepted) :
    ∀ e ∈ s.constantPositions, s.has (.expr e) ∧
      ((s.constant? e).isSome ↔ (s.expr e).isComposite = false) := by
  intro e he
  have hfolded := h.resolved.hasFolded he
  exact ⟨by simpa [has] using hfolded.1, hfolded.isSome_constant?_iff⟩

end Shader

/-- The tokens of `float a[1 + 1];`. -/
def arrayOfSum : List TokenKind :=
  [.keyword (.type (.scalar .float)), .ident "a", .punct .leftBracket, .number (.integer .int 1),
    .punct .plus, .number (.integer .int 1), .punct .rightBracket, .punct .semicolon, .endOfFile]

theorem Shader.exists_literal_size :
    ∃ s : Shader, s.Accepted ∧ ∃ e ∈ s.constantPositions, s.has (.expr e) ∧
      (s.constant? e).isSome ∧ s.arrayLength? (some e) = some 2 := by
  obtain ⟨s, hs, hfacts⟩ := Parse.exists_accepted
    (f := fun s => s.constantPositions.map fun e =>
      ((s.expr e).isComposite, s.arrayLength? (some e)))
    (show (Parse.plainShader? .fragment arrayOfSum).map _ = some [(false, some 2)] by
      decide +kernel)
  obtain ⟨e, he, hentry⟩ := List.mem_map.1 (hfacts ▸ List.mem_singleton_self (false, some 2))
  obtain ⟨hcomposite, hlength⟩ := Prod.mk.inj hentry
  obtain ⟨hhas, hliteral⟩ := Accepted.literal_iff_not_composite hs e he
  exact ⟨s, hs, e, he, hhas, hliteral.2 hcomposite, hlength⟩

/-- The tokens of `layout(binding = int(2)) uniform sampler2D t;`. -/
def constructedBinding : List TokenKind :=
  [.keyword (.word .layout), .punct .leftParen, .ident "binding", .punct .eq,
    .keyword (.type (.scalar .int)), .punct .leftParen, .number (.integer .int 2),
    .punct .rightParen, .punct .rightParen, .keyword (.storage .uniform),
    .keyword (.type (.sampler .float .d2)), .ident "t", .punct .semicolon, .endOfFile]

/-- The binding is a constructor, and whoever asks for it gets none. -/
theorem Shader.exists_constructed_binding :
    ∃ s : Shader, s.Accepted ∧ (∃ e ∈ s.constantPositions, ¬ (s.constant? e).isSome) ∧
      ∃ v layout, (s.var v).global?.map GlobalInfo.layout = some layout ∧
        hasLayout layout "binding" ∧ s.layoutValue? layout "binding" = none := by
  obtain ⟨s, hs, hfacts⟩ := Parse.exists_accepted
    (f := fun s => (s.constantPositions.map fun e => (s.constant? e).isSome,
      (s.var ⟨36⟩).global?.map fun info =>
        (hasLayout info.layout "binding", s.layoutValue? info.layout "binding")))
    (show (Parse.plainShader? .fragment constructedBinding).map _ =
        some ([false], some (true, none)) by
      decide +kernel)
  obtain ⟨hpositions, hglobal⟩ := Prod.mk.inj hfacts
  obtain ⟨e, he, hnone⟩ := List.mem_map.1 (hpositions ▸ List.mem_singleton_self false)
  obtain ⟨info, hinfo, hlayout⟩ := Option.map_eq_some_iff.1 hglobal
  obtain ⟨hhas, hvalue⟩ := Prod.mk.inj hlayout
  exact ⟨s, hs, ⟨e, he, by simp [hnone]⟩, ⟨36⟩, info.layout, by rw [hinfo]; rfl, hhas, hvalue⟩

end ShaderBridge
