import ShaderBridge.Proofs.Lowering.CallNames
import ShaderBridge.Proofs.Shader.Pruned

namespace ShaderBridge

namespace Shader

open Relation

variable {s : Shader}

/-- The tables of a shader say what its lists do, and calls in what is listed are bound to what is
listed. -/
structure Coherent (s : Shader) : Prop where
  functionNames : ∀ name, name ∈ s.functionNames.entries.map Prod.fst ↔
    ∃ f ∈ s.functions, (s.func f).name = name
  overloads : ∀ entry ∈ s.functionNames.entries, entry.2 ≠ [] ∧
    entry.2 = s.functions.toList.filter fun f => (s.func f).name == entry.1
  structureNames : ∀ entry ∈ s.structureNames,
    entry.2 ∈ s.structures ∧ (s.struct entry.2).name = some entry.1
  calls : ∀ x ∈ s.listed, ∀ e name args f, ReflTransGen s.Refers x (.expr e) →
    s.expr e = .call name args (some f) → f ∈ s.functions ∧ (s.func f).name = name

theorem mem_functionsNamed_iff {name : String} {f : FuncId} :
    f ∈ s.functionsNamed name ↔ f ∈ s.functions ∧ (s.func f).name = name := by
  simp [functionsNamed]

theorem Indexed.coherent (h : s.Indexed)
    (hcalls : ∀ x ∈ s.listed, ∀ e name args f, ReflTransGen s.Refers x (.expr e) →
      s.expr e = .call name args (some f) → f ∈ s.functions ∧ (s.func f).name = name) :
    s.Coherent where
  functionNames name := by
    have hfind : s.functionNames.find name = s.functionsNamed name := h.functions name
    rw [FunctionTable.mem_names_iff, hfind]
    simp only [← mem_functionsNamed_iff]
    exact ⟨List.exists_mem_of_ne_nil _, fun ⟨_, hf⟩ => List.ne_nil_of_mem hf⟩
  overloads entry hentry := by
    refine ⟨s.functionNames.nonempty entry hentry, ?_⟩
    rw [← FunctionTable.find_of_mem hentry]
    exact h.functions entry.1
  structureNames := h.structures
  calls := hcalls

theorem Indexed.keepReachable (h : s.Indexed) : s.keepReachable.Indexed where
  functions name := by
    classical
    rw [overloads_keepReachable_eq, h.functions]
    unfold functionsNamed Shader.keepReachable
    dsimp only
    split
    · rw [Array.toList_filter, List.filter_filter, List.filter_filter]
      exact List.filter_congr fun f _ => Bool.and_comm _ _
    · rfl
  structures entry hentry := by
    obtain ⟨hentry, hreach⟩ := List.mem_filter.1 hentry
    obtain ⟨hmem, hname⟩ := h.structures entry hentry
    exact ⟨Array.mem_filter.2 ⟨hmem, hreach⟩, hname⟩

theorem Refers.of_keepReachable {x y : Item} (h : s.keepReachable.Refers x y) : s.Refers x y := by
  classical
  cases x with
  | expr e =>
      simp only [Refers, mentions, mentionedByExpr, expr_keepReachable] at h ⊢
      cases hexpr : s.expr e with
      | call name args target =>
          rw [hexpr] at h
          cases target with
          | some f => exact h
          | none =>
              refine List.mem_append.2 ((List.mem_append.1 h).imp_left fun hy => ?_)
              obtain ⟨f, hf, rfl⟩ := List.mem_map.1 hy
              refine List.mem_map_of_mem ?_
              rw [overloads_keepReachable_eq] at hf
              split at hf
              · exact List.mem_of_mem_filter hf
              · exact hf
      | _ => rwa [hexpr] at h
  | stmt t => exact h
  | var v => exact h
  | func f => exact h
  | struct d => exact h

/-- What parsing makes of a source that does not declare functions of the language is coherent, and
so is what pruning makes of it, wherever pruning has a result. -/
theorem coherent_pruned_of_parse {text : String} {stage : Stage} (h : parse text stage = .ok s)
    (htext : ∀ tokens, tokenize text = .ok tokens → ¬ Parse.UsesBuiltin tokens) :
    s.Coherent ∧ (s.prune?.isSome ↔ s.Prunable) ∧ ∀ p, s.prune? = some p → p.Coherent := by
  have haccepted := Parse.accepted_of_parse h
  have hlinked := haccepted.consistent.linked
  obtain ⟨tokens, htokens, hshader⟩ := Parse.exists_tokens_of_parse h
  have hbuiltin (f : FuncId) (hf : (s.func f).builtin) :=
    isAnnounced_of_builtin hshader Parse.announces_prototypeTokens (htext tokens htokens) hf
  have hbound {e : ExprId} {name : String} {args : List ExprId} {f : FuncId}
      (hexpr : s.expr e = .call name args (some f)) : f ∈ s.functions ∧ (s.func f).name = name :=
    (haccepted.mem_functions hexpr).imp_left Array.mem_toList_iff.1
  refine ⟨hlinked.indexed.coherent fun x _ e name args f _ hexpr => hbound hexpr,
    hlinked.isSome_prune?_iff, fun p hp => ?_⟩
  obtain rfl := (hlinked.prune?_eq_some_iff.1 hp).2
  rw [hlinked.prune_eq]
  refine hlinked.indexed.keepReachable.coherent fun x hx e name args f hxe hexpr => ?_
  obtain ⟨hf, hname⟩ := hbound hexpr
  have htarget : s.Refers (.expr e) (.func f) := by
    have hexpr : s.expr e = .call name args (some f) := hexpr
    simp [Refers, mentions, mentionedByExpr, hexpr]
  have hxe : ReflTransGen s.Refers x (.expr e) :=
    ReflTransGen.mono (fun _ _ => Refers.of_keepReachable) _ _ hxe
  have hxf : ReflTransGen s.Refers x (.func f) := hxe.tail htarget
  have hkept := mem_keepReachable_of_refers hbuiltin hx (by simp [Shader.listed, hf]) hxf
  exact ⟨by simpa [Shader.listed] using hkept, hname⟩

theorem exists_coherent_pruned_of_parse :
    ∃ s, parse "void f() \x7b\x7d void main() \x7b\x7d" .vertex = .ok s ∧
      (∀ tokens, tokenize "void f() \x7b\x7d void main() \x7b\x7d" = .ok tokens →
        ¬ Parse.UsesBuiltin tokens) ∧
      s.Coherent ∧ (s.prune?.isSome ↔ s.Prunable) ∧ ∀ p, s.prune? = some p → p.Coherent := by
  obtain ⟨s, hs, -⟩ := exists_parse_unneeded .vertex
  exact ⟨s, hs, not_usesBuiltin_unneeded, coherent_pruned_of_parse hs not_usesBuiltin_unneeded⟩

/-- The tokens of `void main() { const float v[2] = float[](1 + … + 1, 2); float[v](2.0); }`. -/
def arrayOfSum : List TokenKind :=
  [TokenKind.keyword (.type .void), .ident "main", .punct .leftParen, .punct .rightParen,
    .punct .leftBrace, .keyword (.storage .constant), .keyword (.type (.scalar .float)), .ident "v",
    .punct .leftBracket, .number (.integer .int 2), .punct .rightBracket, .punct .eq,
    .keyword (.type (.scalar .float)), .punct .leftBracket, .punct .rightBracket,
    .punct .leftParen] ++
  sumOfOnes ++
  [.punct .comma, .number (.integer .int 2), .punct .rightParen, .punct .semicolon,
    .keyword (.type (.scalar .float)), .punct .leftBracket, .ident "v", .punct .rightBracket,
    .punct .leftParen, .number (.real .float 0x40000000), .punct .rightParen, .punct .semicolon,
    .punct .rightBrace, .endOfFile]

/-- There is no pruned shader to look anything up in where an item of an array is gone. -/
theorem exists_never_coherent_pruned :
    ∃ s : Shader, s.Accepted ∧ ¬ ∃ p, s.prune? = some p ∧ p.Coherent := by
  obtain ⟨s, hs, hentries⟩ := Parse.exists_accepted
    (f := fun s => decide (s.main? = some ⟨0⟩ ∧ (s.func ⟨0⟩).body = some [⟨0⟩, ⟨1⟩] ∧
      (s.stmt ⟨0⟩).references = [.var ⟨36⟩] ∧ (s.var ⟨36⟩).initial? = some ⟨33⟩ ∧
      (s.expr ⟨33⟩).operands = [⟨41⟩, ⟨32⟩] ∧ s.has (.expr ⟨41⟩) = false))
    (show (Parse.plainShader? .fragment arrayOfSum).map _ = some true by decide +kernel)
  obtain ⟨hmain, hbody, hstmt, hinitial, hoperands, hhas⟩ := of_decide_eq_true hentries
  have hv : .var ⟨36⟩ ∈ (s.stmt ⟨0⟩).references := by simp [hstmt]
  have hd : ⟨41⟩ ∈ (s.expr ⟨33⟩).operands := by simp [hoperands]
  have hnone :=
    hs.prune?_eq_none_of_operand hmain hbody List.mem_cons_self hv hinitial hd hhas
  refine ⟨s, hs, fun ⟨p, hp, _⟩ => ?_⟩
  rw [hnone] at hp
  cases hp

end Shader

end ShaderBridge
