import ShaderBridge.Proofs.Parse.SoundSource
import ShaderBridge.Proofs.Parse.Structure

namespace ShaderBridge

namespace Shader

open Relation

variable {s : Shader}

/-- The items of an expression are there and do not lead back to it. -/
def ItemsLeadAway (s : Shader) : Prop :=
  ∀ e, ∀ a ∈ (s.expr e).items, s.has (.expr a) ∧ ¬ ReflTransGen s.LeadsTo a e

theorem itemsLeadAway_of_noItems (h : ∀ e ∈ s.exprs.toList, e.items = []) : s.ItemsLeadAway := by
  intro e a ha
  have hlt : e.index < s.exprs.size := by
    refine index_lt_of_expr rfl fun hdefault => ?_
    rw [hdefault] at ha
    cases ha
  have hmem : s.expr e ∈ s.exprs.toList := by
    have hexpr : s.expr e = s.exprs[e.index] := by simp [expr, hlt]
    rw [hexpr]
    exact Array.getElem_mem_toList hlt
  rw [h _ hmem] at ha
  cases ha

theorem leadsTo_iff {e d : ExprId} :
    s.LeadsTo e d ↔ d ∈ s.before (s.expr e) ∨ d ∈ (s.expr e).items := by
  constructor
  · rintro (ho | ⟨hexpr, hinitial⟩)
    · cases hexpr : s.expr e <;> rw [hexpr] at ho <;> simp_all [before, Expr.operands, Expr.items]
    · left
      simp [hexpr, before, hinitial]
  · rintro (hd | hd)
    · cases hexpr : s.expr e with
      | var v =>
          rw [hexpr] at hd
          exact .initial hexpr (Option.mem_toList.1 hd)
      | constant | construct | aggregate => rw [hexpr] at hd; cases hd
      | _ => exact .operand (by rw [hexpr] at hd ⊢; exact hd)
    · exact .operand (Expr.mem_operands_iff.2 (.inr hd))

theorem not_literal_of_leadsTo {e d : ExprId} (h : s.LeadsTo e d) : s.rank e = e.index + 1 := by
  cases hexpr : s.expr e with
  | constant =>
      rw [leadsTo_iff, hexpr] at h
      rcases h with h | h <;> cases h
  | _ => simp [rank, constant?, hexpr]

theorem rank_le (s : Shader) (e : ExprId) : s.rank e ≤ e.index + 1 := by
  unfold rank
  split <;> omega

theorem Linked.rank_lt (h : s.Linked) (hitems : s.ItemsBelow) {e d : ExprId} (hd : s.LeadsTo e d) :
    s.rank d < s.rank e := by
  rw [not_literal_of_leadsTo hd]
  rcases leadsTo_iff.1 hd with hbefore | hitem
  · have := h.before e d hbefore
    have := s.rank_le d
    omega
  · have := (hitems e d hitem).2
    omega

theorem Linked.exists_item (h : s.Linked) {e d : ExprId} (hd : TransGen s.LeadsTo e d)
    (hle : e.index ≤ d.index) :
    ∃ x, ∃ a ∈ (s.expr x).items, ReflTransGen s.LeadsTo e x ∧ ReflTransGen s.LeadsTo a d := by
  have hpass : d.index < e.index ∨
      ∃ x, ∃ a ∈ (s.expr x).items, ReflTransGen s.LeadsTo e x ∧ ReflTransGen s.LeadsTo a d := by
    clear hle
    induction hd with
    | single hd =>
        rcases leadsTo_iff.1 hd with hbefore | hitem
        · exact .inl (h.before e _ hbefore)
        · exact .inr ⟨e, _, hitem, .refl, .refl⟩
    | @tail b d hb hd ih =>
        rcases leadsTo_iff.1 hd with hbefore | hitem
        · rcases ih with hlt | ⟨x, a, ha, hx, hrest⟩
          · exact .inl ((h.before b d hbefore).trans hlt)
          · exact .inr ⟨x, a, ha, hx, hrest.tail hd⟩
        · exact .inr ⟨b, d, hitem, hb.to_reflTransGen, .refl⟩
  exact hpass.resolve_left (Nat.not_lt.2 hle)

theorem wellFormed_of_linked (h : s.Linked) (hfields : s.OwnsFields [])
    (hitems : ∀ e, ∀ a ∈ (s.expr e).items, s.has (.expr a))
    (hloops : ∀ e, ¬ TransGen s.LeadsTo e e) : s.WellFormed where
  listed := h.listed
  references x _ y hy := by
    cases x with
    | expr e =>
        rcases List.mem_append.1 hy with hlink | hitem
        · exact h.expr e y hlink
        · obtain ⟨a, ha, rfl⟩ := List.mem_map.1 hitem
          exact hitems e a ha
    | stmt t => exact h.stmt t y hy
    | var v => exact h.var v y hy
    | func f => exact h.func f y hy
    | struct d => exact h.struct d y hy
  exprs := hloops
  stmts _ ht := (lt_of_transGen (f := StmtId.index) h.stmtBefore ht).false
  structs _ ht := (lt_of_transGen (f := StructId.index)
    (fun t u ⟨f, hf, hu⟩ => hfields.earlier t f hf u hu) ht).false

theorem wellFormed_iff_itemsLeadAway (h : s.Linked) (hfields : s.OwnsFields []) :
    s.WellFormed ↔ s.ItemsLeadAway := by
  constructor
  · intro hwell e a ha
    have he : s.has (.expr e) := by
      rw [has, decide_eq_true_eq]
      refine index_lt_of_expr rfl fun hdefault => ?_
      rw [hdefault] at ha
      cases ha
    refine ⟨hwell.references _ he _ (List.mem_append_right _ (List.mem_map_of_mem ha)),
      fun hback => ?_⟩
    exact hwell.exprs e (TransGen.head' (leadsTo_iff.2 (.inr ha)) hback)
  · intro haway
    refine wellFormed_of_linked h hfields (fun e a ha => (haway e a ha).1) fun e he => ?_
    obtain ⟨x, a, ha, hx, hback⟩ := h.exists_item he (Nat.le_refl _)
    exact (haway x a ha).2 (hback.trans hx)

theorem wellFormed_of_itemsBelow (h : s.Linked) (hfields : s.OwnsFields [])
    (hitems : s.ItemsBelow) :
    s.WellFormed :=
  wellFormed_of_linked h hfields (fun e a ha => by simpa [has] using (hitems e a ha).1)
    fun _ he => (lt_of_transGen (fun _ _ hd => h.rank_lt hitems hd) he).false

/-- An accepted shader is well formed unless folding has replaced items in an attempt to parse a
declaration that came to nothing, and these items are gone or lead back. -/
theorem Accepted.wellFormed_iff (h : s.Accepted) :
    s.WellFormed ↔ (s.Ambiguous → s.ItemsLeadAway) := by
  obtain ⟨hlinked, hitems⟩ := h.consistent
  rw [wellFormed_iff_itemsLeadAway hlinked h.ownsFields]
  refine ⟨fun haway _ => haway, fun haway => hitems.elim (fun hbelow => ?_) haway⟩
  exact (wellFormed_iff_itemsLeadAway hlinked h.ownsFields).1
    (wellFormed_of_itemsBelow hlinked h.ownsFields hbelow)

end Shader

end ShaderBridge
