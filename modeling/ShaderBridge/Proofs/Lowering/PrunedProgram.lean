import ShaderBridge.Proofs.Lowering.Meeting
import ShaderBridge.Proofs.Lowering.Declared
import ShaderBridge.Proofs.Lowering.Pruned
import ShaderBridge.Proofs.Parse.Accepted

/-!
The program of a pruned shader. A program is lowered part by part, and pruning leaves parts out.
What a part leaves behind for the next is how many temporaries have been taken and which atomic
calls have been carried out; so the parts that are kept become what they become in the whole
program, with the temporaries under other numbers, unless they hold a call that a part left out has
carried out.
-/

namespace ShaderBridge

namespace Hlsl

/-- A part of a program that is lowered on its own. -/
inductive Part where
  | helpers
  | global (buffers : List ByteBuffer) (id : VarId)
  | record (id : StructId)
  | inputs
  | blocks
  | function (id : FuncId)

end Hlsl

namespace Shader

open Hlsl

section

variable (s : Shader) (options : Options)

/-- The declarations of a program, each with what it declares. -/
def declared : List (Subject × Decl) :=
  (s.subjects options).zip (s.toProgram options)

def parts : List Part :=
  .helpers :: ((s.plainGlobals options).map (.global []) ++ (s.structures.toList.map .record ++
    (.inputs :: .blocks :: ((s.recordGlobals options).map (.global s.storageFields) ++
      s.functions.toList.map .function))))

end

variable {s : Shader} {options : Options}

end Shader

namespace Hlsl

open Shader

variable {s : Shader} {options : Options} {ρ : Nat → Nat} {limit : Nat}

section

variable {σ σ' τ : LoweringState}

/-- The temporaries of the second run are embedded in those of the first in their order, and the
calls that can be reached have been carried out in both or in neither. The results of calls are in
temporaries that have been taken, so that it does not matter what becomes of later ones. -/
structure Embeds (s : Shader) (ρ : Nat → Nat) (σ τ : LoweringState) : Prop where
  mono : ∀ k l, k < l → l < τ.temps → ρ k < ρ l
  below : ∀ k < τ.temps, ρ k < σ.temps
  hoisted : ∀ ρ' : Nat → Nat, (∀ k < τ.temps, ρ' k = ρ k) →
    ∀ e, s.Reachable (.expr e) → σ.hoisted.lookup e = (τ.hoisted.lookup e).map ρ'

/-- From now on both runs take their temporaries one after the other. -/
def onward (ρ : Nat → Nat) (σ τ : LoweringState) (k : Nat) : Nat :=
  if k < τ.temps then ρ k else σ.temps + (k - τ.temps)

theorem onward_of_lt {k : Nat} (h : k < τ.temps) : onward ρ σ τ k = ρ k :=
  if_pos h

theorem onward_of_le {k : Nat} (h : τ.temps ≤ k) :
    onward ρ σ τ k = σ.temps + (k - τ.temps) :=
  if_neg (Nat.not_lt.2 h)

theorem Embeds.strictMono_onward (h : Embeds s ρ σ τ) : StrictMono (onward ρ σ τ) := by
  intro k l hkl
  rcases Nat.lt_or_ge l τ.temps with hl | hl
  · rw [onward_of_lt (hkl.trans hl), onward_of_lt hl]
    exact h.mono k l hkl hl
  · rw [onward_of_le hl]
    rcases Nat.lt_or_ge k τ.temps with hk | hk
    · rw [onward_of_lt hk]
      exact Nat.lt_add_right _ (h.below k hk)
    · rw [onward_of_le hk]
      omega

theorem Embeds.inStep (h : Embeds s ρ σ τ) (hlimit : τ.temps ≤ limit) {ρ' : Nat → Nat}
    (hρ : ∀ k < limit, ρ' k = onward ρ σ τ k) : InStep s ρ' limit σ τ where
  fresh k hk hlt := by
    rw [hρ k hlt, onward_of_le hk]
    omega
  hoisted := h.hoisted ρ' fun k hk => by
    rw [hρ k (hk.trans_le hlimit), onward_of_lt hk]

theorem Embeds.kept {α : Type} {m n : LowerM α} {view : (Nat → Nat) → α → α}
    (h : Embeds s ρ σ τ) (hm : ∀ ρ limit, Tracks s ρ limit m n (view ρ)) :
    Embeds s (onward ρ σ τ) (m.run σ).2 (n.run τ).2 ∧
      ∀ ρ' : Nat → Nat, (∀ k < (n.run τ).2.temps, ρ' k = onward ρ σ τ k) →
        (m.run σ).1 = view ρ' (n.run τ).1 := by
  have hgrows : τ.temps ≤ (n.run τ).2.temps := ((hm ρ 0).grows τ).temps
  have hstep {ρ' : Nat → Nat} (hρ : ∀ k < (n.run τ).2.temps, ρ' k = onward ρ σ τ k) :=
    (hm ρ' _).inStep σ τ (h.inStep hgrows hρ) (Nat.le_refl _)
  have htemps : (m.run σ).2.temps = onward ρ σ τ (n.run τ).2.temps := by
    have hlimit : (n.run τ).2.temps ≤ (n.run τ).2.temps + 1 := Nat.le_succ _
    have hnext := (hm _ _).inStep σ τ (h.inStep (hgrows.trans hlimit) fun _ _ => rfl) hlimit
    have := hnext.2.fresh _ (Nat.le_refl _) (Nat.lt_succ_self _)
    omega
  refine ⟨⟨fun k l hkl _ => h.strictMono_onward hkl, fun k hk => ?_,
    fun ρ' hρ => (hstep hρ).2.hoisted⟩, fun ρ' hρ => (hstep hρ).1⟩
  rw [htemps]
  exact h.strictMono_onward hk

theorem Embeds.dropped (h : Embeds s ρ σ τ) (hgrows : σ.temps ≤ σ'.temps)
    (hhoisted : ∀ e, s.Reachable (.expr e) → σ'.hoisted.lookup e = σ.hoisted.lookup e) :
    Embeds s ρ σ' τ where
  mono := h.mono
  below k hk := (h.below k hk).trans_le hgrows
  hoisted ρ' hρ e he := (hhoisted e he).trans (h.hoisted ρ' hρ e he)

end

/-! ### Programs -/

end Hlsl

namespace Shader

open Hlsl

variable {s : Shader} {options : Options}

/-! ### Declarations -/

/-- The texts of declarations, one after the other. -/
def textOf (options : Options) (declarations : List (Subject × Decl)) : String :=
  String.join (declarations.map fun d => d.2.render ("".pushn ' ' options.indent))

end Shader

namespace Hlsl

end Hlsl

namespace Shader

open Hlsl

end Shader

end ShaderBridge
