import Mathlib.Data.List.Perm.Subperm
import ShaderBridge.Proofs.Macro.Machine

/-!
Why macro expansion ends. In every state of the machine the hidden names are those of the macros
whose bodies are being expanded, each of them once, and all of them names of the table. So bodies
are not expanded one inside the other more often than there are macros, and an argument, for which
no name is added, is shorter than the text that it was written in.
-/

namespace ShaderBridge

namespace Expansion

/-- The macro whose body is being expanded while the frame waits. -/
def Frame.bodyOf? : Frame → Option String
  | body name _ _ => some name
  | _ => none

/-- The pieces to come are pieces of the text. -/
def Scan.Fits (a : Scan) : Prop :=
  (Piece.textOf a.rest).length ≤ a.text.length

/-- An argument is shorter than the text that it was written in. -/
def Scan.IsWithin (a : Scan) (stack : List Frame) : Prop :=
  ∀ f name inside b below, stack = .argument f :: .call name inside b :: below →
    a.text.length < b.text.length

/-- What waits while the given names are hidden. -/
inductive Waiting (t : MacroTable) : List String → List Frame → Prop
  | nothing : Waiting t [] []
  | call {hidden : List String} {stack : List Frame} {name : String} {inside : Nat} {a : Scan} :
      Waiting t hidden stack → a.Fits → a.IsWithin stack → name ∈ t.names → name ∉ hidden →
      Waiting t hidden (.call name inside a :: stack)
  | argument {hidden : List String} {stack : List Frame} {name : String} {inside : Nat} {a : Scan}
      {f : Fill} :
      Waiting t hidden (.call name inside a :: stack) →
      (∀ raw ∈ f.use.args, raw.length < a.text.length) →
      Waiting t hidden (.argument f :: .call name inside a :: stack)
  | body {hidden : List String} {stack : List Frame} {name : String} {inside : Nat} {a : Scan} :
      Waiting t hidden stack → a.Fits → a.IsWithin stack → name ∈ t.names → name ∉ hidden →
      Waiting t (name :: hidden) (.body name inside a :: stack)

/-- What holds of the texts and bodies that are at hand. -/
def Control.Fits (stack : List Frame) : Control → Prop
  | scanning a => a.Fits ∧ a.IsWithin stack
  | filling f => ∃ name inside a below, stack = .call name inside a :: below ∧
      ∀ raw ∈ f.use.args, raw.length < a.text.length
  | returning _ => True

/-- What holds of every state. -/
structure State.Ordered (t : MacroTable) (s : State) : Prop where
  waiting : Waiting t s.hidden s.stack
  fits : s.control.Fits s.stack

variable {t : MacroTable} {hidden : List String} {stack : List Frame}

namespace Waiting

theorem nodup (h : Waiting t hidden stack) : hidden.Nodup := by
  induction h with
  | nothing => exact List.nodup_nil
  | call _ _ _ _ _ ih => exact ih
  | argument _ _ ih => exact ih
  | body _ _ _ _ hname ih => exact List.nodup_cons.2 ⟨hname, ih⟩

theorem subset (h : Waiting t hidden stack) : hidden ⊆ t.names := by
  induction h with
  | nothing => exact List.nil_subset _
  | call _ _ _ _ _ ih => exact ih
  | argument _ _ ih => exact ih
  | body _ _ _ hname _ ih => exact List.cons_subset.2 ⟨hname, ih⟩

theorem bodies_eq (h : Waiting t hidden stack) : stack.filterMap Frame.bodyOf? = hidden := by
  induction h with
  | nothing => rfl
  | call _ _ _ _ _ ih => exact ih
  | argument _ _ ih => exact ih
  | body _ _ _ _ _ ih => exact congrArg (List.cons _) ih

theorem length_bodies_le (h : Waiting t hidden stack) :
    (stack.filterMap Frame.bodyOf?).length ≤ t.names.length := by
  rw [h.bodies_eq]
  exact (List.subperm_of_subset h.nodup h.subset).length_le

end Waiting

theorem Scan.Fits.of_suffix {a : Scan} {rest : List Piece} (h : a.Fits) (hrest : rest <:+ a.rest) :
    (Piece.textOf rest).length ≤ a.text.length := by
  obtain ⟨front, hfront⟩ := hrest
  unfold Scan.Fits at h
  rw [← hfront, Piece.textOf_append, List.length_append] at h
  omega

theorem Scan.fits_start (top : Bool) (text : List Char) : (Scan.start top text).Fits :=
  Nat.le_of_eq (congrArg List.length (Piece.textOf_pieces text))

theorem Scan.isWithin_start {f : Fill} {name : String} {inside : Nat} {a : Scan} {top : Bool}
    {text : List Char} (h : text.length < a.text.length) :
    (Scan.start top text).IsWithin (.argument f :: .call name inside a :: stack) := by
  rintro _ _ _ _ _ ⟨⟩
  exact h

namespace State

variable {s s' : State}

theorem ordered_scan {a : Scan} (h : Waiting t s.hidden s.stack) (hfits : a.Fits)
    (hwithin : a.IsWithin s.stack) : (s.scan t a).Ordered t := by
  unfold scan
  split
  · exact ⟨h, trivial⟩
  · rename_i p ps hrest
    have hps : ps <:+ a.rest := hrest ▸ List.suffix_cons p ps
    have hwrite (text : List Char) : (a.write text ps).Fits ∧ (a.write text ps).IsWithin s.stack :=
      ⟨hfits.of_suffix hps, hwithin⟩
    split
    · split
      · exact ⟨h, hwrite _⟩
      · exact ⟨h, hwrite (List.replicate a.owed '\n' ++ p.text)⟩
    split
    · exact ⟨h, hwrite _⟩
    split
    · exact ⟨h, trivial⟩
    · exact ⟨h, hwrite _⟩
    · rename_i u hu
      have hfound := macroUse?_found hu
      have htext : (Piece.textOf (p :: ps)).length ≤ a.text.length := hrest ▸ hfits
      have hrest : Scan.Fits { a with rest := u.rest } :=
        hfits.of_suffix (hfound.rest_suffix.trans hps)
      exact ⟨h.call hrest hwithin hfound.mem_names hfound.not_hidden, _, _, _, _, rfl,
        fun raw hraw =>
        Nat.lt_of_lt_of_le (hfound.args_shorter raw hraw) htext⟩

theorem ordered_fill {f : Fill} (h : Waiting t s.hidden s.stack)
    (hfits : (Control.filling f).Fits s.stack) : (s.fill f).Ordered t := by
  unfold fill
  split
  · exact ⟨h, trivial⟩
  rename_i p ps _
  split
  · exact ⟨h, hfits⟩
  dsimp only
  generalize (if p.isSpace then f.afterPaste else p.isPaste) = afterPaste
  split
  · exact ⟨h, hfits⟩
  · rename_i a ha
    split
    · exact ⟨h, hfits⟩
    · obtain ⟨name, inside, b, below, hstack, hargs⟩ := hfits
      have hraw := hargs a.raw (raw_mem_args .ok ha)
      refine ⟨?_, Scan.fits_start _ _, ?_⟩
      · change Waiting t s.hidden (_ :: s.stack)
        rw [hstack] at h ⊢
        exact h.argument hargs
      · change Scan.IsWithin _ (_ :: s.stack)
        rw [hstack]
        exact Scan.isWithin_start hraw

theorem ordered_goOn {inside : Nat} {a : Scan} (h : Waiting t s.hidden s.stack) (hfits : a.Fits)
    (hwithin : a.IsWithin s.stack) (replaced : List Char) :
      (s.goOn inside a replaced).Ordered t := by
  unfold goOn
  split
  · exact ⟨h, hfits, hwithin⟩
  · exact ⟨h, hfits, hwithin⟩

theorem ordered_resume {frame : Frame} {result : Except ExpansionError (List Char)}
    (h : Waiting t s.hidden (frame :: s.stack)) : (s.resume frame result).Ordered t := by
  obtain ⟨hidden, line, control, stack⟩ := s
  cases h with
  | call h hfits hwithin hmem hhidden =>
      cases result with
      | error e => exact ⟨h, trivial⟩
      | ok body => exact ⟨h.body hfits hwithin hmem hhidden, Scan.fits_start _ _, nofun⟩
  | argument h hargs =>
      cases result with
      | error e => exact ⟨h, trivial⟩
      | ok text => exact ⟨h, _, _, _, _, rfl, hargs⟩
  | @body hidden _ _ _ _ h hfits hwithin =>
      cases result with
      | error e => exact ⟨h, trivial⟩
      | ok replaced =>
          exact ordered_goOn (s := ⟨hidden, line, control, stack⟩) h hfits hwithin replaced

/-- Every step leads to such a state again. -/
theorem Ordered.step (h : s.Ordered t) (hstep : s.step? t = some s') : s'.Ordered t := by
  obtain ⟨hwaiting, hfits⟩ := h
  unfold step? at hstep
  split at hstep
  · rename_i a ha
    cases hstep
    rw [ha] at hfits
    exact ordered_scan hwaiting hfits.1 hfits.2
  · rename_i f hf
    cases hstep
    rw [hf] at hfits
    exact ordered_fill hwaiting hfits
  · split at hstep
    · cases hstep
    · rename_i frame stack hstack
      cases hstep
      rw [hstack] at hwaiting
      exact ordered_resume hwaiting

theorem Ordered.reaches (h : s.Ordered t) (hreaches : Reaches t s s') : s'.Ordered t := by
  induction hreaches with
  | refl => exact h
  | tail _ hstep ih => exact ih.step hstep

/-- The beginning of an expansion for which nothing waits. -/
def start (top : Bool) (line : Nat) (text : List Char) : State :=
  ⟨[], line, .scanning (.start top text), []⟩

theorem ordered_start (t : MacroTable) (top : Bool) (line : Nat) (text : List Char) :
    (start top line text).Ordered t :=
  ⟨.nothing, Scan.fits_start top text, nofun⟩

/-- How expansions are nested: the hidden names are the names of the macros whose bodies are being
expanded, the innermost first. They are names of the table, none comes twice, and so there are not
more of them than there are macros. An argument is shorter than the text whose expansion waits for
it, and the same names are hidden for both. -/
structure Nested (t : MacroTable) (s : State) : Prop where
  nodup : s.hidden.Nodup
  subset : s.hidden ⊆ t.names
  bodies_eq : s.stack.filterMap Frame.bodyOf? = s.hidden
  length_bodies_le : (s.stack.filterMap Frame.bodyOf?).length ≤ t.names.length
  shorter : ∀ a f name inside b below, s.control = .scanning a →
    s.stack = .argument f :: .call name inside b :: below →
      a.text.length < b.text.length ∧ below.filterMap Frame.bodyOf? = s.hidden

theorem Ordered.nested (h : s.Ordered t) : s.Nested t where
  nodup := h.waiting.nodup
  subset := h.waiting.subset
  bodies_eq := h.waiting.bodies_eq
  length_bodies_le := h.waiting.length_bodies_le
  shorter := by
    intro a f name inside b below hcontrol hstack
    have hfits := h.fits
    have hbodies := h.waiting.bodies_eq
    rw [hcontrol] at hfits
    rw [hstack] at hbodies
    exact ⟨hfits.2 f name inside b below hstack, hbodies⟩

end State

/-- Macro expansion comes to an end, whatever the table. After finitely many steps every text, also
one that is met inside of others, is left with what it expands to or with an error, and the names
are hidden that were hidden before; so are source lines, whose errors are reported for the line that
has been reached. On the way bodies are nested no more deeply than there are macros, and arguments
are shorter than the texts that they are written in. -/
theorem halts (t : MacroTable) (line : Nat) (text : List Char) :
    (∀ hidden stack, Reaches t ⟨hidden, line, .scanning (.start false text), stack⟩
      ⟨hidden, line, .returning (expand t line hidden (pieces text)), stack⟩) ∧
    (∃ line', Reaches t (.start true line text)
        ⟨[], line', .returning ((expandLines t line 0 (pieces text)).mapError Prod.fst), []⟩ ∧
      ∀ e place, expandLines t line 0 (pieces text) = .error (e, place) → line' = place) ∧
    ∀ top s, Reaches t (.start top line text) s → s.Nested t := by
  refine ⟨fun hidden => returns t line hidden text, ?_, fun top s h => ?_⟩
  · have h := ends_expandLines (t := t) line 0 (pieces text) text [] []
    rwa [nil_map_append] at h
  · exact ((State.ordered_start t top line text).reaches h).nested

end Expansion

end ShaderBridge
