import ShaderBridge.Proofs.Preprocess.Lines
import ShaderBridge.Preprocess.Source

namespace ShaderBridge

/-! ### Steps -/

-- Runs on fixed texts are compared by evaluation.
instance exceptDecidableEq {ε α : Type} [DecidableEq ε] [DecidableEq α] :
    DecidableEq (Except ε α)
  | .ok a, .ok b => decidable_of_iff (a = b) (by simp)
  | .error e, .error f => decidable_of_iff (e = f) (by simp)
  | .ok _, .error _ => isFalse nofun
  | .error _, .ok _ => isFalse nofun

namespace Preprocess

variable {α β : Type} {m : PreprocessM α} {f : α → PreprocessM β} {t t' : MacroTable} {a : α}
  {b : β}

/-- Under the macros of `t` the step gives `a` and leaves the macros of `t'`. -/
def Gives (m : PreprocessM α) (t : MacroTable) (a : α) (t' : MacroTable) : Prop :=
  m.run.run t = (.ok a, t')

/-- Under the macros of `t` the step ends with an error. -/
def Fails (m : PreprocessM α) (t : MacroTable) (e : PreprocessError × Span) (t' : MacroTable) :
    Prop :=
  m.run.run t = (.error e, t')

theorem gives_or_fails (m : PreprocessM α) (t : MacroTable) :
    (∃ a t', Gives m t a t') ∨ ∃ e t', Fails m t e t' := by
  rcases h : m.run.run t with ⟨_ | a, t'⟩
  · exact .inr ⟨_, t', h⟩
  · exact .inl ⟨a, t', h⟩

theorem Gives.unique {a₁ a₂ : α} {t₁ t₂ : MacroTable} (h₁ : Gives m t a₁ t₁)
    (h₂ : Gives m t a₂ t₂) : a₁ = a₂ ∧ t₁ = t₂ := by
  have h := h₁.symm.trans h₂
  cases h
  exact ⟨rfl, rfl⟩

@[simp]
theorem gives_pure {a a' : α} : Gives (pure a) t a' t' ↔ a' = a ∧ t' = t := by
  constructor
  · intro h
    cases h
    exact ⟨rfl, rfl⟩
  · rintro ⟨rfl, rfl⟩
    rfl

@[simp]
theorem gives_get {a : MacroTable} : Gives get t a t' ↔ a = t ∧ t' = t := by
  constructor
  · intro h
    cases h
    exact ⟨rfl, rfl⟩
  · rintro ⟨rfl, rfl⟩
    rfl

@[simp]
theorem not_gives_throw {e : PreprocessError × Span} :
    ¬ Gives (throw e : PreprocessM α) t a t' := by
  intro h
  cases h

theorem run_bind (m : PreprocessM α) (f : α → PreprocessM β) (t : MacroTable) :
    (m >>= f).run.run t =
      match m.run.run t with
      | (.ok a, t') => (f a).run.run t'
      | (.error e, t') => (.error e, t') := by
  simp only [ExceptT.run_bind, StateT.run_bind]
  rcases h : m.run.run t with ⟨_ | a, t'⟩ <;> rfl

theorem gives_bind :
    Gives (m >>= f) t b t' ↔ ∃ a t₁, Gives m t a t₁ ∧ Gives (f a) t₁ b t' := by
  simp only [Gives, run_bind]
  rcases h : m.run.run t with ⟨_ | a, t₁⟩
  · constructor
    · intro hf
      cases hf
    · rintro ⟨a, t₂, ha, _⟩
      cases ha
  · constructor
    · intro hf
      exact ⟨a, t₁, rfl, hf⟩
    · rintro ⟨a', t₁', ha, hf⟩
      cases ha
      exact hf

theorem fails_bind {e : PreprocessError × Span} :
    Fails (m >>= f) t e t' ↔
      Fails m t e t' ∨ ∃ a t₁, Gives m t a t₁ ∧ Fails (f a) t₁ e t' := by
  simp only [Gives, Fails, run_bind]
  rcases h : m.run.run t with ⟨_ | a, t₁⟩
  · constructor
    · intro hf
      cases hf
      exact .inl rfl
    · rintro (hf | ⟨a, t₂, ha, _⟩)
      · cases hf
        rfl
      · cases ha
  · constructor
    · intro hf
      exact .inr ⟨a, t₁, rfl, hf⟩
    · rintro (hf | ⟨a', t₁', ha, hf⟩)
      · cases hf
      · cases ha
        exact hf

theorem gives_map {f : α → β} : Gives (f <$> m) t b t' ↔ ∃ a, Gives m t a t' ∧ f a = b := by
  rw [map_eq_pure_bind, gives_bind]
  constructor
  · rintro ⟨a, t₁, hm, hp⟩
    obtain ⟨rfl, rfl⟩ := gives_pure.mp hp
    exact ⟨a, hm, rfl⟩
  · rintro ⟨a, hm, rfl⟩
    exact ⟨a, t', hm, gives_pure.mpr ⟨rfl, rfl⟩⟩

theorem run_adapt (f : PreprocessError × Span → PreprocessError × Span) (m : PreprocessM α)
    (t : MacroTable) :
    (ExceptT.adapt f m).run.run t = ((m.run.run t).1.mapError f, (m.run.run t).2) :=
  rfl

theorem gives_adapt {f : PreprocessError × Span → PreprocessError × Span} :
    Gives (ExceptT.adapt f m) t a t' ↔ Gives m t a t' := by
  simp only [Gives, run_adapt]
  rcases m.run.run t with ⟨_ | b, t₁⟩
  · constructor <;> intro h <;> cases h
  · rfl

theorem fails_adapt {f : PreprocessError × Span → PreprocessError × Span}
    {e : PreprocessError × Span} :
    Fails (ExceptT.adapt f m) t e t' ↔ ∃ e', Fails m t e' t' ∧ f e' = e := by
  simp only [Fails, run_adapt]
  rcases m.run.run t with ⟨e' | b, t₁⟩
  · constructor
    · intro h
      cases h
      exact ⟨e', rfl, rfl⟩
    · rintro ⟨e'', h, rfl⟩
      cases h
      rfl
  · constructor
    · intro h
      cases h
    · rintro ⟨e', h, _⟩
      cases h

/-! ### Errors -/

/-- Every error of the step is of the given kind. -/
def FailsOnly (kind : PreprocessError → Prop) (m : PreprocessM α) : Prop :=
  ∀ t e t', Fails m t e t' → kind e.1

variable {kind : PreprocessError → Prop}

theorem failsOnly_pure (a : α) : FailsOnly kind (pure a) := by
  intro t e t' h
  cases h

theorem failsOnly_throw {e : PreprocessError × Span} (he : kind e.1) :
    FailsOnly kind (throw e : PreprocessM α) := by
  intro t e' t' h
  cases h
  exact he

theorem failsOnly_get : FailsOnly kind get := by
  intro t e t' h
  cases h

theorem failsOnly_set (t : MacroTable) : FailsOnly kind (set t) := by
  intro t e t' h
  cases h

theorem failsOnly_modify (f : MacroTable → MacroTable) : FailsOnly kind (modify f) := by
  intro t e t' h
  cases h

theorem FailsOnly.bind (hm : FailsOnly kind m) (hf : ∀ a, FailsOnly kind (f a)) :
    FailsOnly kind (m >>= f) := by
  intro t e t' h
  rcases fails_bind.mp h with h | ⟨a, t₁, _, h⟩
  · exact hm t e t' h
  · exact hf a t₁ e t' h

end Preprocess

/-! ### Lines and texts -/

namespace Preprocess

/-- How the texts of a resolver are included, where includes may go as deep as the given number. -/
def including (resolve : IncludeResolver) : Nat → Span → IncludeTarget → PreprocessM (List Char)
  | 0, span, target => throw (.includeTooDeep target.path, span)
  | depth + 1, span, target =>
    match resolve target with
    | none => throw (.includeNotFound target.path, span)
    | some found =>
      ExceptT.adapt (seenFrom span target.path found.toList) (text resolve depth found.toList)

theorem text_eq (resolve : IncludeResolver) (depth : Nat) (source : List Char) :
    text resolve depth source = textWith (including resolve depth) source := by
  cases depth <;> rfl

theorem gives_including {resolve : IncludeResolver} {depth : Nat} {span : Span}
    {target : IncludeTarget} {t t' : MacroTable} {out : List Char} :
    Gives (including resolve (depth + 1) span target) t out t' ↔
      ∃ found, resolve target = some found ∧
        Gives (textWith (including resolve depth) found.toList) t out t' := by
  simp only [including]
  split
  · rename_i hr
    simp [hr]
  · rename_i found hr
    simp [hr, gives_adapt, text_eq]

theorem failsOnly_including {kind : PreprocessError → Prop}
    (hdeep : ∀ path, kind (.includeTooDeep path)) (hmissing : ∀ path, kind (.includeNotFound path))
    (hinside : ∀ path line e, kind (.included path line e)) (resolve : IncludeResolver)
    (depth : Nat) (span : Span) (target : IncludeTarget) :
    FailsOnly kind (including resolve depth span target) := by
  cases depth with
  | zero => exact failsOnly_throw (hdeep _)
  | succ depth =>
      simp only [including]
      split
      · exact failsOnly_throw (hmissing _)
      · intro t e t' h
        obtain ⟨⟨inner, within⟩, _, rfl⟩ := fails_adapt.mp h
        exact hinside _ _ _

theorem gives_carryOut_include {includeText : Span → IncludeTarget → PreprocessM (List Char)}
    {l : LogicalLine} {rest out : List Char} {t t' : MacroTable} :
    Gives (carryOut includeText l (.includeText rest)) t out t' ↔
      ∃ target included, IncludeTarget.ofText? rest = some target ∧
        Gives (includeText l.span target) t included t' ∧ out = spliced l.newlines included := by
  simp only [carryOut]
  split
  · rename_i hr
    simp [hr]
  · rename_i target hr
    simp only [hr, Option.some.injEq, gives_bind, gives_pure]
    constructor
    · rintro ⟨included, _, hg, rfl, rfl⟩
      exact ⟨target, included, rfl, hg, rfl⟩
    · rintro ⟨_, included, rfl, hg, rfl⟩
      exact ⟨included, _, hg, rfl, rfl⟩

/-! ### Plain lines -/

theorem gives_plainLines {text : List Char} {groups : List Group} {line : Nat}
    {ls : List LogicalLine} {t t' : MacroTable} {out : List Char}
    (hg : Group.allActive groups = true) :
    Gives (plainLines text groups line ls) t out t' ↔
      expandSource t line (ls.flatMap LogicalLine.source) = .ok out ∧ t' = t := by
  unfold plainLines
  rw [if_pos hg, gives_bind]
  constructor
  · rintro ⟨_, _, hget, h⟩
    obtain ⟨rfl, rfl⟩ := gives_get.mp hget
    split at h
    · rename_i he
      obtain ⟨rfl, rfl⟩ := gives_pure.mp h
      exact ⟨he, rfl⟩
    · exact absurd h not_gives_throw
  · rintro ⟨he, rfl⟩
    refine ⟨_, _, gives_get.mpr ⟨rfl, rfl⟩, ?_⟩
    rw [he]
    exact gives_pure.mpr ⟨rfl, rfl⟩

theorem gives_plainLines_skipped {text : List Char} {groups : List Group} {line : Nat}
    {ls : List LogicalLine} {t t' : MacroTable} {out : List Char}
    (hg : Group.allActive groups = false) :
    Gives (plainLines text groups line ls) t out t' ↔
      out = List.replicate (newlinesOf ls) '\n' ∧ t' = t := by
  simp [plainLines, hg]

theorem table_of_plainLines {text : List Char} {groups : List Group} {line : Nat}
    {ls : List LogicalLine} {t t' : MacroTable} {out : List Char}
    (h : Gives (plainLines text groups line ls) t out t') : t' = t := by
  cases hg : Group.allActive groups with
  | true => exact ((gives_plainLines hg).mp h).2
  | false => exact ((gives_plainLines_skipped hg).mp h).2

/-! ### Runs of lines -/

section

variable {includeText : Span → IncludeTarget → PreprocessM (List Char)} {text : List Char}
  {groups groups' gs : List Group} {line line' n : Nat} {t t' t₁ : MacroTable}
  {out out₁ : List Char}

theorem gives_behind {m : PreprocessM (List Char × List Group × Nat)} :
    Gives (behind out₁ m) t (out, groups', line') t' ↔
      ∃ out₂, out = out₁ ++ out₂ ∧ Gives m t (out₂, groups', line') t' := by
  rw [behind, gives_map]
  constructor
  · rintro ⟨⟨out₂, _⟩, h, he⟩
    cases he
    exact ⟨out₂, rfl, h⟩
  · rintro ⟨out₂, rfl, h⟩
    exact ⟨_, h, rfl⟩

theorem gives_lines_of_isPlain {ls : List LogicalLine} (h : ∀ l ∈ ls, l.IsPlain) :
    Gives (lines includeText text groups line ls) t (out, groups', line') t' ↔
      Gives (plainLines text groups line ls) t out t' ∧ groups' = groups ∧
        line' = line + newlinesOf ls := by
  rw [← List.append_nil ls, lines_append _ _ _ _ h (by simp [StartsApart]), lines_nil]
  simp only [List.append_nil, behind, map_pure]
  constructor
  · intro hg
    obtain ⟨a, t₁, ha, hp⟩ := gives_bind.mp hg
    obtain ⟨he, rfl⟩ := gives_pure.mp hp
    cases he
    exact ⟨ha, rfl, rfl⟩
  · rintro ⟨ha, rfl, rfl⟩
    exact gives_bind.mpr ⟨_, _, ha, gives_pure.mpr ⟨rfl, rfl⟩⟩

/-- A run over lines with a directive among them: the plain lines in front of it, the directive,
and the lines behind it. -/
theorem gives_lines_append_directive {before rest : List LogicalLine} {l : LogicalLine}
    {d : List Char} (h : ∀ l ∈ before, l.IsPlain) (hl : l.directive? = some d) :
    Gives (lines includeText text groups line (before ++ l :: rest)) t (out, groups', line') t' ↔
      ∃ front t₁ gs here t₂ after,
        Gives (plainLines text groups line before) t front t₁ ∧
        Gives (directiveLine includeText groups (line + newlinesOf before) l d) t₁ (gs, here) t₂ ∧
        Gives (lines includeText text gs (line + newlinesOf before + l.newlines) rest) t₂
          (after, groups', line') t' ∧
        out = front ++ here ++ after := by
  rw [lines_append _ _ _ _ h (startsApart_directive hl rest), lines_cons_directive _ _ _ _ hl,
    gives_bind]
  simp only [behind_bind, behind_behind, gives_bind, gives_behind]
  constructor
  · rintro ⟨front, t₁, hf, ⟨gs, here⟩, t₂, hd, after, rfl, hr⟩
    exact ⟨front, t₁, gs, here, t₂, after, hf, hd, hr, rfl⟩
  · rintro ⟨front, t₁, gs, here, t₂, after, hf, hd, hr, rfl⟩
    exact ⟨front, t₁, hf, ⟨gs, here⟩, t₂, hd, after, rfl, hr⟩

theorem gives_lines_append_skipped {before rest : List LogicalLine}
    (h : Gives (lines includeText text groups line before) t (out₁, gs, n) t₁)
    (hs : Group.allActive gs = false) :
    Gives (lines includeText text groups line (before ++ rest)) t (out, groups', line') t' ↔
      ∃ out₂, out = out₁ ++ out₂ ∧
        Gives (lines includeText text gs n rest) t₁ (out₂, groups', line') t' := by
  induction before using logicalLines_induction generalizing groups line t out out₁ with
  | plain ls hp =>
      obtain ⟨hg, rfl, rfl⟩ := (gives_lines_of_isPlain hp).mp h
      obtain ⟨rfl, rfl⟩ := (gives_plainLines_skipped hs).mp hg
      rw [lines_append_skipped _ _ _ _ hs hp, gives_behind]
  | directive before l d tail hp hl ih =>
      obtain ⟨front, t₂, gs₁, here, t₃, after, hf, hd, hr, rfl⟩ :=
        (gives_lines_append_directive hp hl).mp h
      rw [List.append_assoc, List.cons_append, gives_lines_append_directive hp hl]
      constructor
      · rintro ⟨front', t₂', gs₁', here', t₃', after', hf', hd', hr', rfl⟩
        obtain ⟨rfl, rfl⟩ := hf.unique hf'
        obtain ⟨he, rfl⟩ := hd.unique hd'
        cases he
        obtain ⟨out₂, rfl, h₂⟩ := (ih hr).mp hr'
        exact ⟨out₂, by simp, h₂⟩
      · rintro ⟨out₂, rfl, h₂⟩
        exact ⟨front, t₂, gs₁, here, t₃, after ++ out₂, hf, hd, (ih hr).mpr ⟨out₂, rfl, h₂⟩,
          by simp⟩

theorem exists_lines_of_gives {source : List Char}
    (h : Gives (textWith includeText source) t out t') :
    ∃ text n, stripComments 0 source = .ok text ∧
      Gives (lines includeText text [] 1 (logicalLines text)) t (out, [], n) t' := by
  rw [textWith_eq] at h
  cases hs : stripComments 0 source with
  | error span =>
      rw [hs] at h
      exact absurd h not_gives_throw
  | ok text =>
      rw [hs] at h
      obtain ⟨⟨out', groups, n⟩, t₁, hl, hc⟩ := gives_bind.mp h
      cases groups with
      | nil =>
          obtain ⟨rfl, rfl⟩ := gives_pure.mp hc
          exact ⟨text, n, rfl, hl⟩
      | cons g outer => exact absurd hc not_gives_throw

theorem gives_textWith {source text : List Char} (hs : stripComments 0 source = .ok text)
    (h : Gives (lines includeText text [] 1 (logicalLines text)) t (out, [], n) t') :
    Gives (textWith includeText source) t out t' := by
  rw [textWith_eq, hs]
  exact gives_bind.mpr ⟨_, _, h, gives_pure.mpr ⟨rfl, rfl⟩⟩

end

end Preprocess

open Preprocess

/-- What a step of the preprocessor comes to under the macros of a table, as a text. -/
def outcome (macros : MacroTable) (m : PreprocessM (List Char)) :
    Except (PreprocessError × Span) String × MacroTable :=
  ((m.run.run macros).1.map String.ofList, (m.run.run macros).2)

theorem preprocess_eq (resolve : IncludeResolver) (macros : MacroTable) (source : String) :
    preprocess resolve macros source =
      outcome macros (textWith (including resolve maxIncludeDepth) source.toList) := by
  rw [preprocess, text_eq]
  rfl

theorem outcome_of_gives {macros t : MacroTable} {m : PreprocessM (List Char)} {out : List Char}
    (h : Gives m macros out t) : outcome macros m = (.ok (String.ofList out), t) := by
  rw [outcome, show m.run.run macros = _ from h]
  rfl

theorem outcome_of_fails {macros t : MacroTable} {m : PreprocessM (List Char)}
    {e : PreprocessError × Span} (h : Fails m macros e t) : outcome macros m = (.error e, t) := by
  rw [outcome, show m.run.run macros = _ from h]
  rfl

theorem gives_of_outcome {macros t : MacroTable} {m : PreprocessM (List Char)} {out : String}
    (h : outcome macros m = (.ok out, t)) : Gives m macros out.toList t := by
  rcases gives_or_fails m macros with ⟨out', t', hg⟩ | ⟨e, t', hf⟩
  · rw [outcome_of_gives hg] at h
    cases h
    simpa using hg
  · rw [outcome_of_fails hf] at h
    cases h

end ShaderBridge
