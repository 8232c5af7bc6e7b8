import ShaderBridge.Proofs.Preprocess.Including

namespace ShaderBridge

/-- The part that a directive has in a group. -/
inductive DirectedKind where
  | opens | elseIf | otherwise | close
  /-- It has no part in a group. -/
  | ordinary
deriving DecidableEq, Repr

def Directed.kind : Directed → DirectedKind
  | openIf _ | openDefined _ _ => .opens
  | elseIf _ => .elseIf
  | otherwise => .otherwise
  | close => .close
  | define _ | undefine _ | includeText _ | foreign => .ordinary

namespace Preprocess

/-- The groups behind a directive about groups, under the macros of a table. -/
inductive Regroups (t : MacroTable) (line : Nat) (span : Span) :
    List Group → Directed → List Group → Prop where
  | openIf {gs : List Group} {condition : List Char} {value : BitVec 64}
      (ha : Group.allActive gs = true)
      (hv : Condition.evaluate t line condition = .ok value) :
      Regroups t line span gs (.openIf condition) (.opened true (value != 0) span :: gs)
  | openDefined {gs : List Group} {wanted : Bool} {name : List Char}
      (ha : Group.allActive gs = true) (hn : isWord name = true) :
      Regroups t line span gs (.openDefined wanted name)
        (.opened true (t.isDefined (String.ofList name) == wanted) span :: gs)
  | openIfSkipped {gs : List Group} {condition : List Char}
      (ha : Group.allActive gs = false) :
      Regroups t line span gs (.openIf condition) (.opened false false span :: gs)
  | openDefinedSkipped {gs : List Group} {wanted : Bool} {name : List Char}
      (ha : Group.allActive gs = false) :
      Regroups t line span gs (.openDefined wanted name) (.opened false false span :: gs)
  | elseIf {g : Group} {gs : List Group} {condition : List Char} {value : BitVec 64}
      (hs : g.seenElse = false) (hu : g.isUndecided = true)
      (hv : Condition.evaluate t line condition = .ok value) :
      Regroups t line span (g :: gs) (.elseIf condition) (g.enterBranch (value != 0) :: gs)
  | elseIfSkipped {g : Group} {gs : List Group} {condition : List Char}
      (hs : g.seenElse = false) (hu : g.isUndecided = false) :
      Regroups t line span (g :: gs) (.elseIf condition) (g.skipBranch :: gs)
  | otherwise {g : Group} {gs : List Group} (hs : g.seenElse = false) :
      Regroups t line span (g :: gs) .otherwise (g.enterElse :: gs)
  | close {g : Group} {gs : List Group} : Regroups t line span (g :: gs) .close gs

variable {includeText : Span → IncludeTarget → PreprocessM (List Char)} {t t' : MacroTable}
  {line : Nat} {span : Span} {gs gs' : List Group} {d : Directed}

theorem gives_located {ε α : Type} {cause : ε → PreprocessError} {r : Except ε α} {a : α} :
    Gives (located span cause r) t a t' ↔ r = .ok a ∧ t' = t := by
  cases r with
  | ok b => simp [located, eq_comm]
  | error e => simp [located]

theorem failsOnly_located {ε α : Type} {kind : PreprocessError → Prop} {cause : ε → PreprocessError}
    (hc : ∀ e, kind (cause e)) (r : Except ε α) : FailsOnly kind (located span cause r) := by
  cases r with
  | ok a => exact failsOnly_pure a
  | error e => exact failsOnly_throw (hc e)

theorem failsOnly_holds {kind : PreprocessError → Prop} (hc : ∀ e, kind (.condition e))
    (condition : List Char) : FailsOnly kind (holds line span condition) :=
  failsOnly_get.bind fun _ => (failsOnly_located hc _).bind fun _ => failsOnly_pure _

theorem failsOnly_carryOut {kind : PreprocessError → Prop}
    (hdefinition : ∀ e, kind (.definition e))
    (hname : ∀ directive, kind (.invalidMacroName directive))
    (hinclude : kind .invalidInclude) (hi : ∀ span target, FailsOnly kind (includeText span target))
    (l : LogicalLine) (d : Directed) : FailsOnly kind (carryOut includeText l d) := by
  unfold carryOut
  split
  · split
    · exact failsOnly_throw (hdefinition _)
    · exact failsOnly_get.bind fun t => (failsOnly_located hdefinition _).bind fun _ =>
        (failsOnly_set _).bind fun _ => failsOnly_pure _
  · split
    · exact failsOnly_throw (hname _)
    · exact (failsOnly_modify _).bind fun _ => failsOnly_pure _
  · split
    · exact failsOnly_throw hinclude
    · exact (hi _ _).bind fun _ => failsOnly_pure _
  · exact failsOnly_pure _

theorem gives_holds {condition : List Char} {b : Bool} :
    Gives (holds line span condition) t b t' ↔
      (∃ value, Condition.evaluate t line condition = .ok value ∧ b = (value != 0)) ∧ t' = t := by
  simp only [holds, gives_bind, gives_get, gives_located, gives_pure]
  constructor
  · rintro ⟨_, _, ⟨rfl, rfl⟩, value, _, ⟨hv, rfl⟩, rfl, rfl⟩
    exact ⟨⟨value, hv, rfl⟩, rfl⟩
  · rintro ⟨⟨value, hv, rfl⟩, rfl⟩
    exact ⟨_, _, ⟨rfl, rfl⟩, value, _, ⟨hv, rfl⟩, rfl, rfl⟩

section

attribute [local simp] regroup?

variable {regrouped : PreprocessM (List Group)}

theorem gives_regroup_openIf {condition : List Char}
    (hr : regroup? gs line span (.openIf condition) = some regrouped) :
    Gives regrouped t gs' t' ↔ Regroups t line span gs (.openIf condition) gs' ∧ t' = t := by
  simp only [regroup?, Option.some.injEq] at hr
  subst hr
  cases ha : Group.allActive gs with
  | true =>
      simp only [if_true, gives_bind, gives_holds, gives_pure]
      constructor
      · rintro ⟨_, _, ⟨⟨value, hv, rfl⟩, rfl⟩, rfl, rfl⟩
        exact ⟨.openIf ha hv, rfl⟩
      · rintro ⟨h, rfl⟩
        cases h with
        | openIf _ hv => exact ⟨_, _, ⟨⟨_, hv, rfl⟩, rfl⟩, rfl, rfl⟩
        | openIfSkipped ha' => simp [ha] at ha'
  | false =>
      simp only [Bool.false_eq_true, if_false, pure_bind, gives_pure]
      constructor
      · rintro ⟨rfl, rfl⟩
        exact ⟨.openIfSkipped ha, rfl⟩
      · rintro ⟨h, rfl⟩
        cases h with
        | openIf ha' => simp [ha] at ha'
        | openIfSkipped => exact ⟨rfl, rfl⟩

theorem gives_regroup_openDefined {wanted : Bool} {name : List Char}
    (hr : regroup? gs line span (.openDefined wanted name) = some regrouped) :
    Gives regrouped t gs' t' ↔
      Regroups t line span gs (.openDefined wanted name) gs' ∧ t' = t := by
  simp only [regroup?, Option.some.injEq] at hr
  subst hr
  cases ha : Group.allActive gs with
  | true =>
      cases hn : isWord name with
      | true =>
          simp only [Bool.not_true, Bool.and_false, Bool.false_eq_true, if_false, gives_bind,
            gives_get, gives_pure, Bool.true_and]
          constructor
          · rintro ⟨_, _, ⟨rfl, rfl⟩, rfl, rfl⟩
            exact ⟨.openDefined ha hn, rfl⟩
          · rintro ⟨h, rfl⟩
            cases h with
            | openDefined => exact ⟨_, _, ⟨rfl, rfl⟩, rfl, rfl⟩
            | openDefinedSkipped ha' => simp [ha] at ha'
      | false =>
          simp only [Bool.not_false, Bool.and_self, if_true]
          constructor
          · intro h
            simp at h
          · rintro ⟨h, rfl⟩
            cases h with
            | openDefined _ hn' => simp [hn] at hn'
            | openDefinedSkipped ha' => simp [ha] at ha'
  | false =>
      simp only [Bool.false_and, Bool.false_eq_true, if_false, gives_bind, gives_get, gives_pure]
      constructor
      · rintro ⟨_, _, ⟨rfl, rfl⟩, rfl, rfl⟩
        exact ⟨.openDefinedSkipped ha, rfl⟩
      · rintro ⟨h, rfl⟩
        cases h with
        | openDefined ha' => simp [ha] at ha'
        | openDefinedSkipped => exact ⟨_, _, ⟨rfl, rfl⟩, rfl, rfl⟩

theorem gives_unless_throw {α : Type} {b : Bool} {e : PreprocessError × Span} {m : PreprocessM α}
    {a : α} :
    Gives (do
      if b then throw e
      m) t a t' ↔ b = false ∧ Gives m t a t' := by
  cases b <;> simp

theorem gives_regroup_elseIf {condition : List Char}
    (hr : regroup? gs line span (.elseIf condition) = some regrouped) :
    Gives regrouped t gs' t' ↔ Regroups t line span gs (.elseIf condition) gs' ∧ t' = t := by
  simp only [regroup?, Option.some.injEq] at hr
  subst hr
  rcases gs with _ | ⟨g, gs⟩
  · exact ⟨fun h => absurd h not_gives_throw, fun ⟨h, _⟩ => nomatch h⟩
  refine gives_unless_throw.trans ?_
  cases hu : g.isUndecided with
  | true =>
      simp only [if_true, gives_bind, gives_holds, gives_pure]
      constructor
      · rintro ⟨hs, _, _, ⟨⟨value, hv, rfl⟩, rfl⟩, rfl, rfl⟩
        exact ⟨.elseIf hs hu hv, rfl⟩
      · rintro ⟨h, rfl⟩
        cases h with
        | elseIf hs _ hv => exact ⟨hs, _, _, ⟨⟨_, hv, rfl⟩, rfl⟩, rfl, rfl⟩
        | elseIfSkipped _ hu' => simp [hu] at hu'
  | false =>
      simp only [Bool.false_eq_true, if_false, gives_pure]
      constructor
      · rintro ⟨hs, rfl, rfl⟩
        exact ⟨.elseIfSkipped hs hu, rfl⟩
      · rintro ⟨h, rfl⟩
        cases h with
        | elseIf _ hu' => simp [hu] at hu'
        | elseIfSkipped hs => exact ⟨hs, rfl, rfl⟩

theorem gives_regroup_otherwise (hr : regroup? gs line span .otherwise = some regrouped) :
    Gives regrouped t gs' t' ↔ Regroups t line span gs .otherwise gs' ∧ t' = t := by
  simp only [regroup?, Option.some.injEq] at hr
  subst hr
  rcases gs with _ | ⟨g, gs⟩
  · exact ⟨fun h => absurd h not_gives_throw, fun ⟨h, _⟩ => nomatch h⟩
  refine gives_unless_throw.trans ?_
  rw [gives_pure]
  constructor
  · rintro ⟨hs, rfl, rfl⟩
    exact ⟨.otherwise hs, rfl⟩
  · rintro ⟨h, rfl⟩
    cases h with
    | otherwise hs => exact ⟨hs, rfl, rfl⟩

theorem gives_regroup_close (hr : regroup? gs line span .close = some regrouped) :
    Gives regrouped t gs' t' ↔ Regroups t line span gs .close gs' ∧ t' = t := by
  simp only [regroup?, Option.some.injEq] at hr
  subst hr
  rcases gs with _ | ⟨g, gs⟩
  · exact ⟨fun h => absurd h not_gives_throw, fun ⟨h, _⟩ => nomatch h⟩
  constructor
  · intro h
    obtain ⟨rfl, rfl⟩ := gives_pure.mp h
    exact ⟨.close, rfl⟩
  · rintro ⟨h, rfl⟩
    cases h
    exact gives_pure.mpr ⟨rfl, rfl⟩

theorem gives_regroup (hr : regroup? gs line span d = some regrouped) :
    Gives regrouped t gs' t' ↔ Regroups t line span gs d gs' ∧ t' = t := by
  cases d with
  | openIf => exact gives_regroup_openIf hr
  | openDefined => exact gives_regroup_openDefined hr
  | elseIf => exact gives_regroup_elseIf hr
  | otherwise => exact gives_regroup_otherwise hr
  | close => exact gives_regroup_close hr
  | _ => simp at hr

end

theorem regroup?_eq_none_iff :
    regroup? gs line span d = none ↔ d.kind = .ordinary := by
  cases d <;> simp [regroup?, Directed.kind]

theorem Regroups.not_ordinary (h : Regroups t line span gs d gs') : d.kind ≠ .ordinary := by
  cases h <;> simp [Directed.kind]

theorem gives_directiveLine {l : LogicalLine} {text out : List Char} :
    Gives (directiveLine includeText gs line l text) t (gs', out) t' ↔
      (Regroups t line l.span gs (Directed.ofText text) gs' ∧
        out = List.replicate l.newlines '\n' ∧ t' = t) ∨
      ((Directed.ofText text).kind = .ordinary ∧ gs' = gs ∧
        if Group.allActive gs then Gives (carryOut includeText l (Directed.ofText text)) t out t'
        else out = List.replicate l.newlines '\n' ∧ t' = t) := by
  unfold directiveLine
  dsimp only
  cases hr : regroup? gs line l.span (Directed.ofText text) with
  | some regrouped =>
      have ho : (Directed.ofText text).kind ≠ .ordinary := fun ho => by
        rw [regroup?_eq_none_iff.mpr ho] at hr
        cases hr
      simp only [ho, false_and, or_false, gives_bind, gives_pure, gives_regroup hr, Prod.mk.injEq]
      constructor
      · rintro ⟨_, _, ⟨hg, rfl⟩, ⟨rfl, rfl⟩, rfl⟩
        exact ⟨hg, rfl, rfl⟩
      · rintro ⟨hg, rfl, rfl⟩
        exact ⟨_, _, ⟨hg, rfl⟩, ⟨rfl, rfl⟩, rfl⟩
  | none =>
      have ho := regroup?_eq_none_iff.mp hr
      have hg : ¬ Regroups t line l.span gs (Directed.ofText text) gs' := fun hg =>
        hg.not_ordinary ho
      simp only [hg, false_and, false_or, ho, true_and]
      split
      · simp only [gives_bind, gives_pure, Prod.mk.injEq]
        constructor
        · rintro ⟨_, _, hc, ⟨rfl, rfl⟩, rfl⟩
          exact ⟨rfl, hc⟩
        · rintro ⟨rfl, hc⟩
          exact ⟨_, _, hc, ⟨rfl, rfl⟩, rfl⟩
      · simp only [gives_pure, Prod.mk.injEq, and_assoc]

end Preprocess

end ShaderBridge
