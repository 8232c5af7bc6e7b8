import ShaderBridge.Proofs.Parse.Calls
import ShaderBridge.Proofs.Parse.TypeFirst

namespace ShaderBridge

/-- The statements that a statement is made of, those in the body of a `switch` aside. -/
def Stmt.parts : Stmt → List StmtId
  | .block body => body
  | .branch _ _ onTrue onFalse => onTrue :: onFalse.toList
  | .whileLoop _ condition body => [condition, body]
  | .doLoop _ body _ => [body]
  | .forLoop _ start _ _ body => start.toList ++ [body]
  | _ => []

def Stmt.isSwitch : Stmt → Bool
  | .switch .. => true
  | _ => false

namespace Shader

open Parse (labelValue?)

/-! ### Labels and the statements that they stand in -/

section

variable (s : Shader)

/-- A statement is one of a list or stands within one of them, with no `switch` entered on the
way. -/
inductive StandsWithin : List StmtId → StmtId → Prop where
  | here {body : List StmtId} {id : StmtId} : id ∈ body → StandsWithin body id
  | inside {body : List StmtId} {outer id : StmtId} :
      outer ∈ body → StandsWithin (s.stmt outer).parts id → StandsWithin body id

/-- A statement stands in the body of a function, however deep. -/
inductive InFunction : StmtId → Prop where
  | body {f : FuncId} {body : List StmtId} {id : StmtId} :
      (s.func f).body = some body → s.StandsWithin body id → InFunction id
  | switch {id id' : StmtId} {h : FlowHints} {subject : ExprId} {body : List StmtId} :
      InFunction id → s.stmt id = .switch h subject body → s.StandsWithin body id' → InFunction id'

/-- The body of a `switch` in a function. -/
def IsSwitchBody (body : List StmtId) : Prop :=
  ∃ id h subject, s.InFunction id ∧ s.stmt id = .switch h subject body

def IsLabel (id : StmtId) : Prop :=
  ∃ value, s.stmt id = .label value

/-- What a label stands for: `some n` is the integer `n`, and `none` the default. A label whose
value is no literal of type `int` or `uint` does not stand for anything. -/
def labelMeaning? (id : StmtId) : Option (Option Int) :=
  match s.stmt id with
  | .label none => some none
  | .label (some e) => (labelValue? (s.constant? e)).map some
  | _ => none

/-- Every label belongs to a `switch`, and the labels of each `switch` are integers that differ from
one another, with one default at most. -/
structure LabelsLegal : Prop where
  enclosed : ∀ id, s.InFunction id → s.IsLabel id →
    ∃ body, s.IsSwitchBody body ∧ s.StandsWithin body id
  literal : ∀ body, s.IsSwitchBody body → ∀ id, s.StandsWithin body id → s.IsLabel id →
    (s.labelMeaning? id).isSome
  apart : ∀ body, s.IsSwitchBody body → ∀ id id', s.StandsWithin body id → s.StandsWithin body id' →
    id ≠ id' → ∀ m, s.labelMeaning? id = some m → s.labelMeaning? id' ≠ some m

/-- What this asks of the labels that do not stand directly in the body of a `switch`. -/
structure DeepLabelsLegal : Prop where
  enclosed : ∀ id, s.InFunction id → s.IsLabel id → (∀ body, s.IsSwitchBody body → id ∉ body) →
    ∃ body, s.IsSwitchBody body ∧ s.StandsWithin body id
  literal : ∀ body, s.IsSwitchBody body → ∀ id, s.StandsWithin body id → id ∉ body → s.IsLabel id →
    (s.labelMeaning? id).isSome
  apart : ∀ body, s.IsSwitchBody body → ∀ id id', s.StandsWithin body id → id ∉ body →
    s.StandsWithin body id' → id ≠ id' →
    ∀ m, s.labelMeaning? id = some m → s.labelMeaning? id' ≠ some m

/-- The labels among some statements are integers that differ from one another, with one default at
most. -/
structure LabelsApart (body : List StmtId) : Prop where
  literal : ∀ id ∈ body, s.IsLabel id → (s.labelMeaning? id).isSome
  apart : ∀ id ∈ body, ∀ id' ∈ body, id ≠ id' →
    ∀ m, s.labelMeaning? id = some m → s.labelMeaning? id' ≠ some m

/-- The body of every `switch` stands in front of it, and the labels directly in it are legal. -/
def SwitchesChecked : Prop :=
  ∀ id h subject body, s.stmt id = .switch h subject body →
    (∀ u ∈ body, u.index < id.index) ∧ s.LabelsApart body

end

variable {s s' s'' s₀ : Shader} {id u : StmtId} {body : List StmtId}

theorem isLabel_of_labelMeaning? {m : Option Int} (h : s.labelMeaning? id = some m) :
    s.IsLabel id := by
  unfold labelMeaning? at h
  split at h
  · next hlabel => exact ⟨none, hlabel⟩
  · next e hlabel => exact ⟨some e, hlabel⟩
  · cases h

/-! ### Shaders that statements are added to -/

theorem labelValue?_of_size_le {e : ExprId} (h : s.exprs.size ≤ e.index) :
    labelValue? (s.constant? e) = none := by
  unfold constant?
  rw [expr_of_size_le h]
  rfl

theorem index_lt_of_isSwitch (h : (s.stmt id).isSwitch = true) : id.index < s.stmts.size := by
  by_contra hle
  rw [stmt_of_size_le (Nat.not_lt.1 hle)] at h
  cases h

theorem stmt_setStmt_self (s : Shader) (t : Stmt) (h : id.index < s.stmts.size) :
    (s.setStmt id t).stmt id = t := by
  simp [setStmt, stmt, h]

/-- What is an integer literal stays the same one. -/
def KeepsIntegers (s s' : Shader) : Prop :=
  ∀ e n, labelValue? (s.constant? e) = some n → labelValue? (s'.constant? e) = some n

namespace KeepsIntegers

theorem of_grows (h : s.Grows s') : s.KeepsIntegers s' := by
  intro e n he
  have hlt : e.index < s.exprs.size := by
    by_contra hle
    rw [labelValue?_of_size_le (Nat.not_lt.1 hle)] at he
    cases he
  have hexpr := h.expr e hlt
  unfold constant? at he ⊢
  generalize s.expr e = x at he hexpr
  generalize s'.expr e = x' at hexpr ⊢
  cases hexpr with
  | same => exact he
  | construct => cases he
  | aggregate => cases he

theorem labelMeaning? (h : s.KeepsIntegers s') (hstmt : s'.stmt id = s.stmt id)
    (hliteral : s.IsLabel id → (s.labelMeaning? id).isSome) :
    s'.labelMeaning? id = s.labelMeaning? id := by
  unfold Shader.labelMeaning?
  rw [hstmt]
  split
  · rfl
  · next e hlabel =>
      have hsome := hliteral ⟨some e, hlabel⟩
      unfold Shader.labelMeaning? at hsome
      rw [hlabel, Option.isSome_map] at hsome
      obtain ⟨n, hn⟩ := Option.isSome_iff_exists.1 hsome
      rw [hn, h e n hn]
  · rfl

theorem labelsApart (h : s.KeepsIntegers s') (hstmt : ∀ id ∈ body, s'.stmt id = s.stmt id)
    (hbody : s.LabelsApart body) : s'.LabelsApart body := by
  have hlabel {id : StmtId} (hid : id ∈ body) : s'.IsLabel id ↔ s.IsLabel id := by
    unfold IsLabel
    rw [hstmt id hid]
  have hmeaning {id : StmtId} (hid : id ∈ body) : s'.labelMeaning? id = s.labelMeaning? id :=
    h.labelMeaning? (hstmt id hid) (hbody.literal id hid)
  constructor
  · intro id hid hisLabel
    rw [hmeaning hid]
    exact hbody.literal id hid ((hlabel hid).1 hisLabel)
  · intro id hid id' hid' hne m
    rw [hmeaning hid, hmeaning hid']
    exact hbody.apart id hid id' hid' hne m

theorem switchesChecked (h : s.KeepsIntegers s') (hs : s.SwitchesChecked)
    (hswitch : ∀ id, (s'.stmt id).isSwitch = true → s'.stmt id = s.stmt id)
    (hbody : ∀ id h subject body, s.stmt id = .switch h subject body →
      ∀ u ∈ body, s'.stmt u = s.stmt u) : s'.SwitchesChecked := by
  intro id hints subject body hid
  have hold : s.stmt id = .switch hints subject body := by
    rw [← hswitch id (by rw [hid]; rfl), hid]
  obtain ⟨hbefore, hlabels⟩ := hs id hints subject body hold
  exact ⟨hbefore, h.labelsApart (hbody id hints subject body hold) hlabels⟩

end KeepsIntegers

/-- Statements have been added, and the old ones are still there. -/
structure AddsStmts (s s' : Shader) : Prop where
  size : s.stmts.size ≤ s'.stmts.size
  stmt : ∀ id : StmtId, id.index < s.stmts.size → s'.stmt id = s.stmt id
  integers : s.KeepsIntegers s'

namespace AddsStmts

theorem of_eq (hstmts : s'.stmts = s.stmts) (hexprs : s'.exprs = s.exprs) : s.AddsStmts s' where
  size := hstmts ▸ Nat.le_refl _
  stmt id _ := by
    unfold Shader.stmt
    rw [hstmts]
  integers e n h := by
    unfold constant? Shader.expr at h ⊢
    rwa [hexprs]

theorem refl (s : Shader) : s.AddsStmts s :=
  of_eq rfl rfl

theorem trans (h : s.AddsStmts s') (h' : s'.AddsStmts s'') : s.AddsStmts s'' where
  size := Nat.le_trans h.size h'.size
  stmt id hid := (h'.stmt id (Nat.lt_of_lt_of_le hid h.size)).trans (h.stmt id hid)
  integers e n he := h'.integers e n (h.integers e n he)

theorem of_grows (h : s.Grows s') : s.AddsStmts s' where
  size := h.keeps.stmts
  stmt id _ := by
    rw [h.rest]
    rfl
  integers := .of_grows h

theorem addStmt (s : Shader) (t : Stmt) : s.AddsStmts (s.addStmt t).2 where
  size := by simp [Shader.addStmt]
  stmt id hid := by rw [stmt_addStmt, if_neg (Nat.ne_of_lt hid)]
  integers _ _ he := he

theorem stmt_of_mem_body (h : s.AddsStmts s') (hs : s.SwitchesChecked) {hints : FlowHints}
    {subject : ExprId} (hid : s.stmt id = .switch hints subject body) (hu : u ∈ body) :
    s'.stmt u = s.stmt u := by
  have hlt : id.index < s.stmts.size := index_lt_of_isSwitch (by rw [hid]; rfl)
  exact h.stmt u (Nat.lt_trans ((hs id hints subject body hid).1 u hu) hlt)

end AddsStmts

theorem SwitchesChecked.of_stmts_eq (hs : s.SwitchesChecked) (h : s.AddsStmts s')
    (hstmts : s'.stmts = s.stmts) : s'.SwitchesChecked := by
  have hstmt (id : StmtId) : s'.stmt id = s.stmt id := by
    unfold stmt
    rw [hstmts]
  exact h.integers.switchesChecked hs (fun id _ => hstmt id) fun _ _ _ _ _ u _ => hstmt u

theorem SwitchesChecked.addStmt (hs : s.SwitchesChecked) {t : Stmt}
    (ht : ∀ h subject body, t = .switch h subject body →
      (∀ u ∈ body, u.index < s.stmts.size) ∧ s.LabelsApart body) :
    (s.addStmt t).2.SwitchesChecked := by
  have hadds := AddsStmts.addStmt s t
  intro id hints subject body hid
  rw [stmt_addStmt] at hid
  split at hid
  · next hindex =>
      obtain ⟨hbefore, hlabels⟩ := ht hints subject body hid
      have hold (u : StmtId) (hu : u ∈ body) := hadds.stmt u (hbefore u hu)
      exact ⟨hindex ▸ hbefore, hadds.integers.labelsApart hold hlabels⟩
  · obtain ⟨hbefore, hlabels⟩ := hs id hints subject body hid
    have hold (u : StmtId) (hu : u ∈ body) := hadds.stmt_of_mem_body hs hid hu
    exact ⟨hbefore, hadds.integers.labelsApart hold hlabels⟩

/-- Statements have been added, and every `switch` is checked. -/
structure AddsChecked (s s' : Shader) : Prop extends s.AddsStmts s' where
  checked : s'.SwitchesChecked

theorem AddsChecked.grows (h : s₀.AddsChecked s) (hg : s.Grows s') : s₀.AddsChecked s' where
  toAddsStmts := h.toAddsStmts.trans (.of_grows hg)
  checked := h.checked.of_stmts_eq (.of_grows hg) (by rw [hg.rest])

end Shader

namespace Parse

open Shader (AddsStmts AddsChecked)

variable {α : Type} {s₀ : Shader}

/-! ### Labels that are checked -/

/-- What has been seen among the labels of a `switch`. -/
def Labels.Has (labels : Labels) : Option Int → Prop
  | none => labels.hasDefault = true
  | some n => n ∈ labels.values

/-- The labels among the statements found so far have been seen, and differ from one another. -/
structure Seen (s : Shader) (found : List StmtId) (labels : Labels) : Prop where
  seen : ∀ id ∈ found, s.IsLabel id → ∃ m, s.labelMeaning? id = some m ∧ labels.Has m
  apart : ∀ id ∈ found, ∀ id' ∈ found, id ≠ id' →
    ∀ m, s.labelMeaning? id = some m → s.labelMeaning? id' ≠ some m

/-- A statement has been checked. If it is a label, its value has been folded and is new. -/
structure Checked (id : StmtId) (labels : Labels) (s : Shader) (labels' : Labels) (s' : Shader) :
    Prop where
  size : s'.stmts.size = s.stmts.size
  others : ∀ u, u ≠ id → s'.stmt u = s.stmt u
  self : (s'.stmt id).isSwitch = true → s'.stmt id = s.stmt id
  integers : s.KeepsIntegers s'
  fresh : s'.IsLabel id → ∃ m, s'.labelMeaning? id = some m ∧ ¬ labels.Has m ∧ labels'.Has m
  more : ∀ m, labels.Has m → labels'.Has m

section

variable {s s' : Shader} {found : List StmtId} {labels labels' : Labels} {id : StmtId}

theorem Seen.labelsApart (h : Seen s found labels) : s.LabelsApart found where
  literal id hid hlabel := by
    obtain ⟨m, hm, _⟩ := h.seen id hid hlabel
    rw [hm]
    rfl
  apart := h.apart

theorem Seen.has (h : Seen s found labels) (hid : id ∈ found) {m : Option Int}
    (hm : s.labelMeaning? id = some m) : labels.Has m := by
  obtain ⟨m', hm', hseen⟩ := h.seen id hid (Shader.isLabel_of_labelMeaning? hm)
  cases hm.symm.trans hm'
  exact hseen

theorem Seen.adds (h : Seen s found labels) (hadds : s.AddsStmts s')
    (hstmt : ∀ id ∈ found, s'.stmt id = s.stmt id) : Seen s' found labels := by
  have hmeaning {id : StmtId} (hid : id ∈ found) : s'.labelMeaning? id = s.labelMeaning? id :=
    hadds.integers.labelMeaning? (hstmt id hid) (h.labelsApart.literal id hid)
  refine ⟨fun id hid hlabel => ?_, (hadds.integers.labelsApart hstmt h.labelsApart).apart⟩
  rw [hmeaning hid]
  apply h.seen id hid
  unfold Shader.IsLabel at hlabel ⊢
  rwa [hstmt id hid] at hlabel

theorem Seen.cons (h : Seen s found labels)
    (hfresh : s.IsLabel id → ∃ m, s.labelMeaning? id = some m ∧ ¬ labels.Has m ∧ labels'.Has m)
    (hmore : ∀ m, labels.Has m → labels'.Has m) : Seen s (id :: found) labels' := by
  have hnew {m : Option Int} (hm : s.labelMeaning? id = some m) : ¬ labels.Has m := by
    obtain ⟨m', hm', hnot, _⟩ := hfresh (Shader.isLabel_of_labelMeaning? hm)
    cases hm.symm.trans hm'
    exact hnot
  constructor
  · intro u hu hlabel
    rcases List.mem_cons.1 hu with rfl | hu
    · obtain ⟨m, hm, _, hhas⟩ := hfresh hlabel
      exact ⟨m, hm, hhas⟩
    · obtain ⟨m, hm, hhas⟩ := h.seen u hu hlabel
      exact ⟨m, hm, hmore m hhas⟩
  · intro u hu u' hu' hne m hm hm'
    rcases List.mem_cons.1 hu with rfl | hold
    · rcases List.mem_cons.1 hu' with rfl | hu'
      · exact hne rfl
      · exact hnew hm (h.has hu' hm')
    · rcases List.mem_cons.1 hu' with rfl | hu'
      · exact hnew hm' (h.has hold hm)
      · exact h.apart u hold u' hu' hne m hm hm'

theorem Checked.refl (hlabel : ¬ s.IsLabel id) (labels : Labels) :
    Checked id labels s labels s where
  size := rfl
  others _ _ := rfl
  self _ := rfl
  integers _ _ h := h
  fresh h := absurd h hlabel
  more _ h := h

theorem Labels.Has.cons {m : Option Int} (h : labels.Has m) (n : Int) :
    Labels.Has { labels with values := n :: labels.values } m := by
  cases m with
  | none => exact h
  | some k => exact List.mem_cons_of_mem n h

theorem Labels.Has.withDefault {m : Option Int} (h : labels.Has m) :
    Labels.Has { labels with hasDefault := true } m := by
  cases m with
  | none => rfl
  | some k => exact h

theorem checked_case {value value' : ExprId} {n : Int} (hlabel : s.stmt id = .label (some value))
    (hgrows : s.Grows s') (hn : labelValue? (s'.constant? value') = some n)
    (hnot : n ∉ labels.values) :
    Checked id labels s { labels with values := n :: labels.values }
      (s'.setStmt id (.label (some value'))) := by
  have hsize : s'.stmts.size = s.stmts.size := by rw [hgrows.rest]
  have hlt : id.index < s'.stmts.size := by
    rw [hsize]
    by_contra hle
    rw [Shader.stmt_of_size_le (Nat.not_lt.1 hle)] at hlabel
    cases hlabel
  have hself := Shader.stmt_setStmt_self s' (.label (some value')) hlt
  have hintegers := Shader.KeepsIntegers.of_grows hgrows
  constructor
  case size => simp [Shader.setStmt, hsize]
  case others =>
    intro u hu
    rw [Shader.stmt_setStmt_of_ne _ _ hu, hgrows.rest]
    rfl
  case self =>
    rw [hself]
    exact fun h => Bool.noConfusion h
  case integers => exact hintegers
  case fresh =>
    refine fun _ => ⟨some n, ?_, hnot, List.mem_cons_self⟩
    unfold Shader.labelMeaning?
    rw [hself]
    exact congrArg (Option.map some) hn
  case more => exact fun m hm => hm.cons n

theorem checked_default (hlabel : s.stmt id = .label none) (hnot : ¬ labels.hasDefault = true) :
    Checked id labels s { labels with hasDefault := true } s where
  size := rfl
  others _ _ := rfl
  self _ := rfl
  integers _ _ h := h
  fresh _ := by
    refine ⟨none, ?_, hnot, rfl⟩
    unfold Shader.labelMeaning?
    rw [hlabel]
  more _ h := h.withDefault

theorem checked_checkLabel (place : Span) (id : StmtId) (labels : Labels) (s : Shader) :
    Leads (fun st => st.shader = s) (checkLabel place id labels)
      fun labels' st => Checked id labels s labels' st.shader := by
  refine leads_bind_look reads_shader fun t => ?_
  refine leads_imp (P := fun st => st.shader = s ∧ s = t) ?_ fun st h => ?_
  · refine leads_of_and fun hst => ?_
    subst hst
    split
    · next value hlabel =>
        refine leads_bind_read (reads_isConstant _) fun constant => ?_
        refine leads_ite (fun _ => ?_) fun _ => leads_failAt_bind _ _ _
        refine leads_bind (Q := fun _ st => s.Grows st.shader) ?_ fun value' => ?_
        · rintro st value' st' rfl hrun
          exact ExpressionFrame.evaluate (R := Growing) value st value' st' hrun
        refine leads_bind_look reads_shader fun t => ?_
        split
        · exact leads_failAt _ _
        · next n hn =>
            refine leads_ite (fun _ => leads_failAt_bind _ _ _) fun hnot => ?_
            rintro st _ st' ⟨hgrows, hlook⟩ hrun
            cases hlook
            cases hrun
            exact checked_case hlabel hgrows hn (by simpa using hnot)
    · next hlabel =>
        refine leads_ite (fun _ => leads_failAt_bind _ _ _) fun hnot => leads_pure fun st hst => ?_
        subst hst
        exact checked_default hlabel hnot
    · next hvalue hdefault =>
        refine leads_pure fun st hst => hst ▸ Checked.refl ?_ labels
        rintro ⟨value, hlabel⟩
        cases value with
        | none => exact hdefault (hst ▸ hlabel)
        | some e => exact hvalue e (hst ▸ hlabel)
  · obtain ⟨hst, hlook⟩ := h
    cases hlook
    exact ⟨hst, hst.symm⟩

end

/-! ### Rules -/

/-- The newest statement, where statements have been added and every `switch` is checked. -/
structure Newest (s₀ : Shader) (id : StmtId) (s : Shader) : Prop extends s₀.AddsChecked s where
  added : s₀.stmts.size ≤ id.index
  last : id.index + 1 = s.stmts.size

theorem addsChecked_of_grows {m : ParseM α} (hm : Along Growing m) :
    Leads (fun st => s₀.AddsChecked st.shader) m fun _ st => s₀.AddsChecked st.shader := by
  intro st a st' h hrun
  exact h.grows (hm st a st' hrun)

theorem newest_of_grows {m : ParseM α} (hm : Along Growing m) {id : StmtId} :
    Leads (fun st => Newest s₀ id st.shader) m fun _ st => Newest s₀ id st.shader := by
  intro st a st' h hrun
  have hgrows : st.shader.Grows st'.shader := hm st a st' hrun
  exact ⟨h.toAddsChecked.grows hgrows, h.added, by rw [hgrows.rest]; exact h.last⟩

theorem newest_addStmt_of_checked (t : Stmt) :
    Leads (fun st => s₀.AddsChecked st.shader ∧ ∀ h subject body, t = .switch h subject body →
      (∀ u ∈ body, u.index < st.shader.stmts.size) ∧ st.shader.LabelsApart body) (addStmt t)
      fun id st => Newest s₀ id st.shader := by
  rintro st id st' ⟨h, ht⟩ hrun
  cases hrun
  exact ⟨⟨h.toAddsStmts.trans (.addStmt st.shader t), h.checked.addStmt ht⟩, h.size,
    (Array.size_push _).symm⟩

theorem newest_addStmt {t : Stmt} (ht : t.isSwitch = false) :
    Leads (fun st => s₀.AddsChecked st.shader) (addStmt t) fun id st => Newest s₀ id st.shader := by
  refine leads_imp (newest_addStmt_of_checked t) fun st h => ⟨h, ?_⟩
  rintro hints subject body rfl
  cases ht

theorem addsChecked_openScope :
    Leads (fun st => s₀.AddsChecked st.shader) openScope fun _ st => s₀.AddsChecked st.shader := by
  intro st a st' h hrun
  cases hrun
  exact h

theorem addsChecked_closeScope :
    Leads (fun st => s₀.AddsChecked st.shader) closeScope fun _ st => s₀.AddsChecked st.shader := by
  intro st a st' h hrun
  cases hrun
  exact h

theorem newest_localDeclaration? (ends : List Punct) :
    Leads (fun st => s₀.AddsChecked st.shader) (localDeclaration? ends) fun r st =>
      r.elim (s₀.AddsChecked st.shader) (Newest s₀ · st.shader) := by
  refine leads_attempt (pushes_qualifiedDeclaration? ends) (N := fun st => s₀.AddsChecked st.shader)
    (Q := fun id st => Newest s₀ id st.shader) fun st₀ h₀ => ?_
  -- Behind the mark of the attempt only expressions and variables are added.
  refine leads_imp (P := fun st => st₀.shader.Grows st.shader) ?_ fun st h => h ▸ .refl _
  have hgrowing {β : Type} {m : ParseM β} (hm : Along Growing m) :
      Leads (fun st => st₀.shader.Grows st.shader) m fun _ st => st₀.shader.Grows st.shader :=
    fun st a st' h hrun => h.trans (hm st a st' hrun)
  refine leads_bind_read (reads_atKeyword? _) fun constant => ?_
  extract_lets typed qualified
  have htyped (precision : Option Precision) :
      Leads (fun st => st₀.shader.Grows st.shader) (typed precision) fun r st =>
        r.elim (s₀.AddsChecked (st.shader.truncate st₀.shader.exprs.size st₀.shader.vars.size))
          (Newest s₀ · st.shader) := by
    refine leads_bind_read (reads_typeName? _) fun type => ?_
    cases type with
    | none => exact leads_pure fun st h => h₀.grows h.truncate
    | some type =>
        refine leads_bind (hgrowing Frame.advance) fun _ => ?_
        refine leads_bind (hgrowing along_dimensions) fun dims => ?_
        refine leads_bind (hgrowing (along_localVariables? _ ends)) fun vars => ?_
        cases vars with
        | none => exact leads_pure fun st h => h₀.grows h.truncate
        | some vars =>
            refine leads_imp ?_ fun st h => h₀.grows h
            exact leads_bind (newest_addStmt rfl) fun id => leads_pure fun st h => h
  have hqualified : Leads (fun st => st₀.shader.Grows st.shader) (qualified ()) fun r st =>
      r.elim (s₀.AddsChecked (st.shader.truncate st₀.shader.exprs.size st₀.shader.vars.size))
        (Newest s₀ · st.shader) := by
    refine leads_bind_read reads_peek fun kind => ?_
    split
    · exact leads_bind (hgrowing Frame.advance) fun _ => htyped _
    · exact htyped none
  exact leads_ite (fun _ => leads_bind (hgrowing Frame.advance) fun _ => hqualified)
    fun _ => hqualified

theorem newest_declarationOrExpression (ends : List Punct) :
    Leads (fun st => s₀.AddsChecked st.shader) (declarationOrExpression ends)
      fun id st => Newest s₀ id st.shader := by
  refine leads_bind (newest_localDeclaration? ends) fun found => ?_
  cases found with
  | some id => exact leads_pure fun st h => h
  | none =>
      exact leads_bind (addsChecked_of_grows (along_expression ends)) fun _ => newest_addStmt rfl

theorem newest_jump {t : Stmt} (ht : t.isSwitch = false) (name : String) :
    Leads (fun st => s₀.AddsChecked st.shader) (jump t name)
      fun id st => Newest s₀ id st.shader := by
  refine leads_bind (addsChecked_of_grows Frame.advance) fun _ => ?_
  exact leads_bind (addsChecked_of_grows (along_expect _ _)) fun _ => newest_addStmt ht

theorem newest_returnStatement :
    Leads (fun st => s₀.AddsChecked st.shader) returnStatement
      fun id st => Newest s₀ id st.shader := by
  refine leads_bind (addsChecked_of_grows Frame.advance) fun _ => ?_
  refine leads_bind (addsChecked_of_grows (along_optionalExpression _)) fun value => ?_
  exact leads_bind (addsChecked_of_grows (along_expect _ _)) fun _ => newest_addStmt rfl

theorem newest_defaultLabel :
    Leads (fun st => s₀.AddsChecked st.shader) defaultLabel
      fun id st => Newest s₀ id st.shader := by
  refine leads_bind (addsChecked_of_grows Frame.advance) fun _ => ?_
  exact leads_bind (addsChecked_of_grows (along_expect _ _)) fun _ => newest_addStmt rfl

theorem newest_caseLabel :
    Leads (fun st => s₀.AddsChecked st.shader) caseLabel fun id st => Newest s₀ id st.shader := by
  refine leads_bind (addsChecked_of_grows Frame.advance) fun _ => ?_
  refine leads_bind (addsChecked_of_grows (along_expression _)) fun value => ?_
  exact leads_bind (addsChecked_of_grows (along_expect _ _)) fun _ => newest_addStmt rfl

/-- The statements found so far in the body of a `switch`, and what has been seen among their
labels. -/
structure InBody (s₀ : Shader) (found : List StmtId) (labels : Labels) (s : Shader) : Prop
    extends s₀.AddsChecked s where
  seen : Seen s found labels
  index_lt : ∀ u ∈ found, u.index < s.stmts.size

theorem InBody.nil {s : Shader} (h : s₀.AddsChecked s) : InBody s₀ [] {} s where
  toAddsChecked := h
  seen := ⟨fun _ hid => absurd hid List.not_mem_nil, fun _ hid => absurd hid List.not_mem_nil⟩
  index_lt _ hid := absurd hid List.not_mem_nil

theorem InBody.reverse {s : Shader} {found : List StmtId} {labels : Labels}
    (h : InBody s₀ found labels s) : InBody s₀ found.reverse labels s where
  toAddsChecked := h.toAddsChecked
  seen := ⟨fun id hid => h.seen.seen id (List.mem_reverse.1 hid), fun id hid id' hid' =>
    h.seen.apart id (List.mem_reverse.1 hid) id' (List.mem_reverse.1 hid')⟩
  index_lt id hid := h.index_lt id (List.mem_reverse.1 hid)

theorem InBody.cons {s s₁ s₂ : Shader} {found : List StmtId} {labels labels' : Labels} {id : StmtId}
    (h : InBody s₀ found labels s) (hnew : Newest s id s₁)
    (hcheck : Checked id labels s₁ labels' s₂) : InBody s₀ (id :: found) labels' s₂ := by
  have hold {u : StmtId} (hu : u.index < s.stmts.size) : s₂.stmt u = s.stmt u := by
    have hne : u ≠ id := by
      rintro rfl
      exact absurd hu (Nat.not_lt.2 hnew.added)
    rw [hcheck.others u hne, hnew.stmt u hu]
  have hsize : s.stmts.size ≤ s₂.stmts.size := hcheck.size ▸ hnew.size
  have hadds : s.AddsStmts s₂ :=
    ⟨hsize, fun u hu => hold hu, fun e n he => hcheck.integers e n (hnew.integers e n he)⟩
  -- No `switch` stands behind the newest statement, which is therefore in no body.
  have hbody (sw : StmtId) (hints : FlowHints) (subject : ExprId) (body : List StmtId)
      (hsw : s₁.stmt sw = .switch hints subject body) (u : StmtId) (hu : u ∈ body) :
      s₂.stmt u = s₁.stmt u := by
    apply hcheck.others
    rintro rfl
    have hlt : sw.index < s₁.stmts.size := Shader.index_lt_of_isSwitch (by rw [hsw]; rfl)
    have hbefore := (hnew.checked sw hints subject body hsw).1 u hu
    have hlast := hnew.last
    omega
  have hswitch (sw : StmtId) (hsw : (s₂.stmt sw).isSwitch = true) : s₂.stmt sw = s₁.stmt sw := by
    by_cases heq : sw = id
    · subst heq
      exact hcheck.self hsw
    · exact hcheck.others sw heq
  refine ⟨⟨h.toAddsStmts.trans hadds,
    hcheck.integers.switchesChecked hnew.checked hswitch hbody⟩, ?_, ?_⟩
  · exact (h.seen.adds hadds fun u hu => hold (h.index_lt u hu)).cons hcheck.fresh hcheck.more
  · intro u hu
    rw [hcheck.size]
    rcases List.mem_cons.1 hu with rfl | hu
    · exact Nat.lt_of_succ_le hnew.last.le
    · exact Nat.lt_of_lt_of_le (h.index_lt u hu) hnew.size

theorem inBody_of_grows {m : ParseM α} (hm : Along Growing m) (found : List StmtId)
    (labels : Labels) :
    Leads (fun st => InBody s₀ found labels st.shader) m
      fun _ st => InBody s₀ found labels st.shader := by
  intro st a st' h hrun
  have hadds := AddsStmts.of_grows (hm st a st' hrun)
  exact ⟨h.toAddsChecked.grows (hm st a st' hrun),
    h.seen.adds hadds fun u hu => hadds.stmt u (h.index_lt u hu),
    fun u hu => Nat.lt_of_lt_of_le (h.index_lt u hu) hadds.size⟩

mutual

theorem newest_statementWithin : ∀ (fuel : Nat) (s₀ : Shader),
    Leads (fun st => s₀.AddsChecked st.shader) (statementWithin fuel)
      fun id st => Newest s₀ id st.shader
  | 0, _ => leads_unfinished
  | fuel + 1, s₀ => by
    refine leads_bind (addsChecked_of_grows along_hints) fun h => ?_
    refine leads_bind_read reads_peek fun kind => ?_
    split
    · refine leads_bind addsChecked_openScope fun _ => ?_
      refine leads_bind (addsChecked_bodyWithin fuel s₀) fun body => ?_
      exact leads_bind addsChecked_closeScope fun _ => newest_addStmt rfl
    · exact leads_bind (addsChecked_of_grows Frame.advance) fun _ => newest_addStmt rfl
    · exact newest_branchWithin fuel h s₀
    · exact newest_switchWithin fuel h s₀
    · exact newest_caseLabel
    · exact newest_defaultLabel
    · refine leads_bind addsChecked_openScope fun _ => ?_
      refine leads_bind (addsChecked_forWithin fuel h s₀) fun loop => ?_
      refine leads_of_and fun hloop => ?_
      exact leads_bind addsChecked_closeScope fun _ => newest_addStmt hloop
    · exact newest_doWithin fuel h s₀
    · exact newest_whileWithin fuel h s₀
    · exact newest_jump rfl _
    · exact newest_jump rfl _
    · exact newest_jump rfl _
    · exact newest_jump rfl _
    · exact newest_returnStatement
    · refine leads_bind (newest_declarationOrExpression _) fun id => ?_
      exact leads_bind (newest_of_grows (along_expect _ _)) fun _ => leads_pure fun st h => h

theorem addsChecked_bodyWithin : ∀ (fuel : Nat) (s₀ : Shader),
    Leads (fun st => s₀.AddsChecked st.shader) (bodyWithin fuel)
      fun _ st => s₀.AddsChecked st.shader
  | 0, _ => leads_unfinished
  | fuel + 1, s₀ => by
    refine leads_bind (addsChecked_of_grows Frame.advance) fun _ => ?_
    refine leads_repeatSteps (I := fun _ st => s₀.AddsChecked st.shader) (fun found => ?_) []
    refine leads_bind (addsChecked_of_grows (along_take? _)) fun closed => ?_
    refine leads_ite (fun _ => leads_pure fun st h => h) fun _ => ?_
    refine leads_bind_read reads_atEnd fun ended => ?_
    refine leads_ite (fun _ => leads_fail_bind _ _) fun _ => ?_
    exact leads_bind (newest_statementWithin fuel s₀) fun id =>
      leads_pure fun st h => h.toAddsChecked

theorem newest_branchWithin : ∀ (fuel : Nat) (h : FlowHints) (s₀ : Shader),
    Leads (fun st => s₀.AddsChecked st.shader) (branchWithin fuel h)
      fun id st => Newest s₀ id st.shader
  | 0, _, _ => leads_unfinished
  | fuel + 1, h, s₀ => by
    refine leads_bind (addsChecked_of_grows Frame.advance) fun _ => ?_
    refine leads_bind (addsChecked_of_grows (along_condition _ _)) fun condition => ?_
    refine leads_bind (newest_statementWithin fuel s₀) fun onTrue => ?_
    refine leads_imp (P := fun st => s₀.AddsChecked st.shader) ?_ fun st h => h.toAddsChecked
    refine leads_bind_read (reads_atKeyword? _) fun more => ?_
    refine leads_ite (fun _ => ?_) fun _ => newest_addStmt rfl
    refine leads_bind (addsChecked_of_grows Frame.advance) fun _ => ?_
    refine leads_bind (Q := fun _ st => s₀.AddsChecked st.shader) ?_ fun onFalse =>
      newest_addStmt rfl
    exact leads_map some (leads_weaken (newest_statementWithin fuel s₀)
      fun id st h => h.toAddsChecked)

theorem newest_switchWithin : ∀ (fuel : Nat) (h : FlowHints) (s₀ : Shader),
    Leads (fun st => s₀.AddsChecked st.shader) (switchWithin fuel h)
      fun id st => Newest s₀ id st.shader
  | 0, _, _ => leads_unfinished
  | fuel + 1, h, s₀ => by
    refine leads_bind (addsChecked_of_grows Frame.advance) fun _ => ?_
    refine leads_bind (addsChecked_of_grows (along_condition _ _)) fun subject => ?_
    refine leads_bind (addsChecked_of_grows (along_expect _ _)) fun _ => ?_
    refine leads_bind addsChecked_openScope fun _ => ?_
    refine leads_bind (Q := fun body st => ∃ labels, InBody s₀ body labels st.shader) ?_
      fun body => ?_
    · refine leads_imp (P := fun st => InBody s₀ [] {} st.shader) ?_ fun st h => .nil h
      refine leads_repeatSteps (I := fun r : List StmtId × Labels => fun st =>
        InBody s₀ r.1 r.2 st.shader) ?_ ([], {})
      rintro ⟨found, labels⟩
      refine leads_bind (inBody_of_grows (along_take? _) found labels) fun closed => ?_
      refine leads_ite (fun _ => leads_pure fun st h => ⟨labels, h.reverse⟩) fun _ => ?_
      refine leads_bind_read reads_atEnd fun ended => ?_
      refine leads_ite (fun _ => leads_fail_bind _ _) fun _ => ?_
      refine leads_bind_read reads_span fun place => ?_
      -- What the statement adds is told from what was there before it.
      intro st next st' h hrun
      obtain ⟨id, st₁, hstatement, hrun⟩ := run_bind_ok.1 hrun
      obtain ⟨labels', st₂, hcheck, hrun⟩ := run_bind_ok.1 hrun
      cases hrun
      have hnew := newest_statementWithin fuel st.shader st id st₁ ⟨.refl _, h.checked⟩ hstatement
      exact h.cons hnew (checked_checkLabel place id labels st₁.shader st₁ labels' _ rfl hcheck)
    · refine leads_bind (Q := fun _ st => ∃ labels, InBody s₀ body labels st.shader) ?_ fun _ => ?_
      · intro st a st' h hrun
        cases hrun
        exact h
      · refine leads_imp (newest_addStmt_of_checked _) ?_
        rintro st ⟨labels, h⟩
        refine ⟨h.toAddsChecked, ?_⟩
        rintro _ _ _ ⟨rfl, rfl, rfl⟩
        exact ⟨h.index_lt, h.seen.labelsApart⟩

theorem addsChecked_forWithin : ∀ (fuel : Nat) (h : FlowHints) (s₀ : Shader),
    Leads (fun st => s₀.AddsChecked st.shader) (forWithin fuel h)
      fun loop st => s₀.AddsChecked st.shader ∧ loop.isSwitch = false
  | 0, _, _ => leads_unfinished
  | fuel + 1, h, s₀ => by
    refine leads_bind (addsChecked_of_grows Frame.advance) fun _ => ?_
    refine leads_bind (addsChecked_of_grows (along_expect _ _)) fun _ => ?_
    have hrest (start : Option StmtId) :
        Leads (fun st => s₀.AddsChecked st.shader) (do
          expect .semicolon .forStart
          let condition ← optionalExpression .semicolon
          expect .semicolon .forCondition
          let step ← optionalExpression .rightParen
          expect .rightParen .forClose
          return Stmt.forLoop h start condition step (← statementWithin fuel))
          fun loop st => s₀.AddsChecked st.shader ∧ loop.isSwitch = false := by
      refine leads_bind (addsChecked_of_grows (along_expect _ _)) fun _ => ?_
      refine leads_bind (addsChecked_of_grows (along_optionalExpression _)) fun condition => ?_
      refine leads_bind (addsChecked_of_grows (along_expect _ _)) fun _ => ?_
      refine leads_bind (addsChecked_of_grows (along_optionalExpression _)) fun step => ?_
      refine leads_bind (addsChecked_of_grows (along_expect _ _)) fun _ => ?_
      refine leads_bind (newest_statementWithin fuel s₀) fun body => ?_
      exact leads_pure fun st h => ⟨h.toAddsChecked, rfl⟩
    refine leads_bind_read (reads_at? _) fun ended => ?_
    refine leads_ite (fun _ => hrest none) fun _ => ?_
    refine leads_bind (Q := fun _ st => s₀.AddsChecked st.shader) ?_ hrest
    exact leads_map some (leads_weaken (newest_declarationOrExpression _)
      fun id st h => h.toAddsChecked)

theorem newest_doWithin : ∀ (fuel : Nat) (h : FlowHints) (s₀ : Shader),
    Leads (fun st => s₀.AddsChecked st.shader) (doWithin fuel h)
      fun id st => Newest s₀ id st.shader
  | 0, _, _ => leads_unfinished
  | fuel + 1, h, s₀ => by
    refine leads_bind (addsChecked_of_grows Frame.advance) fun _ => ?_
    refine leads_bind (newest_statementWithin fuel s₀) fun body => ?_
    refine leads_imp (P := fun st => s₀.AddsChecked st.shader) ?_ fun st h => h.toAddsChecked
    refine leads_bind_read (reads_atKeyword? _) fun found => ?_
    refine leads_ite (fun _ => ?_) fun _ => leads_fail_bind _ _
    refine leads_bind (addsChecked_of_grows Frame.advance) fun _ => ?_
    refine leads_bind (addsChecked_of_grows (along_condition _ _)) fun condition => ?_
    exact leads_bind (addsChecked_of_grows (along_expect _ _)) fun _ => newest_addStmt rfl

theorem newest_whileWithin : ∀ (fuel : Nat) (h : FlowHints) (s₀ : Shader),
    Leads (fun st => s₀.AddsChecked st.shader) (whileWithin fuel h)
      fun id st => Newest s₀ id st.shader
  | 0, _, _ => leads_unfinished
  | fuel + 1, h, s₀ => by
    refine leads_bind (addsChecked_of_grows Frame.advance) fun _ => ?_
    refine leads_bind (addsChecked_of_grows (along_expect _ _)) fun _ => ?_
    refine leads_bind (newest_declarationOrExpression _) fun condition => ?_
    refine leads_imp (P := fun st => s₀.AddsChecked st.shader) ?_ fun st h => h.toAddsChecked
    refine leads_bind (addsChecked_of_grows (along_expect _ _)) fun _ => ?_
    refine leads_bind (newest_statementWithin fuel s₀) fun body => ?_
    exact leads_imp (newest_addStmt rfl) fun st h => h.toAddsChecked

end

/-! ### Whole texts -/

/-- If every `switch` is checked before, so it is afterwards. -/
def StaysChecked (st st' : ParserState) : Prop :=
  st.shader.SwitchesChecked → st'.shader.SwitchesChecked

theorem staysChecked_of_growing {m : ParseM α} (hm : Along Growing m) : Along StaysChecked m := by
  intro st a st' h hs
  have hgrows : st.shader.Grows st'.shader := hm st a st' h
  exact hs.of_stmts_eq (.of_grows hgrows) (by rw [hgrows.rest])

theorem staysChecked_same {st st' : ParserState} (hstmts : st'.shader.stmts = st.shader.stmts)
    (hexprs : st'.shader.exprs = st.shader.exprs) : StaysChecked st st' :=
  fun hs => hs.of_stmts_eq (.of_eq hstmts hexprs) hstmts

instance : Frame StaysChecked where
  refl _ := fun h => h
  trans h h' := fun hs => h' (h hs)
  advance := staysChecked_of_growing Frame.advance

instance structureFrame_staysChecked : StructureFrame StaysChecked where
  addExpr e he := staysChecked_of_growing (ExpressionFrame.addExpr e he)
  variableNamed name st _ :=
    along_variableNamed_of (fun v => staysChecked_of_growing (growing_addExpr (.var v))) name st
  evaluate id := staysChecked_of_growing (ExpressionFrame.evaluate id)
  addCall name args := staysChecked_of_growing (ExpressionFrame.addCall name args)
  addVar v := staysChecked_of_growing (VariableFrame.addVar v)
  declare id := staysChecked_of_growing (LocalFrame.declare id)
  setFlags id f := by
    intro st a st' h
    cases h
    exact staysChecked_same rfl rfl
  addGlobal v := by
    intro st a st' h
    obtain ⟨var, st₁, hvar, h⟩ := run_bind_ok.1 h
    cases hvar
    cases h
    dsimp only
    split <;> exact staysChecked_same rfl rfl
  addStructure name fields := by
    intro st a st' h
    cases h
    cases name <;> exact staysChecked_same rfl rfl
  addBlock name fields block := by
    intro st a st' h
    cases h
    exact staysChecked_same rfl rfl

theorem staysChecked_functionBody (params : List VarId) :
    Along StaysChecked (functionBody params) := by
  refine along_bind_read (reads_at? _) fun opened => along_ite ?_ ?_
  · have hscope {m : ParseM Unit} (hm : ∀ st st', m.run st = .ok ((), st') →
        st'.shader = st.shader) : Along StaysChecked m := by
      intro st a st' h
      rw [StaysChecked, hm st st' h]
      exact fun hs => hs
    refine along_bind (hscope fun st st' h => by cases h; rfl) fun _ => ?_
    refine along_bind (along_forM LocalFrame.declare params) fun _ => ?_
    refine along_bind_read reads_fuel fun fuel => along_bind ?_ fun body => ?_
    · intro st a st' h hs
      exact (addsChecked_bodyWithin fuel st.shader st a st' ⟨.refl _, hs⟩ h).checked
    · exact along_bind (hscope fun st st' h => by cases h; rfl) fun _ => along_pure _
  · refine along_bind (along_take? _) fun ended => along_ite (along_pure none) ?_
    exact along_fail_bind _ _

theorem staysChecked_function (type : TypeRef) (name : String) :
    Along StaysChecked (function type name) := by
  refine along_function_of_body type name staysChecked_functionBody fun f => ?_
  intro st a st' h
  cases h
  exact staysChecked_same rfl rfl

theorem staysChecked_source (tokens : List Token) : Along StaysChecked (source tokens) :=
  along_source staysChecked_function (fun _ _ _ _ => staysChecked_same rfl rfl) tokens

theorem staysChecked_prelude (stage : Stage) (prototypes : List Token) :
    Along StaysChecked (prelude stage prototypes) :=
  along_bind (along_forM along_declareHidden _) fun _ => staysChecked_source prototypes

end Parse

namespace Shader

variable {s : Shader}

theorem switchesChecked_initial (stage : Stage) : ({ stage } : Shader).SwitchesChecked := by
  intro id h subject body hid
  rw [stmt_of_size_le (Nat.zero_le _)] at hid
  cases hid

theorem addsStmts_bindCalls (s : Shader) (calls : List ExprId) :
    s.AddsStmts (s.bindCalls calls) := by
  obtain ⟨exprs, hrest⟩ := sameRest_bindCalls s calls
  refine ⟨by rw [hrest], fun id _ => by rw [hrest]; rfl, fun e n he => ?_⟩
  have hrebinds := rebinds_bindCalls s calls e
  unfold constant? at he ⊢
  generalize s.expr e = x at he hrebinds
  generalize (s.bindCalls calls).expr e = x' at hrebinds ⊢
  cases hrebinds with
  | same => exact he
  | call => cases he

theorem Accepted.switchesChecked (h : s.Accepted) : s.SwitchesChecked := by
  obtain ⟨prototypes, stage, tokens, hshader⟩ := h
  obtain ⟨st, hrun, rfl⟩ := Parse.exists_run_of_shaderWith hshader
  have hchecked : st.shader.SwitchesChecked :=
    Parse.along_bind (R := Parse.StaysChecked) (Parse.staysChecked_prelude stage prototypes)
      (fun _ => Parse.staysChecked_source tokens) _ _ _ hrun (switchesChecked_initial stage)
  obtain ⟨funcs, hlink, _⟩ := linkPrototypes_eq st.shader
  have hlinked : st.shader.linkPrototypes.SwitchesChecked := by
    rw [hlink]
    exact hchecked.of_stmts_eq (.of_eq rfl rfl) rfl
  obtain ⟨exprs, hrest⟩ := sameRest_bindCalls st.shader.linkPrototypes st.calls.reverse
  exact hlinked.of_stmts_eq (addsStmts_bindCalls _ _) (by rw [hrest])

/-- The labels that stand directly in the body of a `switch` are legal. So all labels of a shader
are legal as soon as those are that stand elsewhere. -/
theorem Accepted.labelsLegal_iff (h : s.Accepted) :
    (∀ body, s.IsSwitchBody body → s.LabelsApart body) ∧ (s.LabelsLegal ↔ s.DeepLabelsLegal) := by
  have hdirect (body : List StmtId) (hbody : s.IsSwitchBody body) : s.LabelsApart body := by
    obtain ⟨id, hints, subject, _, hid⟩ := hbody
    exact (h.switchesChecked id hints subject body hid).2
  refine ⟨hdirect, fun hlegal => ?_, fun hdeep => ?_⟩
  · exact ⟨fun id hid hlabel _ => hlegal.enclosed id hid hlabel,
      fun body hbody id hid _ => hlegal.literal body hbody id hid,
      fun body hbody id id' hid _ => hlegal.apart body hbody id id' hid⟩
  · refine ⟨fun id hid hlabel => ?_, fun body hbody id hid hlabel => ?_,
      fun body hbody id id' hid hid' hne m hm => ?_⟩
    · by_cases hmem : ∃ body, s.IsSwitchBody body ∧ id ∈ body
      · obtain ⟨body, hbody, hmem⟩ := hmem
        exact ⟨body, hbody, .here hmem⟩
      · exact hdeep.enclosed id hid hlabel fun body hbody hin => hmem ⟨body, hbody, hin⟩
    · by_cases hmem : id ∈ body
      · exact (hdirect body hbody).literal id hmem hlabel
      · exact hdeep.literal body hbody id hid hmem hlabel
    · by_cases hmem : id ∈ body
      · by_cases hmem' : id' ∈ body
        · exact (hdirect body hbody).apart id hmem id' hmem' hne m hm
        · exact fun hm' => hdeep.apart body hbody id' id hid' hmem' hid hne.symm m hm' hm
      · exact hdeep.apart body hbody id id' hid hmem hid' hne m hm

/-- The tokens of `void f(int x) { switch (x) {` with the given ones in front of the braces that
close. -/
def switchOver (labels : List TokenKind) : List TokenKind :=
  [.keyword (.type .void), .ident "f", .punct .leftParen, .keyword (.type (.scalar .int)),
    .ident "x", .punct .rightParen, .punct .leftBrace, .keyword (.word .switch), .punct .leftParen,
    .ident "x", .punct .rightParen, .punct .leftBrace] ++ labels ++
  [.punct .rightBrace, .punct .rightBrace, .endOfFile]

/-- The labels of `switch (x) { case 1: { ; } case 1 + 1: default: ; }` are legal. -/
theorem exists_labelsLegal :
    ∃ s : Shader, s.Accepted ∧ s.IsSwitchBody [⟨0⟩, ⟨2⟩, ⟨3⟩, ⟨4⟩, ⟨5⟩] ∧
      [⟨0⟩, ⟨3⟩, ⟨4⟩].map s.labelMeaning? = [some (some 1), some (some 2), some none] ∧
      s.LabelsLegal := by
  obtain ⟨s, hs, hfacts⟩ := Parse.exists_accepted
    (f := fun s => (s.stmts, (s.func ⟨0⟩).body, [⟨0⟩, ⟨3⟩, ⟨4⟩].map s.labelMeaning?))
    (show (Parse.plainShader? .fragment (switchOver
        [.keyword (.word .caseLabel), .number (.int 1), .punct .colon, .punct .leftBrace,
          .punct .semicolon, .punct .rightBrace, .keyword (.word .caseLabel), .number (.int 1),
          .punct .plus, .number (.int 1), .punct .colon, .keyword (.word .defaultLabel),
          .punct .colon, .punct .semicolon])).map _ =
      some (#[.label (some ⟨17⟩), .empty, .block [⟨1⟩], .label (some ⟨21⟩), .label none, .empty,
        .switch {} ⟨16⟩ [⟨0⟩, ⟨2⟩, ⟨3⟩, ⟨4⟩, ⟨5⟩]], some [⟨6⟩],
        [some (some 1), some (some 2), some none]) by decide +kernel)
  simp only [Prod.mk.injEq] at hfacts
  obtain ⟨hstmts, hbody, hmeanings⟩ := hfacts
  have hswitch : s.IsSwitchBody [⟨0⟩, ⟨2⟩, ⟨3⟩, ⟨4⟩, ⟨5⟩] :=
    ⟨⟨6⟩, {}, ⟨16⟩, .body hbody (.here List.mem_cons_self), by rw [stmt, hstmts]; rfl⟩
  have honly {body : List StmtId} (h : s.IsSwitchBody body) :
      body = [⟨0⟩, ⟨2⟩, ⟨3⟩, ⟨4⟩, ⟨5⟩] := by
    obtain ⟨⟨i⟩, hints, subject, _, hi⟩ := h
    rw [stmt, hstmts] at hi
    rcases i with _ | _ | _ | _ | _ | _ | _ | i <;> cases hi
    rfl
  have hlabels {id : StmtId} (h : s.IsLabel id) : id ∈ [⟨0⟩, ⟨2⟩, ⟨3⟩, ⟨4⟩, ⟨5⟩] := by
    obtain ⟨value, hvalue⟩ := h
    obtain ⟨i⟩ := id
    rw [stmt, hstmts] at hvalue
    rcases i with _ | _ | _ | _ | _ | _ | _ | i <;> cases hvalue <;> simp
  refine ⟨s, hs, hswitch, hmeanings, (Accepted.labelsLegal_iff hs).2.2 ?_⟩
  constructor
  · intro id _ hlabel hnot
    exact absurd (hlabels hlabel) (hnot _ hswitch)
  · intro body hbody id _ hnot hlabel
    rw [honly hbody] at hnot
    exact absurd (hlabels hlabel) hnot
  · intro body hbody id id' _ hnot _ _ m hm
    rw [honly hbody] at hnot
    exact absurd (hlabels (isLabel_of_labelMeaning? hm)) hnot

/-- Both labels of `switch (x) { case 1: { case 1: ; } }` stand for the same integer. -/
theorem exists_label_repeated :
    ∃ s : Shader, s.Accepted ∧ ∃ body, s.IsSwitchBody body ∧ s.StandsWithin body ⟨0⟩ ∧
      s.StandsWithin body ⟨1⟩ ∧ s.labelMeaning? ⟨0⟩ = some (some 1) ∧
      s.labelMeaning? ⟨1⟩ = some (some 1) ∧ ¬ s.LabelsLegal := by
  obtain ⟨s, hs, hfacts⟩ := Parse.exists_accepted
    (f := fun s => (s.stmts, (s.func ⟨0⟩).body, s.labelMeaning? ⟨0⟩, s.labelMeaning? ⟨1⟩))
    (show (Parse.plainShader? .fragment (switchOver
        [.keyword (.word .caseLabel), .number (.int 1), .punct .colon, .punct .leftBrace,
          .keyword (.word .caseLabel), .number (.int 1), .punct .colon, .punct .semicolon,
          .punct .rightBrace])).map _ =
      some (#[.label (some ⟨17⟩), .label (some ⟨18⟩), .empty, .block [⟨1⟩, ⟨2⟩],
        .switch {} ⟨16⟩ [⟨0⟩, ⟨3⟩]], some [⟨4⟩], some (some 1), some (some 1)) by decide +kernel)
  simp only [Prod.mk.injEq] at hfacts
  obtain ⟨hstmts, hbody, hfirst, hsecond⟩ := hfacts
  have hswitch : s.IsSwitchBody [⟨0⟩, ⟨3⟩] :=
    ⟨⟨4⟩, {}, ⟨16⟩, .body hbody (.here List.mem_cons_self), by rw [stmt, hstmts]; rfl⟩
  have hblock : (s.stmt ⟨3⟩).parts = [⟨1⟩, ⟨2⟩] := by
    rw [stmt, hstmts]
    rfl
  have houter : s.StandsWithin [⟨0⟩, ⟨3⟩] ⟨0⟩ := .here List.mem_cons_self
  have hinner : s.StandsWithin [⟨0⟩, ⟨3⟩] ⟨1⟩ := by
    refine .inside (show (⟨3⟩ : StmtId) ∈ _ by simp) ?_
    rw [hblock]
    exact .here List.mem_cons_self
  refine ⟨s, hs, _, hswitch, houter, hinner, hfirst, hsecond, fun hlegal => ?_⟩
  exact hlegal.apart _ hswitch ⟨0⟩ ⟨1⟩ houter hinner (by simp) _ hfirst hsecond

end Shader

end ShaderBridge
