import ShaderBridge.Proofs.Macro.Steps
import ShaderBridge.Proofs.Macro.Seams
import ShaderBridge.Proofs.Preprocess.Regrouping
import ShaderBridge.Proofs.Preprocess.Splitting

namespace ShaderBridge

/-- The group without the place of its opening line. -/
def Group.bare (g : Group) : Group :=
  { g with span := ⟨0, 0⟩ }

namespace Preprocess

theorem text_eq_of_bare_eq {k l : LogicalLine} (h : k.bare = l.bare) : k.text = l.text := by
  simpa [LogicalLine.bare] using congrArg LogicalLine.text h

theorem newlines_eq_of_bare_eq {k l : LogicalLine} (h : k.bare = l.bare) :
    k.newlines = l.newlines := by
  simpa [LogicalLine.bare] using congrArg LogicalLine.newlines h

theorem directive?_eq_of_bare_eq {k l : LogicalLine} (h : k.bare = l.bare) :
    k.directive? = l.directive? := by
  rw [LogicalLine.directive?, LogicalLine.directive?, text_eq_of_bare_eq h]

theorem source_eq_of_bare_eq {k l : LogicalLine} (h : k.bare = l.bare) : k.source = l.source := by
  rw [LogicalLine.source, LogicalLine.source, text_eq_of_bare_eq h, newlines_eq_of_bare_eq h]

/-- Lines with the same texts and line feeds. -/
def SameLines (ks ls : List LogicalLine) : Prop :=
  ks.map LogicalLine.bare = ls.map LogicalLine.bare

theorem sameLines_refl (ls : List LogicalLine) : SameLines ls ls :=
  rfl

theorem SameLines.symm {ks ls : List LogicalLine} (h : SameLines ks ls) : SameLines ls ks :=
  Eq.symm h

theorem SameLines.trans {ks ls ms : List LogicalLine} (h : SameLines ks ls)
    (h' : SameLines ls ms) : SameLines ks ms :=
  Eq.trans h h'

theorem SameLines.append {ks ls ms ns : List LogicalLine} (h : SameLines ks ls)
    (h' : SameLines ms ns) : SameLines (ks ++ ms) (ls ++ ns) := by
  rw [SameLines, List.map_append, List.map_append, h, h']

theorem sameLines_append {a : List Char} (h : CompleteLines a) (b : List Char) :
    SameLines (logicalLines (a ++ b)) (logicalLines a ++ logicalLines b) := by
  rw [SameLines, map_bare_logicalLines_append h, List.map_append]

theorem SameLines.newlinesOf_eq {ks ls : List LogicalLine} (h : SameLines ks ls) :
    newlinesOf ks = newlinesOf ls := by
  have hmap (xs : List LogicalLine) :
      newlinesOf xs = ((xs.map LogicalLine.bare).map LogicalLine.newlines).sum := by
    simp [newlinesOf, LogicalLine.bare, Function.comp_def]
  rw [hmap ks, hmap ls, h]

theorem SameLines.sources_eq {ks ls : List LogicalLine} (h : SameLines ks ls) :
    ks.flatMap LogicalLine.source = ls.flatMap LogicalLine.source := by
  have hmap (xs : List LogicalLine) :
      xs.flatMap LogicalLine.source = (xs.map LogicalLine.bare).flatMap LogicalLine.source := by
    rw [List.flatMap_map]
    rfl
  rw [hmap ks, hmap ls, h]

theorem SameLines.isPlain {ks ls : List LogicalLine} (h : SameLines ks ls)
    (hl : ∀ l ∈ ls, l.IsPlain) : ∀ k ∈ ks, k.IsPlain := by
  intro k hk
  have hm : k.bare ∈ ls.map LogicalLine.bare := h ▸ List.mem_map_of_mem hk
  obtain ⟨l, hm, he⟩ := List.mem_map.mp hm
  rw [LogicalLine.IsPlain, ← directive?_eq_of_bare_eq he]
  exact hl l hm

theorem SameLines.exists_append {ks before after : List LogicalLine}
    (h : SameLines ks (before ++ after)) :
    ∃ kb ka, ks = kb ++ ka ∧ SameLines kb before ∧ SameLines ka after := by
  rw [SameLines, List.map_append, List.map_eq_append_iff] at h
  obtain ⟨kb, ka, rfl, hb, ha⟩ := h
  exact ⟨kb, ka, rfl, hb, ha⟩

theorem SameLines.exists_cons {ks ls : List LogicalLine} {l : LogicalLine}
    (h : SameLines ks (l :: ls)) :
    ∃ k ks', ks = k :: ks' ∧ k.bare = l.bare ∧ SameLines ks' ls := by
  rw [SameLines, List.map_cons, List.map_eq_cons_iff] at h
  exact h

/-- Groups that are open inside others, the same but for the places of their opening lines. -/
def Within (outer gs hs : List Group) : Prop :=
  hs.map Group.bare = gs.map Group.bare ++ outer.map Group.bare

theorem within_self (gs : List Group) : Within [] gs gs := by
  simp [Within]

theorem Within.allActive_eq {outer gs hs : List Group} (h : Within outer gs hs)
    (ho : Group.allActive outer = true) : Group.allActive hs = Group.allActive gs := by
  have hbare (gs : List Group) : Group.allActive (gs.map Group.bare) = Group.allActive gs := by
    cases gs <;> rfl
  rw [← hbare hs, h]
  cases gs with
  | nil => rw [List.map_nil, List.nil_append, hbare, ho]; rfl
  | cons g gs => rfl

theorem within_outer (outer : List Group) : Within outer [] outer := by
  simp [Within]

theorem Within.self {gs hs : List Group} (h : Within gs [] hs) : Within [] gs hs := by
  simpa [Within] using h

theorem Within.eq_nil {gs : List Group} (h : Within [] [] gs) : gs = [] := by
  simpa [Within] using h

theorem Within.cons {outer gs hs : List Group} {g k : Group} (h : Within outer gs hs)
    (hg : k.bare = g.bare) : Within outer (g :: gs) (k :: hs) := by
  simp only [Within, List.map_cons, List.cons_append, hg] at h ⊢
  rw [h]

theorem Within.exists_cons {outer gs hs : List Group} {g : Group} (h : Within outer (g :: gs) hs) :
    ∃ k hs', hs = k :: hs' ∧ k.bare = g.bare ∧ Within outer gs hs' := by
  rw [Within, List.map_cons, List.cons_append, List.map_eq_cons_iff] at h
  exact h

/-- What the first way to include gives the second gives too, whichever line asks for it. -/
def Includes (f g : Span → IncludeTarget → PreprocessM (List Char)) : Prop :=
  ∀ span span' target t a t', Gives (f span target) t a t' → Gives (g span' target) t a t'

/-- The condition that a directive evaluates. -/
def evaluated? (groups : List Group) : Directed → Option (List Char)
  | .openIf condition => if Group.allActive groups then some condition else none
  | .elseIf condition =>
    match groups with
    | [] => none
    | g :: _ => if g.isUndecided then some condition else none
  | _ => none

variable {f g : Span → IncludeTarget → PreprocessM (List Char)} {t t' : MacroTable}
  {line line' : Nat} {span span' : Span} {outer gs hs gs' : List Group} {d : Directed}

theorem evaluate_elsewhere {condition : List Char} {value : BitVec 64}
    (hc : line = line' ∨ ConditionLineFree t condition)
    (hv : Condition.evaluate t line condition = .ok value) :
    Condition.evaluate t line' condition = .ok value := by
  rcases hc with rfl | hc
  · exact hv
  · rwa [hc.evaluate_eq line' line]

theorem bare_eq_iff {g k : Group} :
    k.bare = g.bare ↔ k.parent = g.parent ∧ k.taken = g.taken ∧ k.seenElse = g.seenElse ∧
      k.active = g.active := by
  simp [Group.bare]

theorem Regroups.elsewhere (hw : Within outer gs hs) (ho : Group.allActive outer = true)
    (hc : line = line' ∨ ∀ c, evaluated? gs d = some c → ConditionLineFree t c)
    (h : Regroups t line span gs d gs') (span' : Span) :
    ∃ hs', Regroups t line' span' hs d hs' ∧ Within outer gs' hs' := by
  have hactive := hw.allActive_eq ho
  cases h with
  | openIf ha hv =>
      have hv' := evaluate_elsewhere (hc.imp_right fun hc => hc _ (by simp [evaluated?, ha])) hv
      exact ⟨_, .openIf (hactive.trans ha) hv', hw.cons rfl⟩
  | openDefined ha hn => exact ⟨_, .openDefined (hactive.trans ha) hn, hw.cons rfl⟩
  | openIfSkipped ha => exact ⟨_, .openIfSkipped (hactive.trans ha), hw.cons rfl⟩
  | openDefinedSkipped ha => exact ⟨_, .openDefinedSkipped (hactive.trans ha), hw.cons rfl⟩
  | @elseIf g _ _ _ hs hu hv =>
      have hv' := evaluate_elsewhere (hc.imp_right fun hc => hc _ (by simp [evaluated?, hu])) hv
      obtain ⟨k, hs, rfl, hk, hw⟩ := hw.exists_cons
      obtain ⟨hp, ht, he, -⟩ := bare_eq_iff.mp hk
      refine ⟨_, .elseIf (by simp_all) (by simp_all [Group.isUndecided]) hv', hw.cons ?_⟩
      simp [bare_eq_iff, Group.enterBranch, hp, he]
  | elseIfSkipped hs hu =>
      obtain ⟨k, hs, rfl, hk, hw⟩ := hw.exists_cons
      obtain ⟨hp, ht, he, -⟩ := bare_eq_iff.mp hk
      refine ⟨_, .elseIfSkipped (by simp_all) (by simp_all [Group.isUndecided]), hw.cons ?_⟩
      simp [bare_eq_iff, Group.skipBranch, hp, ht, he]
  | otherwise hs =>
      obtain ⟨k, hs, rfl, hk, hw⟩ := hw.exists_cons
      obtain ⟨hp, ht, he, -⟩ := bare_eq_iff.mp hk
      refine ⟨_, .otherwise (by simp_all), hw.cons ?_⟩
      simp [bare_eq_iff, Group.enterElse, hp, ht]
  | close =>
      obtain ⟨k, hs, rfl, -, hw⟩ := hw.exists_cons
      exact ⟨hs, .close, hw⟩

theorem Includes.carryOut (hi : Includes f g) {k l : LogicalLine} (hk : k.bare = l.bare)
    {out : List Char} (h : Gives (carryOut f l d) t out t') : Gives (carryOut g k d) t out t' := by
  have hn := newlines_eq_of_bare_eq hk
  cases d with
  | define rest =>
      simp only [Preprocess.carryOut] at h ⊢
      split at h
      · exact absurd h not_gives_throw
      · rename_i hd
        simpa only [hd, hn, gives_bind, gives_located] using h
  | undefine name =>
      simp only [Preprocess.carryOut] at h ⊢
      split at h
      · simp at h
      · rename_i hd
        simpa [hd, hn] using h
  | includeText rest =>
      obtain ⟨target, included, hr, hg, rfl⟩ := gives_carryOut_include.mp h
      exact gives_carryOut_include.mpr ⟨target, included, hr, hi _ _ _ _ _ _ hg, by rw [hn]⟩
  | _ => simpa only [Preprocess.carryOut, source_eq_of_bare_eq hk] using h

theorem Includes.directiveLine (hi : Includes f g) {k l : LogicalLine} (hk : k.bare = l.bare)
    {text out : List Char} (hw : Within outer gs hs) (ho : Group.allActive outer = true)
    (hc : line = line' ∨
      ∀ c, evaluated? gs (Directed.ofText text) = some c → ConditionLineFree t c)
    (h : Gives (directiveLine f gs line l text) t (gs', out) t') :
    ∃ hs', Gives (Preprocess.directiveLine g hs line' k text) t (hs', out) t' ∧
      Within outer gs' hs' := by
  have hn := newlines_eq_of_bare_eq hk
  rcases gives_directiveLine.mp h with ⟨hr, rfl, rfl⟩ | ⟨hord, rfl, hcarry⟩
  · obtain ⟨hs', hr', hw'⟩ := hr.elsewhere hw ho hc k.span
    exact ⟨hs', gives_directiveLine.mpr (.inl ⟨hr', by rw [hn], rfl⟩), hw'⟩
  · refine ⟨hs, gives_directiveLine.mpr (.inr ⟨hord, rfl, ?_⟩), hw⟩
    rw [hw.allActive_eq ho]
    split at hcarry
    · rename_i ha
      simpa only [ha, if_true] using hi.carryOut hk hcarry
    · rename_i ha
      simpa [ha, hn] using hcarry

/-- Plain lines do not tell their numbers, if they are taken. -/
def PlainLineFree (t : MacroTable) (gs : List Group) (ls : List LogicalLine) : Prop :=
  Group.allActive gs = true → LineFree t [] (pieces (ls.flatMap LogicalLine.source))

/-- The name `__LINE__` does not come up in the sections, where they are taken. -/
def SectionsLineFree (f : Span → IncludeTarget → PreprocessM (List Char))
    (last : List LogicalLine) : List Group → Nat → MacroTable → List Section → Prop
  | gs, _, t, [] => PlainLineFree t gs last
  | gs, line, t, s :: rest =>
    PlainLineFree t gs s.plain ∧
    (∀ c, evaluated? gs (Directed.ofText s.directive) = some c → ConditionLineFree t c) ∧
    ∀ gs' out t', Gives (directiveLine f gs (line + newlinesOf s.plain) s.line s.directive) t
        (gs', out) t' →
      SectionsLineFree f last gs' (line + newlinesOf s.plain + s.line.newlines) t' rest

/-- The name `__LINE__` does not come up when lines are preprocessed, the first of which has the
given number: not where plain lines are expanded, and not in a condition. -/
def LinesLineFree (f : Span → IncludeTarget → PreprocessM (List Char)) (gs : List Group)
    (line : Nat) (t : MacroTable) (ls : List LogicalLine) : Prop :=
  SectionsLineFree f (sections ls).2 gs line t (sections ls).1

theorem linesLineFree_of_isPlain {ls : List LogicalLine} (h : ∀ l ∈ ls, l.IsPlain) :
    LinesLineFree f gs line t ls ↔ PlainLineFree t gs ls := by
  simp [LinesLineFree, sections_of_isPlain h, SectionsLineFree]

theorem linesLineFree_append_directive {before rest : List LogicalLine} {l : LogicalLine}
    {d : List Char} (h : ∀ l ∈ before, l.IsPlain) (hl : l.directive? = some d) :
    LinesLineFree f gs line t (before ++ l :: rest) ↔
      PlainLineFree t gs before ∧
      (∀ c, evaluated? gs (Directed.ofText d) = some c → ConditionLineFree t c) ∧
      ∀ gs' out t', Gives (directiveLine f gs (line + newlinesOf before) l d) t (gs', out) t' →
        LinesLineFree f gs' (line + newlinesOf before + l.newlines) t' rest := by
  simp only [LinesLineFree, sections_append_directive h hl, SectionsLineFree]

theorem gives_plainLines_elsewhere {text text' : List Char} {ks ls : List LogicalLine}
    {out : List Char} (hk : SameLines ks ls) (hw : Within outer gs hs)
    (ho : Group.allActive outer = true) (hl : line = line' ∨ PlainLineFree t gs ls)
    (h : Gives (plainLines text gs line ls) t out t') :
    Gives (plainLines text' hs line' ks) t out t' := by
  have hactive := hw.allActive_eq ho
  cases ha : Group.allActive gs with
  | true =>
      obtain ⟨he, rfl⟩ := (gives_plainLines ha).mp h
      refine (gives_plainLines (hactive.trans ha)).mpr ⟨?_, rfl⟩
      rw [hk.sources_eq]
      rcases hl with rfl | hl
      · exact he
      · rw [expandSource_eq] at he ⊢
        exact (hl ha).expandLines_eq he line'
  | false =>
      rw [gives_plainLines_skipped ha] at h
      rw [gives_plainLines_skipped (hactive.trans ha), hk.newlinesOf_eq]
      exact h

theorem Includes.lines (hi : Includes f g) (text' : List Char) {text out : List Char} {n : Nat}
    {ks ls : List LogicalLine} (hk : SameLines ks ls) (hw : Within outer gs hs)
    (ho : Group.allActive outer = true) (hl : line = line' ∨ LinesLineFree f gs line t ls)
    (h : Gives (lines f text gs line ls) t (out, gs', n) t') :
    ∃ hs' m, Gives (Preprocess.lines g text' hs line' ks) t (out, hs', m) t' ∧
      Within outer gs' hs' ∧ (line = line' → m = n) := by
  induction ls using logicalLines_induction generalizing ks gs hs line line' t out with
  | plain ls hp =>
      obtain ⟨hg, rfl, rfl⟩ := (gives_lines_of_isPlain hp).mp h
      rw [linesLineFree_of_isPlain hp] at hl
      exact ⟨hs, _, (gives_lines_of_isPlain (hk.isPlain hp)).mpr
        ⟨gives_plainLines_elsewhere hk hw ho hl hg, rfl, rfl⟩, hw,
        fun he => by rw [he, hk.newlinesOf_eq]⟩
  | directive before l d rest hp hd ih =>
      obtain ⟨kb, ka, rfl, hkb, hka⟩ := hk.exists_append
      obtain ⟨k, kr, rfl, hkl, hkr⟩ := hka.exists_cons
      obtain ⟨front, t₁, gs₁, here, t₂, after, hf, hline, hr, rfl⟩ :=
        (gives_lines_append_directive hp hd).mp h
      rw [linesLineFree_append_directive hp hd] at hl
      obtain rfl := table_of_plainLines hf
      have hbefore : line + newlinesOf before = line' + newlinesOf kb ∨
          ∀ c, evaluated? gs (Directed.ofText d) = some c → ConditionLineFree t₁ c :=
        hl.imp (fun he => by rw [he, hkb.newlinesOf_eq]) fun hl => hl.2.1
      obtain ⟨hs₁, hline', hw₁⟩ := hi.directiveLine hkl hw ho hbefore hline
      have hrest : line + newlinesOf before + l.newlines = line' + newlinesOf kb + k.newlines ∨
          LinesLineFree f gs₁ (line + newlinesOf before + l.newlines) t₂ rest :=
        hl.imp (fun he => by rw [he, hkb.newlinesOf_eq, newlines_eq_of_bare_eq hkl])
          fun hl => hl.2.2 _ _ _ hline
      obtain ⟨hs₂, m, hr', hw₂, hm⟩ := ih hkr hw₁ hrest hr
      refine ⟨hs₂, m, (gives_lines_append_directive (hkb.isPlain hp)
        ((directive?_eq_of_bare_eq hkl).trans hd)).mpr ⟨front, t₁, hs₁, here, t₂, after, ?_, hline',
          hr', rfl⟩, hw₂, fun he => hm (by rw [he, hkb.newlinesOf_eq, newlines_eq_of_bare_eq hkl])⟩
      exact gives_plainLines_elsewhere hkb hw ho (hl.imp_right fun hl => hl.1) hf

theorem Includes.textWith (hi : Includes f g) {source out : List Char}
    (h : Gives (textWith f source) t out t') : Gives (Preprocess.textWith g source) t out t' := by
  obtain ⟨text, n, hs, hl⟩ := exists_lines_of_gives h
  obtain ⟨hs', m, hl', hw, -⟩ :=
    hi.lines text (sameLines_refl _) (within_self []) rfl (.inl rfl) hl
  obtain rfl := hw.eq_nil
  exact gives_textWith hs hl'

theorem includes_including_self (resolve : IncludeResolver) (depth : Nat) :
    Includes (including resolve depth) (including resolve depth) := by
  intro span span' target t a t' h
  cases depth with
  | zero => exact absurd h not_gives_throw
  | succ depth => exact gives_including.mpr (gives_including.mp h)

theorem includes_including (resolve : IncludeResolver) (depth : Nat) :
    Includes (including resolve depth) (including resolve (depth + 1)) := by
  induction depth with
  | zero => exact fun span span' target t a t' h => absurd h not_gives_throw
  | succ depth ih =>
      intro span span' target t a t' h
      obtain ⟨found, hr, h⟩ := gives_including.mp h
      exact gives_including.mpr ⟨found, hr, ih.textWith h⟩

end Preprocess

end ShaderBridge
