import ShaderBridge.Proofs.Shader.Pruning

/-!
What marking comes to. A walk over what an item is made of ends at functions, variables and
structures, which are looked into once; before them are only expressions and statements. Marking
gives a result where all that can be reached is there and such walks end, and then it has found what
can be reached. No walk that ends is too long for it.
-/

namespace ShaderBridge

/-- Whether marking looks into an item only once. -/
def Item.isOnce : Item → Bool
  | .func _ | .var _ | .struct _ => true
  | .expr _ | .stmt _ => false

namespace Shader

open Relation

variable {s : Shader} {x y : Item} {xs : List Item} {seen seen' : Std.HashSet Item}
  {m m' m'' : Marks}

/-- An item has been marked, or else all that it is made of. -/
inductive Done (s : Shader) (seen : Std.HashSet Item) : Item → Prop where
  | once {x : Item} : x ∈ seen → Done s seen x
  | within {x : Item} : x.isOnce = false → s.has x →
      (∀ y ∈ s.mentions s.announced x, Done s seen y) → Done s seen x

def LookedInto (s : Shader) (seen : Std.HashSet Item) (x : Item) : Prop :=
  s.has x ∧ ∀ y ∈ s.mentions s.announced x, s.Done seen y

theorem Done.mono (h : s.Done seen x) (hseen : ∀ y ∈ seen, y ∈ seen') : s.Done seen' x := by
  induction h with
  | once hx => exact .once (hseen _ hx)
  | within hx hhas _ ih => exact .within hx hhas ih

theorem LookedInto.mono (h : s.LookedInto seen x) (hseen : ∀ y ∈ seen, y ∈ seen') :
    s.LookedInto seen' x :=
  ⟨h.1, fun y hy => (h.2 y hy).mono hseen⟩

/-! ### What is marked -/

/-- What marking some items adds to the marks. Variables and structures are looked into at once,
functions are put off. -/
structure Marked (s : Shader) (xs : List Item) (m m' : Marks) : Prop where
  kept : ∀ y ∈ m.seen, y ∈ m'.seen
  done : ∀ x ∈ xs, s.Done m'.seen x
  looked : ∀ y ∈ m'.seen, y ∈ m.seen ∨ y.isOnce ∧
    ((∃ f ∈ m'.pending, y = .func f) ∨ s.LookedInto m'.seen y)
  pending : ∃ added, m'.pending = added ++ m.pending ∧
    ∀ f ∈ added, .func f ∈ m'.seen ∧ .func f ∉ m.seen
  reachable : (∀ x ∈ xs, s.Reachable x) → ∀ y ∈ m'.seen, y ∈ m.seen ∨ s.Reachable y
  count : (∀ f ∈ m'.pending, s.has (.func f)) →
    s.unseen m'.seen + m'.pending.length ≤ s.unseen m.seen + m.pending.length

theorem unseen_le (h : ∀ y ∈ seen, y ∈ seen') : s.unseen seen' ≤ s.unseen seen := by
  unfold unseen
  simp only [← List.countP_eq_length_filter]
  refine List.countP_mono_left fun y _ hy => ?_
  simp only [Bool.not_eq_true', ← Bool.not_eq_true] at hy ⊢
  exact fun hmem => hy (h y hmem)

namespace Marked

theorem nil (m : Marks) : s.Marked [] m m :=
  ⟨fun _ hy => hy, List.forall_mem_nil _, fun _ hy => .inl hy, ⟨[], rfl, List.forall_mem_nil _⟩,
    fun _ _ hy => .inl hy, fun _ => Nat.le_refl _⟩

theorem mem_pending (h : s.Marked xs m m') {f : FuncId} (hf : f ∈ m.pending) : f ∈ m'.pending := by
  obtain ⟨added, hadded, _⟩ := h.pending
  rw [hadded]
  exact List.mem_append_right _ hf

theorem cons (h : s.Marked [x] m m') (h' : s.Marked xs m' m'') : s.Marked (x :: xs) m m'' where
  kept y hy := h'.kept y (h.kept y hy)
  done := List.forall_mem_cons.2
    ⟨(h.done x (List.mem_singleton_self x)).mono h'.kept, h'.done⟩
  looked y hy := by
    rcases h'.looked y hy with hy | hy
    · rcases h.looked y hy with hy | ⟨honce, ⟨f, hf, rfl⟩ | hlooked⟩
      · exact .inl hy
      · exact .inr ⟨honce, .inl ⟨f, h'.mem_pending hf, rfl⟩⟩
      · exact .inr ⟨honce, .inr (hlooked.mono h'.kept)⟩
    · exact .inr hy
  pending := by
    obtain ⟨added, hadded, hnew⟩ := h.pending
    obtain ⟨added', hadded', hnew'⟩ := h'.pending
    refine ⟨added' ++ added, by rw [hadded', hadded, List.append_assoc], fun f hf => ?_⟩
    rcases List.mem_append.1 hf with hf | hf
    · exact ⟨(hnew' f hf).1, fun hold => (hnew' f hf).2 (h.kept _ hold)⟩
    · exact ⟨h'.kept _ (hnew f hf).1, (hnew f hf).2⟩
  reachable hxs y hy := by
    obtain ⟨hx, hxs⟩ := List.forall_mem_cons.1 hxs
    exact (h'.reachable hxs y hy).elim (h.reachable (List.forall_mem_singleton.2 hx) y) .inr
  count hhas := (h'.count hhas).trans (h.count fun f hf => hhas f (h'.mem_pending hf))

theorem reachable_pending (h : s.Marked xs m m') (hxs : ∀ x ∈ xs, s.Reachable x)
    (hpending : ∀ f ∈ m.pending, s.Reachable (.func f)) :
    ∀ f ∈ m'.pending, s.Reachable (.func f) := by
  obtain ⟨added, hadded, hnew⟩ := h.pending
  rw [hadded]
  refine List.forall_mem_append.2 ⟨fun f hf => ?_, hpending⟩
  exact (h.reachable hxs _ (hnew f hf).1).resolve_left (hnew f hf).2

theorem of_mentions (h : s.Marked (s.mentions s.announced x) m m') (hdone : s.Done m'.seen x) :
    s.Marked [x] m m' :=
  { h with
    done := List.forall_mem_singleton.2 hdone
    reachable := fun hx => h.reachable fun _ => (List.forall_mem_singleton.1 hx).mentioned }

theorem of_mem (hx : x ∈ m.seen) : s.Marked [x] m m :=
  { nil m with
    done := List.forall_mem_singleton.2 (.once hx)
    reachable := fun _ _ hy => .inl hy }

theorem func {f : FuncId} (hf : .func f ∉ m.seen) :
    s.Marked [.func f] m ⟨m.seen.insert (.func f), f :: m.pending⟩ where
  kept y hy := by simp [hy]
  done := List.forall_mem_singleton.2 (.once (by simp))
  looked y hy := by
    simp only [Std.HashSet.mem_insert, beq_iff_eq] at hy
    rcases hy with rfl | hy
    · exact .inr ⟨rfl, .inl ⟨f, List.mem_cons_self, rfl⟩⟩
    · exact .inl hy
  pending := ⟨[f], rfl, List.forall_mem_singleton.2 ⟨by simp, hf⟩⟩
  reachable hx y hy := by
    simp only [Std.HashSet.mem_insert, beq_iff_eq] at hy
    rcases hy with rfl | hy
    · exact .inr (hx _ (List.mem_singleton_self _))
    · exact .inl hy
  count hhas := by
    have hlt := unseen_insert_lt (hhas f List.mem_cons_self) (by simpa using hf)
    dsimp only
    rw [List.length_cons]
    omega

theorem insert (honce : x.isOnce) (hhas : s.has x)
    (h : s.Marked (s.mentions s.announced x) ⟨m.seen.insert x, m.pending⟩ m') :
      s.Marked [x] m m' := by
  have hold {y : Item} (hy : y ∈ m.seen.insert x) : y = x ∨ y ∈ m.seen :=
    (Std.HashSet.mem_insert.1 hy).imp_left fun heq => (eq_of_beq heq).symm
  have hdone : s.Done m'.seen x := .once (h.kept x (by simp))
  have hle : s.unseen (m.seen.insert x) ≤ s.unseen m.seen := unseen_le fun y hy => by simp [hy]
  refine ⟨fun y hy => h.kept y (by simp [hy]), List.forall_mem_singleton.2 hdone,
    fun y hy => ?_, ?_, fun hx y hy => ?_,
    fun hhas => (h.count hhas).trans (Nat.add_le_add_right hle _)⟩
  · rcases h.looked y hy with hy | hy
    · rcases hold hy with rfl | hy
      · exact .inr ⟨honce, .inr ⟨hhas, h.done⟩⟩
      · exact .inl hy
    · exact .inr hy
  · obtain ⟨added, hadded, hnew⟩ := h.pending
    exact ⟨added, hadded, fun f hf => ⟨(hnew f hf).1, fun hmem => (hnew f hf).2 (by simp [hmem])⟩⟩
  · have hx := List.forall_mem_singleton.1 hx
    rcases h.reachable (fun _ => hx.mentioned) y hy with hy | hy
    · rcases hold hy with rfl | hy
      · exact .inr hx
      · exact .inl hy
    · exact .inr hy

theorem of_foldlM {f : Item → Marks → Option Marks}
    (hf : ∀ x m m', f x m = some m' → s.Marked [x] m m')
    (h : xs.foldlM (fun m x => f x m) m = some m') : s.Marked xs m m' := by
  induction xs generalizing m with
  | nil =>
      cases h
      exact nil _
  | cons x xs ih =>
      obtain ⟨m₁, hx, hxs⟩ := Option.bind_eq_some_iff.1 h
      exact (hf x m m₁ hx).cons (ih hxs)

end Marked

theorem marked_markWithin {depth : Nat} (h : s.markWithin s.announced depth x m = some m') :
    s.Marked [x] m m' := by
  induction depth generalizing x m m' with
  | zero => cases h
  | succ depth ih =>
      have hlookInto {m : Marks} (h : (if s.has x then (s.mentions s.announced x).foldlM
            (fun m y => s.markWithin s.announced depth y m) m else none) = some m') :
          s.has x ∧ s.Marked (s.mentions s.announced x) m m' := by
        split at h
        · next hhas => exact ⟨hhas, .of_foldlM (fun _ _ _ => ih) h⟩
        · cases h
      cases x with
      | func f =>
          cases h
          split
          · next hmem => exact .of_mem hmem
          · next hnew => exact .func hnew
      | var v | struct d =>
          rw [markWithin] at h
          dsimp only at h
          split at h
          · next hmem =>
              cases h
              exact .of_mem hmem
          · obtain ⟨hhas, hmarked⟩ := hlookInto h
            exact .insert rfl hhas hmarked
      | expr e | stmt t =>
          obtain ⟨hhas, hmarked⟩ := hlookInto h
          exact hmarked.of_mentions (.within rfl hhas hmarked.done)

theorem marked_markAll (h : s.markAll s.announced xs m = some m') : s.Marked xs m m' :=
  .of_foldlM (fun _ _ _ => marked_markWithin) h

/-- Nothing is left to be looked into. -/
structure Finishes (s : Shader) (m : Marks) (seen : Std.HashSet Item) : Prop where
  kept : ∀ y ∈ m.seen, y ∈ seen
  pending : ∀ f ∈ m.pending, s.LookedInto seen (.func f)
  looked : ∀ y ∈ seen, y ∈ m.seen ∨ y.isOnce ∧ s.LookedInto seen y
  reachable : (∀ f ∈ m.pending, s.Reachable (.func f)) → ∀ y ∈ seen, y ∈ m.seen ∨ s.Reachable y

theorem finishes_markPendingWithin {n : Nat}
    (h : s.markPendingWithin s.announced n m = some seen) : s.Finishes m seen := by
  induction n generalizing m with
  | zero => cases h
  | succ n ih =>
      obtain ⟨old, pending⟩ := m
      cases pending with
      | nil =>
          cases h
          exact ⟨fun _ hy => hy, List.forall_mem_nil _, fun _ hy => .inl hy, fun _ _ hy => .inl hy⟩
      | cons g rest =>
          rw [markPendingWithin] at h
          dsimp only at h
          split at h
          · next hhas =>
              obtain ⟨m₁, hmarks, hrest⟩ := Option.bind_eq_some_iff.1 h
              have hmarked := marked_markAll hmarks
              have hfinishes := ih hrest
              have hg : s.LookedInto seen (.func g) :=
                ⟨hhas, fun y hy => (hmarked.done y hy).mono hfinishes.kept⟩
              refine ⟨fun y hy => hfinishes.kept y (hmarked.kept y hy),
                List.forall_mem_cons.2
                  ⟨hg, fun f hf => hfinishes.pending f (hmarked.mem_pending hf)⟩,
                fun y hy => ?_, fun hpending y hy => ?_⟩
              · rcases hfinishes.looked y hy with hy | hy
                · rcases hmarked.looked y hy with hy | ⟨honce, ⟨f, hf, rfl⟩ | hlooked⟩
                  · exact .inl hy
                  · exact .inr ⟨honce, hfinishes.pending f hf⟩
                  · exact .inr ⟨honce, hlooked.mono hfinishes.kept⟩
                · exact .inr hy
              · obtain ⟨hreach, hpending⟩ := List.forall_mem_cons.1 hpending
                have hmentioned : ∀ z ∈ s.mentions s.announced (.func g), s.Reachable z :=
                  fun _ => hreach.mentioned
                have hpending := hmarked.reachable_pending hmentioned hpending
                exact (hfinishes.reachable hpending y hy).elim (hmarked.reachable hmentioned y) .inr
          · cases h

/-- All that can be reached is there, and no expression that can be reached is a part of itself. -/
structure Prunable (s : Shader) : Prop where
  has : ∀ x, s.Reachable x → s.has x
  noLoop : ∀ e, s.Reachable (.expr e) → ¬ TransGen (fun e o => o ∈ (s.expr e).operands) e e

theorem Done.noLoop (h : s.Done seen x) (honce : ∀ y ∈ seen, y.isOnce) {e : ExprId}
    (hx : x = .expr e) : ¬ TransGen (fun e o => o ∈ (s.expr e).operands) e e := by
  induction h generalizing e with
  | once hmem =>
      subst hx
      exact absurd (honce _ hmem) Bool.false_ne_true
  | within _ _ _ ih =>
      subst hx
      intro hloop
      -- The loop passes through an operand, and so leads from there back to it.
      obtain ⟨o, ho, hback⟩ := TransGen.head'_iff.1 hloop
      exact ih (.expr o) (mem_mentionedByExpr_iff.2 (.inl ⟨o, ho, rfl⟩)) rfl (.tail' hback ho)

theorem marked?_eq_some (h : s.marked? = some seen) :
    s.Prunable ∧ ∀ x, x.isOnce → (x ∈ seen ↔ s.Reachable x) := by
  obtain ⟨m, hroots, hpending⟩ := Option.bind_eq_some_iff.1 h
  have hmarked := marked_markAll hroots
  have hfinishes := finishes_markPendingWithin hpending
  have hlooked : ∀ y ∈ seen, y.isOnce ∧ s.LookedInto seen y := by
    intro y hy
    rcases hfinishes.looked y hy with hy | hy
    · rcases (hmarked.looked y hy).resolve_left (by simp) with ⟨honce, ⟨f, hf, rfl⟩ | hlooked⟩
      · exact ⟨honce, hfinishes.pending f hf⟩
      · exact ⟨honce, hlooked.mono hfinishes.kept⟩
    · exact hy
  have hdone {x : Item} (hx : s.Reachable x) : s.Done seen x := by
    refine hx.induction (fun x hx => (hmarked.done x hx).mono hfinishes.kept) fun x y hx hy => ?_
    cases hx with
    | once hx => exact (hlooked x hx).2.2 y hy
    | within _ _ hdone => exact hdone y hy
  have hhas (x : Item) (hx : s.Reachable x) : s.has x := by
    cases hdone hx with
    | once hx => exact (hlooked x hx).2.1
    | within _ hhas => exact hhas
  have hnoLoop (e : ExprId) (he : s.Reachable (.expr e)) :=
    (hdone he).noLoop (fun y hy => (hlooked y hy).1) rfl
  refine ⟨⟨hhas, hnoLoop⟩, fun x honce => ?_⟩
  constructor
  · intro hx
    have hroots : ∀ y ∈ s.roots, s.Reachable y := fun _ => reachable_of_mem_roots
    have hpending := hmarked.reachable_pending hroots (List.forall_mem_nil _)
    exact (hfinishes.reachable hpending x hx).elim
      (fun hx => (hmarked.reachable hroots x hx).resolve_left (by simp)) id
  · intro hx
    cases hdone hx with
    | once hx => exact hx
    | within hx =>
        rw [honce] at hx
        cases hx

/-! ### When there is a result -/

/-- A walk comes to functions, variables and structures in fewer steps than the given number. -/
inductive StopsWithin (s : Shader) : Nat → Item → Prop where
  | once {n : Nat} {x : Item} : x.isOnce → StopsWithin s (n + 1) x
  | within {n : Nat} {x : Item} :
      (∀ y ∈ s.mentions s.announced x, StopsWithin s n y) → StopsWithin s (n + 1) x

theorem exists_foldlM_of {f : Item → Marks → Option Marks} {P : Marks → Prop}
    (h : ∀ x ∈ xs, ∀ m, P m → ∃ m', f x m = some m' ∧ P m') (hm : P m) :
    ∃ m', xs.foldlM (fun m x => f x m) m = some m' ∧ P m' := by
  induction xs generalizing m with
  | nil => exact ⟨m, rfl, hm⟩
  | cons x xs ih =>
      obtain ⟨m₁, hx, hm₁⟩ := h x List.mem_cons_self m hm
      obtain ⟨m', hxs, hm'⟩ := ih (fun y hy => h y (List.mem_cons_of_mem _ hy)) hm₁
      exact ⟨m', Option.bind_eq_some_iff.2 ⟨m₁, hx, hxs⟩, hm'⟩

theorem exists_markWithin_of_once {depth : Nat} (honce : x.isOnce) (hhas : s.has x)
    (h : x ∉ m.seen → ∃ m', (s.mentions s.announced x).foldlM
      (fun m y => s.markWithin s.announced depth y m) ⟨m.seen.insert x, m.pending⟩ = some m') :
    ∃ m', s.markWithin s.announced (depth + 1) x m = some m' := by
  by_cases hmem : x ∈ m.seen
  · cases x <;> cases honce <;> simp [markWithin, hmem]
  · obtain ⟨m', hm'⟩ := h hmem
    cases x with
    | func f => exact ⟨_, rfl⟩
    | var v | struct d => exact ⟨m', by simpa [markWithin, hmem, hhas] using hm'⟩
    | expr e | stmt t => cases honce

theorem markWithin_of_not_once {depth : Nat} (honce : x.isOnce = false) (hhas : s.has x) :
    s.markWithin s.announced (depth + 1) x m = (s.mentions s.announced x).foldlM
      (fun m y => s.markWithin s.announced depth y m) m := by
  cases x <;> cases honce <;> simp [markWithin, hhas]

/-- A walk that ends is carried out. Behind a variable or a structure that is marked there is less
left unseen, and otherwise what is left of the walk gets shorter. -/
theorem exists_markWithin (h : ∀ x, s.Reachable x → s.has x ∧ s.StopsWithin s.walkLength x)
    {n k depth : Nat} (hx : s.Reachable x) (hstops : s.StopsWithin k x) (hm : s.unseen m.seen ≤ n)
    (hdepth : n * s.walkLength + k ≤ depth) :
    ∃ m', s.markWithin s.announced depth x m = some m' ∧ s.unseen m'.seen ≤ n := by
  have hle {x : Item} {m : Marks} {n depth : Nat} (hm : s.unseen m.seen ≤ n)
      (h : ∃ m', s.markWithin s.announced depth x m = some m') :
      ∃ m', s.markWithin s.announced depth x m = some m' ∧ s.unseen m'.seen ≤ n := by
    obtain ⟨m', hmark⟩ := h
    exact ⟨m', hmark, (unseen_le (marked_markWithin hmark).kept).trans hm⟩
  induction n using Nat.strong_induction_on generalizing x m k depth with
  | _ n ih =>
    have honce {x : Item} {m : Marks} {depth : Nat} (hx : s.Reachable x)
        (hm : s.unseen m.seen ≤ n) (hdepth : n * s.walkLength ≤ depth) (honce : x.isOnce) :
        ∃ m', s.markWithin s.announced (depth + 1) x m = some m' := by
      have hhas := (h x hx).1
      refine exists_markWithin_of_once honce hhas fun hnew => ?_
      have hlt : s.unseen (m.seen.insert x) < n :=
        (unseen_insert_lt hhas (by simpa using hnew)).trans_le hm
      have hbelow : s.unseen (m.seen.insert x) * s.walkLength + s.walkLength ≤ depth := by
        rw [← Nat.succ_mul]
        exact (Nat.mul_le_mul_right _ hlt).trans hdepth
      obtain ⟨m', hm', _⟩ := exists_foldlM_of (m := ⟨m.seen.insert x, m.pending⟩)
        (P := fun m' => s.unseen m'.seen ≤ s.unseen (m.seen.insert x))
        (fun y hy _ hm => ih _ hlt (hx.mentioned hy) (h y (hx.mentioned hy)).2 hm hbelow)
        (Nat.le_refl _)
      exact ⟨m', hm'⟩
    induction hstops generalizing m depth with
    | once hx' =>
        obtain ⟨depth, rfl⟩ : ∃ d, depth = d + 1 := ⟨depth - 1, by omega⟩
        exact hle hm (honce hx hm (by omega) hx')
    | @within k x _ ihwithin =>
        obtain ⟨depth, rfl⟩ : ∃ d, depth = d + 1 := ⟨depth - 1, by omega⟩
        cases honce' : x.isOnce with
        | true => exact hle hm (honce hx hm (by omega) honce')
        | false =>
            rw [markWithin_of_not_once honce' (h x hx).1]
            exact exists_foldlM_of
              (fun y hy _ hm => ihwithin y hy (hx.mentioned hy) hm (by omega)) hm

theorem unseen_le_length (seen : Std.HashSet Item) : s.unseen seen ≤ s.items.length :=
  List.length_filter_le _ _

theorem exists_markAll (h : ∀ x, s.Reachable x → s.has x ∧ s.StopsWithin s.walkLength x)
    (hxs : ∀ x ∈ xs, s.Reachable x) (m : Marks) : ∃ m', s.markAll s.announced xs m = some m' := by
  have hdepth : s.unseen m.seen * s.walkLength + s.walkLength ≤
      (s.items.length + 1) * s.walkLength := by
    rw [← Nat.succ_mul]
    exact Nat.mul_le_mul_right _ (Nat.succ_le_succ (unseen_le_length _))
  obtain ⟨m', hm', _⟩ := exists_foldlM_of (P := fun m' => s.unseen m'.seen ≤ s.unseen m.seen)
    (fun y hy _ hm => exists_markWithin h (hxs y hy) (h y (hxs y hy)).2 hm hdepth) (Nat.le_refl _)
  exact ⟨m', hm'⟩

/-- Wherever a function is looked into, one that has been unseen is pending at the most for each
that is not unseen any more. -/
theorem exists_markPendingWithin
    (h : ∀ x, s.Reachable x → s.has x ∧ s.StopsWithin s.walkLength x) {n : Nat}
    (hn : s.unseen m.seen + m.pending.length < n)
    (hpending : ∀ f ∈ m.pending, s.Reachable (.func f)) :
    ∃ seen, s.markPendingWithin s.announced n m = some seen := by
  induction n generalizing m with
  | zero => omega
  | succ n ih =>
      obtain ⟨old, pending⟩ := m
      cases pending with
      | nil => exact ⟨old, rfl⟩
      | cons f rest =>
          obtain ⟨hf, hrest⟩ := List.forall_mem_cons.1 hpending
          have hmentioned : ∀ y ∈ s.mentions s.announced (.func f), s.Reachable y :=
            fun _ => hf.mentioned
          obtain ⟨m', hmarks⟩ := exists_markAll h hmentioned ⟨old, rest⟩
          have hmarked := marked_markAll hmarks
          have hpending := hmarked.reachable_pending hmentioned hrest
          have hcount := hmarked.count fun g hg => (h _ (hpending g hg)).1
          rw [List.length_cons] at hn
          dsimp only at hn hcount
          obtain ⟨seen, hseen⟩ := ih (by omega) hpending
          exact ⟨seen, by simpa [markPendingWithin, (h _ hf).1, hmarks] using hseen⟩

/-- There is a result where all that can be reached is there and walks over it end. -/
theorem isSome_marked? (h : ∀ x, s.Reachable x → s.has x ∧ s.StopsWithin s.walkLength x) :
    s.marked?.isSome := by
  obtain ⟨m, hroots⟩ := exists_markAll h (fun _ => reachable_of_mem_roots) {}
  have hmarked := marked_markAll hroots
  have hpending := hmarked.reachable_pending (fun _ => reachable_of_mem_roots)
    (List.forall_mem_nil _)
  have hcount := hmarked.count fun f hf => (h _ (hpending f hf)).1
  have hle := s.unseen_le_length ({} : Marks).seen
  rw [List.length_nil] at hcount
  obtain ⟨seen, hseen⟩ := exists_markPendingWithin h (n := s.items.length + 1) (by omega) hpending
  exact Option.isSome_iff_exists.2 ⟨seen, Option.bind_eq_some_iff.2 ⟨m, hroots, hseen⟩⟩

/-! ### Walks over linked shaders -/

theorem Prunable.stopsWithin_expr (h : s.Prunable) {e : ExprId} (he : s.Reachable (.expr e)) :
    s.StopsWithin (s.exprs.size + 2) (.expr e) := by
  have hsize (e o : ExprId) (ho : s.Reachable (.expr e) ∧ o ∈ (s.expr e).operands) :
      o.index < s.exprs.size := by
    simpa [Shader.has] using h.has _ (ho.1.operand ho.2)
  have hloops (e : ExprId) :
      ¬ TransGen (fun e o => s.Reachable (.expr e) ∧ o ∈ (s.expr e).operands) e e := by
    intro hloop
    obtain ⟨_, ⟨he, _⟩, _⟩ := TransGen.head'_iff.1 hloop
    exact h.noLoop e he (TransGen.mono (fun _ _ hstep => hstep.2) _ _ hloop)
  obtain ⟨height, hheight, hle, -⟩ := exists_height ExprId.index
    (fun a b hab => by cases a; cases b; exact congrArg ExprId.mk hab) hsize hloops
  suffices hstops : ∀ n, height e ≤ n → s.StopsWithin (n + 2) (.expr e) from hstops _ (hle e)
  intro n hn
  induction n using Nat.strong_induction_on generalizing e with
  | _ n ih =>
    refine .within fun y hy => ?_
    rcases mem_mentionedByExpr_iff.1 hy with ⟨o, ho, rfl⟩ | ⟨v, _, rfl⟩ | ⟨d, args, _, rfl⟩ |
      ⟨name, args, f, _, rfl⟩ | ⟨name, args, f, _, _, rfl⟩
    · have hlt := hheight e o ⟨he, ho⟩
      obtain ⟨n, rfl⟩ : ∃ k, n = k + 1 := ⟨n - 1, by omega⟩
      exact ih n (Nat.lt_succ_self n) (he.operand ho) (by omega)
    all_goals exact .once rfl

theorem StopsWithin.mono {n k : Nat} (h : s.StopsWithin n x) (hle : n ≤ k) : s.StopsWithin k x := by
  induction h generalizing k with
  | once honce =>
      obtain ⟨k, rfl⟩ : ∃ m, k = m + 1 := ⟨k - 1, by omega⟩
      exact .once honce
  | within _ ih =>
      obtain ⟨k, rfl⟩ : ∃ m, k = m + 1 := ⟨k - 1, by omega⟩
      exact .within fun y hy => ih y hy (by omega)

theorem Prunable.stopsWithin (h : s.Prunable) (hlinked : s.Linked) (hx : s.Reachable x) :
    s.StopsWithin s.walkLength x := by
  have hsize : s.exprs.size + s.stmts.size ≤ s.items.length := by
    simp only [Shader.items, List.length_append, List.length_map, List.length_range]
    omega
  cases x with
  | expr e => exact (h.stopsWithin_expr hx).mono (by unfold walkLength; omega)
  | stmt t =>
      have hlt : t.index < s.stmts.size := by simpa [Shader.has] using h.has _ hx
      suffices hstops : ∀ n, t.index ≤ n → s.StopsWithin (n + 1 + (s.exprs.size + 2)) (.stmt t) from
        (hstops _ (Nat.le_refl _)).mono (by unfold walkLength; omega)
      intro n hn
      clear hlt
      induction n using Nat.strong_induction_on generalizing t with
      | _ n ih =>
        rw [Nat.add_right_comm]
        refine .within fun y hy => ?_
        have hy' := hx.part hy
        cases y with
        | expr e => exact (h.stopsWithin_expr hy').mono (by omega)
        | stmt u =>
            have hlt := hlinked.stmtBefore t u hy
            obtain ⟨n, rfl⟩ : ∃ k, n = k + 1 := ⟨n - 1, by omega⟩
            exact ih n (Nat.lt_succ_self n) u hy' (by omega)
        | _ => exact .once rfl
  | _ => exact .once rfl

theorem Linked.isSome_prune?_iff (h : s.Linked) : s.prune?.isSome ↔ s.Prunable := by
  rw [prune?, Option.isSome_map]
  constructor
  · intro hsome
    obtain ⟨seen, hseen⟩ := Option.isSome_iff_exists.1 hsome
    exact (marked?_eq_some hseen).1
  · intro hprunable
    exact isSome_marked? fun x hx => ⟨hprunable.has x hx, hprunable.stopsWithin h hx⟩

end Shader

end ShaderBridge
