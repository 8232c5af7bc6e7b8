import Mathlib.Data.List.Forall2
import ShaderBridge.Proofs.Parse.Run

namespace ShaderBridge

namespace Parse

variable {α β γ : Type} {P P' : ParserState → Prop} {Q : α → ParserState → Prop}
  {S : β → ParserState → Prop}

/-- From every state with a property a rule gives a result, which goes together with the state
behind. -/
def Delivers (P : ParserState → Prop) (m : ParseM α) (Q : α → ParserState → Prop) : Prop :=
  ∀ st, P st → ∃ a st', m.run st = .ok (a, st') ∧ Q a st'

theorem delivers_pure {a : α} (h : ∀ st, P st → Q a st) : Delivers P (pure a) Q :=
  fun st hP => ⟨a, st, rfl, h st hP⟩

theorem delivers_imp {m : ParseM α} (hm : Delivers P m Q) (h : ∀ st, P' st → P st) :
    Delivers P' m Q :=
  fun st hP => hm st (h st hP)

theorem delivers_weaken {Q' : α → ParserState → Prop} {m : ParseM α} (hm : Delivers P m Q)
    (h : ∀ a st, Q a st → Q' a st) : Delivers P m Q' := by
  intro st hP
  obtain ⟨a, st', hrun, hQ⟩ := hm st hP
  exact ⟨a, st', hrun, h a st' hQ⟩

theorem delivers_bind {m : ParseM α} {f : α → ParseM β} (hm : Delivers P m Q)
    (hf : ∀ a, Delivers (Q a) (f a) S) : Delivers P (m >>= f) S := by
  intro st hP
  obtain ⟨a, st₁, hfirst, hQ⟩ := hm st hP
  obtain ⟨b, st', hrest, hS⟩ := hf a st₁ hQ
  exact ⟨b, st', (run_bind_of hfirst).trans hrest, hS⟩

theorem delivers_bind_look {m : ParseM α} {f : α → ParseM β} {a : α}
    (hm : ∀ st, P st → m.run st = .ok (a, st)) (hf : Delivers P (f a) S) :
    Delivers P (m >>= f) S := by
  intro st hP
  obtain ⟨b, st', hrest, hS⟩ := hf st hP
  exact ⟨b, st', (run_bind_of (hm st hP)).trans hrest, hS⟩

theorem delivers_bind_eq {m : ParseM α} {f : α → ParseM β} {a : α}
    (hm : Delivers P m fun b st => b = a ∧ P' st) (hf : Delivers P' (f a) S) :
    Delivers P (m >>= f) S :=
  delivers_bind hm fun _ st h => h.1 ▸ hf st h.2

theorem delivers_bind_some {m : ParseM (Option α)} {f : Option α → ParseM β}
    (hm : Delivers P m fun r st => ∃ a, r = some a ∧ Q a st)
    (hf : ∀ a, Delivers (Q a) (f (some a)) S) : Delivers P (m >>= f) S := by
  refine delivers_bind hm fun r => ?_
  rintro st ⟨a, rfl, h⟩
  exact hf a st h

theorem delivers_bind_fuel {f : Nat → ParseM β} (hf : ∀ n, Delivers P (f (n + 1)) S) :
    Delivers P (fuel >>= f) S := by
  intro st hP
  obtain ⟨b, st', hrest, hS⟩ := hf (8 * st.tokens.length + 15) st hP
  exact ⟨b, st', (run_bind_of rfl).trans hrest, hS⟩

theorem Delivers.keeping {K : ParserState → Prop} {m : ParseM α} (hm : Delivers P m Q)
    (hK : Leads K m fun _ => K) :
    Delivers (fun st => P st ∧ K st) m fun a st => Q a st ∧ K st := by
  rintro st ⟨hP, h⟩
  obtain ⟨a, st', hrun, hQ⟩ := hm st hP
  exact ⟨a, st', hrun, hQ, hK st a st' h hrun⟩

theorem delivers_attempt {rule : ParseM (Option α)}
    (h : Delivers P rule fun r st => ∃ a, r = some a ∧ Q a st) :
    Delivers P (attempt rule) fun r st => ∃ a, r = some a ∧ Q a st := by
  intro st hP
  obtain ⟨_, st', hrun, a, rfl, hQ⟩ := h st hP
  exact ⟨some a, st', (run_bind_of rfl).trans (run_bind_of hrun), a, rfl, hQ⟩

theorem delivers_repeatSteps {step : α → ParseM (α ⊕ β)} {I : List γ → α → ParserState → Prop}
    (items : List γ)
    (hstep : ∀ x ∈ items, ∀ xs a, Delivers (I (x :: xs) a) (step a)
      fun next st => ∃ b, next = .inl b ∧ I xs b st)
    (hlast : ∀ a, Delivers (I [] a) (step a) fun next st => ∃ b, next = .inr b ∧ S b st)
    {a : α} (hlength : ∀ st, I items a st → items.length ≤ st.tokens.length) :
    Delivers (I items a) (repeatSteps step a) S := by
  have hwithin (xs : List γ) (hxs : xs ⊆ items) (a : α) (n : Nat) (hn : xs.length < n) :
      Delivers (I xs a) (repeatWithin step n a) S := by
    induction xs generalizing n a with
    | nil =>
        obtain ⟨n, rfl⟩ := Nat.exists_eq_add_of_lt hn
        refine delivers_bind (hlast a) fun next => ?_
        rintro st ⟨b, rfl, hS⟩
        exact ⟨b, st, rfl, hS⟩
    | cons x xs ih =>
        obtain ⟨n, rfl⟩ := Nat.exists_eq_add_of_lt hn
        refine delivers_bind (hstep x (hxs List.mem_cons_self) xs a) fun next => ?_
        rintro st ⟨b, rfl, hI⟩
        exact ih (fun y hy => hxs (List.mem_cons_of_mem x hy)) b (xs.length + 1 + n) (by omega)
          st hI
  intro st hI
  exact hwithin items (List.Subset.refl _) a _ (Nat.lt_succ_of_le (hlength st hI)) st hI

section Collects

variable {R R' : α → γ → Prop} {found : List α} {left items : List γ}

/-- What a loop has found, latest first, goes together with the first of the items; others are
left. -/
def Collects (R : α → γ → Prop) (found : List α) (left items : List γ) : Prop :=
  ∃ done, List.Forall₂ R found.reverse done ∧ done ++ left = items

theorem Collects.start (items : List γ) : Collects R [] items items :=
  ⟨[], .nil, rfl⟩

theorem Collects.append {new : List α} {l : List γ} (h : Collects R found (l ++ left) items)
    (hnew : List.Forall₂ R new l) : Collects R (new.reverse ++ found) left items := by
  obtain ⟨done, hdone, rfl⟩ := h
  refine ⟨done ++ l, ?_, List.append_assoc done l left⟩
  rw [List.reverse_append, List.reverse_reverse]
  exact List.rel_append hdone hnew

theorem Collects.cons {a : α} {x : γ} (h : Collects R found (x :: left) items) (ha : R a x) :
    Collects R (a :: found) left items :=
  Collects.append (l := [x]) h (.cons ha .nil)

theorem Collects.all (h : Collects R found [] items) : List.Forall₂ R found.reverse items := by
  obtain ⟨done, hdone, rfl⟩ := h
  rwa [List.append_nil]

theorem Collects.imp (h : Collects R found left items) (hR : ∀ a x, R a x → R' a x) :
    Collects R' found left items := by
  obtain ⟨done, hdone, heq⟩ := h
  exact ⟨done, hdone.imp hR, heq⟩

theorem length_le_flatMap {f : γ → List β} (hf : ∀ x ∈ items, f x ≠ []) :
    items.length ≤ (items.flatMap f).length := by
  induction items with
  | nil => exact Nat.zero_le _
  | cons x xs ih =>
      have hx := List.length_pos_iff.2 (hf x List.mem_cons_self)
      have hxs := ih fun y hy => hf y (List.mem_cons_of_mem x hy)
      rw [List.flatMap_cons, List.length_append, List.length_cons]
      omega

end Collects

section Ahead

variable {C D : Shader → List (List VarId) → Prop} {E : α → Shader → List (List VarId) → Prop}
  {k : TokenKind} {ks : List TokenKind} {rest : List Token} {st : ParserState} {p : Punct}

/-- Tokens of the given kinds come next, with `rest` behind them, and the shader and the scopes have
a property. -/
def Ahead (ks : List TokenKind) (rest : List Token) (C : Shader → List (List VarId) → Prop)
    (st : ParserState) : Prop :=
  (∃ words : List Token, words.map Token.kind = ks ∧ st.tokens = words ++ rest) ∧
    C st.shader st.scopes

theorem Ahead.imp (h : Ahead ks rest C st) (hD : C st.shader st.scopes → D st.shader st.scopes) :
    Ahead ks rest D st :=
  ⟨h.1, hD h.2⟩

theorem Ahead.exists_cons (h : Ahead (k :: ks) rest C st) :
    ∃ place tokens, st.tokens = ⟨k, place⟩ :: tokens ∧ Ahead ks rest C { st with tokens } := by
  obtain ⟨⟨words, hwords, htokens⟩, hC⟩ := h
  cases words with
  | nil => cases hwords
  | cons w words =>
      obtain ⟨kind, place⟩ := w
      cases hwords
      exact ⟨place, words ++ rest, htokens, ⟨words, rfl, rfl⟩, hC⟩

theorem Ahead.kindAt (h : Ahead (k :: ks) rest C st) : kindAt st.tokens = k := by
  obtain ⟨place, tokens, htokens, _⟩ := h.exists_cons
  rw [htokens]
  rfl

theorem Ahead.length_le (h : Ahead ks rest C st) : ks.length ≤ st.tokens.length := by
  obtain ⟨⟨words, rfl, htokens⟩, _⟩ := h
  simp [htokens]

theorem Ahead.run_peek (h : Ahead (k :: ks) rest C st) : peek.run st = .ok (k, st) := by
  rw [Parse.run_peek, h.kindAt]

theorem Ahead.run_name? {name : String} (h : Ahead (.ident name :: ks) rest C st) :
    name?.run st = .ok (some name, st) := by
  rw [Parse.run_name?, h.kindAt]

theorem run_at? (hk : kindAt st.tokens = .punct p) : (at? p).run st = .ok (true, st) := by
  rw [show (at? p).run st = .ok (kindAt st.tokens == .punct p, st) from rfl, hk, beq_self_eq_true]

theorem run_at?_other (hk : kindAt st.tokens ≠ .punct p) : (at? p).run st = .ok (false, st) := by
  rw [show (at? p).run st = .ok (kindAt st.tokens == .punct p, st) from rfl, beq_false_of_ne hk]

theorem run_take?_other (hk : kindAt st.tokens ≠ .punct p) : (take? p).run st = .ok (false, st) :=
  run_bind_of (run_at?_other hk)

theorem run_atAny?_mem {ps : List Punct} (hk : kindAt st.tokens = .punct p) (hp : p ∈ ps) :
    (atAny? ps).run st = .ok (true, st) := by
  rw [run_atAny?, hk]
  exact congrArg (fun b => Except.ok (b, st)) (List.contains_iff_mem.2 hp)

theorem run_atAny?_other {ps : List Punct} (hk : ∀ p ∈ ps, kindAt st.tokens ≠ .punct p) :
    (atAny? ps).run st = .ok (false, st) := by
  rw [run_atAny?]
  split
  · next q hq =>
      have hnot : ps.contains q = false :=
        Bool.eq_false_iff.2 fun h => hk q (List.contains_iff_mem.1 h) hq
      rw [hnot]
  · rfl

theorem delivers_advance (hk : k ≠ .endOfFile) :
    Delivers (Ahead (k :: ks) rest C) advance fun _ => Ahead ks rest C := by
  rintro ⟨tokens, s, scopes, calls⟩ h
  obtain ⟨place, tokens, rfl, hnext⟩ := h.exists_cons
  exact ⟨(), _, run_advance hk s scopes calls, hnext⟩

theorem delivers_take? (p : Punct) :
    Delivers (Ahead (.punct p :: ks) rest C) (take? p)
      fun b st => b = true ∧ Ahead ks rest C st := by
  refine delivers_bind_look (fun st h => run_at? h.kindAt) ?_
  refine delivers_bind (delivers_advance TokenKind.noConfusion) fun _ => ?_
  exact delivers_pure fun st h => ⟨rfl, h⟩

theorem delivers_expect (p : Punct) (what : Expected) :
    Delivers (Ahead (.punct p :: ks) rest C) (expect p what) fun _ => Ahead ks rest C :=
  delivers_bind_eq (delivers_take? p) (delivers_pure fun _ h => h)

theorem delivers_in_front {m : ParseM α}
    (hm : ∀ rest, Delivers (Ahead ks rest C) m fun a => Ahead [] rest (E a)) (ks' : List TokenKind)
    (rest : List Token) :
    Delivers (Ahead (ks ++ ks') rest C) m fun a => Ahead ks' rest (E a) := by
  rintro st ⟨⟨words, hwords, htokens⟩, hC⟩
  obtain ⟨w, w', rfl, rfl, rfl⟩ := List.map_eq_append_iff.1 hwords
  obtain ⟨a, st', hrun, ⟨words, hnil, hrest⟩, hE⟩ :=
    hm (w' ++ rest) st ⟨⟨w, rfl, by rw [htokens, List.append_assoc]⟩, hC⟩
  rw [List.map_eq_nil_iff.1 hnil] at hrest
  exact ⟨a, st', hrun, ⟨w', rfl, hrest⟩, hE⟩

end Ahead

end Parse

end ShaderBridge
