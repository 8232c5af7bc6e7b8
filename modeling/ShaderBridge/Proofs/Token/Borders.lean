import ShaderBridge.Proofs.Token.Locality

/-!
Texts put one behind the other, and their tokens. They are the tokens of the single texts if and
only if the lexer reads no token and no comment over a border between two texts.
-/

namespace ShaderBridge

open Lexeme

/-! ### What the lexer comes to -/

/-- The lexer reads a text up to an ending. White space goes character by character, all else lexeme
by lexeme. -/
inductive ReadsUpTo : List Char → List Char → Prop where
  | start (cs : List Char) : ReadsUpTo cs cs
  | blank {c : Char} {cs rest : List Char} (hc : isLexBlank c = true) (h : ReadsUpTo cs rest) :
      ReadsUpTo (c :: cs) rest
  | token {c : Char} {cs rest : List Char} (hc : isLexBlank c = false)
      (h : ReadsUpTo (cs.drop (lexeme c cs).extra) rest) : ReadsUpTo (c :: cs) rest

/-- A token or a comment of a text has characters on both sides of the border in front of an
ending. -/
def Crosses (cs ending : List Char) : Prop :=
  ∃ c rest, ReadsUpTo cs (c :: rest) ∧ isLexBlank c = false ∧ ending.length ≤ rest.length ∧
    (rest.drop (lexeme c rest).extra).length < ending.length

/-- Every token and comment of a text is read alike in front of what follows the text. -/
inductive StandsBefore (x : List Char) : List Char → Prop where
  | nil : StandsBefore x []
  | blank {c : Char} {r : List Char} (hc : isLexBlank c = true) (h : StandsBefore x r) :
      StandsBefore x (c :: r)
  | token {c : Char} {r : List Char} (hc : isLexBlank c = false)
      (hlexeme : lexeme c (r ++ x) = lexeme c r)
      (h : StandsBefore x (r.drop (lexeme c r).extra)) : StandsBefore x (c :: r)

variable {x r s : List Char}

theorem ReadsUpTo.trans (h : ReadsUpTo x r) (h' : ReadsUpTo r s) : ReadsUpTo x s := by
  induction h with
  | start => exact h'
  | blank hc _ ih => exact .blank hc (ih h')
  | token hc _ ih => exact .token hc (ih h')

theorem StandsBefore.readsUpTo (h : StandsBefore x r) : ReadsUpTo (r ++ x) x := by
  induction h with
  | nil => exact .start x
  | blank hc _ ih => exact .blank hc ih
  | @token c r hc hlexeme _ ih =>
      have hdrop : (r ++ x).drop (lexeme c (r ++ x)).extra = r.drop (lexeme c r).extra ++ x := by
        rw [hlexeme, List.drop_append_of_le_length (extra_lexeme_le c r)]
      exact List.cons_append ▸ .token hc (hdrop ▸ ih)

theorem StandsBefore.split (h : StandsBefore x r) (hr : ReadsUpTo (r ++ x) s) :
    ReadsUpTo x s ∨ ∃ c rest, s = c :: rest ∧ x.length ≤ rest.length ∧
      (isLexBlank c = false → x.length ≤ (rest.drop (lexeme c rest).extra).length) := by
  induction h with
  | nil => exact .inl hr
  | @blank c r hc _ ih =>
      cases hr with
      | start =>
          exact .inr ⟨c, r ++ x, rfl, by simp, fun hc' => absurd (hc.symm.trans hc') (by decide)⟩
      | blank _ hr => exact ih hr
      | token hc' => cases hc.symm.trans hc'
  | @token c r hc hlexeme _ ih =>
      have hdrop : (r ++ x).drop (lexeme c (r ++ x)).extra = r.drop (lexeme c r).extra ++ x := by
        rw [hlexeme, List.drop_append_of_le_length (extra_lexeme_le c r)]
      cases hr with
      | start => exact .inr ⟨c, r ++ x, rfl, by simp, fun _ => by simp [hdrop]⟩
      | blank hc' => cases hc.symm.trans hc'
      | token _ hr => exact ih (hdrop ▸ hr)

theorem standsBefore_of_not_crosses (h : ¬Crosses (r ++ x) x) : StandsBefore x r := by
  induction hn : r.length using Nat.strong_induction_on generalizing r with
  | _ n ih =>
  cases r with
  | nil => exact .nil
  | cons c r =>
      rw [List.length_cons] at hn
      cases hc : isLexBlank c with
      | true =>
          refine .blank hc (ih r.length (by omega) ?_ rfl)
          rintro ⟨d, rest, hr, hd⟩
          exact h ⟨d, rest, .blank hc hr, hd⟩
      | false =>
          have hextra : (lexeme c (r ++ x)).extra ≤ r.length := by
            by_contra hlong
            refine h ⟨c, r ++ x, .start _, hc, by simp, ?_⟩
            have := extra_lexeme_le c (r ++ x)
            rw [List.length_append] at this
            rw [List.length_drop, List.length_append]
            omega
          have hlexeme := lexeme_of_append hextra
          rw [← hlexeme] at hextra
          refine .token hc hlexeme.symm (ih _ (by rw [List.length_drop]; omega) ?_ rfl)
          rintro ⟨d, rest, hr, hd⟩
          refine h ⟨d, rest, List.cons_append ▸ .token hc ?_, hd⟩
          rwa [← hlexeme, List.drop_append_of_le_length hextra]

/-! ### Steps -/

variable {c : Char} {cs : List Char} {offset extra : Nat} {front behind tokens : List Token}

theorem tokensFrom_nil (offset : Nat) :
    tokensFrom offset [] = .ok [⟨.endOfFile, ⟨offset, offset⟩⟩] := by
  rw [tokensFrom]

theorem tokensFrom_of_blank (h : lexeme c cs = .blank extra) (offset : Nat) :
    tokensFrom offset (c :: cs) =
      tokensFrom (offset + byteLength (c :: cs.take extra)) (cs.drop extra) := by
  rw [tokensFrom, h]

theorem tokensFrom_of_token {kind : TokenKind} (h : lexeme c cs = .token kind extra)
    (offset : Nat) :
    tokensFrom offset (c :: cs) =
      (⟨kind, ⟨offset, offset + byteLength (c :: cs.take extra)⟩⟩ :: ·) <$>
        tokensFrom (offset + byteLength (c :: cs.take extra)) (cs.drop extra) := by
  rw [tokensFrom, h]

theorem tokensFrom_token_eq_ok {kind : TokenKind} (h : lexeme c cs = .token kind extra)
    (hrest : tokensFrom (offset + byteLength (c :: cs.take extra)) (cs.drop extra) = .ok tokens) :
    tokensFrom offset (c :: cs) =
      .ok (⟨kind, ⟨offset, offset + byteLength (c :: cs.take extra)⟩⟩ :: tokens) := by
  rw [tokensFrom_of_token h, hrest]
  rfl

theorem tokensFrom_of_fault {e : LexError} (h : lexeme c cs = .fault e extra) (offset : Nat) :
    tokensFrom offset (c :: cs) =
      .error (e, ⟨offset, offset + byteLength (c :: cs.take extra)⟩) := by
  rw [tokensFrom, h]

theorem byteLength_cons_take (c : Char) (cs : List Char) (n : Nat) :
    byteLength (c :: cs.take n) + byteLength (cs.drop n) = byteLength (c :: cs) := by
  rw [← byteLength_append, List.cons_append, List.take_append_drop]

theorem tokensFrom_induction {P : Nat → List Char → Prop} (nil : ∀ offset, P offset [])
    (blank : ∀ offset c cs extra, lexeme c cs = .blank extra →
      P (offset + byteLength (c :: cs.take extra)) (cs.drop extra) → P offset (c :: cs))
    (token : ∀ offset c cs kind extra, lexeme c cs = .token kind extra →
      P (offset + byteLength (c :: cs.take extra)) (cs.drop extra) → P offset (c :: cs))
    (fault : ∀ offset c cs e extra, lexeme c cs = .fault e extra → P offset (c :: cs))
    (offset : Nat) (cs : List Char) : P offset cs := by
  induction hn : cs.length using Nat.strong_induction_on generalizing offset cs with
  | _ n ih =>
  cases cs with
  | nil => exact nil offset
  | cons c cs =>
      rw [List.length_cons] at hn
      have hdrop (extra offset : Nat) : P offset (cs.drop extra) :=
        ih _ (by rw [List.length_drop]; omega) _ _ rfl
      cases h : lexeme c cs with
      | blank extra => exact blank _ _ _ _ h (hdrop _ _)
      | token kind extra => exact token _ _ _ _ _ h (hdrop _ _)
      | fault e extra => exact fault _ _ _ _ _ h

theorem exists_first_of_tokensFrom (h : tokensFrom offset cs = .ok tokens) :
    ∃ first rest, tokens = first :: rest ∧ offset ≤ first.span.start := by
  induction offset, cs using tokensFrom_induction generalizing tokens with
  | nil offset =>
      cases (tokensFrom_nil offset).symm.trans h
      exact ⟨_, _, rfl, Nat.le_refl offset⟩
  | blank offset c cs extra hlexeme ih =>
      rw [tokensFrom_of_blank hlexeme] at h
      obtain ⟨first, rest, rfl, hstart⟩ := ih h
      exact ⟨first, rest, rfl, by omega⟩
  | token offset c cs kind extra hlexeme ih =>
      rw [tokensFrom_of_token hlexeme] at h
      obtain ⟨rest, -, rfl⟩ := exceptMap_eq_ok.mp h
      exact ⟨_, _, rfl, Nat.le_refl offset⟩
  | fault offset c cs e extra hlexeme => cases (tokensFrom_of_fault hlexeme offset).symm.trans h

/-! ### Two texts -/

theorem map_append_eq_ok {ε α : Type} (front : List α) {behind : List α} {r : Except ε (List α)}
    (h : (front ++ ·) <$> r = .ok (front ++ behind)) : r = .ok behind := by
  obtain ⟨rest, hrest, heq⟩ := exceptMap_eq_ok.mp h
  rw [hrest, List.append_cancel_left heq]

theorem StandsBefore.tokensFrom_append (h : StandsBefore x r)
    (htokens : tokensFrom offset r = .ok tokens) :
    tokensFrom offset (r ++ x) =
      (tokens.dropLast ++ ·) <$> tokensFrom (offset + byteLength r) x := by
  induction h generalizing offset tokens with
  | nil =>
      cases (tokensFrom_nil offset).symm.trans htokens
      exact (nil_map_append _).symm
  | blank hc _ ih =>
      rw [tokensFrom_blank hc] at htokens
      rw [List.cons_append, tokensFrom_blank hc, ih htokens, byteLength_cons, Nat.add_assoc]
  | @token c r hc hlexeme _ ih =>
      have hextra := extra_lexeme_le c r
      rw [List.cons_append, ← byteLength_cons_take c r (lexeme c r).extra, ← Nat.add_assoc]
      have htake : (r ++ x).take _ = r.take _ := List.take_append_of_le_length hextra
      have hdrop : (r ++ x).drop _ = r.drop _ ++ x := List.drop_append_of_le_length hextra
      cases hr : lexeme c r with
      | blank extra =>
          rw [hr] at hlexeme htake hdrop ih
          rw [tokensFrom_of_blank hr] at htokens
          rw [tokensFrom_of_blank hlexeme]
          dsimp only [Lexeme.extra] at htake hdrop ih ⊢
          rw [htake, hdrop, ih htokens]
      | token kind extra =>
          rw [hr] at hlexeme htake hdrop ih
          rw [tokensFrom_of_token hr] at htokens
          rw [tokensFrom_of_token hlexeme]
          obtain ⟨rest, hrest, rfl⟩ := exceptMap_eq_ok.mp htokens
          obtain ⟨next, behind, rfl, -⟩ := exists_first_of_tokensFrom hrest
          dsimp only [Lexeme.extra] at htake hdrop ih ⊢
          rw [htake, hdrop, ih hrest]
          exact append_map_append [_] _ _
      | fault e extra => cases (tokensFrom_of_fault hr offset).symm.trans htokens

theorem opensComment_or_continuesLine (hc : isLexBlank c = false)
    (h : lexeme c cs = .blank extra) : OpensComment c cs ∨ ContinuesLine c cs := by
  have hofExcept (n : Nat) (result : Except LexError TokenKind) :
      ofExcept n result ≠ .blank extra := by
    cases result <;> exact nofun
  by_contra hnone
  rw [not_or] at hnone
  by_cases hword : isWordStart c
  · cases (lexeme_of_isWordStart hword cs).symm.trans h
  cases hscan : Numeral.scan? (c :: cs) with
  | some found => exact hofExcept _ _ ((lexeme_number hc hword hscan).symm.trans h)
  | none =>
      by_cases hdirective : c = '#'
      · subst hdirective
        exact hofExcept _ _ ((lexeme_directive cs).symm.trans h)
      rw [lexeme_of_no_special hc hword hscan hdirective hnone.1 hnone.2] at h
      split at h <;> cases h

theorem ContinuesLine.lexeme_append (h : ContinuesLine c r) (x : List Char) :
    lexeme c (r ++ x) = lexeme c r := by
  obtain ⟨rfl, behind, rfl | rfl⟩ := h <;> rfl

/-- A comment is read in a text. -/
def HasComment (cs : List Char) : Prop :=
  ∃ c rest, ReadsUpTo cs (c :: rest) ∧ OpensComment c rest

theorem byteLength_cons_lt_of_length_lt {n : Nat} (c : Char) (hlong : r.length < n)
    (hn : n ≤ (r ++ x).length) : byteLength (c :: r) < byteLength (c :: (r ++ x).take n) := by
  rw [List.take_append, List.take_of_length_le (Nat.le_of_lt hlong), byteLength_cons,
    byteLength_cons, byteLength_append]
  rw [List.length_append] at hn
  cases x with
  | nil =>
      rw [List.length_nil] at hn
      omega
  | cons d x =>
      obtain ⟨k, hk⟩ := Nat.exists_eq_add_of_lt hlong
      rw [show n - r.length = k + 1 by omega, List.take_succ_cons, byteLength_cons]
      have := d.utf8Size_pos
      omega

theorem extra_le_of_tokensFrom {kind : TokenKind} {n : Nat}
    (h : tokensFrom offset (c :: (r ++ x)) =
      .ok (⟨kind, ⟨offset, offset + byteLength (c :: r.take n)⟩⟩ :: tokens)) :
    (lexeme c (r ++ x)).extra ≤ r.length := by
  by_contra hlong
  rw [not_le] at hlong
  cases hx : lexeme c (r ++ x) with
  | blank extra =>
      rw [tokensFrom_of_blank hx] at h
      obtain ⟨first, rest, heq, hstart⟩ := exists_first_of_tokensFrom h
      obtain ⟨rfl, -⟩ := List.cons.inj heq
      have := c.utf8Size_pos
      rw [byteLength_cons] at hstart
      dsimp only at hstart
      omega
  | token kind' extra =>
      rw [tokensFrom_of_token hx] at h
      obtain ⟨rest, -, heq⟩ := exceptMap_eq_ok.mp h
      have hstop := congrArg (fun token => token.span.stop) (List.cons.inj heq).1
      have hextra := extra_lexeme_le c (r ++ x)
      rw [hx] at hlong hextra
      have hlonger := byteLength_cons_lt_of_length_lt c hlong hextra
      have := byteLength_cons_take c r n
      dsimp only [Lexeme.extra] at hstop hlonger
      omega
  | fault e extra => cases (tokensFrom_of_fault hx offset).symm.trans h

theorem standsBefore_of_tokensFrom (hcomment : ¬HasComment r)
    (htokens : tokensFrom offset r = .ok tokens)
    (h : tokensFrom offset (r ++ x) = .ok (tokens.dropLast ++ behind)) : StandsBefore x r := by
  -- By length, since a token may take many characters. The tokens of both texts agree up to the end
  -- of the first, hence no token of the first is longer in front of the second.
  induction hn : r.length using Nat.strong_induction_on generalizing offset r tokens with
  | _ n ih =>
  cases r with
  | nil => exact .nil
  | cons c r =>
      rw [List.length_cons] at hn
      cases hc : isLexBlank c with
      | true =>
          rw [tokensFrom_blank hc] at htokens
          rw [List.cons_append, tokensFrom_blank hc] at h
          refine .blank hc (ih r.length (by omega) ?_ htokens h rfl)
          rintro ⟨d, rest, hread, hopens⟩
          exact hcomment ⟨d, rest, .blank hc hread, hopens⟩
      | false =>
          have hinside : ¬HasComment (r.drop (lexeme c r).extra) := by
            rintro ⟨d, rest, hread, hopens⟩
            exact hcomment ⟨d, rest, .token hc hread, hopens⟩
          have hlength : (r.drop (lexeme c r).extra).length < n := by
            rw [List.length_drop]
            omega
          have hextra := extra_lexeme_le c r
          have htake : (r ++ x).take _ = r.take _ := List.take_append_of_le_length hextra
          have hdrop : (r ++ x).drop _ = r.drop _ ++ x := List.drop_append_of_le_length hextra
          rw [List.cons_append] at h
          cases hr : lexeme c r with
          | blank extra =>
              have hcontinues : ContinuesLine c r := by
                rcases opensComment_or_continuesLine hc hr with hopens | hcontinues
                · exact absurd ⟨c, r, .start _, hopens⟩ hcomment
                · exact hcontinues
              have hlexeme := hcontinues.lexeme_append x
              rw [tokensFrom_of_blank hr] at htokens
              rw [tokensFrom_of_blank (hlexeme.trans hr)] at h
              rw [hr] at hinside hlength hdrop htake
              dsimp only [Lexeme.extra] at hinside hlength hdrop htake
              rw [hdrop, htake] at h
              refine .token hc hlexeme ?_
              rw [hr]
              exact ih _ hlength hinside htokens h rfl
          | token kind extra =>
              rw [tokensFrom_of_token hr] at htokens
              obtain ⟨rest, hrest, rfl⟩ := exceptMap_eq_ok.mp htokens
              obtain ⟨next, rest', rfl, -⟩ := exists_first_of_tokensFrom hrest
              have hlexeme := (lexeme_of_append (extra_le_of_tokensFrom h)).symm
              rw [tokensFrom_of_token (hlexeme.trans hr)] at h
              rw [hr] at hinside hlength hdrop htake
              dsimp only [Lexeme.extra] at hinside hlength hdrop htake
              rw [hdrop, htake] at h
              refine .token hc hlexeme ?_
              rw [hr]
              exact ih _ hlength hinside hrest (map_append_eq_ok [_] h) rfl
          | fault e extra => cases (tokensFrom_of_fault hr offset).symm.trans htokens

/-! ### All texts -/

/-- The tokens that the lexer reads from each text alone, in the places that they have where the
texts are put one behind the other. There is one end of file, behind all of them. -/
def tokensApart (offset : Nat) : List (List Char) → Except (LexError × Span) (List Token)
  | [] => .ok [⟨.endOfFile, ⟨offset, offset⟩⟩]
  | text :: texts => do
    let front ← tokensFrom offset text
    (front.dropLast ++ ·) <$> tokensApart (offset + byteLength text) texts

theorem tokensApart_cons_eq_ok {text : List Char} {texts : List (List Char)} :
    tokensApart offset (text :: texts) = .ok tokens ↔
      ∃ front behind, tokensFrom offset text = .ok front ∧
        tokensApart (offset + byteLength text) texts = .ok behind ∧
          front.dropLast ++ behind = tokens := by
  show tokensFrom offset text >>= _ = _ ↔ _
  simp only [exceptBind_eq_ok, exceptMap_eq_ok, exists_and_left]

/-- No token and no comment has characters of two texts. -/
def KeepsBorders (texts : List (List Char)) : Prop :=
  ∀ front back, texts = front ++ back → ¬Crosses texts.flatten back.flatten

variable {text : List Char} {texts : List (List Char)}

theorem ReadsUpTo.length_le (h : ReadsUpTo r s) : s.length ≤ r.length := by
  induction h with
  | start => exact Nat.le_refl _
  | blank _ _ ih => exact Nat.le_succ_of_le ih
  | token _ _ ih =>
      rw [List.length_drop] at ih
      rw [List.length_cons]
      omega

theorem Crosses.prepend (h : StandsBefore x r) (hx : Crosses x s) : Crosses (r ++ x) s := by
  obtain ⟨c, rest, hread, hcrosses⟩ := hx
  exact ⟨c, rest, h.readsUpTo.trans hread, hcrosses⟩

theorem KeepsBorders.standsBefore (h : KeepsBorders (text :: texts)) :
    StandsBefore texts.flatten text :=
  standsBefore_of_not_crosses (h [text] texts rfl)

theorem keepsBorders_cons :
    KeepsBorders (text :: texts) ↔ StandsBefore texts.flatten text ∧ KeepsBorders texts := by
  constructor
  · intro h
    refine ⟨h.standsBefore, ?_⟩
    rintro front back rfl hcrosses
    exact h (text :: front) back rfl (hcrosses.prepend h.standsBefore)
  · rintro ⟨hstands, hkeeps⟩ (_ | ⟨_, front⟩) back hsplit
    · subst hsplit
      rintro ⟨c, rest, hread, -, hlength, -⟩
      exact absurd hread.length_le (Nat.not_le_of_gt (Nat.lt_succ_of_le hlength))
    · obtain ⟨rfl, rfl⟩ := List.cons.inj hsplit
      rintro ⟨c, rest, hread, hc, hlength, hcrosses⟩
      rcases hstands.split hread with hread | ⟨d, rest', heq, -, hends⟩
      · exact hkeeps front back rfl ⟨c, rest, hread, hc, hlength, hcrosses⟩
      · cases heq
        have hlong : (front ++ back).flatten.length ≤ _ := hends hc
        rw [List.flatten_append, List.length_append] at hlong
        omega

theorem keepsBorders_nil : KeepsBorders [] := by
  rintro front back hsplit ⟨c, rest, hread, -⟩
  cases hread

/-- Where no token and no comment has characters of two texts, the tokens of all texts together are
those of the single texts. -/
theorem KeepsBorders.tokensFrom_flatten (h : KeepsBorders texts)
    (htokens : tokensApart offset texts = .ok tokens) :
    tokensFrom offset texts.flatten = .ok tokens := by
  induction texts generalizing offset tokens with
  | nil => exact (tokensFrom_nil offset).trans htokens
  | cons text texts ih =>
      obtain ⟨hstands, hkeeps⟩ := keepsBorders_cons.mp h
      obtain ⟨front, behind, hfront, hbehind, rfl⟩ := tokensApart_cons_eq_ok.mp htokens
      rw [List.flatten_cons, hstands.tokensFrom_append hfront, ih hkeeps hbehind]
      rfl

/-- And only there, if the single texts have no comments. -/
theorem keepsBorders_of_tokensFrom_flatten (hcomments : ∀ text ∈ texts, ¬HasComment text)
    (htokens : tokensApart offset texts = .ok tokens)
    (h : tokensFrom offset texts.flatten = .ok tokens) : KeepsBorders texts := by
  induction texts generalizing offset tokens with
  | nil => exact keepsBorders_nil
  | cons text texts ih =>
      obtain ⟨hcomment, hcomments⟩ := List.forall_mem_cons.mp hcomments
      obtain ⟨front, behind, hfront, hbehind, rfl⟩ := tokensApart_cons_eq_ok.mp htokens
      have hstands := standsBefore_of_tokensFrom hcomment hfront h
      rw [List.flatten_cons, hstands.tokensFrom_append hfront] at h
      exact keepsBorders_cons.mpr ⟨hstands, ih hcomments hbehind (map_append_eq_ok _ h)⟩

end ShaderBridge
