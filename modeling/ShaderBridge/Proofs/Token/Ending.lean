import ShaderBridge.Token.Lexer
import Mathlib.Data.List.Basic
import Mathlib.Data.List.TakeWhile

/-! ## Lexemes one after the other -/

namespace ShaderBridge

/-- Wherever a text begins, it consists of tokens with a property. -/
def Lexes (cs : List Char) (P : List Token → Prop) : Prop :=
  ∀ offset, ∃ tokens, tokensFrom offset cs = .ok tokens ∧ P tokens

/-- A token of a kind comes first, and what follows has a property. -/
def FirstIs (kind : TokenKind) (P : List Token → Prop) (tokens : List Token) : Prop :=
  ∃ place rest, tokens = ⟨kind, place⟩ :: rest ∧ P rest

variable {P Q : List Token → Prop} {c : Char} {cs : List Char}

theorem Lexes.imp (h : Lexes cs P) (hPQ : ∀ tokens, P tokens → Q tokens) : Lexes cs Q := by
  intro offset
  obtain ⟨tokens, htokens, hP⟩ := h offset
  exact ⟨tokens, htokens, hPQ tokens hP⟩

theorem lexes_nil : Lexes [] fun tokens => ∃ place, tokens = [⟨.endOfFile, place⟩] := by
  intro offset
  rw [tokensFrom]
  exact ⟨_, rfl, _, rfl⟩

theorem lexes_token {kind : TokenKind} {extra : Nat} (h : lexeme c cs = .token kind extra)
    (hrest : Lexes (cs.drop extra) P) : Lexes (c :: cs) (FirstIs kind P) := by
  intro offset
  rw [tokensFrom, h]
  obtain ⟨tokens, htokens, hP⟩ := hrest (offset + byteLength (c :: cs.take extra))
  dsimp only
  rw [htokens]
  exact ⟨_, rfl, _, _, rfl, hP⟩

theorem lexes_mark (p : Punct) (h : lexeme c cs = .token (.punct p) 0) (hrest : Lexes cs P) :
    Lexes (c :: cs) (FirstIs (.punct p) P) :=
  lexes_token h hrest

theorem lexeme_of_isLexBlank (hc : Lexeme.isLexBlank c) (cs : List Char) :
    lexeme c cs = .blank (cs.takeWhile Lexeme.isLexBlank).length := by
  unfold lexeme
  rw [if_pos hc]

theorem drop_length_takeWhile {α : Type} (p : α → Bool) (l : List α) :
    l.drop (l.takeWhile p).length = l.dropWhile p := by
  induction l with
  | nil => rfl
  | cons a l ih =>
      rw [List.takeWhile_cons, List.dropWhile_cons]
      split
      · rw [List.length_cons, List.drop_succ_cons, ih]
      · rfl

theorem tokensFrom_blank (hc : Lexeme.isLexBlank c) (offset : Nat) (cs : List Char) :
    tokensFrom offset (c :: cs) = tokensFrom (offset + c.utf8Size) cs := by
  rw [tokensFrom, lexeme_of_isLexBlank hc]
  dsimp only
  cases cs with
  | nil => rfl
  | cons b cs =>
      by_cases hb : Lexeme.isLexBlank b
      · rw [tokensFrom, lexeme_of_isLexBlank hb]
        dsimp only
        rw [List.takeWhile_cons, if_pos hb, List.length_cons, List.drop_succ_cons,
          List.take_succ_cons, byteLength_cons, Nat.add_assoc]
      · rw [List.takeWhile_cons, if_neg hb]
        rfl

theorem lexes_blank (hc : Lexeme.isLexBlank c) (hrest : Lexes cs P) : Lexes (c :: cs) P := by
  intro offset
  rw [tokensFrom_blank hc]
  exact hrest _

theorem lexeme_of_isWordStart (hc : isWordStart c) (cs : List Char) :
    lexeme c cs = .token (Lexeme.ofWord (String.ofList (c :: cs.takeWhile isWordChar)))
      (cs.takeWhile isWordChar).length := by
  have hblank : Lexeme.isLexBlank c = false := by
    simp only [Lexeme.isLexBlank, Bool.or_eq_false_iff, beq_eq_false_iff_ne]
    refine ⟨⟨⟨⟨?_, ?_⟩, ?_⟩, ?_⟩, ?_⟩ <;>
    · rintro rfl
      exact absurd hc (by decide)
  unfold lexeme
  rw [if_neg (by rw [hblank]; exact Bool.false_ne_true), if_pos hc]

theorem lexes_word {w : List Char} (hc : isWordStart c) (hw : ∀ x ∈ w, isWordChar x)
    (hend : ∀ x ∈ cs.head?, isWordChar x = false) (hrest : Lexes cs P) :
    Lexes (c :: (w ++ cs)) (FirstIs (Lexeme.ofWord (String.ofList (c :: w))) P) := by
  have htake : (w ++ cs).takeWhile isWordChar = w := by
    rw [List.takeWhile_append_of_pos hw]
    cases cs with
    | nil => exact List.append_nil w
    | cons x cs =>
        rw [List.takeWhile_cons, hend x rfl]
        exact List.append_nil w
  have hlexeme : lexeme c (w ++ cs) =
      .token (Lexeme.ofWord (String.ofList (c :: w))) w.length := by
    rw [lexeme_of_isWordStart hc, htake]
  exact lexes_token hlexeme (by rwa [List.drop_left])

end ShaderBridge

/-! ## Where a lexeme ends -/

namespace ShaderBridge

/-- Whether a character separates lexemes: the blank, and the slash that may open a comment. -/
def Separates (d : Char) : Prop :=
  d = '/' ∨ d = ' '

theorem Separates.not_isWordChar {d : Char} (hd : Separates d) : isWordChar d = false := by
  rcases hd with rfl | rfl <;> rfl

theorem Separates.not_isDigit {d : Char} (hd : Separates d) : isDigit d = false := by
  rcases hd with rfl | rfl <;> rfl

theorem Separates.not_isHexDigit {d : Char} (hd : Separates d) : isHexDigit d = false := by
  rcases hd with rfl | rfl <;> rfl

section

variable {α : Type} {p : α → Bool} {d : α} (hd : p d = false) (q x : List α)
include hd

theorem takeWhile_append_cons : (q ++ d :: x).takeWhile p = q.takeWhile p := by
  induction q with
  | nil => simp [hd]
  | cons a q ih => simp [List.takeWhile_cons, ih]

theorem dropWhile_append_cons : (q ++ d :: x).dropWhile p = q.dropWhile p ++ d :: x := by
  induction q with
  | nil => simp [hd]
  | cons a q ih =>
      rw [List.cons_append, List.dropWhile_cons, List.dropWhile_cons, ih]
      split <;> rfl

end

/-! ### Numbers -/

namespace Numeral

section

variable {d : Char} (hd : Separates d) (q x : List Char)
include hd

theorem scan_append_cons : IntSuffix.scan (q ++ d :: x) = IntSuffix.scan q := by
  match q with
  | [] => rcases hd with rfl | rfl <;> cases x <;> rfl
  | [a] =>
      have hlower : d.toLower = d := by rcases hd with rfl | rfl <;> rfl
      have hu : d ≠ 's' ∧ d ≠ 'l' := by rcases hd with rfl | rfl <;> decide
      simp only [List.cons_append, List.nil_append, IntSuffix.scan, hlower]
      split <;> simp_all
  | a :: b :: q => rfl

theorem realSuffix?_append_cons : realSuffix? (q ++ d :: x) = realSuffix? q := by
  have hf : d ≠ 'f' ∧ d ≠ 'F' := by rcases hd with rfl | rfl <;> decide
  match q with
  | [] => rcases hd with rfl | rfl <;> rfl
  | [a] =>
      simp only [List.cons_append, List.nil_append, realSuffix?]
      split <;> simp_all
  | a :: b :: q =>
      simp only [List.cons_append, realSuffix?]
      split <;> simp_all

theorem exponent?_append_cons : exponent? (q ++ d :: x) = exponent? q := by
  have hsign : d ≠ '+' ∧ d ≠ '-' := by rcases hd with rfl | rfl <;> decide
  match q with
  | [] => rcases hd with rfl | rfl <;> rfl
  | [a] =>
      simp only [List.cons_append, List.nil_append, exponent?]
      split <;> simp_all [hd.not_isDigit]
  | a :: b :: q =>
      simp only [List.cons_append, exponent?]
      split
      · by_cases hplus : b = '+'
        · subst hplus
          simp only [takeWhile_append_cons hd.not_isDigit]
        · by_cases hminus : b = '-'
          · subst hminus
            simp only [takeWhile_append_cons hd.not_isDigit]
          · have h := takeWhile_append_cons hd.not_isDigit (b :: q) x
            simp_all
      · rfl

theorem hexadecimal?_append_cons : hexadecimal? (q ++ d :: x) = hexadecimal? q := by
  match q with
  | [] => rcases hd with rfl | rfl <;> rfl
  | a :: q =>
      simp only [List.cons_append, hexadecimal?, takeWhile_append_cons hd.not_isHexDigit,
        dropWhile_append_cons hd.not_isHexDigit, scan_append_cons hd]

end

/-! No part of a number is longer than the text it is read from. -/

theorem scan_length_le (q : List Char) : (IntSuffix.scan q).2 ≤ q.length := by
  match q with
  | [] => exact Nat.le_refl 0
  | [a] =>
      simp only [IntSuffix.scan]
      split <;> simp
  | a :: b :: q =>
      simp only [IntSuffix.scan]
      split <;> simp

theorem realSuffix?_length_le {q : List Char} {kind : RealKind} {n : Nat}
    (h : realSuffix? q = some (kind, n)) : n ≤ q.length := by
  unfold realSuffix? at h
  split at h <;> cases h <;> simp

theorem exponent?_length_le {q : List Char} {e : Int} {n : Nat}
    (h : exponent? q = some (e, n)) : n ≤ q.length := by
  -- The digits are what is left behind the sign, if there is one.
  have hdigits (sign : Nat) (rest cs : List Char) (hrest : sign + rest.length = cs.length) {m : Int}
      (h : (if (rest.takeWhile isDigit).isEmpty then none
        else some (m, 1 + sign + (rest.takeWhile isDigit).length)) = some (e, n)) :
      n ≤ cs.length + 1 := by
    have := (List.takeWhile_sublist isDigit (l := rest)).length_le
    split at h
    · cases h
    · cases h
      omega
  match q with
  | [] => cases h
  | a :: cs =>
      simp only [exponent?] at h
      split at h
      · split at h
        · exact hdigits 1 _ _ (Nat.add_comm _ _) h
        · exact hdigits 1 _ _ (Nat.add_comm _ _) h
        · exact hdigits 0 _ _ (Nat.zero_add _) h
      · cases h

theorem getD_length_le {α : Type} {found : Option (α × Nat)} {m : Nat} (a : α)
    (h : ∀ b n, found = some (b, n) → n ≤ m) : (found.getD (a, 0)).2 ≤ m := by
  cases found with
  | none => exact Nat.zero_le m
  | some found => exact h found.1 found.2 rfl

theorem realTail_length (whole fraction q : List Char) : (realTail whole fraction q).2 =
    ((exponent? q).getD (0, 0)).2 +
      ((realSuffix? (q.drop ((exponent? q).getD (0, 0)).2)).getD (.float, 0)).2 := rfl

theorem realTail_length_le (whole fraction q : List Char) :
    (realTail whole fraction q).2 ≤ q.length := by
  have hexponent := getD_length_le 0 fun _ _ (h : exponent? q = _) => exponent?_length_le h
  have hsuffix := getD_length_le RealKind.float fun _ _
    (h : realSuffix? (q.drop ((exponent? q).getD (0, 0)).2) = _) => realSuffix?_length_le h
  rw [List.length_drop] at hsuffix
  rw [realTail_length]
  omega

theorem takeWhile_add_dropWhile {α : Type} (p : α → Bool) (q : List α) :
    (q.takeWhile p).length + (q.dropWhile p).length = q.length := by
  rw [← List.length_append, List.takeWhile_append_dropWhile]

theorem hexadecimal?_length_le {q : List Char} {numeral : Numeral} {n : Nat}
    (h : hexadecimal? q = some (numeral, n)) : n ≤ q.length := by
  cases q with
  | nil => cases h
  | cons a q =>
      have hdigits := takeWhile_add_dropWhile isHexDigit q
      have hsuffix := scan_length_le (q.dropWhile isHexDigit)
      simp only [hexadecimal?] at h
      split at h
      · cases h
        rw [List.length_cons]
        omega
      · cases h

theorem integerTail_length_le (digits q : List Char) : (integerTail digits q).2 ≤ q.length := by
  unfold integerTail
  split
  · exact realTail_length_le digits [] q
  · have hsuffix := scan_length_le q
    dsimp only
    split <;> exact hsuffix

theorem scan?_length_le {q : List Char} {numeral : Numeral} {n : Nat}
    (h : scan? q = some (numeral, n)) : n ≤ q.length := by
  have hdigits := takeWhile_add_dropWhile isDigit q
  unfold scan? at h
  dsimp only at h
  split at h
  · next rest hrest =>
      have hfraction := takeWhile_add_dropWhile isDigit rest
      have htail := realTail_length_le (q.takeWhile isDigit) (rest.takeWhile isDigit)
        (rest.dropWhile isDigit)
      rw [hrest, List.length_cons] at hdigits
      split at h
      · cases h
      · cases h
        omega
  · split at h
    · cases h
    · split at h
      · next hhex =>
          cases h
          split at hhex
          · next hzero =>
              have hlength := hexadecimal?_length_le hhex
              rw [hzero, List.length_singleton] at hdigits
              omega
          · cases hhex
      · cases h
        have htail := integerTail_length_le (q.takeWhile isDigit) (q.dropWhile isDigit)
        omega

theorem scan?_of_no_point {q : List Char} (h : ∀ rest, q.dropWhile isDigit ≠ '.' :: rest) :
    scan? q =
      if (q.takeWhile isDigit).isEmpty then none
      else
        match if q.takeWhile isDigit = ['0'] then hexadecimal? (q.dropWhile isDigit) else none with
        | some (numeral, n) => some (numeral, 1 + n)
        | none =>
          some ((integerTail (q.takeWhile isDigit) (q.dropWhile isDigit)).1,
            (q.takeWhile isDigit).length +
              (integerTail (q.takeWhile isDigit) (q.dropWhile isDigit)).2) := by
  unfold scan?
  dsimp only
  split
  · next rest hrest => exact absurd hrest (h rest)
  · rfl

section

variable {d : Char} (hd : Separates d) (q x : List Char)
include hd

theorem realTail_append_cons (whole fraction : List Char) :
    realTail whole fraction (q ++ d :: x) = realTail whole fraction q := by
  have hexponent := getD_length_le 0 fun _ _ (h : exponent? q = _) => exponent?_length_le h
  unfold realTail
  rw [exponent?_append_cons hd]
  dsimp only
  rw [List.drop_append_of_le_length hexponent, realSuffix?_append_cons hd]

theorem integerTail_append_cons (digits : List Char) :
    integerTail digits (q ++ d :: x) = integerTail digits q := by
  unfold integerTail
  rw [exponent?_append_cons hd, realSuffix?_append_cons hd, realTail_append_cons hd,
    scan_append_cons hd]

theorem scan?_append_cons : scan? (q ++ d :: x) = scan? q := by
  have hpoint (r : List Char) : d :: x ≠ '.' :: r := by rcases hd with rfl | rfl <;> simp
  have htake := takeWhile_append_cons hd.not_isDigit q x
  have hdrop := dropWhile_append_cons hd.not_isDigit q x
  by_cases hreal : ∃ rest, q.dropWhile isDigit = '.' :: rest
  · obtain ⟨rest, hrest⟩ := hreal
    rw [hrest, List.cons_append] at hdrop
    have htail := realTail_append_cons hd (rest.dropWhile isDigit) x
    simp only [scan?, hdrop, hrest, htake, takeWhile_append_cons hd.not_isDigit,
      dropWhile_append_cons hd.not_isDigit, htail]
  · replace hreal := not_exists.1 hreal
    have hrest (r : List Char) : q.dropWhile isDigit ++ d :: x ≠ '.' :: r := by
      cases hq : q.dropWhile isDigit with
      | nil => exact hpoint r
      | cons c rest =>
          rintro hc
          exact hreal rest (by rw [hq, (List.cons.inj hc).1])
    rw [scan?_of_no_point (by rwa [hdrop]), scan?_of_no_point hreal, htake, hdrop,
      hexadecimal?_append_cons hd, integerTail_append_cons hd]

end

end Numeral

/-! ### Marks of punctuation -/

theorem after?_append_cons {d : Char} {pattern : List Char} (hd : d ∉ pattern) (q x : List Char) :
    (after? pattern (q ++ d :: x)).isSome = (after? pattern q).isSome := by
  induction pattern generalizing q with
  | nil => rfl
  | cons p ps ih =>
      rw [List.mem_cons, not_or] at hd
      cases q with
      | nil => simp only [List.nil_append, after?, if_neg (Ne.symm hd.1)]
      | cons c q =>
          rw [List.cons_append, after?, after?]
          split
          · exact ih hd.2 q
          · rfl

theorem tail_spelling (p : Punct) :
    ∃ c tail, p.spelling.toList = c :: tail ∧ '/' ∉ tail ∧ ' ' ∉ tail := by
  cases p <;> exact ⟨_, _, rfl, by decide, by decide⟩

theorem punct?_append_cons {d : Char} (hd : Separates d) (c : Char) (q x : List Char) :
    Lexeme.punct? (c :: (q ++ d :: x)) = Lexeme.punct? (c :: q) := by
  have hafter (p : Punct) : (after? p.spelling.toList (c :: (q ++ d :: x))).isSome =
      (after? p.spelling.toList (c :: q)).isSome := by
    obtain ⟨a, tail, hp, hslash, hspace⟩ := tail_spelling p
    have hmem : d ∉ tail := by rcases hd with rfl | rfl <;> assumption
    rw [hp, after?, after?]
    split
    · exact after?_append_cons hmem q x
    · rfl
  unfold Lexeme.punct?
  simp only [hafter]

theorem punct?_length_le {cs : List Char} {p : Punct} (h : Lexeme.punct? cs = some p) :
    p.spelling.length ≤ cs.length := by
  have hafter := List.find?_some h
  obtain ⟨rest, hrest⟩ := Option.isSome_iff_exists.1 hafter
  have hlength := length_of_after? hrest
  rw [String.length_toList] at hlength
  omega

/-! ### Lexemes -/

namespace Lexeme

/-- The number of characters beyond the first. -/
def extra : Lexeme → Nat
  | .blank n | .token _ n | .fault _ n => n

theorem extra_ofExcept (n : Nat) (result : Except LexError TokenKind) :
    (ofExcept n result).extra = n := by
  cases result <;> rfl

end Lexeme

open Lexeme

theorem extra_lexeme_le (c : Char) (cs : List Char) : (lexeme c cs).extra ≤ cs.length := by
  have htake (p : Char → Bool) : (cs.takeWhile p).length ≤ cs.length :=
    (List.takeWhile_sublist p).length_le
  unfold lexeme
  split
  · exact htake isLexBlank
  · split
    · exact htake isWordChar
    · split
      · next n hscan =>
          have := Numeral.scan?_length_le hscan
          rw [extra_ofExcept]
          rw [List.length_cons] at this
          omega
      · split
        · exact Nat.le_add_left 1 _
        · exact Nat.le_add_left 2 _
        · exact htake (· != '\n')
        · unfold blockComment
          split
          · next body behind hcut =>
              have hlength := length_of_cutAt? hcut
              simp only [List.length_cons, List.length_nil, extra] at hlength ⊢
              omega
          · exact Nat.le_of_eq (Nat.add_comm 1 _)
        · rw [extra_ofExcept]
          exact htake (· != '\n')
        · split
          · next p hp =>
              have hlength := punct?_length_le hp
              rw [List.length_cons] at hlength
              show p.spelling.length - 1 ≤ cs.length
              omega
          · exact Nat.zero_le _

section

variable {c : Char} {cs : List Char} (hblank : isLexBlank c = false) (hword : ¬isWordStart c)
include hblank hword

theorem lexeme_number {numeral : Numeral} {n : Nat}
    (hscan : Numeral.scan? (c :: cs) = some (numeral, n)) :
    lexeme c cs = ofExcept (n - 1) (numeral.value.map .number) := by
  unfold lexeme
  rw [if_neg (by rw [hblank]; exact Bool.false_ne_true), if_neg hword, hscan]

theorem lexeme_mark (hscan : Numeral.scan? (c :: cs) = none) (hdirective : c ≠ '#')
    (hcontinued : c = '\\' → ∀ rest, cs ≠ '\n' :: rest ∧ cs ≠ '\r' :: '\n' :: rest)
    (hcomment : c = '/' → ∀ rest, cs ≠ '/' :: rest ∧ cs ≠ '*' :: rest) :
    lexeme c cs =
      match punct? (c :: cs) with
      | some p => .token (.punct p) (p.spelling.length - 1)
      | none => .fault (.unexpectedCharacter c) 0 := by
  unfold lexeme
  rw [if_neg (by rw [hblank]; exact Bool.false_ne_true), if_neg hword, hscan]
  dsimp only
  split
  · exact absurd rfl (hcontinued rfl _).1
  · exact absurd rfl (hcontinued rfl _).2
  · exact absurd rfl (hcomment rfl _).1
  · exact absurd rfl (hcomment rfl _).2
  · exact absurd rfl hdirective
  · rfl

end

theorem exists_cons_of_append {d a : Char} {q x rest : List Char} (h : q ++ d :: x = a :: rest)
    (ha : d ≠ a) : ∃ q', q = a :: q' ∧ q' ++ d :: x = rest := by
  cases q with
  | nil => exact absurd (List.cons.inj h).1 ha
  | cons b q' =>
      obtain ⟨rfl, hrest⟩ := List.cons.inj h
      exact ⟨q', rfl, hrest⟩

/-- What stands behind a slash or a space is of no importance to the lexeme before it. -/
theorem lexeme_append_cons {c d : Char} (hd : Separates d) {q : List Char}
    (hblank : isLexBlank c = false) (hdirective : c ≠ '#')
    (hcomment : c = '/' → ∃ a q', q = a :: q' ∧ a ≠ '/' ∧ a ≠ '*') (x : List Char) :
    lexeme c (q ++ d :: x) = lexeme c q := by
  by_cases hword : isWordStart c
  · rw [lexeme_of_isWordStart hword, lexeme_of_isWordStart hword,
      takeWhile_append_cons hd.not_isWordChar]
  have hscan := Numeral.scan?_append_cons hd (c :: q) x
  rw [List.cons_append] at hscan
  cases hnumber : Numeral.scan? (c :: q) with
  | some found => rw [lexeme_number hblank hword (hscan.trans hnumber),
      lexeme_number hblank hword hnumber]
  | none =>
      have hslash (hc : c = '/') (y rest : List Char) (hy : y = [] ∨ y = d :: x) :
          q ++ y ≠ '/' :: rest ∧ q ++ y ≠ '*' :: rest := by
        obtain ⟨a, q', rfl, hline, hblock⟩ := hcomment hc
        exact ⟨fun h => hline (List.cons.inj h).1, fun h => hblock (List.cons.inj h).1⟩
      by_cases hcontinued : c = '\\' → ∀ rest, q ≠ '\n' :: rest ∧ q ≠ '\r' :: '\n' :: rest
      · have hfeed : d ≠ '\n' ∧ d ≠ '\r' := by rcases hd with rfl | rfl <;> decide
        rw [lexeme_mark hblank hword (hscan.trans hnumber) hdirective _
          fun hc rest => hslash hc _ rest (.inr rfl),
          lexeme_mark hblank hword hnumber hdirective hcontinued
          fun hc rest => by simpa using hslash hc _ rest (.inl rfl), punct?_append_cons hd]
        rintro hc rest
        constructor
        · rintro h
          obtain ⟨q', hq, -⟩ := exists_cons_of_append h hfeed.1
          exact (hcontinued hc q').1 hq
        · rintro h
          obtain ⟨q', hq, hrest⟩ := exists_cons_of_append h hfeed.2
          obtain ⟨q'', rfl, -⟩ := exists_cons_of_append hrest hfeed.1
          exact (hcontinued hc q'').2 hq
      · obtain ⟨rfl, rest, hrest⟩ :
            c = '\\' ∧ ∃ rest, q = '\n' :: rest ∨ q = '\r' :: '\n' :: rest := by
          by_contra hnone
          exact hcontinued fun hc rest => ⟨fun h => hnone ⟨hc, rest, .inl h⟩,
            fun h => hnone ⟨hc, rest, .inr h⟩⟩
        rcases hrest with rfl | rfl <;> rfl

end ShaderBridge
