import ShaderBridge.Hlsl.Literal
import ShaderBridge.Proofs.Token.Ending
import Mathlib.Data.List.TakeWhile

namespace ShaderBridge

/-! ### Numbers -/

theorem isDigit_of_mem_toDigits {n : Nat} {c : Char} (hc : c ∈ Nat.toDigits 10 n) :
    isDigit c := by
  have h := Nat.isDigit_of_mem_toDigits (by decide) (by decide) hc
  simpa [isDigit, Char.isDigit, Char.le_def] using h

theorem isWordStart_of_isDigit {c : Char} (hc : isDigit c) : isWordStart c = false := by
  simp only [isDigit, Bool.and_eq_true, decide_eq_true_eq] at hc
  simp only [isWordStart, Bool.or_eq_false_iff, Bool.and_eq_false_iff, decide_eq_false_iff_not,
    beq_eq_false_iff_ne]
  have hle {x : Char} (hx : '9' < x) : ¬x ≤ c := fun h =>
    absurd (Char.le_trans h hc.2) (Char.not_le.2 hx)
  refine ⟨⟨.inl (hle (by decide)), .inl (hle (by decide))⟩, ?_⟩
  rintro rfl
  exact absurd hc.2 (by decide)

theorem isBlank_of_isDigit {c : Char} (h : isDigit c) : isBlank c = false := by
  simp only [isDigit, Bool.and_eq_true, decide_eq_true_eq, Char.le_def, UInt32.le_iff_toNat_le] at h
  have hlow : 48 ≤ c.toNat := h.1
  have hhigh : c.toNat ≤ 57 := h.2
  simp only [isBlank, UInt32.le_iff_toNat_le, Bool.or_eq_false_iff, Bool.and_eq_false_iff,
    decide_eq_false_iff_not, beq_eq_false_iff_ne, ne_eq, ← UInt32.toNat_inj]
  simp
  omega

theorem isWordChar_of_isDigit {c : Char} (h : isDigit c) : isWordChar c := by
  simp [isWordChar, h]

theorem digitValue_of_isDigit {c : Char} (hc : isDigit c) : digitValue c = c.toNat - '0'.toNat :=
  if_pos hc

theorem digitValue_lt {c : Char} (hc : isDigit c) : digitValue c < 10 := by
  rw [digitValue_of_isDigit hc]
  simp only [isDigit, Bool.and_eq_true, decide_eq_true_eq] at hc
  have h : c.toNat ≤ '9'.toNat := hc.2
  have hzero : '0'.toNat = 48 := rfl
  have hnine : '9'.toNat = 57 := rfl
  omega

theorem digitsValue_toDigits (n : Nat) : digitsValue 10 (Nat.toDigits 10 n) = n := by
  have hfold (cs : List Char) (hcs : ∀ c ∈ cs, isDigit c) (m : Nat) :
      cs.foldl (fun n c => n * 10 + digitValue c) m = Nat.ofDigitChars 10 cs m := by
    induction cs generalizing m with
    | nil => rw [Nat.ofDigitChars_nil]; rfl
    | cons c cs ih =>
        rw [List.foldl_cons, Nat.ofDigitChars_cons,
          ih fun d hd => hcs d (List.mem_cons_of_mem _ hd),
          digitValue_of_isDigit (hcs c List.mem_cons_self), Nat.mul_comm]
  exact (hfold _ (fun c hc => isDigit_of_mem_toDigits hc) 0).trans
    (Nat.ofDigitChars_toDigits (by decide) (by decide))

theorem eq_nil_of_toDigits {n : Nat} {cs : List Char} (h : Nat.toDigits 10 n = '0' :: cs) :
    cs = [] := by
  induction n using Nat.strongRecOn generalizing cs with
  | ind n ih =>
      rw [Nat.toDigits_eq_if (by decide)] at h
      split at h
      · exact (List.cons.inj h).2.symm
      · next hn =>
          cases hdigits : Nat.toDigits 10 (n / 10) with
          | nil => exact absurd hdigits (List.ne_nil_of_length_pos Nat.length_toDigits_pos)
          | cons d ds =>
              rw [hdigits] at h
              cases h
              obtain rfl := ih (n / 10) (by omega) hdigits
              have hzero := digitsValue_toDigits (n / 10)
              rw [hdigits] at hzero
              exact absurd hzero (show (0 : Nat) ≠ n / 10 by omega)

namespace Numeral

/-- The ending of an integer kind. -/
def suffixOf : IntKind → IntSuffix
  | .int16 => .short
  | .uint16 => .unsignedShort
  | .int => .none
  | .uint => .unsigned
  | .int64 => .long
  | .uint64 => .unsignedLong

theorem toLower_of_not_wordChar {c : Char} (hc : isWordChar c = false) : c.toLower = c := by
  simp only [isWordChar, isWordStart, Bool.or_eq_false_iff, Bool.and_eq_false_iff,
    decide_eq_false_iff_not] at hc
  unfold Char.toLower
  split
  · next h => exact absurd h fun ⟨hA, hZ⟩ => hc.1.1.2.elim (fun h => h hA) fun h => h hZ
  · rfl

theorem scan_suffix (k : IntKind) {cs : List Char} (hcs : ∀ x ∈ cs.head?, isWordChar x = false) :
    IntSuffix.scan (Hlsl.intSuffix k ++ cs) = (suffixOf k, (Hlsl.intSuffix k).length) := by
  cases cs with
  | nil => cases k <;> rfl
  | cons c cs =>
      have hc := hcs c rfl
      have hlower := toLower_of_not_wordChar hc
      have hl : c ≠ 'l' := by rintro rfl; exact absurd hc (by decide)
      have hs : c ≠ 's' := by rintro rfl; exact absurd hc (by decide)
      have hu : c ≠ 'u' := by rintro rfl; exact absurd hc (by decide)
      cases k with
      | int16 => rfl
      | uint16 => rfl
      | int64 => rfl
      | uint64 => rfl
      | uint =>
          have hscan : IntSuffix.scan ('u' :: c :: cs) = (.unsigned, 1) := by
            simp only [IntSuffix.scan, hlower]
            split <;> simp_all
          exact hscan
      | int =>
          have hscan : IntSuffix.scan (c :: cs) = (.none, 0) := by
            cases cs with
            | nil =>
                simp only [IntSuffix.scan, hlower]
            | cons d cs =>
                simp only [IntSuffix.scan, hlower]
                split <;> simp_all
          exact hscan

/-- Whether a text cannot continue an integer. A point would continue one that has no ending. -/
def EndsInteger (k : IntKind) (cs : List Char) : Prop :=
  ∀ x ∈ cs.head?, isWordChar x = false ∧ (k = .int → x ≠ '.')

variable {k : IntKind} {cs : List Char} (hcs : EndsInteger k cs)
include hcs

theorem EndsInteger.ne {c d : Char} {rest : List Char} (h : cs = c :: rest) (hd : isWordChar d) :
    c ≠ d := by
  rintro rfl
  subst h
  exact absurd hd (by rw [(hcs c rfl).1]; exact Bool.false_ne_true)

theorem exponent?_suffix : exponent? (Hlsl.intSuffix k ++ cs) = none := by
  cases k with
  | int =>
      cases cs with
      | nil => rfl
      | cons c cs => exact if_neg fun h => h.elim (hcs.ne rfl (by decide)) (hcs.ne rfl (by decide))
  | _ => rfl

theorem realSuffix?_suffix : realSuffix? (Hlsl.intSuffix k ++ cs) = none := by
  cases k with
  | int =>
      show realSuffix? cs = none
      unfold realSuffix?
      split
      · exact absurd rfl (hcs.ne rfl (by decide))
      · exact absurd rfl (hcs.ne rfl (by decide))
      · exact absurd rfl (hcs.ne rfl (by decide))
      · exact absurd rfl (hcs.ne rfl (by decide))
      · exact absurd rfl (hcs.ne rfl (by decide))
      · exact absurd rfl (hcs.ne rfl (by decide))
      · rfl
  | int64 =>
      cases cs with
      | nil => rfl
      | cons c cs =>
          have hf : c ≠ 'f' := hcs.ne rfl (by decide)
          simp [Hlsl.intSuffix, realSuffix?, hf]
  | _ => rfl

theorem hexadecimal?_suffix : hexadecimal? (Hlsl.intSuffix k ++ cs) = none := by
  cases k with
  | int =>
      cases cs with
      | nil => rfl
      | cons c cs =>
          exact if_neg fun h => h.1.elim (hcs.ne rfl (by decide)) (hcs.ne rfl (by decide))
  | _ => rfl

theorem head_suffix :
    ∀ x ∈ (Hlsl.intSuffix k ++ cs).head?, isDigit x = false ∧ x ≠ '.' := by
  intro x hx
  cases k with
  | int =>
      obtain ⟨hword, hpoint⟩ := hcs x hx
      exact ⟨(Bool.or_eq_false_iff.1 hword).2, hpoint rfl⟩
  | _ =>
      cases hx
      exact ⟨by decide, by decide⟩

theorem integerTail_suffix (n : Nat) :
    integerTail (Nat.toDigits 10 n) (Hlsl.intSuffix k ++ cs) =
      (.integer 10 (Nat.toDigits 10 n) (suffixOf k), (Hlsl.intSuffix k).length) := by
  unfold integerTail
  rw [exponent?_suffix hcs, realSuffix?_suffix hcs, if_neg (by simp),
    scan_suffix k fun x hx => (hcs x hx).1]
  dsimp only
  split
  · next heq => cases eq_nil_of_toDigits heq
  · rfl

theorem scan?_integer (n : Nat) :
    scan? (Nat.toDigits 10 n ++ (Hlsl.intSuffix k ++ cs)) =
      some (.integer 10 (Nat.toDigits 10 n) (suffixOf k),
        (Nat.toDigits 10 n).length + (Hlsl.intSuffix k).length) := by
  have hdigits : ∀ c ∈ Nat.toDigits 10 n, isDigit c := fun c hc => isDigit_of_mem_toDigits hc
  have htake : (Nat.toDigits 10 n ++ (Hlsl.intSuffix k ++ cs)).takeWhile isDigit =
      Nat.toDigits 10 n := by
    rw [List.takeWhile_append_of_pos hdigits]
    cases hrest : Hlsl.intSuffix k ++ cs with
    | nil => exact List.append_nil _
    | cons x rest =>
        rw [List.takeWhile_cons, (head_suffix hcs x (by rw [hrest]; rfl)).1]
        exact List.append_nil _
  have hdrop : (Nat.toDigits 10 n ++ (Hlsl.intSuffix k ++ cs)).dropWhile isDigit =
      Hlsl.intSuffix k ++ cs := by
    rw [List.dropWhile_append_of_pos hdigits]
    cases hrest : Hlsl.intSuffix k ++ cs with
    | nil => rfl
    | cons x rest => rw [List.dropWhile_cons, (head_suffix hcs x (by rw [hrest]; rfl)).1]; rfl
  have hempty : (Nat.toDigits 10 n).isEmpty = false :=
    List.isEmpty_eq_false_iff.2 (List.ne_nil_of_length_pos Nat.length_toDigits_pos)
  unfold scan?
  dsimp only
  rw [htake, hdrop]
  split
  · next rest heq => exact absurd rfl (head_suffix hcs '.' (by rw [heq]; rfl)).2
  · rw [hempty, hexadecimal?_suffix hcs, integerTail_suffix hcs, ite_self]
    rfl

omit hcs

theorem value_integer (k : IntKind) (bits : BitVec k.width) :
    (Numeral.integer 10 (Nat.toDigits 10 bits.toNat) (suffixOf k)).value =
      .ok (.integer k bits) := by
  have hdigits : (Nat.toDigits 10 bits.toNat).all (fun c => digitValue c < 10) :=
    List.all_eq_true.2 fun c hc => decide_eq_true (digitValue_lt (isDigit_of_mem_toDigits hc))
  have hwide : bits.toNat < wordCount 64 := by
    cases k <;> exact Nat.lt_of_lt_of_le bits.isLt (by decide)
  have hlt : bits.toNat < wordCount k.width := bits.isLt
  have hbits : (.ok (.integer k (BitVec.ofNat k.width bits.toNat)) : Except LexError Constant) =
      .ok (.integer k bits) := by
    rw [BitVec.ofNat_toNat, BitVec.setWidth_eq]
  unfold value
  dsimp only
  rw [digitsValue_toDigits, hdigits, decide_eq_true hwide]
  cases k with
  | int64 | uint64 => exact hbits
  | _ => exact (if_pos hlt).trans hbits

end Numeral

/-! ### Tokens -/

/-- Whether an integer can be written without a sign. -/
def Constant.isNatural : Constant → Bool
  | integer k bits => 0 ≤ k.toInt bits
  | _ => false

theorem literalText_of_isNatural {c : Constant} (hc : c.isNatural) :
    ∃ k bits, c = .integer k bits ∧
      Hlsl.literalText c = Nat.toDigits 10 bits.toNat ++ Hlsl.intSuffix k := by
  cases c with
  | integer k bits =>
      have hc : 0 ≤ k.toInt bits := of_decide_eq_true hc
      have htoNat : k.toInt bits = bits.toNat := by
        unfold IntKind.toInt at hc ⊢
        split
        · next h =>
            rw [if_pos h] at hc
            rw [BitVec.toInt_eq_toNat_cond] at hc ⊢
            split at hc
            · rw [if_pos ‹_›]
            · have := bits.isLt
              omega
        · rfl
      exact ⟨k, bits, rfl, by rw [Hlsl.literalText, htoNat]; rfl⟩
  | bool | real => cases hc

variable {P : List Token → Prop} {cs : List Char}

theorem lexeme_of_isDigit {d : Char} (hd : isDigit d) {numeral : Numeral} {n : Nat} {c : Constant}
    (hscan : Numeral.scan? (d :: cs) = some (numeral, n + 1)) (hvalue : numeral.value = .ok c) :
    lexeme d cs = .token (.number c) n := by
  have hblank : Lexeme.isLexBlank d = false := by
    simp only [Lexeme.isLexBlank, Bool.or_eq_false_iff, beq_eq_false_iff_ne]
    refine ⟨⟨⟨⟨?_, ?_⟩, ?_⟩, ?_⟩, ?_⟩ <;>
    · rintro rfl
      exact absurd hd (by decide)
  unfold lexeme
  rw [hblank, isWordStart_of_isDigit hd, hscan]
  show Lexeme.ofExcept n (numeral.value.map .number) = _
  rw [hvalue]
  rfl

theorem lexes_integer {k : IntKind} (bits : BitVec k.width) (hcs : Numeral.EndsInteger k cs)
    (hrest : Lexes cs P) : Lexes (Nat.toDigits 10 bits.toNat ++ Hlsl.intSuffix k ++ cs)
      (FirstIs (.number (.integer k bits)) P) := by
  rw [List.append_assoc]
  have hscan := Numeral.scan?_integer hcs bits.toNat
  have hvalue := Numeral.value_integer k bits
  have hdigits : ∀ x ∈ Nat.toDigits 10 bits.toNat, isDigit x :=
    fun x hx => isDigit_of_mem_toDigits hx
  cases hds : Nat.toDigits 10 bits.toNat with
  | nil => exact absurd hds (List.ne_nil_of_length_pos Nat.length_toDigits_pos)
  | cons d ds =>
      rw [hds, List.cons_append] at hscan
      rw [hds] at hvalue hdigits
      rw [List.length_cons, Nat.add_right_comm] at hscan
      refine lexes_token (lexeme_of_isDigit (hdigits d List.mem_cons_self) hscan hvalue) ?_
      show Lexes ((ds ++ (Hlsl.intSuffix k ++ cs)).drop _) P
      rw [← List.length_append, ← List.append_assoc, List.drop_left]
      exact hrest

theorem lexes_natural {c : Constant} (hc : c.isNatural)
    (hcs : ∀ x ∈ cs.head?, isWordChar x = false ∧ x ≠ '.') (hrest : Lexes cs P) :
    Lexes (Hlsl.literalText c ++ cs) (FirstIs (.number c) P) := by
  obtain ⟨k, bits, rfl, htext⟩ := literalText_of_isNatural hc
  rw [htext]
  exact lexes_integer bits (fun x hx => ⟨(hcs x hx).1, fun _ => (hcs x hx).2⟩) hrest

theorem lexes_name {name : String} (hword : isWord name.toList)
    (hname : Lexeme.ofWord name = .ident name) (hcs : ∀ x ∈ cs.head?, isWordChar x = false)
    (hrest : Lexes cs P) : Lexes (name.toList ++ cs) (FirstIs (.ident name) P) := by
  cases hchars : name.toList with
  | nil => rw [hchars] at hword; cases hword
  | cons c w =>
      rw [hchars] at hword
      have hc : isWordStart c ∧ leadingWord (c :: w) = c :: w := by
        refine ⟨?_, eq_of_beq (Bool.and_eq_true_iff.1 hword).2⟩
        by_contra hc
        have hlead := eq_of_beq (Bool.and_eq_true_iff.1 hword).2
        rw [leadingWord, if_neg hc] at hlead
        cases hlead
      have hw : w.takeWhile isWordChar = w := by
        have hlead := hc.2
        rw [leadingWord, if_pos hc.1] at hlead
        exact (List.cons.inj hlead).2
      have hofList : String.ofList (c :: w) = name := by rw [← hchars, String.ofList_toList]
      have h := lexes_word hc.1 (List.takeWhile_eq_self_iff.1 hw) hcs hrest
      rwa [hofList, hname] at h

theorem lexes_punct {p : Punct} {c : Char} {tail : List Char} (hp : p.spelling.toList = c :: tail)
    (h : lexeme c (tail ++ cs) = .token (.punct p) tail.length) (hrest : Lexes cs P) :
    Lexes (p.spelling.toList ++ cs) (FirstIs (.punct p) P) := by
  rw [hp, List.cons_append]
  exact lexes_token h (by rwa [List.drop_left])

theorem lexes_punct_blank (p : Punct) (hrest : Lexes (' ' :: cs) P) :
    Lexes (p.spelling.toList ++ ' ' :: cs) (FirstIs (.punct p) P) := by
  cases p <;> exact lexes_punct rfl rfl hrest

theorem lexes_punct_end (p : Punct) (hrest : Lexes [] P) :
    Lexes (p.spelling.toList ++ []) (FirstIs (.punct p) P) := by
  cases p <;> exact lexes_punct rfl rfl hrest

namespace TokenKind

/-- The text of a number, a name or a mark. -/
def text : TokenKind → List Char
  | number c => Hlsl.literalText c
  | ident name => name.toList
  | punct p => p.spelling.toList
  | _ => []

/-- Whether a text reads back as the token. -/
def IsSpelled : TokenKind → Prop
  | number c => c.isNatural
  | ident name => isWord name.toList ∧ Lexeme.ofWord name = .ident name
  | punct _ => True
  | _ => False

theorem lexes_text {kind : TokenKind} (hkind : kind.IsSpelled) (hcs : cs = [] ∨ cs.head? = some ' ')
    (hrest : Lexes cs P) : Lexes (kind.text ++ cs) (FirstIs kind P) := by
  have hend : ∀ x ∈ cs.head?, x = ' ' := by
    intro x hx
    rcases hcs with rfl | hcs
    · cases hx
    · exact (Option.some.inj (hcs.symm.trans hx)).symm
  cases kind with
  | number c => exact lexes_natural hkind (fun x hx => by rw [hend x hx]; decide) hrest
  | ident name =>
      exact lexes_name hkind.1 hkind.2 (fun x hx => by rw [hend x hx]; decide) hrest
  | punct p =>
      rcases hcs with rfl | hcs
      · exact lexes_punct_end p hrest
      · obtain ⟨cs, rfl⟩ := List.head?_eq_some_iff.1 hcs
        exact lexes_punct_blank p hrest
  | keyword | directive | endOfFile => exact hkind.elim

/-- The texts of some tokens with blanks between them. -/
def spaced : List TokenKind → List Char
  | [] => []
  | [kind] => kind.text
  | kind :: kinds => kind.text ++ ' ' :: spaced kinds

/-- Tokens with blanks between them are read back, up to the end of the text. -/
theorem lexes_spaced {kinds : List TokenKind} (hkinds : ∀ kind ∈ kinds, kind.IsSpelled) :
    Lexes (spaced kinds) fun tokens => ∃ ts place, tokens = ts ++ [⟨.endOfFile, place⟩] ∧
      ts.map Token.kind = kinds := by
  induction kinds with
  | nil => exact lexes_nil.imp fun tokens ⟨place, htokens⟩ => ⟨[], place, htokens, rfl⟩
  | cons kind kinds ih =>
      obtain ⟨hkind, hkinds⟩ := List.forall_mem_cons.1 hkinds
      have hcons (tokens : List Token) : FirstIs kind (fun tokens => ∃ ts place,
          tokens = ts ++ [⟨.endOfFile, place⟩] ∧ ts.map Token.kind = kinds) tokens →
          ∃ ts place, tokens = ts ++ [⟨.endOfFile, place⟩] ∧
            ts.map Token.kind = kind :: kinds := by
        rintro ⟨place, _, rfl, ts, last, rfl, rfl⟩
        exact ⟨⟨kind, place⟩ :: ts, last, rfl, rfl⟩
      cases kinds with
      | nil =>
          have h : Lexes (kind.text ++ []) _ := lexes_text hkind (.inl rfl) (ih hkinds)
          rw [List.append_nil] at h
          exact h.imp hcons
      | cons next kinds =>
          exact (lexes_text hkind (.inr rfl) (lexes_blank rfl (ih hkinds))).imp hcons

end TokenKind

end ShaderBridge
