import ShaderBridge.Proofs.Token.Commented

namespace ShaderBridge

theorem takeWhile_append_of_length_le {α : Type} {p : α → Bool} {q x : List α}
    (h : ((q ++ x).takeWhile p).length ≤ q.length) :
    (q ++ x).takeWhile p = q.takeWhile p ∧ (q ++ x).dropWhile p = q.dropWhile p ++ x := by
  induction q with
  | nil =>
      have htake : x.takeWhile p = [] := List.length_eq_zero_iff.mp (Nat.le_zero.mp h)
      have hsplit := List.takeWhile_append_dropWhile (p := p) (l := x)
      rw [htake, List.nil_append] at hsplit
      exact ⟨htake, hsplit⟩
  | cons a q ih =>
      rw [List.cons_append, List.takeWhile_cons, List.takeWhile_cons, List.dropWhile_cons,
        List.dropWhile_cons]
      rw [List.cons_append, List.takeWhile_cons] at h
      split
      · next ha =>
          rw [if_pos ha, List.length_cons, List.length_cons, Nat.add_le_add_iff_right] at h
          rw [(ih h).1, (ih h).2]
          exact ⟨rfl, rfl⟩
      · exact ⟨rfl, rfl⟩

/-! ### Numbers -/

namespace Numeral

/-- What is found at the front of a text is found there as well where the text ends behind it, and
what is not found there is not found in a shorter text. -/
def FoundInTaken {α : Type} (find : List Char → Option (α × Nat)) : Prop :=
  ∀ q x, (∀ found, find (q ++ x) = some found → found.2 ≤ q.length) → find q = find (q ++ x)

theorem scan_of_append {q x : List Char} (h : (IntSuffix.scan (q ++ x)).2 ≤ q.length) :
    IntSuffix.scan q = IntSuffix.scan (q ++ x) := by
  match q with
  | [] =>
      rw [List.nil_append] at h ⊢
      revert h
      fun_cases IntSuffix.scan x <;> simp [IntSuffix.scan, *]
  | [a] =>
      cases x with
      | nil => rfl
      | cons b x =>
          revert h
          simp only [List.cons_append, List.nil_append, IntSuffix.scan]
          split <;> split <;> simp_all
  | a :: b :: q => rfl

theorem foundInTaken_realSuffix? : FoundInTaken realSuffix? := by
  intro q x h
  match q with
  | [] =>
      revert h
      fun_cases realSuffix? x <;> simp [realSuffix?, *]
  | [a] =>
      revert h
      simp only [List.cons_append, List.nil_append, realSuffix?]
      split <;> simp_all
  | a :: b :: q =>
      simp only [List.cons_append, realSuffix?]
      split <;> simp_all

/-- The digits of an exponent behind its mark and its sign. -/
def exponentDigits? (negative : Bool) (sign : Nat) (cs : List Char) : Option (Int × Nat) :=
  if (cs.takeWhile isDigit).isEmpty then none
  else
    let n : Int := digitsValue 10 (cs.takeWhile isDigit)
    some (if negative then -n else n, 1 + sign + (cs.takeWhile isDigit).length)

theorem exponentDigits?_append {negative : Bool} {sign : Nat} {q x : List Char}
    (h : ∀ found, exponentDigits? negative sign (q ++ x) = some found →
      found.2 ≤ 1 + sign + q.length) :
    exponentDigits? negative sign q = exponentDigits? negative sign (q ++ x) := by
  have hlength : ((q ++ x).takeWhile isDigit).length ≤ q.length := by
    unfold exponentDigits? at h
    split at h
    · next hempty => simp [List.isEmpty_iff.mp hempty]
    · have := h _ rfl
      omega
  unfold exponentDigits?
  rw [(takeWhile_append_of_length_le hlength).1]

theorem exponent?_sign {e c : Char} (he : e = 'e' ∨ e = 'E') (hc : c = '+' ∨ c = '-')
    (cs : List Char) : exponent? (e :: c :: cs) = exponentDigits? (c == '-') 1 cs := by
  rcases hc with rfl | rfl <;> simp only [exponent?, if_pos he, exponentDigits?] <;> rfl

theorem exponent?_no_sign {e : Char} (he : e = 'e' ∨ e = 'E') {cs : List Char}
    (hc : ∀ rest, cs ≠ '+' :: rest ∧ cs ≠ '-' :: rest) :
    exponent? (e :: cs) = exponentDigits? false 0 cs := by
  simp only [exponent?, if_pos he]
  split
  · exact absurd rfl (hc _).1
  · exact absurd rfl (hc _).2
  · rfl

theorem exponent?_of_ne {e : Char} (he : ¬(e = 'e' ∨ e = 'E')) (cs : List Char) :
    exponent? (e :: cs) = none := by
  simp only [exponent?, if_neg he]

theorem two_le_of_exponent? {cs : List Char} {found : Int × Nat} (h : exponent? cs = some found) :
    2 ≤ found.2 := by
  have hdigits {negative : Bool} {sign : Nat} {cs : List Char}
      (h : exponentDigits? negative sign cs = some found) : 2 ≤ found.2 := by
    unfold exponentDigits? at h
    split at h
    · cases h
    · next hne =>
        cases h
        have := List.length_pos_iff.mpr (mt List.isEmpty_iff.mpr hne)
        show 2 ≤ 1 + sign + _
        omega
  cases cs with
  | nil => cases h
  | cons e cs =>
      by_cases he : e = 'e' ∨ e = 'E'
      · by_cases hsign : ∃ c rest, cs = c :: rest ∧ (c = '+' ∨ c = '-')
        · obtain ⟨c, rest, rfl, hc⟩ := hsign
          exact hdigits ((exponent?_sign he hc rest).symm.trans h)
        · refine hdigits ((exponent?_no_sign he fun rest => ?_).symm.trans h)
          exact ⟨fun hr => hsign ⟨_, _, hr, .inl rfl⟩, fun hr => hsign ⟨_, _, hr, .inr rfl⟩⟩
      · cases (exponent?_of_ne he cs).symm.trans h

theorem foundInTaken_exponent? : FoundInTaken exponent? := by
  intro q x h
  have hnone (hq : q.length ≤ 1) : exponent? (q ++ x) = none := by
    refine Option.eq_none_iff_forall_ne_some.mpr fun found hfound => ?_
    have := h found hfound
    have := two_le_of_exponent? hfound
    omega
  match q with
  | [] => exact (hnone (Nat.zero_le 1)).symm
  | [a] =>
      rw [hnone (Nat.le_refl 1)]
      by_cases ha : a = 'e' ∨ a = 'E'
      · exact exponent?_no_sign ha fun rest => ⟨nofun, nofun⟩
      · exact exponent?_of_ne ha []
  | a :: b :: q =>
      rw [List.cons_append, List.cons_append] at h ⊢
      by_cases ha : a = 'e' ∨ a = 'E'
      · by_cases hb : b = '+' ∨ b = '-'
        · rw [exponent?_sign ha hb] at h ⊢
          rw [exponent?_sign ha hb]
          refine exponentDigits?_append fun found hfound => ?_
          have := h found hfound
          simp only [List.length_cons] at this
          omega
        · have hsign (cs rest : List Char) : b :: cs ≠ '+' :: rest ∧ b :: cs ≠ '-' :: rest :=
            ⟨fun hr => hb (.inl (List.cons.inj hr).1), fun hr => hb (.inr (List.cons.inj hr).1)⟩
          rw [exponent?_no_sign ha (hsign _)] at h ⊢
          rw [exponent?_no_sign ha (hsign _)]
          refine exponentDigits?_append (q := b :: q) fun found hfound => ?_
          have := h found hfound
          simp only [List.length_cons] at this ⊢
          omega
      · rw [exponent?_of_ne ha, exponent?_of_ne ha]

theorem hexadecimal?_cons {a : Char} {cs : List Char} :
    hexadecimal? (a :: cs) =
      if (a = 'x' ∨ a = 'X') ∧ cs.takeWhile isHexDigit ≠ [] then
        some (.integer 16 (cs.takeWhile isHexDigit) (IntSuffix.scan (cs.dropWhile isHexDigit)).1,
          1 + (cs.takeWhile isHexDigit).length + (IntSuffix.scan (cs.dropWhile isHexDigit)).2)
      else none := rfl

theorem foundInTaken_hexadecimal? : FoundInTaken hexadecimal? := by
  intro q x h
  cases q with
  | nil =>
      cases x with
      | nil => rfl
      | cons a x =>
          rw [List.nil_append, hexadecimal?_cons] at h ⊢
          split
          · next hfound =>
              rw [if_pos hfound] at h
              have := h _ rfl
              simp at this
          · rfl
  | cons a q =>
      rw [List.cons_append, hexadecimal?_cons] at h ⊢
      rw [hexadecimal?_cons]
      by_cases ha : a = 'x' ∨ a = 'X'
      · simp only [ha, true_and] at h ⊢
        have hlength : ((q ++ x).takeWhile isHexDigit).length ≤ q.length := by
          split at h
          · have := h _ rfl
            simp only [List.length_cons] at this
            omega
          · next hempty => simp [not_not.mp hempty]
        obtain ⟨htake, hdrop⟩ := takeWhile_append_of_length_le hlength
        rw [htake, hdrop] at h ⊢
        split
        · next hdigits =>
            rw [if_pos hdigits] at h
            have hsplit := takeWhile_add_dropWhile isHexDigit q
            have hsuffix : (IntSuffix.scan (q.dropWhile isHexDigit ++ x)).2 ≤
                (q.dropWhile isHexDigit).length := by
              have := h _ rfl
              simp only [List.length_cons] at this
              omega
            rw [scan_of_append hsuffix]
        · rfl
      · simp only [ha, false_and, if_false]

theorem realTail_of_append {whole fraction q x : List Char}
    (h : (realTail whole fraction (q ++ x)).2 ≤ q.length) :
    realTail whole fraction q = realTail whole fraction (q ++ x) := by
  rw [realTail_length] at h
  have hexponent : exponent? q = exponent? (q ++ x) := by
    refine foundInTaken_exponent? q x fun found hfound => ?_
    rw [hfound, Option.getD_some] at h
    omega
  rw [← hexponent] at h
  have hk : ((exponent? q).getD (0, 0)).2 ≤ q.length := by omega
  rw [List.drop_append_of_le_length hk] at h
  have hsuffix := foundInTaken_realSuffix? (q.drop ((exponent? q).getD (0, 0)).2) x
    fun found hfound => by
      rw [hfound, Option.getD_some] at h
      rw [List.length_drop]
      omega
  unfold realTail
  rw [← hexponent]
  dsimp only
  rw [List.drop_append_of_le_length hk, hsuffix]

theorem integerTail_of_append {digits q x : List Char}
    (h : (integerTail digits (q ++ x)).2 ≤ q.length) :
    integerTail digits q = integerTail digits (q ++ x) := by
  unfold integerTail at h ⊢
  by_cases hreal : (exponent? (q ++ x)).isSome ∨ (realSuffix? (q ++ x)).isSome
  · rw [if_pos hreal] at h
    have htail := realTail_of_append h
    rw [realTail_length] at h
    have hexponent : exponent? q = exponent? (q ++ x) := by
      refine foundInTaken_exponent? q x fun found hfound => ?_
      rw [hfound, Option.getD_some] at h
      omega
    have hreal' : (exponent? q).isSome ∨ (realSuffix? q).isSome := by
      rcases he : exponent? (q ++ x) with _ | found
      · rw [he, Option.getD_none, List.drop_zero] at h
        have hsuffix := foundInTaken_realSuffix? q x fun found hfound => by
          rw [hfound, Option.getD_some] at h
          omega
        rw [hsuffix]
        exact hreal.imp_left fun hsome => by simp [he] at hsome
      · exact .inl (by rw [hexponent, he]; rfl)
    rw [if_pos hreal, if_pos hreal', htail]
  · rw [if_neg hreal] at h
    simp only [not_or, Bool.not_eq_true, Option.isSome_eq_false_iff, Option.isNone_iff_eq_none]
      at hreal
    have hexponent := foundInTaken_exponent? q x (by simp [hreal.1])
    have hsuffix := foundInTaken_realSuffix? q x (by simp [hreal.2])
    have hlength : (IntSuffix.scan (q ++ x)).2 ≤ q.length := by
      revert h
      dsimp only
      split <;> exact id
    rw [hexponent, hsuffix, hreal.1, hreal.2, scan_of_append hlength]
    rfl

theorem scan?_of_point {cs rest : List Char} (h : cs.dropWhile isDigit = '.' :: rest) :
    scan? cs =
      if (cs.takeWhile isDigit).isEmpty && (rest.takeWhile isDigit).isEmpty then none
      else
        let tail :=
          realTail (cs.takeWhile isDigit) (rest.takeWhile isDigit) (rest.dropWhile isDigit)
        some (tail.1,
          (cs.takeWhile isDigit).length + 1 + (rest.takeWhile isDigit).length + tail.2) := by
  simp only [scan?, h]

theorem digits_le_of_scan? {cs : List Char} {n : Nat}
    (h : ∀ found, scan? cs = some found → found.2 ≤ n) : (cs.takeWhile isDigit).length ≤ n := by
  by_cases hpoint : ∃ rest, cs.dropWhile isDigit = '.' :: rest
  · obtain ⟨rest, hrest⟩ := hpoint
    rw [scan?_of_point hrest] at h
    split at h
    · next hempty =>
        rw [Bool.and_eq_true, List.isEmpty_iff] at hempty
        simp [hempty.1]
    · have := h _ rfl
      dsimp only at this
      omega
  · rw [scan?_of_no_point (not_exists.mp hpoint)] at h
    split at h
    · next hempty => simp [List.isEmpty_iff.mp hempty]
    · split at h
      · next hhex =>
          split at hhex
          · next hzero =>
              have := h _ rfl
              rw [hzero, List.length_singleton]
              omega
          · cases hhex
      · have := h _ rfl
        omega

section

variable {q x : List Char} (h : ∀ found, scan? (q ++ x) = some found → found.2 ≤ q.length)
  (htake : (q ++ x).takeWhile isDigit = q.takeWhile isDigit)
include h htake

theorem scan?_of_append_point {rest : List Char} (hrest : q.dropWhile isDigit = '.' :: rest)
    (hdrop : (q ++ x).dropWhile isDigit = '.' :: (rest ++ x)) : scan? q = scan? (q ++ x) := by
  have hsplit := takeWhile_add_dropWhile isDigit q
  rw [hrest, List.length_cons] at hsplit
  rw [scan?_of_point hdrop, htake] at h
  have hfraction : ((rest ++ x).takeWhile isDigit).length ≤ rest.length := by
    split at h
    · next hempty =>
        rw [Bool.and_eq_true, List.isEmpty_iff, List.isEmpty_iff] at hempty
        simp [hempty.2]
    · have := h _ rfl
      dsimp only at this
      omega
  obtain ⟨htake', hdrop'⟩ := takeWhile_append_of_length_le hfraction
  have hsplit' := takeWhile_add_dropWhile isDigit rest
  rw [htake', hdrop'] at h
  rw [scan?_of_point hdrop, scan?_of_point hrest, htake, htake', hdrop']
  split
  · rfl
  · next hne =>
      rw [if_neg hne] at h
      have htail : (realTail (q.takeWhile isDigit) (rest.takeWhile isDigit)
          (rest.dropWhile isDigit ++ x)).2 ≤ (rest.dropWhile isDigit).length := by
        have := h _ rfl
        dsimp only at this
        omega
      rw [realTail_of_append htail]

theorem scan?_of_append_point_behind (hend : q.dropWhile isDigit = []) {rest : List Char}
    (hrest : (q ++ x).dropWhile isDigit = '.' :: rest) : scan? q = scan? (q ++ x) := by
  have hsplit := takeWhile_add_dropWhile isDigit q
  rw [hend, List.length_nil] at hsplit
  rw [scan?_of_point hrest, htake] at h ⊢
  split
  · next hempty =>
      rw [Bool.and_eq_true] at hempty
      rw [scan?_of_no_point (by rw [hend]; exact nofun), if_pos hempty.1]
  · next hne =>
      rw [if_neg hne] at h
      have := h _ rfl
      dsimp only at this
      omega

theorem scan?_of_append_no_point
    (hdrop : (q ++ x).dropWhile isDigit = q.dropWhile isDigit ++ x)
    (hpoint : ∀ rest, (q ++ x).dropWhile isDigit ≠ '.' :: rest) : scan? q = scan? (q ++ x) := by
  have hpoint' : ∀ rest, q.dropWhile isDigit ≠ '.' :: rest := by
    intro rest hrest
    exact hpoint (rest ++ x) (by rw [hdrop, hrest, List.cons_append])
  have hsplit := takeWhile_add_dropWhile isDigit q
  rw [scan?_of_no_point hpoint, htake, hdrop] at h
  rw [scan?_of_no_point hpoint, scan?_of_no_point hpoint', htake, hdrop]
  split
  · rfl
  · next hne =>
      rw [if_neg hne] at h
      have hhex : (if q.takeWhile isDigit = ['0'] then hexadecimal? (q.dropWhile isDigit)
          else none) =
          if q.takeWhile isDigit = ['0'] then hexadecimal? (q.dropWhile isDigit ++ x)
          else none := by
        split
        · next hzero =>
            rw [if_pos hzero] at h
            refine foundInTaken_hexadecimal? _ _ fun found hfound => ?_
            rw [hfound] at h
            have := h _ rfl
            rw [hzero, List.length_singleton] at hsplit
            dsimp only at this
            omega
        · rfl
      rw [hhex]
      split
      · rfl
      · next hnone =>
          rw [hnone] at h
          have htail : (integerTail (q.takeWhile isDigit) (q.dropWhile isDigit ++ x)).2 ≤
              (q.dropWhile isDigit).length := by
            have := h _ rfl
            dsimp only at this
            omega
          rw [integerTail_of_append htail]

end

theorem foundInTaken_scan? : FoundInTaken scan? := by
  intro q x h
  obtain ⟨htake, hdrop⟩ := takeWhile_append_of_length_le (digits_le_of_scan? h)
  by_cases hpoint : ∃ rest, (q ++ x).dropWhile isDigit = '.' :: rest
  · obtain ⟨rest, hrest⟩ := hpoint
    cases hq : q.dropWhile isDigit with
    | nil => exact scan?_of_append_point_behind h htake hq hrest
    | cons c behind =>
        have hpoint := hdrop.symm.trans hrest
        rw [hq, List.cons_append] at hpoint
        obtain ⟨rfl, rfl⟩ := List.cons.inj hpoint
        exact scan?_of_append_point h htake hq hrest
  · exact scan?_of_append_no_point h htake hdrop (not_exists.mp hpoint)

end Numeral

/-! ### Lexemes -/

open Lexeme

theorem find?_eq_of_imp {α : Type} {p q : α → Bool} {l : List α} (himp : ∀ a, p a → q a)
    (hfound : ∀ a, l.find? q = some a → p a) : l.find? p = l.find? q := by
  induction l with
  | nil => rfl
  | cons a l ih =>
      rw [List.find?_cons] at hfound
      rw [List.find?_cons, List.find?_cons]
      cases hq : q a with
      | true =>
          rw [hq] at hfound
          rw [hfound a rfl]
      | false =>
          rw [hq] at hfound
          have hp : p a = false := Bool.eq_false_iff.mpr fun hp => by simp [himp a hp] at hq
          rw [hp]
          exact ih hfound

theorem punct?_of_append {c : Char} {q x : List Char}
    (h : ∀ p, punct? (c :: (q ++ x)) = some p → p.spelling.length ≤ q.length + 1) :
    punct? (c :: q) = punct? (c :: (q ++ x)) := by
  refine find?_eq_of_imp (fun p hp => ?_) fun p hfound => ?_
  · obtain ⟨rest, hrest⟩ := Option.isSome_iff_exists.mp hp
    exact Option.isSome_iff_exists.mpr ⟨_, after?_append hrest x⟩
  · have hl : p.spelling.toList.length ≤ (c :: q).length := h p hfound
    have hfound := List.find?_some hfound
    cases hshort : after? p.spelling.toList (c :: q) with
    | some rest => rfl
    | none =>
        have := after?_append_of_none hl hshort x
        rw [List.cons_append] at this
        rw [this] at hfound
        cases hfound

theorem lexeme_directive (cs : List Char) :
    lexeme '#' cs = ofExcept (cs.takeWhile (· != '\n')).length
      ((Directive.ofLine (cs.takeWhile (· != '\n'))).map .directive) :=
  rfl

theorem lexeme_lineComment (rest : List Char) :
    lexeme '/' ('/' :: rest) = .blank (('/' :: rest).takeWhile (· != '\n')).length :=
  rfl

theorem extra_blockComment_pos (rest : List Char) : 0 < (blockComment rest).extra := by
  unfold blockComment
  split
  · exact Nat.succ_pos _
  · exact Nat.add_pos_left Nat.one_pos _

theorem cutAt?_of_append {pattern q x before rest : List Char}
    (h : cutAt? pattern (q ++ x) = some (before, rest))
    (hl : before.length + pattern.length ≤ q.length) :
    ∃ rest', cutAt? pattern q = some (before, rest') := by
  induction q generalizing before with
  | nil =>
      obtain ⟨rfl, rfl⟩ : before = [] ∧ pattern = [] := by simpa using hl
      exact ⟨[], rfl⟩
  | cons c q ih =>
      rw [List.cons_append, cutAt?] at h
      rw [cutAt?]
      split at h
      · next hafter =>
          cases h
          cases hshort : after? pattern (c :: q) with
          | some rest' => exact ⟨rest', rfl⟩
          | none =>
              have hnone := after?_append_of_none (by simpa using hl) hshort x
              cases hafter.symm.trans hnone
      · next hafter =>
          obtain ⟨⟨before, rest⟩, hcut, he⟩ := Option.map_eq_some_iff.mp h
          cases he
          obtain ⟨rest', hrest⟩ := ih hcut (by simp only [List.length_cons] at hl; omega)
          cases hshort : after? pattern (c :: q) with
          | some rest' => cases hafter.symm.trans (after?_append hshort x)
          | none => exact ⟨rest', by rw [hrest]; rfl⟩

theorem blockComment_of_append {q x : List Char}
    (h : (blockComment (q ++ x)).extra ≤ q.length + 1) :
    blockComment q = blockComment (q ++ x) := by
  unfold blockComment at h ⊢
  cases hlong : cutAt? ['*', '/'] (q ++ x) with
  | none =>
      rw [hlong] at h
      have hx : x = [] := by
        rw [← List.length_eq_zero_iff]
        simp only [extra, List.length_append] at h
        omega
      rw [hx, List.append_nil] at hlong ⊢
      rw [hlong]
  | some found =>
      rw [hlong] at h
      obtain ⟨rest, hrest⟩ := cutAt?_of_append hlong (by
        simp only [extra, List.length_cons, List.length_nil] at h ⊢
        omega)
      rw [hrest]

/-- Whether a character and what follows it continue a line. -/
def ContinuesLine (c : Char) (rest : List Char) : Prop :=
  c = '\\' ∧ ∃ behind, rest = '\n' :: behind ∨ rest = '\r' :: '\n' :: behind

theorem lexeme_of_no_special {c : Char} {cs : List Char} (hblank : isLexBlank c = false)
    (hword : ¬isWordStart c) (hscan : Numeral.scan? (c :: cs) = none) (hdirective : c ≠ '#')
    (hcomment : ¬OpensComment c cs) (hcontinued : ¬ContinuesLine c cs) :
    lexeme c cs =
      match punct? (c :: cs) with
      | some p => .token (.punct p) (p.spelling.length - 1)
      | none => .fault (.unexpectedCharacter c) 0 := by
  refine lexeme_mark hblank hword hscan hdirective (fun hc rest => ?_) fun hc rest => ?_
  · exact ⟨fun h => hcontinued ⟨hc, rest, .inl h⟩, fun h => hcontinued ⟨hc, rest, .inr h⟩⟩
  · exact ⟨fun h => hcomment ⟨hc, rest, .inl h⟩, fun h => hcomment ⟨hc, rest, .inr h⟩⟩

theorem lexeme_comment_of_append {c : Char} {q x : List Char} (hc : OpensComment c (q ++ x))
    (h : (lexeme c (q ++ x)).extra ≤ q.length) : lexeme c q = lexeme c (q ++ x) := by
  obtain ⟨rfl, behind, hbehind⟩ := hc
  cases q with
  | nil =>
      rw [List.nil_append] at h hbehind
      rcases hbehind with rfl | rfl
      · rw [lexeme_lineComment] at h
        simp [extra] at h
      · exact absurd h (Nat.not_le_of_gt (extra_blockComment_pos behind))
  | cons d q =>
      rw [List.cons_append] at hbehind h ⊢
      rcases hbehind with hbehind | hbehind
      · obtain ⟨rfl, -⟩ := List.cons.inj hbehind
        rw [lexeme_lineComment] at h
        rw [lexeme_lineComment, lexeme_lineComment]
        have htake := (takeWhile_append_of_length_le (q := '/' :: q) h).1
        rw [List.cons_append] at htake
        rw [htake]
      · obtain ⟨rfl, -⟩ := List.cons.inj hbehind
        exact blockComment_of_append h

theorem lexeme_continued_of_append {c : Char} {q x : List Char} (hc : ContinuesLine c (q ++ x))
    (h : (lexeme c (q ++ x)).extra ≤ q.length) : lexeme c q = lexeme c (q ++ x) := by
  obtain ⟨rfl, behind, hbehind | hbehind⟩ := hc
  · rcases q with _ | ⟨d, q⟩
    · rw [List.nil_append] at hbehind
      rw [hbehind] at h
      exact absurd h (Nat.not_succ_le_zero 0)
    · obtain ⟨rfl, -⟩ := List.cons.inj hbehind
      rfl
  · rcases q with _ | ⟨d, _ | ⟨e, q⟩⟩
    · rw [List.nil_append] at hbehind
      rw [hbehind] at h
      exact absurd h (Nat.not_succ_le_zero 1)
    · rw [hbehind] at h
      exact absurd h (Nat.not_succ_le_self 1)
    · obtain ⟨rfl, hrest⟩ := List.cons.inj hbehind
      obtain ⟨rfl, -⟩ := List.cons.inj hrest
      rfl

/-- What the lexer reads at the front of a text it reads as well where the text ends behind it. -/
theorem lexeme_of_append {c : Char} {q x : List Char} (h : (lexeme c (q ++ x)).extra ≤ q.length) :
    lexeme c q = lexeme c (q ++ x) := by
  by_cases hblank : isLexBlank c
  · rw [lexeme_of_isLexBlank hblank] at h
    rw [lexeme_of_isLexBlank hblank, lexeme_of_isLexBlank hblank,
      (takeWhile_append_of_length_le h).1]
  by_cases hword : isWordStart c
  · rw [lexeme_of_isWordStart hword] at h
    rw [lexeme_of_isWordStart hword, lexeme_of_isWordStart hword,
      (takeWhile_append_of_length_le h).1]
  rw [Bool.not_eq_true] at hblank
  have hscan : Numeral.scan? (c :: q) = Numeral.scan? (c :: (q ++ x)) := by
    refine Numeral.foundInTaken_scan? (c :: q) x fun found hfound => ?_
    rw [List.cons_append] at hfound
    rw [lexeme_number hblank hword hfound, extra_ofExcept] at h
    rw [List.length_cons]
    omega
  cases hnumber : Numeral.scan? (c :: (q ++ x)) with
  | some found => rw [lexeme_number hblank hword (hscan.trans hnumber),
      lexeme_number hblank hword hnumber]
  | none =>
      rw [hnumber] at hscan
      by_cases hdirective : c = '#'
      · subst hdirective
        rw [lexeme_directive, extra_ofExcept] at h
        rw [lexeme_directive, lexeme_directive, (takeWhile_append_of_length_le h).1]
      by_cases hcomment : OpensComment c (q ++ x)
      · exact lexeme_comment_of_append hcomment h
      by_cases hcontinued : ContinuesLine c (q ++ x)
      · exact lexeme_continued_of_append hcontinued h
      have hcomment' : ¬OpensComment c q := by
        rintro ⟨hc, behind, rfl | rfl⟩
        · exact hcomment ⟨hc, _, .inl rfl⟩
        · exact hcomment ⟨hc, _, .inr rfl⟩
      have hcontinued' : ¬ContinuesLine c q := by
        rintro ⟨hc, behind, rfl | rfl⟩
        · exact hcontinued ⟨hc, _, .inl rfl⟩
        · exact hcontinued ⟨hc, _, .inr rfl⟩
      have hmark := lexeme_of_no_special hblank hword hnumber hdirective hcomment hcontinued
      rw [hmark] at h
      rw [hmark, lexeme_of_no_special hblank hword hscan hdirective hcomment' hcontinued',
        punct?_of_append fun p hp => ?_]
      rw [hp] at h
      simp only [extra] at h
      omega

end ShaderBridge
