import ShaderBridge.Proofs.Token.Ending
import ShaderBridge.Proofs.Token.Spelling
import ShaderBridge.Proofs.Number.Decimal
import Mathlib

namespace ShaderBridge

open scoped PlainNumbers

/-! ### Zeros -/

theorem digitsValue_append (as bs : List Char) :
    digitsValue 10 (as ++ bs) = digitsValue 10 as * 10 ^ bs.length + digitsValue 10 bs := by
  induction bs using List.reverseRecOn with
  | nil => rw [List.append_nil]; exact (Nat.mul_one _).symm
  | append_singleton bs b ih =>
      have hlast (cs : List Char) :
          digitsValue 10 (cs ++ [b]) = digitsValue 10 cs * 10 + digitValue b :=
        List.foldl_append
      rw [← List.append_assoc, hlast, hlast, ih, List.length_append, List.length_singleton,
        Nat.pow_succ]
      ring

theorem digitsValue_replicate (k : Nat) : digitsValue 10 (List.replicate k '0') = 0 := by
  induction k with
  | zero => rfl
  | succ k ih =>
      rw [List.replicate_succ', digitsValue_append, ih, Nat.zero_mul]
      rfl

theorem digitsValue_leadingZeros (k : Nat) (cs : List Char) :
    digitsValue 10 (List.replicate k '0' ++ cs) = digitsValue 10 cs := by
  rw [digitsValue_append, digitsValue_replicate, Nat.zero_mul, Nat.zero_add]

theorem digitsValue_trailingZeros (cs : List Char) (k : Nat) :
    digitsValue 10 (cs ++ List.replicate k '0') = digitsValue 10 cs * 10 ^ k := by
  rw [digitsValue_append, digitsValue_replicate, List.length_replicate, Nat.add_zero]

theorem isDigit_of_mem_replicate {k : Nat} {c : Char} (hc : c ∈ List.replicate k '0') :
    isDigit c := by
  rw [List.eq_of_mem_replicate hc]
  rfl

theorem exists_trailingZeros (ds : List Char) :
    ∃ kept k, ds = kept ++ List.replicate k '0' ∧ kept.getLast? ≠ some '0' := by
  induction ds using List.reverseRecOn with
  | nil => exact ⟨[], 0, rfl, nofun⟩
  | append_singleton ds d ih =>
      by_cases hd : d = '0'
      · obtain ⟨kept, k, rfl, hkept⟩ := ih
        exact ⟨kept, k + 1, by rw [hd, List.append_assoc, ← List.replicate_succ'], hkept⟩
      · refine ⟨ds ++ [d], 0, (List.append_nil _).symm, ?_⟩
        rw [List.getLast?_concat]
        exact fun h => hd (Option.some.inj h)

/-! ### Points -/

/-- Digits around a point, without the point where no digits follow it. -/
def pointed (whole fraction : List Char) : List Char :=
  if fraction = [] then whole else whole ++ '.' :: fraction

/-- A decimal in positional notation. -/
structure Positional where
  whole : List Char
  fraction : List Char
  whole_ne_nil : whole ≠ []
  isDigit_whole : ∀ c ∈ whole, isDigit c
  isDigit_fraction : ∀ c ∈ fraction, isDigit c

namespace Positional

def text (p : Positional) : List Char :=
  pointed p.whole p.fraction

/-- What the digits come to in front of a power of ten. -/
def digits (p : Positional) (exponent : ℤ) : Digits :=
  ⟨digitsValue 10 (p.whole ++ p.fraction), exponent - p.fraction.length⟩

end Positional

theorem trimFraction_of_isDigit {cs : List Char} (hcs : ∀ c ∈ cs, isDigit c) :
    trimFraction cs = cs := by
  refine if_neg fun hpoint => ?_
  have h := hcs _ (List.mem_of_elem_eq_true hpoint)
  exact absurd h (by decide)

theorem trimFraction_point {whole fraction : List Char} (k : Nat)
    (hfraction : ∀ c ∈ fraction, isDigit c) (hlast : fraction.getLast? ≠ some '0') :
    trimFraction (whole ++ '.' :: (fraction ++ List.replicate k '0')) = pointed whole fraction := by
  have hpoint : (whole ++ '.' :: (fraction ++ List.replicate k '0')).contains '.' = true :=
    List.elem_eq_true_of_mem (List.mem_append_right _ List.mem_cons_self)
  have hzeros : ∀ c ∈ List.replicate k '0', (c == '0') = true :=
    fun c hc => beq_iff_eq.2 (List.eq_of_mem_replicate hc)
  unfold trimFraction pointed
  rw [if_pos hpoint, ← List.cons_append, ← List.append_assoc, List.reverse_append,
    List.reverse_replicate, List.dropWhile_append_of_pos hzeros]
  rcases List.eq_nil_or_concat fraction with rfl | ⟨ds, d, rfl⟩
  · have hkept : (whole ++ ['.']).reverse.dropWhile (· == '0') = (whole ++ ['.']).reverse := by
      rw [List.reverse_append]
      rfl
    rw [hkept, List.reverse_reverse]
    exact (if_pos List.getLast?_concat).trans List.dropLast_concat
  · rw [List.concat_eq_append] at hlast hfraction ⊢
    rw [List.getLast?_concat] at hlast
    have hd : (d == '0') = false := beq_eq_false_iff_ne.2 fun h => hlast (congrArg some h)
    have hkept : (whole ++ '.' :: (ds ++ [d])).reverse.dropWhile (· == '0') =
        (whole ++ '.' :: (ds ++ [d])).reverse := by
      rw [← List.cons_append, ← List.append_assoc, List.reverse_append]
      exact List.dropWhile_cons_of_neg (by rw [hd]; exact Bool.false_ne_true)
    have hne : (whole ++ '.' :: (ds ++ [d])).getLast? ≠ some '.' := by
      rw [← List.cons_append, ← List.append_assoc, List.getLast?_concat]
      rintro h
      rw [Option.some.inj h] at hfraction
      exact absurd (hfraction '.' (List.mem_append_right _ List.mem_cons_self)) (by decide)
    rw [hkept, List.reverse_reverse]
    exact (if_neg hne).trans (if_neg (List.append_ne_nil_of_right_ne_nil _
      (List.cons_ne_nil _ _))).symm

theorem exists_positional (places n : Nat) :
    ∃ p : Positional, trimFraction (placePoint places n) = p.text ∧ p.fraction.length ≤ places ∧
      ∀ e, (p.digits e).worth = n * 10 ^ (e - places) := by
  have hdigits : ∀ c ∈ List.replicate (places + 1 - (Nat.toDigits 10 n).length) '0' ++
      Nat.toDigits 10 n, isDigit c := fun c hc =>
    (List.mem_append.1 hc).elim isDigit_of_mem_replicate isDigit_of_mem_toDigits
  have hvalue :=
    digitsValue_leadingZeros (places + 1 - (Nat.toDigits 10 n).length) (Nat.toDigits 10 n)
  have hlength : places < (List.replicate (places + 1 - (Nat.toDigits 10 n).length) '0' ++
      Nat.toDigits 10 n).length := by
    rw [List.length_append, List.length_replicate]
    omega
  unfold placePoint
  dsimp only
  generalize List.replicate (places + 1 - (Nat.toDigits 10 n).length) '0' ++ Nat.toDigits 10 n = ds
    at hdigits hvalue hlength ⊢
  rw [digitsValue_toDigits] at hvalue
  have hsplit := List.take_append_drop (ds.length - places) ds
  have hwhole : ds.take (ds.length - places) ≠ [] := by
    rw [← List.length_pos_iff, List.length_take]
    omega
  have hlengthFraction : (ds.drop (ds.length - places)).length = places := by
    rw [List.length_drop]
    omega
  generalize ds.take (ds.length - places) = whole at hsplit hwhole ⊢
  generalize ds.drop (ds.length - places) = fraction at hsplit hlengthFraction ⊢
  subst hsplit
  have hdigitsWhole : ∀ c ∈ whole, isDigit c := fun c hc => hdigits c (List.mem_append_left _ hc)
  obtain ⟨kept, k, rfl, hlast⟩ := exists_trailingZeros fraction
  rw [List.length_append, List.length_replicate] at hlengthFraction
  have hkept : ∀ c ∈ kept, isDigit c := fun c hc =>
    hdigits c (List.mem_append_right _ (List.mem_append_left _ hc))
  refine ⟨⟨whole, kept, hwhole, hdigitsWhole, hkept⟩, ?_,
    show kept.length ≤ places by omega, fun e => ?_⟩
  · split
    · obtain ⟨rfl, rfl⟩ : kept = [] ∧ k = 0 :=
        ⟨List.length_eq_zero_iff.1 (by omega), by omega⟩
      exact trimFraction_of_isDigit hdigitsWhole
    · exact trimFraction_point k hkept hlast
  · rw [← List.append_assoc, digitsValue_trailingZeros] at hvalue
    have hexponent : e - kept.length = k + (e - places) := by omega
    rw [Digits.worth, ← hvalue]
    show _ * (10 : ℚ) ^ (e - kept.length) = _
    rw [hexponent, zpow_add₀ (by norm_num), zpow_natCast]
    push_cast
    exact (mul_assoc _ _ _).symm

/-! ### Scanning -/

/-- The ending of a floating-point kind. -/
def realEnding : RealKind → List Char
  | .half => ['h', 'f']
  | .float => []
  | .double => ['l', 'f']

theorem exists_exponentText (e : ℤ) :
    ∃ ds, Hlsl.exponentText e = 'e' :: (if e < 0 then '-' else '+') :: ds ∧ ds ≠ [] ∧
      (∀ c ∈ ds, isDigit c) ∧ digitsValue 10 ds = e.natAbs := by
  refine ⟨List.replicate (2 - (Nat.toDigits 10 e.natAbs).length) '0' ++ Nat.toDigits 10 e.natAbs,
    rfl, ?_, fun c hc => ?_, ?_⟩
  · exact List.append_ne_nil_of_right_ne_nil _ (List.ne_nil_of_length_pos Nat.length_toDigits_pos)
  · exact (List.mem_append.1 hc).elim isDigit_of_mem_replicate isDigit_of_mem_toDigits
  · rw [digitsValue_leadingZeros, digitsValue_toDigits]

theorem takeWhile_isDigit {ds cs : List Char} (hds : ∀ c ∈ ds, isDigit c)
    (hcs : ∀ c ∈ cs.head?, isDigit c = false) : (ds ++ cs).takeWhile isDigit = ds := by
  rw [List.takeWhile_append_of_pos hds]
  cases cs with
  | nil => exact List.append_nil _
  | cons c cs =>
      rw [List.takeWhile_cons, hcs c rfl]
      exact List.append_nil _

theorem dropWhile_isDigit {ds cs : List Char} (hds : ∀ c ∈ ds, isDigit c)
    (hcs : ∀ c ∈ cs.head?, isDigit c = false) : (ds ++ cs).dropWhile isDigit = cs := by
  rw [List.dropWhile_append_of_pos hds]
  cases cs with
  | nil => rfl
  | cons c cs => rw [List.dropWhile_cons, hcs c rfl]; rfl

namespace Numeral

theorem head_realEnding (k : RealKind) : ∀ c ∈ (realEnding k).head?, isDigit c = false := by
  cases k <;> · rintro c ⟨⟩ <;> rfl

theorem exponent?_exponentText (e : ℤ) (k : RealKind) :
    exponent? (Hlsl.exponentText e ++ realEnding k) = some (e, (Hlsl.exponentText e).length) := by
  obtain ⟨ds, htext, hne, hdigits, hvalue⟩ := exists_exponentText e
  have htake := takeWhile_isDigit hdigits (head_realEnding k)
  have hempty : ds.isEmpty = false := List.isEmpty_eq_false_iff.2 hne
  rw [htext]
  by_cases he : e < 0
  · rw [if_pos he]
    show (if ((ds ++ realEnding k).takeWhile isDigit).isEmpty then none
      else some (-(digitsValue 10 ((ds ++ realEnding k).takeWhile isDigit) : ℤ),
        1 + 1 + ((ds ++ realEnding k).takeWhile isDigit).length)) = _
    rw [htake, hempty, if_neg Bool.false_ne_true, hvalue, Int.ofNat_natAbs_of_nonpos he.le, neg_neg,
      List.length_cons, List.length_cons, Nat.add_comm (1 + 1)]
  · rw [if_neg he]
    show (if ((ds ++ realEnding k).takeWhile isDigit).isEmpty then none
      else some ((digitsValue 10 ((ds ++ realEnding k).takeWhile isDigit) : ℤ),
        1 + 1 + ((ds ++ realEnding k).takeWhile isDigit).length)) = _
    rw [htake, hempty, if_neg Bool.false_ne_true, hvalue, Int.natAbs_of_nonneg (not_lt.1 he),
      List.length_cons, List.length_cons, Nat.add_comm (1 + 1)]

theorem realTail_exponentText (whole fraction : List Char) (e : ℤ) (k : RealKind) :
    realTail whole fraction (Hlsl.exponentText e ++ realEnding k) =
      (.real whole fraction e k, (Hlsl.exponentText e ++ realEnding k).length) := by
  unfold realTail
  rw [exponent?_exponentText, List.length_append]
  dsimp only [Option.getD]
  rw [List.drop_left]
  cases k <;> rfl

theorem realTail_ending (whole fraction : List Char) (k : RealKind) :
    realTail whole fraction (realEnding k) =
      (.real whole fraction 0 k, (realEnding k).length) := by
  cases k <;> rfl

theorem isEmpty_whole (p : Positional) : p.whole.isEmpty = false :=
  List.isEmpty_eq_false_iff.2 p.whole_ne_nil

theorem scan?_point (p : Positional) (hfraction : p.fraction ≠ []) {tail : List Char}
    (htail : ∀ c ∈ tail.head?, isDigit c = false) :
    scan? (p.text ++ tail) = some ((realTail p.whole p.fraction tail).1,
      p.text.length + (realTail p.whole p.fraction tail).2) := by
  have hpoint : ∀ c ∈ ('.' :: (p.fraction ++ tail)).head?, isDigit c = false := by
    rintro c ⟨⟩
    rfl
  have hdrop := dropWhile_isDigit p.isDigit_whole hpoint
  have hlength :
      (p.whole ++ '.' :: p.fraction).length = p.whole.length + 1 + p.fraction.length := by
    rw [List.length_append, List.length_cons]
    omega
  rw [Positional.text, pointed, if_neg hfraction, hlength, List.append_assoc, List.cons_append]
  simp only [scan?, hdrop, takeWhile_isDigit p.isDigit_whole hpoint,
    takeWhile_isDigit p.isDigit_fraction htail, dropWhile_isDigit p.isDigit_fraction htail,
    isEmpty_whole, Bool.false_and, Bool.false_eq_true, if_false]

theorem scan?_exponent (p : Positional) (hfraction : p.fraction = []) {tail : List Char}
    (htail : tail.head? = some 'e') (hexponent : (exponent? tail).isSome) :
    scan? (p.text ++ tail) = some ((realTail p.whole p.fraction tail).1,
      p.text.length + (realTail p.whole p.fraction tail).2) := by
  obtain ⟨tail, rfl⟩ := List.head?_eq_some_iff.1 htail
  have hmark : ∀ c ∈ ('e' :: tail).head?, isDigit c = false := by
    rintro c ⟨⟩
    rfl
  have hpoint : ∀ rest, (p.whole ++ 'e' :: tail).dropWhile isDigit ≠ '.' :: rest := by
    rw [dropWhile_isDigit p.isDigit_whole hmark]
    exact fun _ h => absurd (List.cons.inj h).1 (by decide)
  have hhex : hexadecimal? ('e' :: tail) = none := by
    unfold hexadecimal?
    exact if_neg fun h => h.1.elim (by decide) (by decide)
  have htail : integerTail p.whole ('e' :: tail) = realTail p.whole [] ('e' :: tail) :=
    if_pos (.inl hexponent)
  rw [Positional.text, pointed, if_pos hfraction, scan?_of_no_point hpoint,
    takeWhile_isDigit p.isDigit_whole hmark, dropWhile_isDigit p.isDigit_whole hmark, isEmpty_whole,
    hhex, ite_self, htail, hfraction]
  rfl

end Numeral

/-! ### Numbers as they are written -/

/-- A text that is read as one number, with the given digits. -/
def Spells (cs : List Char) (p : Positional) (e : ℤ) : Prop :=
  (∃ d ∈ cs.head?, isDigit d) ∧
    ∀ k, Numeral.scan? (cs ++ realEnding k) =
      some (.real p.whole p.fraction e k, (cs ++ realEnding k).length)

theorem Positional.exists_head (p : Positional) (cs : List Char) :
    ∃ d ∈ (p.text ++ cs).head?, isDigit d := by
  obtain ⟨whole, fraction, hne, hwhole, _⟩ := p
  cases whole with
  | nil => exact absurd rfl hne
  | cons d ds =>
      refine ⟨d, ?_, hwhole d List.mem_cons_self⟩
      unfold text pointed
      split <;> rfl

theorem Positional.spells_text (p : Positional) (hfraction : p.fraction ≠ []) :
    Spells p.text p 0 := by
  refine ⟨?_, fun k => ?_⟩
  · have h := p.exists_head []
    rwa [List.append_nil] at h
  · rw [Numeral.scan?_point p hfraction (Numeral.head_realEnding k), Numeral.realTail_ending,
      List.length_append]

theorem Positional.spells_exponent (p : Positional) (e : ℤ) :
    Spells (p.text ++ Hlsl.exponentText e) p e := by
  refine ⟨p.exists_head _, fun k => ?_⟩
  obtain ⟨ds, htext, -⟩ := exists_exponentText e
  have hexponent : (Numeral.exponent? (Hlsl.exponentText e ++ realEnding k)).isSome := by
    rw [Numeral.exponent?_exponentText]
    rfl
  have hhead : (Hlsl.exponentText e ++ realEnding k).head? = some 'e' := by
    rw [htext]
    rfl
  have hmark : ∀ c ∈ (Hlsl.exponentText e ++ realEnding k).head?, isDigit c = false := by
    rw [hhead]
    rintro c ⟨⟩
    rfl
  rw [List.append_assoc, List.length_append]
  by_cases hfraction : p.fraction = []
  · rw [Numeral.scan?_exponent p hfraction hhead hexponent, Numeral.realTail_exponentText]
  · rw [Numeral.scan?_point p hfraction hmark, Numeral.realTail_exponentText]

/-! ### Layout -/

theorem withFraction_of_mem {cs : List Char} {c : Char} (hc : c ∈ cs) (hmark : c = '.' ∨ c = 'e') :
    Hlsl.withFraction cs = cs := by
  refine if_pos (List.any_eq_true.2 ⟨c, hc, ?_⟩)
  rcases hmark with rfl | rfl <;> rfl

theorem withFraction_of_isDigit {cs : List Char} (negative : Bool) (hcs : ∀ c ∈ cs, isDigit c) :
    Hlsl.withFraction (Hlsl.signText negative ++ cs) =
      Hlsl.signText negative ++ (cs ++ ['.', '0']) := by
  refine (if_neg fun h => ?_).trans (List.append_assoc _ _ _)
  obtain ⟨c, hc, hmark⟩ := List.any_eq_true.1 h
  rcases List.mem_append.1 hc with hsign | hdigit
  · cases negative
    · cases hsign
    · cases List.mem_singleton.1 hsign
      exact absurd hmark (by decide)
  · have hdigit := hcs c hdigit
    rcases List.mem_cons.1 (List.mem_of_elem_eq_true hmark) with rfl | h
    · exact absurd hdigit (by decide)
    · simp only [List.mem_cons, List.not_mem_nil, or_false] at h
      rcases h with rfl | rfl | rfl <;> exact absurd hdigit (by decide)

theorem length_toDigits_of_bounds {n d : Nat} (hfirst : 10 ^ (n + 1) ≤ d)
    (hlast : d < 10 ^ (n + 2)) :
    (Nat.toDigits 10 d).length = n + 2 := by
  refine Nat.le_antisymm ((Nat.length_toDigits_le_iff (by decide) (by omega)).2 hlast) ?_
  by_contra h
  refine absurd hfirst (Nat.not_le.2 ?_)
  exact (Nat.length_toDigits_le_iff (by decide) n.succ_pos).1 (by omega)

/-- A decimal without fraction gets one that adds nothing to it. -/
def Positional.withZero (p : Positional) : Positional :=
  ⟨p.whole, ['0'], p.whole_ne_nil, p.isDigit_whole,
    fun _ hc => isDigit_of_mem_replicate (k := 1) hc⟩

theorem Positional.worth_withZero (p : Positional) (hfraction : p.fraction = []) :
    (p.withZero.digits 0).worth = (p.digits 0).worth := by
  have h : digitsValue 10 (p.whole ++ ['0']) = digitsValue 10 p.whole * 10 :=
    digitsValue_trailingZeros p.whole 1
  rw [Digits.worth, Digits.worth, digits, digits, hfraction, List.append_nil]
  show (digitsValue 10 (p.whole ++ ['0']) : ℚ) * 10 ^ (0 - 1 : ℤ) = _ * 10 ^ (0 - 0 : ℤ)
  rw [h, Nat.cast_mul, mul_assoc]
  norm_num

/-- What is written for a quotient in the range of single precision is one number, which is worth
the significant digits that are shown of the quotient. -/
theorem exists_spells {num den : Nat} (hnum : 0 < num) (hden : 0 < den)
    (hlow : (2 : ℚ) ^ (-149 : ℤ) ≤ num / den) (hhigh : (num / den : ℚ) < 2 ^ (128 : ℤ))
    (negative : Bool) :
    ∃ cs p e, Hlsl.withFraction (Hlsl.signText negative ++ Hlsl.magnitudeText num den) =
        Hlsl.signText negative ++ cs ∧ Spells cs p e ∧
      (p.digits e).worth = (significantDigits Hlsl.shownDigits num den).worth ∧
      -279 ≤ (p.digits e).exponent ∧ (p.digits e).exponent ≤ 279 := by
  obtain ⟨hfirst, hlast, hnear⟩ :=
    significantDigits_spec (n := Hlsl.shownDigits) (by decide) hnum hden hlow hhigh
  have hexponent := exponent_bounds_of_near hfirst hlast hnear hlow hhigh
  unfold Hlsl.magnitudeText
  dsimp only
  generalize significantDigits Hlsl.shownDigits num den = d at hfirst hlast hexponent ⊢
  have hleading : d.leadingExponent = d.exponent + 8 := by
    rw [Digits.leadingExponent, Digits.text, length_toDigits_of_bounds (n := 7) hfirst hlast]
    rfl
  rw [hleading]
  split
  · obtain ⟨p, htext, hlength, hworth⟩ := exists_positional (Hlsl.shownDigits - 1) d.digits
    obtain ⟨ds, hmark, -⟩ := exists_exponentText (d.exponent + 8)
    refine ⟨_, p, d.exponent + 8, ?_, p.spells_exponent _, ?_, ?_, ?_⟩
    · rw [htext]
      refine withFraction_of_mem (c := 'e') ?_ (.inr rfl)
      rw [hmark]
      exact List.mem_append_right _ (List.mem_append_right _ List.mem_cons_self)
    · rw [hworth]
      exact congrArg (_ * (10 : ℚ) ^ ·) (add_sub_cancel_right d.exponent 8)
    · show _ ≤ d.exponent + 8 - p.fraction.length
      have : p.fraction.length ≤ 8 := hlength
      omega
    · show d.exponent + 8 - p.fraction.length ≤ _
      omega
  · next hplain =>
      rw [Bool.or_eq_true, decide_eq_true_eq, decide_eq_true_eq, not_or, not_lt, not_le] at hplain
      have hleast : -4 ≤ d.exponent + 8 := hplain.1
      have hmost : d.exponent + 8 < 9 := hplain.2
      obtain ⟨p, htext, hlength, hworth⟩ := exists_positional (-d.exponent).toNat d.digits
      have hplaces : -((-d.exponent).toNat : ℤ) = d.exponent := by omega
      have hworth := hworth 0
      rw [zero_sub, hplaces] at hworth
      rw [htext]
      by_cases hfraction : p.fraction = []
      · refine ⟨_, p.withZero, 0, ?_, p.withZero.spells_text (List.cons_ne_nil _ _), ?_, ?_, ?_⟩
        · rw [Positional.text, pointed, if_pos hfraction]
          exact withFraction_of_isDigit negative p.isDigit_whole
        · rw [p.worth_withZero hfraction, hworth]
          rfl
        · exact (by decide : (-279 : ℤ) ≤ 0 - 1)
        · exact (by decide : (0 - 1 : ℤ) ≤ 279)
      · refine ⟨_, p, 0, ?_, p.spells_text hfraction, hworth, ?_, ?_⟩
        · rw [Positional.text, pointed, if_neg hfraction]
          refine withFraction_of_mem (c := '.') ?_ (.inl rfl)
          exact List.mem_append_right _ (List.mem_append_right _ List.mem_cons_self)
        · show _ ≤ (0 : ℤ) - p.fraction.length
          omega
        · show (0 : ℤ) - p.fraction.length ≤ _
          omega

end ShaderBridge
