import ShaderBridge.Hlsl.Literal
import ShaderBridge.Proofs.Number.Nearest
import Mathlib

namespace ShaderBridge

open scoped PlainNumbers

/-- What some digits in front of a power of ten are worth. -/
def Digits.worth (d : Digits) : ℚ :=
  d.digits * 10 ^ d.exponent

theorem Digits.digits_pos (d : Digits) (h : 0 < d.worth) : 0 < d.digits :=
  Nat.pos_of_ne_zero fun hzero => by
    rw [worth, hzero, Nat.cast_zero, zero_mul] at h
    exact h.false

theorem Hlsl.quotient_pos {s : Nat} (hs : 0 < s) (e : ℤ) :
    0 < (Hlsl.quotient s e).1 ∧ 0 < (Hlsl.quotient s e).2 := by
  cases e with
  | ofNat e => exact ⟨Nat.mul_pos hs (Nat.two_pow_pos e), one_pos⟩
  | negSucc e => exact ⟨hs, Nat.two_pow_pos _⟩

theorem Hlsl.quotient_div (s : Nat) (e : ℤ) :
    ((Hlsl.quotient s e).1 / (Hlsl.quotient s e).2 : ℚ) = s * 2 ^ e := by
  cases e with
  | ofNat e =>
      rw [Int.ofNat_eq_natCast, zpow_natCast]
      show ((s * 2 ^ e : Nat) : ℚ) / (1 : Nat) = _
      rw [Nat.cast_one, div_one]
      exact_mod_cast rfl
  | negSucc e =>
      rw [zpow_negSucc, ← div_eq_mul_inv]
      show (s : ℚ) / (2 ^ (e + 1) : Nat) = _
      exact_mod_cast rfl

namespace BinaryFormat

variable (f : BinaryFormat)

theorem ofDyadic_eq_ofRatio (negative : Bool) (s : Nat) (e : ℤ) :
    f.ofDyadic negative s e =
      f.ofRatio negative (Hlsl.quotient s e).1 (Hlsl.quotient s e).2 := by
  cases e <;> rfl

theorem ofDecimal_eq_ofRatio {d : Digits} (hd : 0 < d.digits)
    (hlow : -(2 ^ f.exponentBits + f.fractionBits : ℤ) ≤ d.exponent)
    (hhigh : d.exponent ≤ (2 ^ f.exponentBits + f.fractionBits : ℤ)) :
    ∃ num den : Nat, 0 < num ∧ 0 < den ∧ (num / den : ℚ) = d.worth ∧
      f.ofDecimal d.digits d.exponent = f.ofRatio false num den := by
  obtain ⟨digits, e⟩ := d
  unfold ofDecimal Digits.worth
  dsimp only at hd hlow hhigh ⊢
  rw [if_neg hd.ne', if_neg (not_lt.2 hhigh),
    if_neg (not_lt.2 (hlow.trans (le_add_of_nonneg_right (Int.natCast_nonneg _))))]
  cases e with
  | ofNat e =>
      refine ⟨digits * 10 ^ e, 1, Nat.mul_pos hd (Nat.pow_pos (by decide)), one_pos, ?_, rfl⟩
      rw [Int.ofNat_eq_natCast, zpow_natCast, Nat.cast_one, div_one]
      exact_mod_cast rfl
  | negSucc e =>
      refine ⟨digits, 10 ^ (e + 1), hd, Nat.pow_pos (by decide), ?_, rfl⟩
      rw [zpow_negSucc, ← div_eq_mul_inv]
      exact_mod_cast rfl

end BinaryFormat

/-- Rounding to `n` significant digits leaves `n` digits, and changes less than half of what one in
the last place is worth. -/
theorem significantDigits_spec {n num den : Nat} (hn : 0 < n) (hnum : 0 < num) (hden : 0 < den)
    (hlow : (2 : ℚ) ^ (-149 : ℤ) ≤ num / den) (hhigh : (num / den : ℚ) < 2 ^ (128 : ℤ)) :
    10 ^ (n - 1) ≤ (significantDigits n num den).digits ∧
      (significantDigits n num den).digits < 10 ^ n ∧
      2 * 10 ^ (n - 1) * |(significantDigits n num den).worth - num / den| ≤ (num / den : ℚ) := by
  obtain ⟨hleast, hmost⟩ := floorLog10_bounds hnum hden hlow hhigh
  set e := floorLog10 num den - (n - 1 : Nat) with he
  have hlog : floorLog10 num den = (n - 1 : Nat) + e := by omega
  have hpos : (0 : ℚ) < 10 ^ e := zpow_pos (by norm_num) e
  have hnear := abs_roundScaled_sub_le num hden (show 0 < 10 by decide) e
  rw [Nat.cast_ofNat] at hnear
  rw [hlog, zpow_add₀ (by norm_num), zpow_natCast] at hleast
  rw [hlog, add_right_comm, zpow_add₀ (by norm_num), ← Nat.cast_succ, Nat.succ_eq_add_one,
    Nat.sub_add_cancel hn, zpow_natCast] at hmost
  obtain ⟨hbelow, habove⟩ := abs_le.1 hnear
  have hcast {a b : Nat} (h : (a : ℚ) * 10 ^ e < (b + 1 : ℕ) * 10 ^ e) : a ≤ b :=
    Nat.le_of_lt_succ (Nat.cast_lt.1 (lt_of_mul_lt_mul_right h hpos.le))
  have hfirst : 10 ^ (n - 1) ≤ roundScaled num den 10 e := hcast (by push_cast; linarith)
  have hlast : roundScaled num den 10 e ≤ 10 ^ n := hcast (by push_cast; linarith)
  have hrelative : 2 * 10 ^ (n - 1) * |(roundScaled num den 10 e : ℚ) * 10 ^ e - num / den| ≤
      num / den := by
    calc 2 * 10 ^ (n - 1) * |(roundScaled num den 10 e : ℚ) * 10 ^ e - num / den|
        ≤ 2 * 10 ^ (n - 1) * (10 ^ e / 2) := by gcongr
      _ = 10 ^ (n - 1) * 10 ^ e := by ring
      _ ≤ num / den := hleast
  unfold significantDigits
  dsimp only
  rw [← he]
  split
  · next hcarry =>
      refine ⟨le_rfl, Nat.pow_lt_pow_right (by decide) (Nat.sub_lt hn one_pos), ?_⟩
      have hworth :
          (Digits.mk (10 ^ (n - 1)) (e + 1)).worth = roundScaled num den 10 e * 10 ^ e := by
        rw [Digits.worth, hcarry, zpow_add_one₀ (by norm_num), ← Nat.sub_add_cancel hn,
          Nat.pow_succ]
        push_cast
        ring
      rwa [hworth]
  · next hcarry => exact ⟨hfirst, Nat.lt_of_le_of_ne hlast hcarry, hrelative⟩

theorem exponent_bounds_of_near {d : Digits} {q : ℚ} (hfirst : 10 ^ 8 ≤ d.digits)
    (hlast : d.digits < 10 ^ 9) (hnear : 2 * 10 ^ 8 * |d.worth - q| ≤ q)
    (hlow : (2 : ℚ) ^ (-149 : ℤ) ≤ q) (hhigh : q < (2 : ℚ) ^ (128 : ℤ)) :
    -60 ≤ d.exponent ∧ d.exponent ≤ 40 := by
  have hq : 0 < q := (zpow_pos two_pos _).trans_le hlow
  have hpos : (0 : ℚ) < 10 ^ d.exponent := zpow_pos (by norm_num) _
  obtain ⟨hbelow, habove⟩ := abs_le.1 ((le_div_iff₀' (by norm_num)).2 hnear)
  have hfirst : (10 ^ 8 : ℚ) ≤ d.digits := by exact_mod_cast hfirst
  have hlast : (d.digits : ℚ) ≤ 10 ^ 9 := by exact_mod_cast hlast.le
  have hone : (1 : ℚ) < 10 := by norm_num
  constructor
  · have h : (10 : ℚ) ^ (-51 : ℤ) < 10 ^ (9 + d.exponent) := by
      calc (10 : ℚ) ^ (-51 : ℤ) < 2 ^ (-149 : ℤ) / 2 := by norm_num
        _ ≤ q / 2 := by gcongr
        _ ≤ d.digits * 10 ^ d.exponent := (by linarith : q / 2 ≤ d.worth)
        _ ≤ 10 ^ 9 * 10 ^ d.exponent := by gcongr
        _ = 10 ^ (9 + d.exponent) := by rw [zpow_add₀ (by norm_num)]; rfl
    have := (zpow_lt_zpow_iff_right₀ hone).1 h
    omega
  · have h : (10 : ℚ) ^ (8 + d.exponent) < 10 ^ (40 : ℤ) := by
      calc (10 : ℚ) ^ (8 + d.exponent) = 10 ^ 8 * 10 ^ d.exponent := by
            rw [zpow_add₀ (by norm_num)]; rfl
        _ ≤ d.digits * 10 ^ d.exponent := by gcongr
        _ ≤ 2 * q := (by linarith : d.worth ≤ 2 * q)
        _ ≤ 2 * 2 ^ (128 : ℤ) := by gcongr
        _ < 10 ^ (40 : ℤ) := by norm_num
    have := (zpow_lt_zpow_iff_right₀ hone).1 h
    omega

namespace BinaryFormat

theorem magnitude_infinityBits_single : single.magnitude single.infinityBits = 2 ^ (128 : ℤ) := by
  have h : single.infinityBits = 253 * 2 ^ single.fractionBits + 2 * 2 ^ single.fractionBits := by
    decide
  rw [h, single.magnitude_of_significand le_rfl (.inr (by decide))]
  have hs : ((2 * 2 ^ 23 : Nat) : ℚ) = 2 ^ (24 : ℤ) := by norm_num
  show ((2 * 2 ^ 23 : Nat) : ℚ) * 2 ^ (-149 + 253 : ℤ) = 2 ^ (24 + (-149 + 253) : ℤ)
  rw [hs, zpow_add₀ two_ne_zero 24]

theorem magnitude_infinityBits_double : double.magnitude double.infinityBits = 2 ^ (1024 : ℤ) := by
  have h : double.infinityBits = 2045 * 2 ^ double.fractionBits + 2 * 2 ^ double.fractionBits := by
    decide
  rw [h, double.magnitude_of_significand le_rfl (.inr (by decide))]
  have hs : ((2 * 2 ^ 52 : Nat) : ℚ) = 2 ^ (53 : ℤ) := by norm_num
  show ((2 * 2 ^ 52 : Nat) : ℚ) * 2 ^ (-1074 + 2045 : ℤ) = 2 ^ (53 + (-1074 + 2045) : ℤ)
  rw [hs, zpow_add₀ two_ne_zero 53]

theorem magnitude_one_single : single.magnitude 1 = 2 ^ (-149 : ℤ) := by
  show ((1 : Nat) : ℚ) * 2 ^ (-149 : ℤ) = _
  rw [Nat.cast_one, one_mul]

theorem magnitude_single_bounds {n : Nat} (hpos : 0 < n) (hn : n < single.infinityBits) :
    (2 : ℚ) ^ (-149 : ℤ) ≤ single.magnitude n ∧ single.magnitude n < 2 ^ (128 : ℤ) := by
  rw [← magnitude_one_single, ← magnitude_infinityBits_single]
  exact ⟨single.strictMono_magnitude.monotone hpos, single.strictMono_magnitude hn⟩

theorem ofRatio_single_of_near {n num den : Nat} (hnum : 0 < num) (hden : 0 < den)
    (hn : n < single.infinityBits)
    (hnear : 10 ^ 8 * |(num / den : ℚ) - single.magnitude n| < single.magnitude n)
    (negative : Bool) : single.ofRatio negative num den = single.withSign negative n := by
  rw [ofRatio, single.roundMagnitude_of_near hnum hden hn]
  refine lt_of_le_of_lt ?_ hnear
  rw [abs_sub_comm]
  gcongr
  exact (by norm_num : (2 : ℚ) ^ (23 + 2) ≤ 10 ^ 8)

theorem exists_ofDecimal_double {d : Digits} (hlow : -279 ≤ d.exponent) (hhigh : d.exponent ≤ 279)
    (hleast : (2 : ℚ) ^ (-150 : ℤ) ≤ d.worth) (hmost : d.worth ≤ (2 : ℚ) ^ (129 : ℤ)) :
    ∃ (s : Nat) (e : ℤ), 0 < s ∧
      double.decode (double.ofDecimal d.digits d.exponent) = .finite false s e ∧
      2 ^ 53 * |(s : ℚ) * 2 ^ e - d.worth| ≤ d.worth := by
  have hworth : 0 < d.worth := (zpow_pos two_pos _).trans_le hleast
  obtain ⟨num, den, hnum, hden, hratio, heq⟩ := double.ofDecimal_eq_ofRatio (d.digits_pos hworth)
    (le_trans (by decide) hlow) (hhigh.trans (by decide))
  have hnormal : (2 : ℚ) ^ double.fractionBits * 2 ^ double.minExponent ≤ num / den := by
    rw [hratio, ← zpow_natCast, ← zpow_add₀ two_ne_zero]
    exact (zpow_le_zpow_right₀ one_le_two (by decide)).trans hleast
  have hrange : (2 * (num / den) : ℚ) ≤ double.magnitude double.infinityBits := by
    rw [hratio, magnitude_infinityBits_double]
    calc (2 * d.worth : ℚ) ≤ 2 * 2 ^ (129 : ℤ) := by gcongr
      _ = 2 ^ (130 : ℤ) := by norm_num
      _ ≤ 2 ^ (1024 : ℤ) := zpow_le_zpow_right₀ one_le_two (by decide)
  obtain ⟨hfinite, hrelative⟩ := double.roundMagnitude_relative hnum hden hnormal hrange
  obtain ⟨s, e, hdecode, hvalue⟩ := decode_finite hfinite false
  rw [hratio, ← hvalue] at hrelative
  have hrelative : 2 ^ 53 * |(s : ℚ) * 2 ^ e - d.worth| ≤ d.worth := hrelative
  refine ⟨s, e, Nat.pos_of_ne_zero ?_, by rw [heq]; exact hdecode, hrelative⟩
  rintro rfl
  rw [Nat.cast_zero, zero_mul, zero_sub, abs_neg, abs_of_pos hworth] at hrelative
  linarith

/-- A decimal that nine significant digits tell from a number of single precision is rounded to the
number, at once and through a double alike. -/
theorem decimal_readsBack {n : Nat} (hpos : 0 < n) (hn : n < single.infinityBits) {d : Digits}
    (hlow : -279 ≤ d.exponent) (hhigh : d.exponent ≤ 279)
    (hnear : 2 * 10 ^ 8 * |d.worth - single.magnitude n| ≤ single.magnitude n) :
    single.ofDecimal d.digits d.exponent = single.withSign false n ∧
      single.ofValue (double.decode (double.ofDecimal d.digits d.exponent)) =
        single.withSign false n := by
  obtain ⟨hleast, hmost⟩ := magnitude_single_bounds hpos hn
  have hmagnitude : 0 < single.magnitude n := (zpow_pos two_pos _).trans_le hleast
  obtain ⟨hbelow, habove⟩ := abs_le.1 ((le_div_iff₀' (by norm_num)).2 hnear)
  have hhalf : single.magnitude n / 2 ≤ d.worth := by linarith
  have htwice : d.worth ≤ 2 * single.magnitude n := by linarith
  constructor
  · obtain ⟨num, den, hnum, hden, hratio, heq⟩ :=
      single.ofDecimal_eq_ofRatio (d.digits_pos (by linarith)) hlow hhigh
    rw [heq, ofRatio_single_of_near hnum hden hn]
    rw [hratio]
    linarith
  · have hlow' : (2 : ℚ) ^ (-150 : ℤ) ≤ d.worth := by
      calc (2 : ℚ) ^ (-150 : ℤ) = 2 ^ (-149 : ℤ) / 2 := by norm_num
        _ ≤ single.magnitude n / 2 := by gcongr
        _ ≤ d.worth := hhalf
    have hhigh' : d.worth ≤ (2 : ℚ) ^ (129 : ℤ) := by
      calc d.worth ≤ 2 * single.magnitude n := htwice
        _ ≤ 2 * 2 ^ (128 : ℤ) := by gcongr
        _ = 2 ^ (129 : ℤ) := by norm_num
    obtain ⟨s, e, hs, hdecode, hwide⟩ := exists_ofDecimal_double hlow hhigh hlow' hhigh'
    obtain ⟨hnum, hden⟩ := Hlsl.quotient_pos hs e
    rw [hdecode, ofValue, ofDyadic_eq_ofRatio, ofRatio_single_of_near hnum hden hn]
    rw [Hlsl.quotient_div]
    have htriangle := abs_sub_le ((s : ℚ) * 2 ^ e) d.worth (single.magnitude n)
    linarith

end BinaryFormat

end ShaderBridge
