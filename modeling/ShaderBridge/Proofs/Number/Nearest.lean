import ShaderBridge.Number.Rounding
import ShaderBridge.Number.Binary
import Mathlib

/-!
What rounding a quotient comes to among the rationals. A rounded quotient is within half a unit of
the quotient, and a logarithm is the one power of its base that the quotient lies at or above while
it lies below the next. The numbers of a binary format are a grid: patterns without a sign count
upwards in steps that double with every exponent, so that a quotient is rounded to the pattern whose
number is nearest, and is rounded to a given pattern wherever it is within half of the smaller step
next to it.
-/

namespace ShaderBridge

open scoped PlainNumbers

/-! ### Quotients -/

section

variable (num : Nat) {den : Nat}

theorem abs_roundHalfEven_sub_le (hden : 0 < den) :
    |(roundHalfEven num den : ℚ) - num / den| ≤ 1 / 2 := by
  obtain ⟨hlow, hhigh⟩ : _ ∧ _ := @roundHalfEven_near num den hden
  have hpos : (0 : ℚ) < den := by exact_mod_cast hden
  have hlow : 2 * (num : ℚ) ≤ (2 * roundHalfEven num den + 1) * den := by exact_mod_cast hlow
  have hhigh : 2 * (roundHalfEven num den : ℚ) * den ≤ 2 * num + den := by exact_mod_cast hhigh
  rw [abs_le, neg_le_sub_iff_le_add, sub_le_iff_le_add', div_le_iff₀ hpos, div_add' _ _ _ hpos.ne',
    le_div_iff₀ hpos]
  constructor <;> linarith

theorem abs_roundScaled_sub_le {base : Nat} (hden : 0 < den) (hbase : 0 < base) (e : ℤ) :
    |(roundScaled num den base e : ℚ) * (base : ℚ) ^ e - num / den| ≤ (base : ℚ) ^ e / 2 := by
  have hpos : (0 : ℚ) < base := by exact_mod_cast hbase
  have hscale : (0 : ℚ) < (base : ℚ) ^ e := zpow_pos hpos e
  have hquotient : |(roundScaled num den base e : ℚ) - num / den / (base : ℚ) ^ e| ≤ 1 / 2 := by
    unfold roundScaled
    split
    · next e =>
        have h := abs_roundHalfEven_sub_le num (Nat.mul_pos hden (Nat.pow_pos hbase (n := e)))
        rw [Int.ofNat_eq_natCast, zpow_natCast, div_div]
        exact_mod_cast h
    · next e =>
        have h := abs_roundHalfEven_sub_le (num * base ^ (e + 1)) hden
        rw [zpow_negSucc, div_inv_eq_mul, div_mul_eq_mul_div]
        exact_mod_cast h
  calc |(roundScaled num den base e : ℚ) * (base : ℚ) ^ e - num / den|
      = |(roundScaled num den base e : ℚ) - num / den / (base : ℚ) ^ e| * (base : ℚ) ^ e := by
        rw [← abs_of_pos hscale, ← abs_mul, abs_of_pos hscale, sub_mul,
          div_mul_cancel₀ _ hscale.ne']
    _ ≤ 1 / 2 * (base : ℚ) ^ e := by gcongr
    _ = (base : ℚ) ^ e / 2 := by ring

theorem ratioAtLeast_iff {base : Nat} (hden : 0 < den) (hbase : 0 < base) (e : ℤ) :
    ratioAtLeast num den base e = true ↔ (base : ℚ) ^ e ≤ num / den := by
  have hpos : (0 : ℚ) < den := by exact_mod_cast hden
  have hbase' : (0 : ℚ) < base := by exact_mod_cast hbase
  rw [le_div_iff₀ hpos]
  unfold ratioAtLeast
  split
  · rw [decide_eq_true_eq, Int.ofNat_eq_natCast, zpow_natCast, mul_comm]
    exact_mod_cast Iff.rfl
  · next e =>
      rw [decide_eq_true_eq, zpow_negSucc, inv_mul_le_iff₀ (pow_pos hbase' _), mul_comm]
      exact_mod_cast Iff.rfl

section Logarithm

variable {num} (hnum : 0 < num) (hden : 0 < den)
include hnum hden

theorem log2_sub_log2_bounds :
    (2 : ℚ) ^ ((num.log2 : ℤ) - den.log2 - 1) ≤ num / den ∧
      (num / den : ℚ) < 2 ^ ((num.log2 : ℤ) - den.log2 + 1) := by
  have hpos : (0 : ℚ) < den := by exact_mod_cast hden
  have hnumLow : (2 : ℚ) ^ num.log2 ≤ num := by exact_mod_cast Nat.log2_self_le hnum.ne'
  have hnumHigh : (num : ℚ) < 2 ^ (num.log2 + 1) := by exact_mod_cast Nat.lt_log2_self
  have hdenLow : (2 : ℚ) ^ den.log2 ≤ den := by exact_mod_cast Nat.log2_self_le hden.ne'
  have hdenHigh : (den : ℚ) < 2 ^ (den.log2 + 1) := by exact_mod_cast Nat.lt_log2_self
  constructor
  · rw [sub_sub, zpow_sub₀ two_ne_zero, ← Nat.cast_succ, zpow_natCast, zpow_natCast]
    gcongr
  · rw [sub_add_eq_add_sub, zpow_sub₀ two_ne_zero, ← Nat.cast_succ, zpow_natCast, zpow_natCast]
    gcongr

theorem floorLog2_bounds :
    (2 : ℚ) ^ floorLog2 num den ≤ num / den ∧ (num / den : ℚ) < 2 ^ (floorLog2 num den + 1) := by
  obtain ⟨hlow, hhigh⟩ := log2_sub_log2_bounds hnum hden
  have hratio := ratioAtLeast_iff num hden two_pos ((num.log2 : ℤ) - den.log2)
  rw [Nat.cast_ofNat] at hratio
  unfold floorLog2
  dsimp only
  split
  · next h => exact ⟨hratio.1 h, hhigh⟩
  · next h =>
      rw [sub_add_cancel]
      exact ⟨hlow, lt_of_not_ge fun hle => h (hratio.2 hle)⟩

end Logarithm

/-! ### Powers of ten between powers of two -/

/-- The power of ten that is guessed from a power of two. -/
def guessLog10 (l : ℤ) : ℤ :=
  Int.fdiv (l * 30103) 100000

theorem guessLog10_bounds {l : ℤ} (hlow : -149 ≤ l) (hhigh : l ≤ 127) :
    (10 : ℚ) ^ (guessLog10 l - 1) ≤ 2 ^ l ∧ (2 : ℚ) ^ (l + 1) ≤ 10 ^ (guessLog10 l + 2) := by
  have hall : ∀ i < 277,
      -60 ≤ guessLog10 ((i : ℕ) - 149) - 1 ∧
      10 ^ (guessLog10 ((i : ℕ) - 149) - 1 + 60).toNat * 2 ^ 149 ≤ 2 ^ i * 10 ^ 60 ∧
      2 ^ (i + 1) * 10 ^ 60 ≤ 10 ^ (guessLog10 ((i : ℕ) - 149) + 2 + 60).toNat * 2 ^ 149 := by
    decide +kernel
  obtain ⟨i, hi⟩ := Int.eq_ofNat_of_zero_le (show 0 ≤ l + 149 by omega)
  obtain rfl : l = i - 149 := by omega
  obtain ⟨hbelow, hfirst, hsecond⟩ := hall i (by omega)
  have hten (e : ℤ) (he : -60 ≤ e) : (10 : ℚ) ^ e * 10 ^ 60 = 10 ^ (e + 60).toNat := by
    rw [← zpow_natCast, ← zpow_natCast, ← zpow_add₀ (by norm_num), Int.toNat_of_nonneg (by omega)]
    rfl
  have htwo (e : ℤ) (n : ℕ) (he : e = n - 149) : (2 : ℚ) ^ e * 2 ^ 149 = 2 ^ n := by
    rw [← zpow_natCast, ← zpow_natCast, ← zpow_add₀ (by norm_num), he]
    exact congrArg _ (by omega)
  have hpos : (0 : ℚ) < 2 ^ 149 * 10 ^ 60 := by norm_num
  constructor
  · refine le_of_mul_le_mul_right ?_ hpos
    calc (10 : ℚ) ^ (guessLog10 (i - 149) - 1) * (2 ^ 149 * 10 ^ 60)
        = 10 ^ (guessLog10 (i - 149) - 1 + 60).toNat * 2 ^ 149 := by rw [← hten _ hbelow]; ring
      _ ≤ 2 ^ i * 10 ^ 60 := by exact_mod_cast hfirst
      _ = 2 ^ ((i : ℤ) - 149) * (2 ^ 149 * 10 ^ 60) := by rw [← htwo (i - 149) i rfl]; ring
  · refine le_of_mul_le_mul_right ?_ hpos
    calc (2 : ℚ) ^ ((i : ℤ) - 149 + 1) * (2 ^ 149 * 10 ^ 60)
        = 2 ^ (i + 1) * 10 ^ 60 := by rw [← htwo (i - 149 + 1) (i + 1) (by omega)]; ring
      _ ≤ 10 ^ (guessLog10 (i - 149) + 2 + 60).toNat * 2 ^ 149 := by exact_mod_cast hsecond
      _ = 10 ^ (guessLog10 (i - 149) + 2) * (2 ^ 149 * 10 ^ 60) := by
        rw [← hten _ (by omega)]; ring

theorem floorLog10_bounds {num : Nat} (hnum : 0 < num) (hden : 0 < den)
    (hlow : (2 : ℚ) ^ (-149 : ℤ) ≤ num / den) (hhigh : (num / den : ℚ) < 2 ^ (128 : ℤ)) :
    (10 : ℚ) ^ floorLog10 num den ≤ num / den ∧
      (num / den : ℚ) < 10 ^ (floorLog10 num den + 1) := by
  obtain ⟨hlog, hlog'⟩ := floorLog2_bounds hnum hden
  have hleast : -149 < floorLog2 num den + 1 :=
    (zpow_lt_zpow_iff_right₀ one_lt_two).1 (hlow.trans_lt hlog')
  have hmost : floorLog2 num den < 128 :=
    (zpow_lt_zpow_iff_right₀ one_lt_two).1 (hlog.trans_lt hhigh)
  obtain ⟨hguess, hguess'⟩ := guessLog10_bounds (l := floorLog2 num den) (by omega) (by omega)
  have hratio (e : ℤ) := ratioAtLeast_iff num hden (show 0 < 10 by decide) e
  simp only [Nat.cast_ofNat] at hratio
  show
    (10 : ℚ) ^ (if ratioAtLeast num den 10 (guessLog10 (floorLog2 num den) + 1) then _ else _) ≤ _ ∧
    _ < (10 : ℚ) ^
      ((if ratioAtLeast num den 10 (guessLog10 (floorLog2 num den) + 1) then _ else _) + 1)
  split
  · next h => exact ⟨(hratio _).1 h, by rw [add_assoc]; exact hlog'.trans_le hguess'⟩
  · next h =>
      have h := lt_of_not_ge fun hle => h ((hratio _).2 hle)
      split
      · next hle => exact ⟨(hratio _).1 hle, h⟩
      · next hlt =>
          rw [sub_add_cancel]
          exact ⟨hguess.trans hlog, lt_of_not_ge fun hle => hlt ((hratio _).2 hle)⟩

end

/-! ### Binary formats -/

namespace BinaryFormat

variable (f : BinaryFormat)

/-- What a pattern without a sign stands for, counted in the least positive number of the format. -/
def units (n : Nat) : Nat :=
  match n / 2 ^ f.fractionBits with
  | 0 => n % 2 ^ f.fractionBits
  | k + 1 => (n % 2 ^ f.fractionBits + 2 ^ f.fractionBits) * 2 ^ k

/-- How many units lie between a pattern and the next. -/
def step (n : Nat) : Nat :=
  2 ^ (n / 2 ^ f.fractionBits - 1)

theorem units_of_significand {j s : Nat} (hs : s ≤ 2 * 2 ^ f.fractionBits)
    (hnormal : j = 0 ∨ 2 ^ f.fractionBits ≤ s) :
    f.units (j * 2 ^ f.fractionBits + s) = s * 2 ^ j := by
  have hpos : 0 < 2 ^ f.fractionBits := Nat.two_pow_pos _
  unfold units
  rw [Nat.mul_add_mod_self_right, Nat.mul_comm j, Nat.mul_add_div hpos]
  rcases Nat.lt_or_ge s (2 ^ f.fractionBits) with hlt | hge
  · obtain rfl := hnormal.resolve_right (Nat.not_le.2 hlt)
    rw [Nat.div_eq_of_lt hlt, Nat.mod_eq_of_lt hlt, Nat.pow_zero, Nat.mul_one]
  · rcases Nat.eq_or_lt_of_le hs with rfl | hlt
    · rw [Nat.mul_div_cancel _ hpos, Nat.mul_mod_left]
      show (0 + 2 ^ f.fractionBits) * 2 ^ (j + 1) = _
      rw [Nat.pow_succ]
      ring
    · rw [Nat.div_eq_of_lt_le (k := 1) (by omega) (by omega), Nat.mod_eq_sub_mod hge,
        Nat.mod_eq_of_lt (by omega)]
      show (s - 2 ^ f.fractionBits + 2 ^ f.fractionBits) * 2 ^ j = _
      rw [Nat.sub_add_cancel hge]

theorem exists_significand (n : Nat) :
    ∃ j s, n = j * 2 ^ f.fractionBits + s ∧ s < 2 * 2 ^ f.fractionBits ∧
      (j = 0 ∨ 2 ^ f.fractionBits ≤ s) ∧ f.step n = 2 ^ j := by
  have hpos : 0 < 2 ^ f.fractionBits := Nat.two_pow_pos _
  have hmod := Nat.mod_lt n hpos
  have hdiv := Nat.div_add_mod n (2 ^ f.fractionBits)
  unfold step
  cases hk : n / 2 ^ f.fractionBits with
  | zero =>
      rw [hk, Nat.mul_zero, Nat.zero_add] at hdiv
      exact ⟨0, n, by omega, by omega, .inl rfl, rfl⟩
  | succ k =>
      refine ⟨k, n % 2 ^ f.fractionBits + 2 ^ f.fractionBits, ?_, by omega, .inr (by omega), rfl⟩
      rw [hk, Nat.mul_add] at hdiv
      rw [Nat.mul_comm k]
      omega

theorem units_succ (n : Nat) : f.units (n + 1) = f.units n + f.step n := by
  obtain ⟨j, s, rfl, hs, hnormal, hstep⟩ := f.exists_significand n
  rw [hstep, Nat.add_assoc, f.units_of_significand hs.le hnormal,
    f.units_of_significand hs (hnormal.imp_right fun h => Nat.le_succ_of_le h), Nat.succ_mul]

theorem step_pos (n : Nat) : 0 < f.step n :=
  Nat.two_pow_pos _

theorem strictMono_units : StrictMono f.units :=
  strictMono_nat_of_lt_succ fun n => by
    rw [units_succ]
    exact Nat.lt_add_of_pos_right (f.step_pos n)

theorem units_succ_le (n : Nat) : f.units (n + 1) ≤ 2 ^ (f.fractionBits + 1) * f.step n := by
  obtain ⟨j, s, rfl, hs, hnormal, hstep⟩ := f.exists_significand n
  rw [units_succ, hstep, f.units_of_significand hs.le hnormal, ← Nat.succ_mul, Nat.pow_succ,
    Nat.mul_comm (2 ^ f.fractionBits)]
  exact Nat.mul_le_mul_right _ hs

theorem units_le_distance {m n : Nat} (h : m ≠ n) :
    (f.units n : ℚ) ≤ 2 ^ (f.fractionBits + 1) * |(f.units m : ℚ) - f.units n| := by
  have hscale {m n : Nat} (h : f.units n ≤ 2 ^ (f.fractionBits + 1) * f.step m) {d : ℚ}
      (hd : (f.step m : ℚ) ≤ d) : (f.units n : ℚ) ≤ 2 ^ (f.fractionBits + 1) * d := by
    have h : (f.units n : ℚ) ≤ 2 ^ (f.fractionBits + 1) * f.step m := by exact_mod_cast h
    exact h.trans (by gcongr)
  have hgap {m n : Nat} (h : m < n) : (f.units m : ℚ) + f.step m ≤ f.units n := by
    have h : f.units (m + 1) ≤ f.units n := f.strictMono_units.monotone h
    rw [units_succ] at h
    exact_mod_cast h
  rcases Nat.lt_or_gt_of_ne h with hlt | hgt
  · cases n with
    | zero => cases hlt
    | succ n =>
        refine hscale (f.units_succ_le n) ?_
        have hmono : (f.units m : ℚ) ≤ f.units n :=
          Nat.cast_le.2 (f.strictMono_units.monotone (Nat.le_of_lt_succ hlt))
        have h := hgap (Nat.lt_succ_self n)
        rw [abs_sub_comm]
        exact (by linarith : _ ≤ _).trans (le_abs_self _)
  · have h := hgap hgt
    refine hscale ((f.strictMono_units.monotone n.le_succ).trans (f.units_succ_le n)) ?_
    exact (by linarith : _ ≤ _).trans (le_abs_self _)

/-- The number that a pattern without a sign stands for. -/
def magnitude (n : Nat) : ℚ :=
  f.units n * 2 ^ f.minExponent

theorem magnitude_sub (m n : Nat) :
    |f.magnitude m - f.magnitude n| = |(f.units m : ℚ) - f.units n| * 2 ^ f.minExponent := by
  have hunit : |(2 : ℚ) ^ f.minExponent| = 2 ^ f.minExponent := abs_of_pos (zpow_pos two_pos _)
  rw [magnitude, magnitude, ← sub_mul, abs_mul, hunit]

theorem magnitude_le_distance {m n : Nat} (h : m ≠ n) :
    f.magnitude n ≤ 2 ^ (f.fractionBits + 1) * |f.magnitude m - f.magnitude n| := by
  rw [magnitude_sub, ← mul_assoc]
  exact mul_le_mul_of_nonneg_right (f.units_le_distance h) (zpow_nonneg two_pos.le _)

theorem strictMono_magnitude : StrictMono f.magnitude := fun _ _ h =>
  mul_lt_mul_of_pos_right (Nat.cast_lt.2 (f.strictMono_units h)) (zpow_pos two_pos _)

/-! ### Rounding -/

variable {num den : Nat}

/-- The pattern that a quotient is rounded to where no limit is set to the exponent. -/
def unboundedMagnitude (num den : Nat) : Nat :=
  let exponent := max f.minExponent (floorLog2 num den - f.fractionBits)
  (exponent - f.minExponent).toNat * 2 ^ f.fractionBits + roundScaled num den 2 exponent

theorem roundMagnitude_of_pos (hnum : 0 < num) :
    f.roundMagnitude num den = min f.infinityBits (f.unboundedMagnitude num den) :=
  if_neg hnum.ne'

theorem exists_rounded (hnum : 0 < num) (hden : 0 < den) :
    ∃ j s : Nat, f.unboundedMagnitude num den = j * 2 ^ f.fractionBits + s ∧
      s ≤ 2 * 2 ^ f.fractionBits ∧
      (j = 0 ∨ 2 ^ f.fractionBits ≤ s ∧
        (2 : ℚ) ^ f.fractionBits * 2 ^ (f.minExponent + j) ≤ num / den) ∧
      |(s : ℚ) * 2 ^ (f.minExponent + j) - num / den| ≤ 2 ^ (f.minExponent + j) / 2 := by
  obtain ⟨hlow, hhigh⟩ := floorLog2_bounds hnum hden
  unfold unboundedMagnitude
  dsimp only
  generalize he : max f.minExponent (floorLog2 num den - f.fractionBits) = e
  obtain ⟨j, rfl⟩ := Int.le.dest (show f.minExponent ≤ e by omega)
  have hnear := abs_roundScaled_sub_le num hden two_pos (f.minExponent + j)
  rw [Nat.cast_ofNat] at hnear
  rw [add_sub_cancel_left, Int.toNat_natCast]
  set s := roundScaled num den 2 (f.minExponent + j)
  set unit : ℚ := 2 ^ (f.minExponent + j)
  have hpos : 0 < unit := zpow_pos two_pos _
  obtain ⟨hbelow, habove⟩ := abs_le.1 hnear
  have hlast (e : ℤ) (k : Nat) (h : e = k + (f.minExponent + j)) : (2 : ℚ) ^ e = 2 ^ k * unit := by
    rw [h, zpow_add₀ two_ne_zero, zpow_natCast]
  have hcast {a b : Nat} (h : (a : ℚ) * unit < (b + 1 : ℕ) * unit) : a ≤ b :=
    Nat.le_of_lt_succ (Nat.cast_lt.1 (lt_of_mul_lt_mul_right h hpos.le))
  refine ⟨j, s, rfl, hcast ?_, ?_, hnear⟩
  · have hle : (num / den : ℚ) < 2 ^ (f.fractionBits + 1) * unit :=
      hhigh.trans_le (by
        rw [← hlast _ _ rfl]
        exact zpow_le_zpow_right₀ one_le_two (by push_cast; omega))
    push_cast
    rw [pow_succ] at hle
    linarith
  · rcases Nat.eq_zero_or_pos j with hj | hj
    · exact .inl hj
    · have hge : (2 : ℚ) ^ f.fractionBits * unit ≤ num / den := by
        rw [← hlast (floorLog2 num den) _ (by omega)]
        exact hlow
      refine .inr ⟨hcast ?_, hge⟩
      push_cast
      linarith

theorem magnitude_of_significand {j s : Nat} (hs : s ≤ 2 * 2 ^ f.fractionBits)
    (hnormal : j = 0 ∨ 2 ^ f.fractionBits ≤ s) :
    f.magnitude (j * 2 ^ f.fractionBits + s) = s * 2 ^ (f.minExponent + j) := by
  rw [magnitude, f.units_of_significand hs hnormal, zpow_add₀ two_ne_zero, zpow_natCast]
  push_cast
  ring

theorem magnitude_succ_ge {j s : Nat} (hs : s ≤ 2 * 2 ^ f.fractionBits)
    (hnormal : j = 0 ∨ 2 ^ f.fractionBits ≤ s) :
    (s + 1 : ℚ) * 2 ^ (f.minExponent + j) ≤ f.magnitude (j * 2 ^ f.fractionBits + s + 1) := by
  have hstep : 2 ^ j ≤ f.step (j * 2 ^ f.fractionBits + s) := by
    refine Nat.pow_le_pow_right two_pos ?_
    rcases hnormal with rfl | hnormal
    · exact Nat.zero_le _
    · refine Nat.le_sub_of_add_le ((Nat.le_div_iff_mul_le (Nat.two_pow_pos _)).2 ?_)
      rw [Nat.succ_mul]
      exact Nat.add_le_add_left hnormal _
  have hunits : (s + 1) * 2 ^ j ≤ f.units (j * 2 ^ f.fractionBits + s + 1) := by
    rw [units_succ, f.units_of_significand hs hnormal, Nat.succ_mul]
    exact Nat.add_le_add_left hstep _
  have hunits : ((s : ℚ) + 1) * 2 ^ j ≤ f.units (j * 2 ^ f.fractionBits + s + 1) := by
    exact_mod_cast hunits
  rw [magnitude, zpow_add₀ two_ne_zero, zpow_natCast, mul_comm ((2 : ℚ) ^ f.minExponent),
    ← mul_assoc]
  exact mul_le_mul_of_nonneg_right hunits (zpow_nonneg two_pos.le _)

theorem unboundedMagnitude_nearest (hnum : 0 < num) (hden : 0 < den) (m : Nat) :
    |f.magnitude (f.unboundedMagnitude num den) - num / den| ≤ |f.magnitude m - num / den| := by
  obtain ⟨j, s, heq, hs, hnormal, hnear⟩ := f.exists_rounded hnum hden
  have hleast := hnormal.imp_right And.left
  rw [heq, f.magnitude_of_significand hs hleast]
  have hpos : (0 : ℚ) < 2 ^ (f.minExponent + j) := zpow_pos two_pos _
  obtain ⟨hbelow, habove⟩ := abs_le.1 hnear
  rcases lt_trichotomy m (j * 2 ^ f.fractionBits + s) with hlt | rfl | hgt
  · by_cases hexact : j ≠ 0 ∧ s = 2 ^ f.fractionBits
    · -- below the least significand the step is smaller, but there the quotient does not lie
      obtain ⟨hj, rfl⟩ := hexact
      have hge := (hnormal.resolve_left hj).2
      have hlt := f.strictMono_magnitude hlt
      rw [f.magnitude_of_significand hs hleast] at hlt
      push_cast at hlt ⊢
      rw [abs_of_nonpos (by linarith), abs_of_nonpos (by linarith)]
      linarith
    · have hs' : 0 < s ∧ (j = 0 ∨ 2 ^ f.fractionBits ≤ s - 1) := by
        have := Nat.two_pow_pos f.fractionBits
        rcases hleast with rfl | hleast
        · exact ⟨by omega, .inl rfl⟩
        · exact ⟨by omega, by omega⟩
      have hle := f.strictMono_magnitude.monotone
        (show m ≤ j * 2 ^ f.fractionBits + (s - 1) by omega)
      rw [f.magnitude_of_significand (by omega) hs'.2, Nat.cast_sub hs'.1, Nat.cast_one] at hle
      rw [abs_sub_comm (f.magnitude m)]
      exact hnear.trans ((by linarith : _ ≤ _).trans (le_abs_self _))
  · rw [f.magnitude_of_significand hs hleast]
  · have hge := (f.magnitude_succ_ge hs hleast).trans (f.strictMono_magnitude.monotone hgt)
    exact hnear.trans ((by linarith : _ ≤ _).trans (le_abs_self _))

/-- A quotient near enough to a number of the format is rounded to it. -/
theorem roundMagnitude_of_near (hnum : 0 < num) (hden : 0 < den) {n : Nat} (hn : n < f.infinityBits)
    (hnear : 2 ^ (f.fractionBits + 2) * |f.magnitude n - num / den| < f.magnitude n) :
    f.roundMagnitude num den = n := by
  have hbest := f.unboundedMagnitude_nearest hnum hden n
  have heq : f.unboundedMagnitude num den = n := by
    by_contra hne
    have hgap := f.magnitude_le_distance hne
    have htriangle := abs_sub_le (f.magnitude (f.unboundedMagnitude num den)) (num / den : ℚ)
      (f.magnitude n)
    rw [abs_sub_comm (num / den : ℚ)] at htriangle
    refine absurd hnear (not_lt_of_ge ?_)
    calc f.magnitude n
        ≤ 2 ^ (f.fractionBits + 1) *
            |f.magnitude (f.unboundedMagnitude num den) - f.magnitude n| := hgap
      _ ≤ 2 ^ (f.fractionBits + 1) * (2 * |f.magnitude n - num / den|) := by
        gcongr
        linarith
      _ = 2 ^ (f.fractionBits + 2) * |f.magnitude n - num / den| := by ring
  rw [f.roundMagnitude_of_pos hnum, heq, Nat.min_eq_right hn.le]

/-- In the range of the numbers with a full significand, rounding keeps a quotient up to the
precision of the format. -/
theorem roundMagnitude_relative (hnum : 0 < num) (hden : 0 < den)
    (hlow : (2 : ℚ) ^ f.fractionBits * 2 ^ f.minExponent ≤ num / den)
    (hhigh : (2 * (num / den) : ℚ) ≤ f.magnitude f.infinityBits) :
    f.roundMagnitude num den < f.infinityBits ∧
      2 ^ (f.fractionBits + 1) * |f.magnitude (f.roundMagnitude num den) - num / den| ≤
        num / den := by
  obtain ⟨j, s, heq, hs, hnormal, hnear⟩ := f.exists_rounded hnum hden
  have hw : (0 : ℚ) < num / den := div_pos (Nat.cast_pos.2 hnum) (Nat.cast_pos.2 hden)
  have hunit : (2 : ℚ) ^ f.fractionBits * 2 ^ (f.minExponent + j) ≤ num / den := by
    rcases hnormal with rfl | h
    · rwa [Nat.cast_zero, add_zero]
    · exact h.2
  rw [← f.magnitude_of_significand hs (hnormal.imp_right And.left), ← heq] at hnear
  have hrelative : 2 ^ (f.fractionBits + 1) *
      |f.magnitude (f.unboundedMagnitude num den) - num / den| ≤ num / den := by
    calc 2 ^ (f.fractionBits + 1) * |f.magnitude (f.unboundedMagnitude num den) - num / den|
        ≤ 2 ^ (f.fractionBits + 1) * (2 ^ (f.minExponent + j) / 2) := by gcongr
      _ = 2 ^ f.fractionBits * 2 ^ (f.minExponent + j) := by ring
      _ ≤ num / den := hunit
  have hfinite : f.unboundedMagnitude num den < f.infinityBits := by
    refine f.strictMono_magnitude.lt_iff_lt.1 (lt_of_lt_of_le ?_ hhigh)
    have hone : (2 : ℚ) ≤ 2 ^ (f.fractionBits + 1) := le_self_pow₀ one_le_two (Nat.succ_ne_zero _)
    have habs := abs_nonneg (f.magnitude (f.unboundedMagnitude num den) - num / den)
    have := le_abs_self (f.magnitude (f.unboundedMagnitude num den) - num / den)
    nlinarith
  rw [f.roundMagnitude_of_pos hnum, Nat.min_eq_right hfinite.le]
  exact ⟨hfinite, hrelative⟩

/-! ### Patterns with a sign -/

variable {f}

theorem two_pow_width : 2 ^ (f.width - 1) = 2 ^ f.exponentBits * 2 ^ f.fractionBits := by
  rw [width, Nat.add_sub_cancel, Nat.pow_add]

theorem infinityBits_lt : f.infinityBits < 2 ^ (f.width - 1) := by
  rw [two_pow_width, infinityBits]
  exact Nat.mul_lt_mul_of_pos_right (Nat.sub_lt (Nat.two_pow_pos _) one_pos) (Nat.two_pow_pos _)

theorem two_pow_width_eq : 2 ^ f.width = 2 ^ (f.width - 1) + 2 ^ (f.width - 1) := by
  rw [← Nat.two_mul, ← Nat.pow_succ']
  rfl

theorem toNat_withSign {n : Nat} (hn : n < 2 ^ (f.width - 1)) (negative : Bool) :
    (f.withSign negative n).toNat = if negative then n + 2 ^ (f.width - 1) else n := by
  have hwidth := two_pow_width_eq (f := f)
  rw [withSign, BitVec.toNat_ofNat]
  refine Nat.mod_eq_of_lt ?_
  split <;> omega

theorem exists_withSign (bits : BitVec f.width) :
    ∃ negative n, n < 2 ^ (f.width - 1) ∧ bits = f.withSign negative n := by
  have hwidth := two_pow_width_eq (f := f)
  have hlt := bits.isLt
  by_cases h : 2 ^ (f.width - 1) ≤ bits.toNat
  · refine ⟨true, bits.toNat - 2 ^ (f.width - 1), by omega, ?_⟩
    rw [withSign, if_pos rfl, Nat.sub_add_cancel h, BitVec.ofNat_toNat, BitVec.setWidth_eq]
  · refine ⟨false, bits.toNat, by omega, ?_⟩
    rw [withSign, if_neg Bool.false_ne_true, BitVec.ofNat_toNat, BitVec.setWidth_eq]

theorem decode_withSign {n : Nat} (hn : n < 2 ^ (f.width - 1)) (negative : Bool) :
    f.decode (f.withSign negative n) =
      if n / 2 ^ f.fractionBits = 2 ^ f.exponentBits - 1 then
        if n % 2 ^ f.fractionBits = 0 then .infinite negative else .nan
      else if n / 2 ^ f.fractionBits = 0 then
        .finite negative (n % 2 ^ f.fractionBits) f.minExponent
      else
        .finite negative (n % 2 ^ f.fractionBits + 2 ^ f.fractionBits)
          (f.minExponent + ((n / 2 ^ f.fractionBits : Nat) - 1)) := by
  have hsign :
      decide (2 ^ (f.width - 1) ≤ if negative then n + 2 ^ (f.width - 1) else n) = negative := by
    cases negative
    · exact decide_eq_false (Nat.not_le.2 hn)
    · exact decide_eq_true (Nat.le_add_left _ _)
  have hexponent : (if negative then n + 2 ^ (f.width - 1) else n) / 2 ^ f.fractionBits %
      2 ^ f.exponentBits = n / 2 ^ f.fractionBits := by
    have hlt : n / 2 ^ f.fractionBits < 2 ^ f.exponentBits := by
      rw [Nat.div_lt_iff_lt_mul (Nat.two_pow_pos _), ← two_pow_width]
      exact hn
    split
    · rw [two_pow_width, Nat.add_mul_div_right _ _ (Nat.two_pow_pos _), Nat.add_mod_right,
        Nat.mod_eq_of_lt hlt]
    · exact Nat.mod_eq_of_lt hlt
  have hfraction : (if negative then n + 2 ^ (f.width - 1) else n) % 2 ^ f.fractionBits =
      n % 2 ^ f.fractionBits := by
    split
    · rw [two_pow_width, Nat.add_mul_mod_self_right]
    · rfl
  unfold decode
  dsimp only
  rw [toNat_withSign hn, hexponent, hfraction, hsign]

theorem decode_finite {n : Nat} (hn : n < f.infinityBits) (negative : Bool) :
    ∃ (s : Nat) (e : ℤ), f.decode (f.withSign negative n) = .finite negative s e ∧
      (s : ℚ) * 2 ^ e = f.magnitude n := by
  have hexponent : n / 2 ^ f.fractionBits < 2 ^ f.exponentBits - 1 :=
    (Nat.div_lt_iff_lt_mul (Nat.two_pow_pos _)).2 hn
  rw [decode_withSign (hn.trans infinityBits_lt), if_neg hexponent.ne, magnitude, units]
  cases n / 2 ^ f.fractionBits with
  | zero => exact ⟨_, _, if_pos rfl, rfl⟩
  | succ k =>
      refine ⟨_, _, if_neg (Nat.succ_ne_zero k), ?_⟩
      rw [Nat.cast_succ, add_sub_cancel_right, zpow_add₀ two_ne_zero, zpow_natCast,
        mul_comm (_ ^ _), ← mul_assoc]
      push_cast
      rfl

theorem exists_withSign_of_isFinite {bits : BitVec f.width} (h : (f.decode bits).isFinite) :
    ∃ negative n, n < f.infinityBits ∧ bits = f.withSign negative n := by
  obtain ⟨negative, n, hn, rfl⟩ := exists_withSign bits
  refine ⟨negative, n, ?_, rfl⟩
  have hexponent : n / 2 ^ f.fractionBits < 2 ^ f.exponentBits := by
    rw [Nat.div_lt_iff_lt_mul (Nat.two_pow_pos _), ← two_pow_width]
    exact hn
  rw [infinityBits, ← Nat.div_lt_iff_lt_mul (Nat.two_pow_pos _)]
  refine Nat.lt_of_le_of_ne (Nat.le_sub_one_of_lt hexponent) fun heq => ?_
  rw [decode_withSign hn, if_pos heq] at h
  split at h <;> cases h

theorem xor_two_pow {n k : Nat} (h : n < 2 ^ k) : n ^^^ 2 ^ k = n + 2 ^ k := by
  have hor := Nat.two_pow_add_eq_or_of_lt h 1
  rw [Nat.mul_one] at hor
  rw [Nat.add_comm, hor]
  refine Nat.eq_of_testBit_eq fun i => ?_
  rw [Nat.testBit_xor, Nat.testBit_or, Nat.testBit_two_pow]
  by_cases hi : k = i
  · subst hi
    rw [Nat.testBit_lt_two_pow h, Bool.false_xor, Bool.or_false]
  · rw [decide_eq_false hi, Bool.xor_false, Bool.false_or]

theorem negate_withSign {n : Nat} (hn : n < f.infinityBits) :
    f.negate (f.withSign false n) = f.withSign true n := by
  obtain ⟨s, e, hdecode, -⟩ := decode_finite hn false
  have hlt := hn.trans infinityBits_lt
  have hwidth := two_pow_width_eq (f := f)
  have hpos : 0 < 2 ^ (f.width - 1) := Nat.two_pow_pos _
  rw [negate, hdecode]
  refine BitVec.eq_of_toNat_eq ?_
  rw [BitVec.toNat_xor, BitVec.toNat_ofNat, toNat_withSign hlt, toNat_withSign hlt,
    Nat.mod_eq_of_lt (by omega)]
  exact xor_two_pow hlt

end BinaryFormat

end ShaderBridge
