import ShaderBridge.Number.Plain

namespace ShaderBridge

open scoped PlainNumbers

def wordCount (bits : Nat) : Nat :=
  2 ^ bits

/-- The integer nearest to `num / den`; a quotient halfway between two goes to the even one. -/
def roundHalfEven (num den : Nat) : Nat :=
  let q := num / den
  let r := num % den
  if 2 * r < den then q
  else if den < 2 * r then q + 1
  else if q % 2 = 0 then q
  else q + 1

theorem roundHalfEven_self_mul {den : Nat} (h : 0 < den) (q : Nat) :
    roundHalfEven (q * den) den = q := by
  simp [roundHalfEven, Nat.mul_div_cancel q h, h]

/-- The result is within half a unit of the quotient. -/
theorem roundHalfEven_near {num den : Nat} (h : 0 < den) :
    2 * num ≤ (2 * roundHalfEven num den + 1) * den ∧
      2 * roundHalfEven num den * den ≤ 2 * num + den := by
  have hdiv := Nat.div_add_mod num den
  have hmod := Nat.mod_lt num h
  have hmul (k : Nat) : (2 * k) * den = 2 * (den * k) := by
    rw [Nat.mul_assoc, Nat.mul_comm k den]
  unfold roundHalfEven
  simp only
  split
  · rw [Nat.add_mul, hmul]; omega
  · split
    · rw [Nat.add_mul, hmul, Nat.mul_add]; omega
    · split
      · rw [Nat.add_mul, hmul]; omega
      · rw [Nat.add_mul, hmul, Nat.mul_add]; omega

/-- Whether `num / den` is at least `base ^ e`. -/
def ratioAtLeast (num den base : Nat) (e : Int) : Bool :=
  match e with
  | .ofNat e => den * base ^ e ≤ num
  | .negSucc e => den ≤ num * base ^ (e + 1)

/-- The greatest `e` with `2 ^ e ≤ num / den`, for positive numbers. -/
def floorLog2 (num den : Nat) : Int :=
  let e : Int := (num.log2 : Int) - (den.log2 : Int)
  if ratioAtLeast num den 2 e then e else e - 1

/-- The greatest `e` with `10 ^ e ≤ num / den`, for positive numbers. -/
def floorLog10 (num den : Nat) : Int :=
  let e : Int := Int.fdiv (floorLog2 num den * 30103) 100000
  if ratioAtLeast num den 10 (e + 1) then e + 1
  else if ratioAtLeast num den 10 e then e
  else e - 1

/-- The integer nearest to `num / den` divided by `base ^ e`. -/
def roundScaled (num den base : Nat) (e : Int) : Nat :=
  match e with
  | .ofNat e => roundHalfEven num (den * base ^ e)
  | .negSucc e => roundHalfEven (num * base ^ (e + 1)) den

end ShaderBridge
