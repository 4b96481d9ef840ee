import Mathlib

/-!
# Correctly rounded division of integers in double precision

`trueDivide` is the quotient of two integers rounded to the nearest binary64
value, ties to even, with gradual underflow; a zero divisor and a quotient out of
range are errors.  Values are exact rationals.
-/

namespace Lib.Binary64

def roundHalfEven (value : ℚ) : ℤ :=
  if value - ⌊value⌋ < 1 / 2 then ⌊value⌋
  else if 1 / 2 < value - ⌊value⌋ then ⌊value⌋ + 1
  else ⌊value⌋ + ⌊value⌋ % 2

/-- Exponent of the unit in the last place at a magnitude. -/
def lastPlace (magnitude : ℚ) : ℤ := max (Int.log 2 magnitude - 52) (-1074)

def roundMagnitude (magnitude : ℚ) : ℚ :=
  roundHalfEven (magnitude / 2 ^ lastPlace magnitude) * 2 ^ lastPlace magnitude

def nearest (value : ℚ) : ℚ :=
  if value < 0 then -roundMagnitude (-value) else roundMagnitude value

def trueDivide (dividend divisor : ℤ) : Except String ℚ :=
  if divisor = 0 then .error "division by zero"
  else if 2 ^ 1024 ≤ |nearest (dividend / divisor)| then
    .error "integer division result too large for a float"
  else .ok (nearest (dividend / divisor))

theorem roundHalfEven_error (value : ℚ) : |(roundHalfEven value : ℚ) - value| ≤ 1 / 2 := by
  have lower := Int.floor_le value
  have upper := Int.lt_floor_add_one value
  have parity : ⌊value⌋ % 2 = 0 ∨ ⌊value⌋ % 2 = 1 := Int.emod_two_eq_zero_or_one _
  unfold roundHalfEven
  rw [abs_le]
  split_ifs with below above
  · constructor <;> linarith
  · push_cast
    constructor <;> linarith
  · rcases parity with even | odd
    · rw [even]
      push_cast
      constructor <;> linarith
    · rw [odd]
      push_cast
      constructor <;> linarith

theorem roundHalfEven_intCast (value : ℤ) : roundHalfEven value = value := by
  simp [roundHalfEven]

theorem roundHalfEven_nonneg {value : ℚ} (nonnegative : 0 ≤ value) : 0 ≤ roundHalfEven value := by
  have error := abs_le.mp (roundHalfEven_error value)
  have above : (-1 : ℚ) < roundHalfEven value := by linarith
  have : (-1 : ℤ) < roundHalfEven value := by exact_mod_cast above
  omega

theorem roundMagnitude_nonneg {magnitude : ℚ} (nonnegative : 0 ≤ magnitude) :
    0 ≤ roundMagnitude magnitude := by
  unfold roundMagnitude
  have scaled : 0 ≤ roundHalfEven (magnitude / 2 ^ lastPlace magnitude) :=
    roundHalfEven_nonneg (by positivity)
  have : (0 : ℚ) ≤ roundHalfEven (magnitude / 2 ^ lastPlace magnitude) := by exact_mod_cast scaled
  positivity

theorem nearest_nonneg {value : ℚ} (nonnegative : 0 ≤ value) : 0 ≤ nearest value := by
  unfold nearest
  rw [if_neg (not_lt.mpr nonnegative)]
  exact roundMagnitude_nonneg nonnegative

theorem nearest_nonpos {value : ℚ} (nonpositive : value ≤ 0) : nearest value ≤ 0 := by
  unfold nearest
  split_ifs with negative
  · have := roundMagnitude_nonneg (show 0 ≤ -value by linarith)
    linarith
  · have zero : value = 0 := le_antisymm nonpositive (not_lt.mp negative)
    have rounded : roundHalfEven 0 = 0 := by exact_mod_cast roundHalfEven_intCast 0
    simp [zero, roundMagnitude, rounded]

end Lib.Binary64
