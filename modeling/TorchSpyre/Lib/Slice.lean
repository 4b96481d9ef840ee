import Mathlib

/-!
# Equal slices of an axis

An axis cut into slices of one width: slice `slot` holds the values
`slot * width ≤ value < (slot + 1) * width`.
-/

namespace Lib

def InSlice (width slot value : ℤ) : Prop :=
  slot * width ≤ value ∧ value < (slot + 1) * width

instance (width slot value : ℤ) : Decidable (InSlice width slot value) :=
  inferInstanceAs (Decidable (_ ∧ _))

namespace InSlice

theorem width_pos {width slot value : ℤ} (inside : InSlice width slot value) : 0 < width := by
  obtain ⟨lower, upper⟩ := inside
  linarith [add_mul slot 1 width]

theorem iff_ediv_eq {width slot value : ℤ} (positive : 0 < width) :
    InSlice width slot value ↔ value / width = slot := by
  rw [Int.ediv_eq_iff_of_pos positive, InSlice, add_one_mul]

/-- Slices are disjoint. -/
theorem unique {width first second value : ℤ} (inFirst : InSlice width first value)
    (inSecond : InSlice width second value) : first = second := by
  have positive := inFirst.width_pos
  rw [iff_ediv_eq positive] at inFirst inSecond
  exact inFirst.symm.trans inSecond

theorem of_between {width slot low high value : ℤ} (positive : 0 < width)
    (lowSlot : low / width = slot) (highSlot : high / width = slot) (above : low ≤ value)
    (below : value ≤ high) : InSlice width slot value := by
  rw [← iff_ediv_eq positive] at lowSlot highSlot
  exact ⟨lowSlot.1.trans above, below.trans_lt highSlot.2⟩

/-- A slice of the scaled axis holds the values whose quotient is in the slice. -/
theorem quotient {width slot value divisor : ℤ} (positive : 0 < divisor)
    (inside : InSlice (width * divisor) slot value) : InSlice width slot (value / divisor) := by
  obtain ⟨lower, upper⟩ := inside
  rw [← mul_assoc] at lower upper
  exact ⟨(Int.le_ediv_iff_mul_le positive).mpr lower,
    (Int.ediv_lt_iff_lt_mul positive).mpr upper⟩

/-- A value of a slice in range lies on the axis. -/
theorem mem_axis {width count slot value : ℤ} (inside : InSlice width slot value)
    (nonnegative : 0 ≤ slot) (below : slot < count) : 0 ≤ value ∧ value < count * width := by
  have positive := inside.width_pos
  obtain ⟨lower, upper⟩ := inside
  exact ⟨le_trans (mul_nonneg nonnegative positive.le) lower,
    lt_of_lt_of_le upper (Int.mul_le_mul_of_nonneg_right below positive.le)⟩

/-- Two slices share a value exactly when each begins before the other ends. -/
theorem exists_shared_iff {firstWidth secondWidth first second : ℤ} (firstPositive : 0 < firstWidth)
    (secondPositive : 0 < secondWidth) :
    (∃ value, InSlice firstWidth first value ∧ InSlice secondWidth second value) ↔
      first * firstWidth < (second + 1) * secondWidth ∧ second * secondWidth < (first + 1) * firstWidth := by
  constructor
  · rintro ⟨value, inFirst, inSecond⟩
    exact ⟨lt_of_le_of_lt inFirst.1 inSecond.2, lt_of_le_of_lt inSecond.1 inFirst.2⟩
  · rintro ⟨firstBefore, secondBefore⟩
    refine ⟨max (first * firstWidth) (second * secondWidth), ?_, ?_⟩
    · exact ⟨le_max_left _ _, max_lt (by linarith [add_one_mul first firstWidth]) secondBefore⟩
    · exact ⟨le_max_right _ _, max_lt firstBefore (by linarith [add_one_mul second secondWidth])⟩

/-- The same comparison in fractions of an axis that both counts divide. -/
theorem exists_shared_iff_fractions {extent firstCount secondCount first second : ℤ} (positive : 0 < extent)
    (firstPositive : 0 < firstCount) (secondPositive : 0 < secondCount) (firstDivides : firstCount ∣ extent)
    (secondDivides : secondCount ∣ extent) :
    (∃ value, InSlice (extent / firstCount) first value ∧ InSlice (extent / secondCount) second value) ↔
      first * secondCount < (second + 1) * firstCount ∧ second * firstCount < (first + 1) * secondCount := by
  have scaled : ∀ {left right leftCount rightCount : ℤ}, 0 < leftCount → 0 < rightCount →
      leftCount ∣ extent → rightCount ∣ extent →
      (left * (extent / leftCount) < right * (extent / rightCount) ↔
        left * rightCount < right * leftCount) := by
    intro left right leftCount rightCount leftPositive rightPositive leftDivides rightDivides
    have leftWhole := Int.ediv_mul_cancel leftDivides
    have rightWhole := Int.ediv_mul_cancel rightDivides
    calc left * (extent / leftCount) < right * (extent / rightCount)
        ↔ left * (extent / leftCount) * (leftCount * rightCount) <
            right * (extent / rightCount) * (leftCount * rightCount) :=
          (mul_lt_mul_iff_left₀ (mul_pos leftPositive rightPositive)).symm
      _ ↔ left * rightCount * extent < right * leftCount * extent := by
          rw [show left * (extent / leftCount) * (leftCount * rightCount) =
              left * rightCount * (extent / leftCount * leftCount) by ring, leftWhole,
            show right * (extent / rightCount) * (leftCount * rightCount) =
              right * leftCount * (extent / rightCount * rightCount) by ring, rightWhole]
      _ ↔ left * rightCount < right * leftCount := mul_lt_mul_iff_left₀ positive
  have widths : ∀ {count : ℤ}, 0 < count → count ∣ extent → 0 < extent / count :=
    fun countPositive divides => Int.ediv_pos_of_pos_of_dvd positive countPositive.le divides
  rw [exists_shared_iff (widths firstPositive firstDivides) (widths secondPositive secondDivides),
    scaled firstPositive secondPositive firstDivides secondDivides,
    scaled secondPositive firstPositive secondDivides firstDivides]

theorem first_of_lt {width value : ℕ} (below : value < width) : InSlice width (0 : ℕ) value := by
  constructor <;> omega

/-- Digits below a leading one lie in the slice exactly when the leading digit is the slot's and
they lie in the slot left over. -/
theorem prepend_digit_iff {width count radix slot digit rest : ℕ} (below : rest < count * width) :
    InSlice width (slot % (count * radix) : ℕ) (count * width * digit + rest : ℕ) ↔
      digit = slot / count % radix ∧ InSlice width (slot % count : ℕ) rest := by
  have widthPositive : 0 < width := Nat.pos_of_mul_pos_left (Nat.zero_lt_of_lt below)
  have restBelow : rest / width < count := by
    apply Nat.div_lt_of_lt_mul
    rwa [Nat.mul_comm]
  have countPositive : 0 < count := Nat.zero_lt_of_lt restBelow
  have quotient : (count * width * digit + rest) / width = count * digit + rest / width := by
    rw [Nat.mul_comm count width, Nat.mul_assoc, Nat.mul_add_div widthPositive]
  rw [iff_ediv_eq (by exact_mod_cast widthPositive), iff_ediv_eq (by exact_mod_cast widthPositive)]
  norm_cast
  rw [quotient]
  constructor
  · intro same
    constructor
    · rw [← Nat.mod_mul_right_div_self, ← same, Nat.mul_add_div countPositive,
        Nat.div_eq_of_lt restBelow, Nat.add_zero]
    · rw [← Nat.mod_mul_right_mod slot count radix, ← same, Nat.mul_add_mod,
        Nat.mod_eq_of_lt restBelow]
  · rintro ⟨rfl, same⟩
    rw [same, Nat.mod_mul, Nat.add_comm]

/-- Below a leading digit the remaining digits do not matter to a slice of whole digits. -/
theorem prepend_slice_iff {width slot stride digit rest : ℕ} (below : rest < stride) :
    InSlice (width * stride : ℕ) slot (stride * digit + rest : ℕ) ↔ InSlice width slot digit := by
  have stridePositive : 0 < stride := Nat.zero_lt_of_lt below
  constructor
  · intro inside
    rw [Nat.cast_mul] at inside
    have quotient := inside.quotient (by exact_mod_cast stridePositive)
    norm_cast at quotient
    rwa [Nat.mul_add_div stridePositive, Nat.div_eq_of_lt below, Nat.add_zero] at quotient
  · rintro ⟨lower, upper⟩
    have next : slot * width ≤ digit ∧ digit + 1 ≤ (slot + 1) * width := by
      constructor
      · exact_mod_cast lower
      · exact_mod_cast upper
    constructor
    · have bound : slot * (width * stride) ≤ stride * digit + rest := by
        calc slot * (width * stride) = stride * (slot * width) := by ring
          _ ≤ stride * digit := Nat.mul_le_mul_left stride next.1
          _ ≤ stride * digit + rest := Nat.le_add_right _ _
      exact_mod_cast bound
    · have bound : stride * digit + rest < (slot + 1) * (width * stride) := by
        calc stride * digit + rest < stride * digit + stride := Nat.add_lt_add_left below _
          _ = stride * (digit + 1) := by ring
          _ ≤ stride * ((slot + 1) * width) := Nat.mul_le_mul_left stride next.2
          _ = (slot + 1) * (width * stride) := by ring
      exact_mod_cast bound

end InSlice

end Lib
