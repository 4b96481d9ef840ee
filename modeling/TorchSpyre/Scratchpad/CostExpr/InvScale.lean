import Mathlib
import TorchSpyre.Lib.Order
import TorchSpyre.Lib.Sieve

/-!
# The scale of a reciprocal variable

The reciprocal of a split is an integer variable with a fixed-point scale: the least common multiple
of the candidate values, or, past a cap, a multiple of the largest power of two among them that most
values divide. A sieve over the multiples counts these; the rounding of the worst value breaks ties.
-/

namespace TorchSpyre.Scratchpad.CostExpr

open Lib

/-- `_CORE_INV_SCALE` -/
def coreInvScale : ℕ := 1024

/-- `_CORE_INV_SCALE_MAX_VALUE` -/
def coreInvScaleMaxValue : ℕ := 32

inductive InvScaleError
  | capNotPastPowerOfTwo
  /-- A count or a factor beyond `int64`. -/
  | tooLarge
  | zeroDivision
  | noCandidates
  deriving DecidableEq

/-- The cap, doubled with each doubling of the largest value past the core count. -/
def invScaleCap (ints : List ℕ) : ℕ :=
  coreInvScale <<< (Nat.size (ints.foldr max 0 - 1) + 1 - Nat.size coreInvScaleMaxValue)

/-- `max((a for a in cnt if a & (a - 1) == 0), default=1)` -/
def largestPow2 (values : List ℕ) : ℕ := ((values.filter fun a => a &&& (a - 1) = 0).max?).getD 1

/-- `np.flatnonzero(counts[1:] == counts[1:].max()) + 1` -/
def mostCounted (counts : List ℕ) : List ℕ :=
  ((List.range counts.tail.length).filter fun index =>
    counts.tail.getD index 0 = counts.tail.foldr max 0).map (· + 1)

/-- `(Fraction(max(s % v for v in values), s), s)` -/
def roundingKey (values : List ℕ) (scale : ℤ) : ℚ ×ₗ ℤ :=
  toLex (((values.map fun value : ℕ => scale % (value : ℤ)).foldl max 0 : ℤ) / (scale : ℚ), scale)

/-- The scales worth comparing: multiples of the power of two that most entries divide. The product
is taken in an `int64` array, where it wraps around. -/
def scaleCandidates (cnt : List (ℕ × ℕ)) (cap pow2 : ℕ) : List ℤ :=
  let counts := sieve (cap / pow2) (cnt.map fun entry => (entry.1 / entry.1.gcd pow2, entry.2))
  (mostCounted counts).map fun k : ℕ => ((pow2 * k : ℕ) : ℤ).bmod (2 ^ 64)

def sievedScale (ints : List ℕ) (cap : ℕ) : Except InvScaleError ℤ :=
  letI := intOrder
  let cnt := counter ints
  let values := cnt.map Prod.fst
  let pow2 := largestPow2 values
  if ¬ pow2 < cap then .error .capNotPastPowerOfTwo
  else if 2 ^ 63 ≤ cap / pow2 + 1 ∨ 2 ^ 63 ≤ pow2 then .error .tooLarge
  else if 0 ∈ scaleCandidates cnt cap pow2 then .error .zeroDivision
  else
    match (scaleCandidates cnt cap pow2).argmin (roundingKey values) with
    | none => .error .noCandidates
    | some scale => .ok scale

def invScale (raw : List ℤ) : Except InvScaleError ℤ :=
  if raw = [] ∨ ∃ value ∈ raw, value < 1 then .ok coreInvScale
  else
    let ints := raw.map Int.toNat
    let cap := invScaleCap ints
    let lcm := ints.foldl Nat.lcm 1
    if lcm ≤ cap then .ok lcm else sievedScale ints cap

/-! ## The cap -/

/-- The cap is at least 32 times the largest value. -/
theorem le_cap {ints : List ℕ} {value : ℕ} (inside : value ∈ ints) : 32 * value ≤ invScaleCap ints := by
  set largest := ints.foldr max 0 with isLargest
  have below : value ≤ largest := le_foldr_max inside
  have sized : largest ≤ 2 ^ Nat.size (largest - 1) := by
    have strict := Nat.lt_size_self (largest - 1)
    omega
  have scales : 32 * 2 ^ Nat.size (largest - 1) ≤ invScaleCap ints := by
    have widths : Nat.size coreInvScaleMaxValue = 6 := by decide
    rw [invScaleCap, ← isLargest, widths, Nat.shiftLeft_eq, coreInvScale]
    calc 32 * 2 ^ Nat.size (largest - 1) = 2 ^ (5 + Nat.size (largest - 1)) := by rw [pow_add]; rfl
      _ ≤ 2 ^ (10 + (Nat.size (largest - 1) + 1 - 6)) := Nat.pow_le_pow_right (by norm_num) (by omega)
      _ = 1024 * 2 ^ (Nat.size (largest - 1) + 1 - 6) := by rw [pow_add]; rfl
  calc 32 * value ≤ 32 * largest := Nat.mul_le_mul_left 32 below
    _ ≤ 32 * 2 ^ Nat.size (largest - 1) := Nat.mul_le_mul_left 32 sized
    _ ≤ invScaleCap ints := scales

/-- Values up to `2 ^ 57` keep the cap within `int64`. -/
theorem cap_le {ints : List ℕ} (bounded : ∀ value ∈ ints, value ≤ 2 ^ 57) : invScaleCap ints ≤ 2 ^ 62 := by
  have largest : ints.foldr max 0 ≤ 2 ^ 57 := by
    induction ints with
    | nil => simp
    | cons head tail inductionHypothesis =>
        rw [List.forall_mem_cons] at bounded
        exact max_le bounded.1 (inductionHypothesis bounded.2)
  have short : Nat.size (ints.foldr max 0 - 1) ≤ 57 := Nat.size_le.mpr (by omega)
  have widths : Nat.size coreInvScaleMaxValue = 6 := by decide
  rw [invScaleCap, widths, Nat.shiftLeft_eq, coreInvScale]
  calc 1024 * 2 ^ (Nat.size (ints.foldr max 0 - 1) + 1 - 6) ≤ 1024 * 2 ^ 52 :=
        Nat.mul_le_mul_left 1024 (Nat.pow_le_pow_right (by norm_num) (by omega))
    _ = 2 ^ 62 := by norm_num

/-! ## The largest power of two -/

/-- The largest power of two among the values, or 1 if there is none. -/
structure IsLargestPow2 (values : List ℕ) (pow2 : ℕ) : Prop where
  power : ∃ exponent, pow2 = 2 ^ exponent
  largest : ∀ exponent, 2 ^ exponent ∈ values → 2 ^ exponent ≤ pow2
  listed : pow2 ∈ values ∨ pow2 = 1

theorem land_pred_eq_zero_iff {value : ℕ} (positive : 0 < value) :
    value &&& (value - 1) = 0 ↔ ∃ exponent, value = 2 ^ exponent :=
  Nat.and_sub_one_eq_zero_iff_isPowerOfTwo positive.ne'

theorem isLargestPow2 {values : List ℕ} (positive : ∀ value ∈ values, 0 < value) :
    IsLargestPow2 values (largestPow2 values) := by
  have isPower : ∀ value, value ∈ values.filter (fun a => a &&& (a - 1) = 0) ↔
      value ∈ values ∧ ∃ exponent, value = 2 ^ exponent := by
    intro value
    rw [List.mem_filter, decide_eq_true_eq]
    exact and_congr_right fun inside => land_pred_eq_zero_iff (positive value inside)
  unfold largestPow2
  cases found : (values.filter fun a => a &&& (a - 1) = 0).max? with
  | none =>
      have noPower := List.max?_eq_none_iff.mp found
      refine ⟨⟨0, rfl⟩, fun exponent inside => ?_, .inr rfl⟩
      have listed := (isPower _).mpr ⟨inside, exponent, rfl⟩
      rw [noPower] at listed
      cases listed
  | some pow2 =>
      obtain ⟨inside, above⟩ := List.max?_eq_some_iff.mp found
      obtain ⟨listed, power⟩ := (isPower _).mp inside
      exact ⟨power, fun exponent other => above _ ((isPower _).mpr ⟨other, exponent, rfl⟩), .inl listed⟩

/-! ## The sieve -/

/-- How many of the values, with multiplicity, divide a scale. -/
def dividing (ints : List ℕ) (scale : ℕ) : ℕ := ints.countP fun value => value ∣ scale

/-- What a value needs of a multiple of the power of two. -/
theorem reduced_dvd_iff {value pow2 : ℕ} (positive : 0 < value) (k : ℕ) :
    value / value.gcd pow2 ∣ k ↔ value ∣ pow2 * k := by
  have gcdPositive : 0 < value.gcd pow2 := Nat.gcd_pos_of_pos_left _ positive
  have coprime : (value / value.gcd pow2).Coprime (pow2 / value.gcd pow2) :=
    Nat.coprime_div_gcd_div_gcd gcdPositive
  have valueSplit := Nat.div_mul_cancel (Nat.gcd_dvd_left value pow2)
  have pow2Split := Nat.div_mul_cancel (Nat.gcd_dvd_right value pow2)
  calc value / value.gcd pow2 ∣ k ↔ value / value.gcd pow2 ∣ pow2 / value.gcd pow2 * k :=
        ⟨fun divides => divides.mul_left _, coprime.dvd_of_dvd_mul_left⟩
    _ ↔ value.gcd pow2 * (value / value.gcd pow2) ∣ value.gcd pow2 * (pow2 / value.gcd pow2 * k) :=
        (Nat.mul_dvd_mul_iff_left gcdPositive).symm
    _ ↔ value ∣ pow2 * k := by
        rw [Nat.mul_comm, valueSplit, ← Nat.mul_assoc, Nat.mul_comm (value.gcd pow2), pow2Split]

theorem getD_counts {ints : List ℕ} (positive : ∀ value ∈ ints, 0 < value) (pow2 : ℕ) {size k : ℕ}
    (kPositive : 0 < k) (bounded : k ≤ size) :
    (sieve size ((counter ints).map fun entry => (entry.1 / entry.1.gcd pow2, entry.2))).getD k 0 =
      dividing ints (pow2 * k) := by
  have kept : ((counter ints).filter fun entry => decide (entry.1 / entry.1.gcd pow2 ∣ k)) =
      (counter ints).filter fun entry => decide (entry.1 ∣ pow2 * k) := by
    apply List.filter_congr
    intro entry listed
    obtain ⟨value, inside, rfl⟩ := List.mem_map.mp listed
    simp [reduced_dvd_iff (positive value (by simpa using inside)) k]
  rw [getD_sieve _ kPositive bounded, List.filter_map, List.map_map]
  exact (congrArg (fun entries => (entries.map Prod.snd).sum) kept).trans
    (sum_counter ints fun value => value ∣ pow2 * k)

theorem mem_mostCounted {counts : List ℕ} {k : ℕ} :
    k ∈ mostCounted counts ↔ 0 < k ∧ k < counts.length ∧
      ∀ other, 0 < other → other < counts.length → counts.getD other 0 ≤ counts.getD k 0 := by
  cases counts with
  | nil => simp [mostCounted]
  | cons head tail =>
      have isMax : ∀ index, index < tail.length →
          (tail.getD index 0 = tail.foldr max 0 ↔ ∀ other < tail.length, tail.getD other 0 ≤ tail.getD index 0) := by
        intro index inside
        have listed : tail.getD index 0 ∈ tail := by
          rw [List.getD_eq_getElem?_getD, List.getElem?_eq_getElem inside]
          exact List.getElem_mem inside
        constructor
        · intro isLargest other otherInside
          rw [isLargest]
          apply le_foldr_max
          rw [List.getD_eq_getElem?_getD, List.getElem?_eq_getElem otherInside]
          exact List.getElem_mem otherInside
        · intro above
          apply le_antisymm (le_foldr_max listed)
          apply List.max_le_of_forall_le
          intro value isEntry
          obtain ⟨other, otherInside, rfl⟩ := List.mem_iff_getElem.mp isEntry
          have bound := above other otherInside
          rwa [List.getD_eq_getElem?_getD, List.getElem?_eq_getElem otherInside] at bound
      simp only [mostCounted, List.tail_cons, List.mem_map, List.mem_filter, List.mem_range,
        List.length_cons]
      constructor
      · rintro ⟨index, ⟨inside, isLargest⟩, rfl⟩
        refine ⟨Nat.succ_pos _, Nat.succ_lt_succ inside, ?_⟩
        intro other otherPositive otherInside
        obtain ⟨previous, rfl⟩ := Nat.exists_eq_add_one_of_ne_zero otherPositive.ne'
        exact (isMax index inside).mp (of_decide_eq_true isLargest) previous (Nat.lt_of_succ_lt_succ otherInside)
      · rintro ⟨kPositive, kInside, above⟩
        obtain ⟨index, rfl⟩ := Nat.exists_eq_add_one_of_ne_zero kPositive.ne'
        have inside := Nat.lt_of_succ_lt_succ kInside
        refine ⟨index, ⟨inside, decide_eq_true ((isMax index inside).mpr ?_)⟩, rfl⟩
        exact fun other otherInside => above (other + 1) (Nat.succ_pos _) (Nat.succ_lt_succ otherInside)

/-! ## The chosen scale -/

section Choice

variable {ints : List ℕ} {pow2 : ℕ}

/-- A multiple of the power of two that as many values divide as any other under the cap. -/
structure IsCandidate (ints : List ℕ) (pow2 scale : ℕ) : Prop where
  positive : 0 < scale
  multiple : pow2 ∣ scale
  withinCap : scale ≤ invScaleCap ints
  maximal : ∀ other, 0 < other → pow2 ∣ other → other ≤ invScaleCap ints →
    dividing ints other ≤ dividing ints scale

/-- Within `int64` the scales compared are the candidates. -/
theorem mem_scaleCandidates (positive : ∀ value ∈ ints, 0 < value) (pow2Positive : 0 < pow2)
    (capBounded : invScaleCap ints ≤ 2 ^ 62) {scale : ℤ} :
    scale ∈ scaleCandidates (counter ints) (invScaleCap ints) pow2 ↔
      ∃ candidate : ℕ, IsCandidate ints pow2 candidate ∧ scale = candidate := by
  have counted : ∀ {k}, 0 < k → k < invScaleCap ints / pow2 + 1 → _ = _ :=
    fun kPositive bounded => getD_counts positive pow2 kPositive (Nat.le_of_lt_succ bounded)
  have inCap : ∀ k, k < invScaleCap ints / pow2 + 1 ↔ pow2 * k ≤ invScaleCap ints := by
    intro k
    rw [Nat.lt_succ_iff, Nat.le_div_iff_mul_le pow2Positive, Nat.mul_comm]
  have exact : ∀ k, pow2 * k ≤ invScaleCap ints → ((pow2 * k : ℕ) : ℤ).bmod (2 ^ 64) = (pow2 * k : ℕ) :=
    fun k withinCap => Int.bmod_eq_of_le_mul_two (by omega) (by omega)
  simp only [scaleCandidates, List.mem_map, mem_mostCounted, length_sieve]
  constructor
  · rintro ⟨k, ⟨kPositive, kBounded, above⟩, rfl⟩
    refine ⟨pow2 * k, ⟨Nat.mul_pos pow2Positive kPositive, Nat.dvd_mul_right _ _, (inCap k).mp kBounded, ?_⟩,
      exact k ((inCap k).mp kBounded)⟩
    rintro _ otherPositive ⟨other, rfl⟩ otherInCap
    have factorPositive : 0 < other := Nat.pos_of_mul_pos_left otherPositive
    have bound := above other factorPositive ((inCap other).mpr otherInCap)
    rwa [counted factorPositive ((inCap other).mpr otherInCap), counted kPositive kBounded] at bound
  · rintro ⟨_, ⟨scalePositive, ⟨k, rfl⟩, withinCap, maximal⟩, rfl⟩
    have kPositive : 0 < k := Nat.pos_of_mul_pos_left scalePositive
    refine ⟨k, ⟨kPositive, (inCap k).mpr withinCap, ?_⟩, exact k withinCap⟩
    intro other otherPositive otherBounded
    rw [counted otherPositive otherBounded, counted kPositive ((inCap k).mpr withinCap)]
    exact maximal _ (Nat.mul_pos pow2Positive otherPositive) (Nat.dvd_mul_right _ _)
      ((inCap other).mp otherBounded)

/-- Multiples of a candidate under the cap are candidates. -/
theorem IsCandidate.mul {scale factor : ℕ} (candidate : IsCandidate ints pow2 scale)
    (factorPositive : 0 < factor) (withinCap : scale * factor ≤ invScaleCap ints) :
    IsCandidate ints pow2 (scale * factor) := by
  refine ⟨Nat.mul_pos candidate.positive factorPositive, candidate.multiple.mul_right factor, withinCap, ?_⟩
  intro other otherPositive multiple otherInCap
  apply (candidate.maximal other otherPositive multiple otherInCap).trans
  exact List.countP_mono_left fun value _ divides => by
    simpa using (of_decide_eq_true divides : value ∣ scale).mul_right factor

/-- Some candidate lies in the upper half under the cap. -/
theorem IsCandidate.exists_large {scale : ℕ} (candidate : IsCandidate ints pow2 scale) :
    ∃ large, IsCandidate ints pow2 large ∧ invScaleCap ints < 2 * large := by
  set factor := invScaleCap ints / scale with isFactor
  have factorPositive : 0 < factor := Nat.div_pos candidate.withinCap candidate.positive
  have withinCap : scale * factor ≤ invScaleCap ints := Nat.mul_div_le _ _
  refine ⟨scale * factor, candidate.mul factorPositive withinCap, ?_⟩
  have next : invScaleCap ints < scale * (factor + 1) := Nat.lt_mul_div_succ _ candidate.positive
  have doubled : scale * (factor + 1) ≤ scale * (2 * factor) := Nat.mul_le_mul_left scale (by omega)
  calc invScaleCap ints < scale * (2 * factor) := next.trans_le doubled
    _ = 2 * (scale * factor) := by ring

theorem exists_isCandidate (pow2Positive : 0 < pow2) (withinCap : pow2 ≤ invScaleCap ints) :
    ∃ scale, IsCandidate ints pow2 scale := by
  have nonempty : ((Finset.Icc 1 (invScaleCap ints)).filter fun scale => pow2 ∣ scale).Nonempty :=
    ⟨pow2, by simp [withinCap, pow2Positive, Nat.one_le_iff_ne_zero, pow2Positive.ne']⟩
  obtain ⟨scale, isMultiple, maximal⟩ := Finset.exists_max_image _ (dividing ints) nonempty
  simp only [Finset.mem_filter, Finset.mem_Icc, and_imp] at isMultiple maximal
  exact ⟨scale, isMultiple.1.1, isMultiple.2, isMultiple.1.2,
    fun other otherPositive multiple inCap => maximal other otherPositive inCap multiple⟩

end Choice

section Rounding

variable {values : List ℕ} {scale : ℕ} (scalePositive : 0 < scale)

include scalePositive

/-- The key of a scale bounds how every value rounds. -/
theorem rounding_lt {bound : ℚ} (below : (roundingKey values scale).1 < bound) {value : ℕ}
    (inside : value ∈ values) : ((scale % value : ℕ) : ℚ) / scale < bound := by
  have atMost : ((scale % value : ℕ) : ℤ) ≤ (values.map fun other : ℕ => (scale : ℤ) % (other : ℤ)).foldl max 0 := by
    rw [Int.natCast_mod]
    exact le_foldl_max 0 (List.mem_map_of_mem inside)
  have ordered : ((scale % value : ℕ) : ℚ) ≤
      (((values.map fun other : ℕ => (scale : ℤ) % (other : ℤ)).foldl max 0 : ℤ) : ℚ) := by
    rw [← Int.cast_natCast]
    exact Int.cast_le.mpr atMost
  have divisor : (0 : ℚ) < scale := by exact_mod_cast scalePositive
  calc ((scale % value : ℕ) : ℚ) / scale ≤ (roundingKey values scale).1 :=
        div_le_div_of_nonneg_right ordered divisor.le
    _ < bound := below

/-- Values below a sixteenth of the scale round well. -/
theorem roundingKey_lt (small : ∀ value ∈ values, 0 < value ∧ 16 * value < scale) :
    (roundingKey values scale).1 < 1 / 16 := by
  have worst : 16 * (values.map fun other : ℕ => (scale : ℤ) % (other : ℤ)).foldl max 0 < scale := by
    have remainders : (values.map fun other : ℕ => (scale : ℤ) % (other : ℤ)).foldl max 0 ≤ (scale - 1) / 16 := by
      rw [foldl_max_le_iff]
      refine ⟨by omega, ?_⟩
      intro remainder isRemainder
      obtain ⟨value, inside, rfl⟩ := List.mem_map.mp isRemainder
      obtain ⟨valuePositive, below⟩ := small value inside
      have reduced := Int.emod_lt_of_pos (scale : ℤ) (by exact_mod_cast valuePositive : (0 : ℤ) < value)
      omega
    omega
  have divisor : (0 : ℚ) < scale := by exact_mod_cast scalePositive
  have scaled : 16 * (((values.map fun other : ℕ => (scale : ℤ) % (other : ℤ)).foldl max 0 : ℤ) : ℚ) < scale := by
    exact_mod_cast worst
  show (((values.map fun other : ℕ => (scale : ℤ) % (other : ℤ)).foldl max 0 : ℤ) : ℚ) / (scale : ℤ) < 1 / 16
  rw [Int.cast_natCast, div_lt_div_iff₀ divisor (by norm_num)]
  linarith

end Rounding

/-! ## The least common multiple -/

theorem dvd_foldl_lcm (values : List ℕ) (initial : ℕ) :
    initial ∣ values.foldl Nat.lcm initial ∧ ∀ value ∈ values, value ∣ values.foldl Nat.lcm initial := by
  induction values generalizing initial with
  | nil => simp
  | cons head tail inductionHypothesis =>
      obtain ⟨ofInitial, ofTail⟩ := inductionHypothesis (initial.lcm head)
      rw [List.foldl_cons, List.forall_mem_cons]
      exact ⟨(Nat.dvd_lcm_left _ _).trans ofInitial, (Nat.dvd_lcm_right _ _).trans ofInitial, ofTail⟩

theorem foldl_lcm_pos {values : List ℕ} (positive : ∀ value ∈ values, 0 < value) {initial : ℕ}
    (initialPositive : 0 < initial) : 0 < values.foldl Nat.lcm initial := by
  induction values generalizing initial with
  | nil => exact initialPositive
  | cons head tail inductionHypothesis =>
      rw [List.forall_mem_cons] at positive
      exact inductionHypothesis positive.2 (Nat.lcm_pos initialPositive positive.1)

section Spec

variable {values : List ℕ} (nonempty : values ≠ []) (positive : ∀ value ∈ values, 0 < value)

include nonempty positive

theorem pow2_lt_cap {pow2 : ℕ} (largest : IsLargestPow2 values pow2) : 32 * pow2 ≤ invScaleCap values := by
  obtain ⟨value, inside⟩ := List.exists_mem_of_ne_nil values nonempty
  have capLarge := le_cap inside
  have valuePositive := positive value inside
  rcases largest.listed with listed | isOne
  · exact le_cap listed
  · omega

/-- The sieve finds a candidate that rounds every value to within a sixteenth. -/
theorem exists_sievedScale (bounded : ∀ value ∈ values, value ≤ 2 ^ 57) :
    ∃ scale pow2 : ℕ, sievedScale values (invScaleCap values) = .ok scale ∧ IsLargestPow2 values pow2 ∧
      IsCandidate values pow2 scale ∧ ∀ value ∈ values, ((scale % value : ℕ) : ℚ) / scale < 1 / 16 := by
  have sameValues : ∀ value, value ∈ (counter values).map Prod.fst ↔ value ∈ values := by
    intro value
    simp [counter]
  obtain ⟨pow2, isPow2⟩ : ∃ pow2, largestPow2 ((counter values).map Prod.fst) = pow2 := ⟨_, rfl⟩
  have largest : IsLargestPow2 values pow2 := by
    have found := isLargestPow2 fun value inside => positive value ((sameValues value).mp inside)
    rw [isPow2] at found
    exact ⟨found.power, fun exponent listed => found.largest exponent ((sameValues _).mpr listed),
      found.listed.imp_left (sameValues _).mp⟩
  obtain ⟨exponent, isPower⟩ := largest.power
  have pow2Positive : 0 < pow2 := isPower ▸ Nat.two_pow_pos exponent
  have pastPow2 := pow2_lt_cap nonempty positive largest
  have capBounded := cap_le bounded
  have candidates : ∀ {scale}, _ ↔ _ := @mem_scaleCandidates values pow2 positive pow2Positive capBounded
  obtain ⟨first, firstCandidate⟩ := exists_isCandidate pow2Positive (by omega : pow2 ≤ invScaleCap values)
  obtain ⟨large, largeCandidate, upperHalf⟩ := firstCandidate.exists_large
  have largeInside := candidates.mpr ⟨large, largeCandidate, rfl⟩
  have largeRounds : (roundingKey ((counter values).map Prod.fst) large).1 < 1 / 16 := by
    apply roundingKey_lt largeCandidate.positive
    intro value listed
    have inside := (sameValues value).mp listed
    have capLarge := le_cap inside
    exact ⟨positive value inside, by omega⟩
  have noZero : 0 ∉ scaleCandidates (counter values) (invScaleCap values) pow2 := by
    intro isZero
    obtain ⟨zero, zeroCandidate, zeroEq⟩ := candidates.mp isZero
    have zeroPositive := zeroCandidate.positive
    omega
  have sizeBounded : invScaleCap values / pow2 ≤ invScaleCap values := Nat.div_le_self _ _
  cases chosen : (scaleCandidates (counter values) (invScaleCap values) pow2).argmin
      (roundingKey ((counter values).map Prod.fst)) with
  | none =>
      rw [List.argmin_eq_none.mp chosen] at largeInside
      cases largeInside
  | some least =>
      obtain ⟨scale, candidate, rfl⟩ := candidates.mp (List.argmin_mem chosen)
      have keyLe := List.le_of_mem_argmin largeInside chosen
      have rounds : (roundingKey ((counter values).map Prod.fst) scale).1 < 1 / 16 := by
        rcases Prod.Lex.le_iff.mp keyLe with lower | ⟨same, -⟩
        · exact lower.trans largeRounds
        · exact lt_of_eq_of_lt same largeRounds
      refine ⟨scale, pow2, ?_, largest, candidate, fun value inside =>
        rounding_lt candidate.positive rounds ((sameValues value).mpr inside)⟩
      unfold sievedScale
      simp only [isPow2]
      rw [if_neg (by omega), if_neg (by omega), if_neg noZero, chosen]

theorem invScale_eq :
    invScale (values.map Nat.cast) =
      if values.foldl Nat.lcm 1 ≤ invScaleCap values then .ok ((values.foldl Nat.lcm 1 : ℕ) : ℤ)
      else sievedScale values (invScaleCap values) := by
  have legal : ¬ ((values.map Nat.cast : List ℤ) = [] ∨ ∃ value ∈ (values.map Nat.cast : List ℤ), value < 1) := by
    simp only [List.map_eq_nil_iff, nonempty, false_or, List.mem_map, not_exists, not_and]
    rintro _ ⟨value, inside, rfl⟩
    have valuePositive := positive value inside
    omega
  have back : (values.map Nat.cast : List ℤ).map Int.toNat = values := by
    rw [List.map_map]
    exact List.map_id values
  unfold invScale
  rw [if_neg legal]
  simp only [back]

end Spec

example : invScale [1, 2, 4, 8, 16, 32] = .ok 32 := by decide

end TorchSpyre.Scratchpad.CostExpr
