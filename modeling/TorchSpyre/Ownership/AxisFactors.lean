import TorchSpyre.Lib.Linear
import TorchSpyre.Lib.Positional
import TorchSpyre.Ownership.SliceOwnership

/-!
# Slices of an axis, loop by loop and digit by digit

A projected axis is sliced as its one loop is partitioned.  A factored axis is
numbered by its digits without gaps, and a slice of it is the product of the
sub-slices that the owner formulas name.
-/

namespace TorchSpyre.Ownership

open Lib Lib.Symbolic Lib.Positional

/-- The values of the digits at a point. -/
def Reads (factors : List AxisFactor) (point : Point) (values : List ℕ) : Prop :=
  List.Forall₂ (fun (factor : AxisFactor) (value : ℕ) => factor.digit.eval point = value) factors
    values

section Digits

variable {sympy : Sympy} {slot : Expr} {space : IterationSpace} {digits : List AxisDigit}
  {factors : List AxisFactor}

/-- A digit runs over a whole loop, in steps of its divisor. -/
theorem axisDigit_extent {term : Expr} {digit : AxisDigit}
    (found : axisDigit sympy space term = some digit) :
    0 < digit.divisor ∧ space.extent digit.loop = some (digit.radix * digit.divisor) := by
  simp only [axisDigit] at found
  split at found
  next => cases found
  next =>
    simp only [Option.bind_eq_bind, Option.bind_eq_some_iff] at found
    obtain ⟨⟨loop, divisor⟩, parsed, extent, concrete, found⟩ := found
    split at found
    next => cases found
    next divides =>
      cases found
      rw [not_or, not_not] at divides
      obtain ⟨positive, -⟩ := digitLoop_eval parsed fun _ => 0
      refine ⟨Int.pos_iff_toNat_pos.mp positive, ?_⟩
      rw [concrete, Nat.div_mul_cancel (Nat.dvd_of_mod_eq_zero divides.1)]

theorem factorDigits_forall₂ {stride remaining : ℕ}
    (found : factorDigits sympy slot stride remaining digits = some factors) :
    List.Forall₂ (fun (digit : AxisDigit) (factor : AxisFactor) =>
      factor.radix = digit.radix ∧ factor.digit = digit.digit ∧ factor.count ∣ factor.radix)
      digits factors := by
  induction digits generalizing stride remaining factors with
  | nil =>
      simp only [factorDigits] at found
      split at found
      next =>
        cases found
        exact .nil
      next => cases found
  | cons digit digits inductionHypothesis =>
      obtain ⟨_, _, factor, later, rfl, radix, expr, counted, _, _, divides, _, _, remainder⟩ :=
        factorDigits_cons found
      exact .cons ⟨radix, expr, by rwa [counted, radix]⟩ (inductionHypothesis remainder)

/-- The coefficients are the weights of the digits over the radices. -/
theorem factorDigits_number {stride remaining : ℕ}
    (found : factorDigits sympy slot stride remaining digits = some factors) :
    (factors.map AxisFactor.radix).prod = stride ∧ ∀ point values, Reads factors point values →
      (digits.map fun digit => (digit.coefficient : ℚ) * digit.digit.eval point).sum =
        number (factors.map AxisFactor.radix) values := by
  induction digits generalizing stride remaining factors with
  | nil =>
      simp only [factorDigits] at found
      split at found
      next ends =>
        cases found
        refine ⟨ends.1.symm, ?_⟩
        rintro point _ ⟨⟩
        rfl
      next => cases found
  | cons digit digits inductionHypothesis =>
      obtain ⟨_, _, factor, later, rfl, radix, expr, _, _, _, _, _, strides, remainder⟩ :=
        factorDigits_cons found
      obtain ⟨weight, numbered⟩ := inductionHypothesis remainder
      constructor
      · rw [List.map_cons, List.prod_cons, weight, radix, strides]
      · rintro point (_ | ⟨value, values⟩) reads
        · cases reads
        · obtain ⟨here, rest⟩ := List.forall₂_cons.mp reads
          rw [List.map_cons, List.sum_cons, numbered point values rest, List.map_cons, number,
            weight, ← expr, here]
          push_cast
          ring

/-- Loops of their own let every tuple of digits be read. -/
theorem exists_digits (distinct : (digits.map AxisDigit.loop).Nodup)
    (known : ∀ digit ∈ digits, ∃ term, axisDigit sympy space term = some digit) {values : List ℕ}
    (below : Digits (digits.map AxisDigit.radix) values) :
    ∃ point, space.Contains point ∧
      List.Forall₂ (fun (digit : AxisDigit) (value : ℕ) => digit.digit.eval point = value) digits
        values := by
  induction digits generalizing values with
  | nil =>
      cases below
      refine ⟨fun _ => 0, ?_, .nil⟩
      intro loop extent concrete
      unfold IterationSpace.extent at concrete
      split at concrete
      next => cases concrete
      next =>
        split_ifs at concrete with positive
        cases concrete
        exact Int.pos_iff_toNat_pos.mp positive
  | cons digit digits inductionHypothesis =>
      rcases values with _ | ⟨value, values⟩
      · cases below
      · obtain ⟨valueBelow, restBelow⟩ := List.forall₂_cons.mp below
        rw [List.map_cons, List.nodup_cons] at distinct
        obtain ⟨point, inSpace, reads⟩ := inductionHypothesis distinct.2
          (fun other listed => known other (List.mem_cons_of_mem _ listed)) restBelow
        obtain ⟨term, stepped⟩ := known digit List.mem_cons_self
        obtain ⟨positive, concrete⟩ := axisDigit_extent stepped
        refine ⟨Function.update point digit.loop (value * digit.divisor), ?_, .cons ?_ ?_⟩
        · intro loop extent found
          by_cases same : loop = digit.loop
          · subst same
            rw [concrete, Option.some.injEq] at found
            rw [Function.update_self, ← found]
            exact Nat.mul_lt_mul_of_pos_right valueBelow positive
          · rw [Function.update_of_ne same]
            exact inSpace loop extent found
        · obtain ⟨-, -, evaluated, -⟩ := @axisDigit_eval _ _ _ _ stepped
            (Function.update point digit.loop (value * digit.divisor))
          rw [evaluated, Function.update_self, Nat.mul_div_cancel _ positive]
        · -- The other digits read other loops.
          refine List.forall₂_iff_zip.mpr ⟨reads.length_eq, ?_⟩
          intro other otherValue listed
          have isDigit := (List.of_mem_zip listed).1
          obtain ⟨otherTerm, otherStepped⟩ := known other (List.mem_cons_of_mem _ isDigit)
          have apart : other.loop ≠ digit.loop := by
            intro clash
            exact distinct.1 (clash ▸ List.mem_map_of_mem isDigit)
          have before := (List.forall₂_iff_zip.mp reads).2 listed
          obtain ⟨-, -, evaluated, -⟩ := @axisDigit_eval _ _ _ _ otherStepped point
          obtain ⟨-, -, updated, -⟩ := @axisDigit_eval _ _ _ _ otherStepped
            (Function.update point digit.loop (value * digit.divisor))
          rw [updated, Function.update_of_ne apart, ← evaluated, before]

end Digits

section Factored

variable {sympy : Sympy} {coordinate slot : Expr} {space : IterationSpace}
  {deviceExtent split : ℕ} {factors : List AxisFactor}
  (found : factorSliceAxis sympy coordinate deviceExtent split slot space = some factors)

include found

theorem factorSliceAxis_prod : (factors.map AxisFactor.radix).prod = deviceExtent := by
  obtain ⟨digits, -, factored⟩ := factorSliceAxis_digitized found
  exact (factorDigits_number factored).1

theorem factorSliceAxis_divides : ∀ factor ∈ factors, factor.count ∣ factor.radix := by
  obtain ⟨digits, -, factored⟩ := factorSliceAxis_digitized found
  intro factor listed
  obtain ⟨digit, -, -, -, divides⟩ := exists_left_of_forall₂ (factorDigits_forall₂ factored) listed
  exact divides

theorem factorSliceAxis_surjective {values : List ℕ}
    (below : Digits (factors.map AxisFactor.radix) values) :
    ∃ point, space.Contains point ∧ Reads factors point values := by
  obtain ⟨digits, digitized, factored⟩ := factorSliceAxis_digitized found
  have aligned := factorDigits_forall₂ factored
  have sameRadices : factors.map AxisFactor.radix = digits.map AxisDigit.radix := by
    clear factored digitized below found
    induction aligned with
    | nil => rfl
    | cons same _ inductionHypothesis => rw [List.map_cons, List.map_cons, same.1, inductionHypothesis]
  rw [sameRadices] at below
  obtain ⟨point, inSpace, reads⟩ := exists_digits digitized.distinct digitized.known below
  refine ⟨point, inSpace, ?_⟩
  clear factored digitized below found sameRadices
  induction aligned generalizing values with
  | nil =>
      cases reads
      exact .nil
  | cons same _ inductionHypothesis =>
      rcases values with _ | ⟨value, values⟩
      · cases reads
      · obtain ⟨here, rest⟩ := List.forall₂_cons.mp reads
        exact .cons (same.2.1 ▸ here) (inductionHypothesis rest)

theorem factorSliceAxis_reads {point : Point} (inSpace : space.Contains point) :
    ∃ values, Digits (factors.map AxisFactor.radix) values ∧ Reads factors point values ∧
      coordinate.eval point = number (factors.map AxisFactor.radix) values := by
  obtain ⟨digits, digitized, factored⟩ := factorSliceAxis_digitized found
  have natural := digitized.natural inSpace
  have reads : ∃ values, Digits (factors.map AxisFactor.radix) values ∧
      Reads factors point values := by
    have aligned := factorDigits_forall₂ factored
    clear factored digitized found
    induction aligned with
    | nil => exact ⟨[], .nil, .nil⟩
    | cons same _ inductionHypothesis =>
        obtain ⟨values, below, rest⟩ := inductionHypothesis fun digit listed =>
          natural digit (List.mem_cons_of_mem _ listed)
        obtain ⟨value, evaluated, valueBelow⟩ := natural _ List.mem_cons_self
        exact ⟨value :: values, .cons (same.1 ▸ valueBelow) below,
          .cons (same.2.1 ▸ evaluated) rest⟩
  obtain ⟨values, below, reads⟩ := reads
  refine ⟨values, below, reads, ?_⟩
  rw [← digitized.sum, (factorDigits_number factored).2 point values reads]

end Factored

/-- A projected loop decides the slice over the whole iteration space; the digits of a factored
axis number it, and a slice is the product of the sub-slices of its digits. -/
theorem sliceAxis_sound (sympy : Sympy) (coordinate : Expr) {deviceExtent split : ℕ}
    (divides : split ∣ deviceExtent) (space : IterationSpace) :
    (∀ floorOnly loop projected,
      projectSliceAxis sympy coordinate deviceExtent split space floorOnly =
        some (loop, projected) →
      ∃ extent, space.extent loop = some extent ∧ split ∣ extent ∧
        ∀ slot : ℕ, ∀ point, space.Contains point →
          InSlice (extent / split : ℕ) slot (point loop) →
          ∃ value : ℤ, coordinate.eval point = value ∧
            InSlice (deviceExtent / split : ℕ) slot value) ∧
    ∀ slot factors,
      factorSliceAxis sympy coordinate deviceExtent split slot space = some factors →
      (∀ factor ∈ factors, factor.count ∣ factor.radix) ∧
      Set.BijOn (number (factors.map AxisFactor.radix))
        {values | Digits (factors.map AxisFactor.radix) values} (Set.Iio deviceExtent) ∧
      (∀ values, Digits (factors.map AxisFactor.radix) values →
        ∃ point, space.Contains point ∧ Reads factors point values) ∧
      ∀ point, space.Contains point → ∃ values,
        Digits (factors.map AxisFactor.radix) values ∧ Reads factors point values ∧
        coordinate.eval point = number (factors.map AxisFactor.radix) values ∧
        ∀ (core : Point) (slotValue : ℕ), slot.eval core = slotValue → slotValue < split →
          (InSlice (deviceExtent / split : ℕ) slotValue
              (number (factors.map AxisFactor.radix) values) ↔
            ∀ factor ∈ factors, factor.Owns core point) := by
  constructor
  · intro floorOnly loop projected found
    obtain ⟨-, extent, concrete, splits, sliced⟩ := projectSliceAxis_partitioned divides found
    refine ⟨extent, concrete, splits, ?_⟩
    intro slot point inSpace inside
    obtain ⟨value, evaluated, contained⟩ := sliced point inSpace
    have partition : point loop / (extent / split) = slot := by
      rw [InSlice.iff_ediv_eq inside.width_pos] at inside
      exact_mod_cast inside
    rw [partition] at contained
    exact ⟨value, evaluated, contained⟩
  · intro slot factors found
    refine ⟨factorSliceAxis_divides found, ?_, fun _ => factorSliceAxis_surjective found, ?_⟩
    · have numbered := number_bijOn (factors.map AxisFactor.radix)
      rwa [factorSliceAxis_prod found] at numbered
    · intro point inSpace
      obtain ⟨values, below, reads, evaluated⟩ := factorSliceAxis_reads found inSpace
      refine ⟨values, below, reads, evaluated, ?_⟩
      intro core slotValue owned slotBelow
      obtain ⟨value, sameValue, exactly⟩ :=
        factorSliceAxis_inSlice_iff found owned slotBelow inSpace
      rw [evaluated, Nat.cast_inj] at sameValue
      rwa [sameValue]

/-- Sixteen sticks of a rotated read, cut four ways. -/
def rotated : Expr := .add (.mul (.const 2) (.sym "head")) (.sym "pair")

def rotatedSpace : IterationSpace := [("head", .const 8), ("pair", .const 2)]

/-- The heads own the slices, and the axis is the product of heads and pairs. -/
theorem rotated_sound :
    (∃ projected extent,
      projectSliceAxis affineSympy rotated 16 4 rotatedSpace false = some ("head", projected) ∧
      rotatedSpace.extent "head" = some extent ∧
      ∀ slot : ℕ, ∀ point, rotatedSpace.Contains point →
        InSlice (extent / 4 : ℕ) slot (point "head") →
        ∃ value : ℤ, rotated.eval point = value ∧ InSlice (16 / 4 : ℕ) slot value) ∧
    ∃ factors,
      factorSliceAxis affineSympy rotated 16 4 (.sym "core_id") rotatedSpace = some factors ∧
      Set.BijOn (number (factors.map AxisFactor.radix))
        {values | Digits (factors.map AxisFactor.radix) values} (Set.Iio 16) := by
  have projects : (projectSliceAxis affineSympy rotated 16 4 rotatedSpace false).map Prod.fst =
      some "head" := by decide +kernel
  have parsed : (affineSympy.expand rotated).addends.mapM (axisDigit affineSympy rotatedSpace) =
      some [⟨2, .sym "head", 8, "head", 1⟩, ⟨1, .sym "pair", 2, "pair", 1⟩] := by decide +kernel
  have factors : (factorSliceAxis affineSympy rotated 16 4 (.sym "core_id") rotatedSpace).isSome := by
    rw [factorSliceAxis, parsed]
    simp only [Option.bind_eq_bind, Option.bind_some]
    rw [List.mergeSort_of_pairwise (by decide)]
    decide +kernel
  obtain ⟨⟨loop, projected⟩, found, rfl⟩ := Option.map_eq_some_iff.mp projects
  obtain ⟨factors, factored⟩ := Option.isSome_iff_exists.mp factors
  obtain ⟨project, factor⟩ := sliceAxis_sound affineSympy rotated (by decide : 4 ∣ 16) rotatedSpace
  obtain ⟨extent, concrete, -, sliced⟩ := project false _ projected found
  exact ⟨⟨projected, extent, found, concrete, sliced⟩, factors, factored, (factor _ _ factored).2.1⟩

end TorchSpyre.Ownership
