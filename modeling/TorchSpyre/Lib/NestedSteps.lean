import Mathlib

/-!
# Sums of steps that do not overlap

A sum moves by a step for each of its digits.  The digits can be read off the sum
when a digit and its step stay below a modulus that divides every later step, or
when no later digit moves.
-/

namespace Lib.NestedSteps

structure Step where
  step : ℕ
  /-- The number of values of the digit. -/
  extent : ℕ

/-- The steps, innermost first, do not overlap. -/
def Separated : List Step → Prop
  | [] => True
  | inner :: outer =>
      0 < inner.step ∧
      ((∀ other ∈ outer, other.extent ≤ 1) ∨
        ∃ modulus : ℕ, inner.step * inner.extent ≤ modulus ∧ ∀ other ∈ outer, modulus ∣ other.step) ∧
      Separated outer

/-- The sum of the digits' moves. -/
def total : List Step → List ℤ → ℤ
  | step :: steps, digit :: digits => step.step * digit + total steps digits
  | _, _ => 0

/-- The digits are less than an extent apart. -/
def Apart (steps : List Step) (digits : List ℤ) : Prop :=
  List.Forall₂ (fun (step : Step) (digit : ℤ) => |digit| < step.extent) steps digits

theorem total_eq_zero_of_still {steps : List Step} {digits : List ℤ} (apart : Apart steps digits)
    (still : ∀ step ∈ steps, step.extent ≤ 1) : total steps digits = 0 := by
  induction apart with
  | nil => rfl
  | @cons step digit steps digits here _ inductionHypothesis =>
      rw [List.forall_mem_cons] at still
      have zero : digit = 0 := by
        apply Int.abs_lt_one_iff.mp
        exact here.trans_le (by exact_mod_cast still.1)
      rw [total, zero, mul_zero, zero_add]
      exact inductionHypothesis still.2

theorem dvd_total {steps : List Step} {modulus : ℕ}
    (divides : ∀ step ∈ steps, modulus ∣ step.step) (digits : List ℤ) :
    (modulus : ℤ) ∣ total steps digits := by
  induction steps generalizing digits with
  | nil => exact dvd_zero _
  | cons step steps inductionHypothesis =>
      rw [List.forall_mem_cons] at divides
      cases digits with
      | nil => exact dvd_zero _
      | cons digit digits =>
          apply dvd_add
          · exact (Int.natCast_dvd_natCast.mpr divides.1).mul_right digit
          · exact inductionHypothesis divides.2 digits

/-- Only digits that do not move have the sum zero. -/
theorem eq_zero_of_total {steps : List Step} {digits : List ℤ} (separated : Separated steps)
    (apart : Apart steps digits) (vanishes : total steps digits = 0) : ∀ digit ∈ digits, digit = 0 := by
  induction apart with
  | nil => exact fun digit listed => nomatch listed
  | @cons step digit steps digits here rest inductionHypothesis =>
      obtain ⟨positive, inner, separated⟩ := separated
      rw [total] at vanishes
      have here : (step.step : ℤ) * digit = 0 := by
        rcases inner with still | ⟨modulus, below, divides⟩
        · rwa [total_eq_zero_of_still rest still, add_zero] at vanishes
        · have multiple : (modulus : ℤ) ∣ step.step * digit := by
            rw [eq_neg_of_add_eq_zero_left vanishes]
            exact (dvd_total divides digits).neg_right
          apply Int.eq_zero_of_abs_lt_dvd multiple
          rw [abs_mul, Nat.abs_cast]
          calc (step.step : ℤ) * |digit|
              < step.step * step.extent := by
                exact mul_lt_mul_of_pos_left here (by exact_mod_cast positive)
            _ ≤ modulus := by exact_mod_cast below
      have zero : digit = 0 := by
        rcases mul_eq_zero.mp here with isZero | isZero
        · exact absurd isZero (by exact_mod_cast positive.ne')
        · exact isZero
      rw [here, zero_add] at vanishes
      rw [List.forall_mem_cons]
      exact ⟨zero, inductionHypothesis separated vanishes⟩

/-- Digits of the same ranges with the same sum are the same. -/
theorem eq_of_total {Name : Type*} {names : List Name} {step : Name → Step}
    (separated : Separated (names.map step)) {first second : Name → ℤ}
    (apart : ∀ name ∈ names, |first name - second name| < (step name).extent)
    (same : (names.map fun name => ((step name).step : ℤ) * first name).sum =
      (names.map fun name => ((step name).step : ℤ) * second name).sum) :
    ∀ name ∈ names, first name = second name := by
  have difference : total (names.map step) (names.map fun name => first name - second name) =
      (names.map fun name => ((step name).step : ℤ) * first name).sum -
        (names.map fun name => ((step name).step : ℤ) * second name).sum := by
    clear separated apart same
    induction names with
    | nil => rfl
    | cons name names inductionHypothesis =>
        simp only [List.map_cons, total, List.sum_cons, inductionHypothesis]
        ring
  have digits : Apart (names.map step) (names.map fun name => first name - second name) := by
    rw [Apart, List.forall₂_map_left_iff, List.forall₂_map_right_iff, List.forall₂_same]
    exact apart
  have vanish := eq_zero_of_total separated digits (by rw [difference, same, sub_self])
  intro name listed
  exact sub_eq_zero.mp (vanish _ (List.mem_map_of_mem listed))

end Lib.NestedSteps
