import TorchSpyre.Lib.CaseExpr
import TorchSpyre.Lib.Outcome

/-!
# Conditions on reciprocals

A condition on `1/x` is turned over to one on `x`, whose bound is tightened to an integer.  `Ne` has
no entry in the table of relations, and a branch on it fails.
-/

namespace TorchSpyre.Scratchpad.CostExpr

open Lib Lib.CaseExpr Expr

variable (sympy : Sympy)

/-! ## Reciprocal conditions -/

/-- `_inv_rel_op` -/
def invRelOp : RelOp → Option RelOp
  | .eq => some .eq
  | .ge => some .le
  | .le => some .ge
  | .gt => some .lt
  | .lt => some .gt
  | .ne => none

/-- `_tighten_integer_bound` -/
def tightenIntegerBound (op : RelOp) (lhs rhs : Expr) : Expr :=
  match lhs, rhs with
  | sym symbol, num bound =>
      if symbol.isInteger then
        match op with
        | .lt => sympy.build (.rel .le) [lhs, num (.exact (⌈bound.value⌉ - 1))]
        | .gt => sympy.build (.rel .ge) [lhs, num (.exact (⌊bound.value⌋ + 1))]
        | .le => sympy.build (.rel .le) [lhs, num (.exact ⌊bound.value⌋)]
        | .ge => sympy.build (.rel .ge) [lhs, num (.exact ⌈bound.value⌉)]
        | op => sympy.build (.rel op) [lhs, rhs]
      else sympy.build (.rel op) [lhs, rhs]
  | lhs, rhs => sympy.build (.rel op) [lhs, rhs]

def reciprocal (expr : Expr) : Expr := sympy.build .pow [expr, num (.exact (-1))]

/-- The relation, the symbol and the right-hand side of a condition on `1/x`. -/
def asReciprocal (cond : Expr) : Option (RelOp × Symbol × Expr) :=
  match cond with
  | node (.rel op) [node .pow [sym base, num exponent], rhs] =>
      if exponent = .exact (-1) ∧ base.sign ≠ .unknown then some (op, base, rhs) else none
  | _ => none

/-- What one branch of `_piecewise_canonical` becomes; `Ne` is not among the relations that are
turned over. -/
def canonicalBranch (branch : Expr) : Except String Expr :=
  match branch with
  | node .pair [value, cond] =>
      match asReciprocal cond with
      | none => .ok branch
      | some (op, base, rhs) =>
          match invRelOp op with
          | none => .error "KeyError: Unequality"
          | some turned =>
              .ok (node .pair [value, tightenIntegerBound sympy turned
                (reciprocal sympy (node .pow [sym base, num (.exact (-1))])) (reciprocal sympy rhs)])
  | _ => .ok branch

/-- `_piecewise_canonical` -/
def piecewiseCanonical (expr : Expr) : Except String Expr :=
  match expr with
  | node .piecewise branches => do
      let args ← branches.mapM (canonicalBranch sympy)
      return sympy.build .piecewise args
  | _ => .ok expr

variable {sympy}

/-! ## Reciprocal conditions keep their truth -/

section Conditions

variable {point : Point}

theorem eval_reciprocal {expr : Expr} {value : Value} :
    eval point (node .pow [expr, num (.exact (-1))]) = some value ↔
      ∃ number, eval point expr = some (.number number) ∧ number ≠ 0 ∧
        value = .number number⁻¹ := by
  have inverse : ∀ base : ℝ, power base (Number.exact (-1)).value =
      if base = 0 then none else some base⁻¹ := by
    intro base
    have floor : ⌊((Number.exact (-1)).value : ℝ)⌋ = -1 := by
      rw [Int.floor_eq_iff]
      norm_num [Number.exact]
    unfold power
    rw [floor]
    simp [Number.exact]
  rw [eval_arithmetic rfl]
  simp only [numbers_cons, numbers_nil, eval_num]
  constructor
  · rintro ⟨_, ⟨number, _, isNumber, ⟨exponent, _, isExponent, rfl, rfl⟩, rfl⟩, defined⟩
    cases isExponent
    change (power number _).map _ = _ at defined
    rw [inverse] at defined
    split at defined
    next => cases defined
    next nonzero => exact ⟨number, isNumber, nonzero, (Option.some_inj.mp defined).symm⟩
  · rintro ⟨number, isNumber, nonzero, rfl⟩
    refine ⟨_, ⟨number, _, isNumber, ⟨_, _, rfl, rfl, rfl⟩, rfl⟩, ?_⟩
    change (power number _).map _ = _
    rw [inverse, if_neg nonzero]
    rfl

/-- A bound on a natural number can be tightened to an integer. -/
theorem tightenIntegerBound_keeps (op : RelOp) (lhs rhs : Expr) :
    Refines (eval point (node (.rel op) [lhs, rhs]))
      (eval point (tightenIntegerBound sympy op lhs rhs)) := by
  have unchanged := sympy.build_keeps (.rel op) [lhs, rhs] point
  unfold tightenIntegerBound
  split
  next symbol bound =>
    have tightened : ∀ (op' : RelOp) (bound' : ℤ),
        (op.holds (point.value symbol) bound.value ↔ op'.holds (point.value symbol) bound') →
        Refines (eval point (node (.rel op) [sym symbol, num bound]))
          (eval point (sympy.build (.rel op') [sym symbol, num (.exact bound')])) := by
      intro op' bound' same
      refine Refines.trans (refines_rel fun first second isFirst isSecond => ?_)
        (sympy.build_keeps _ _ point)
      rw [eval_sym] at isFirst
      rw [eval_num] at isSecond
      cases isFirst
      cases isSecond
      exact ⟨_, _, eval_sym _ _, eval_num _ _, by simpa [Number.exact] using same⟩
    split
    next isInteger =>
      set value : ℤ := (point.value symbol : ℤ)
      have asReal : (point.value symbol : ℝ) = ((value : ℚ) : ℝ) := by simp [value]
      split
      next =>
        have strict : (point.value symbol : ℝ) < bound.value ↔
            (point.value symbol : ℝ) ≤ (⌈bound.value⌉ - 1 : ℤ) := by
          rw [asReal, Rat.cast_lt, ← Int.lt_ceil, Rat.cast_intCast, Int.cast_le]
          omega
        simpa using tightened .le (⌈bound.value⌉ - 1) strict
      next =>
        have strict : (bound.value : ℝ) < point.value symbol ↔
            ((⌊bound.value⌋ + 1 : ℤ) : ℝ) ≤ point.value symbol := by
          rw [asReal, Rat.cast_lt, ← Int.floor_lt, Rat.cast_intCast, Int.cast_le]
          omega
        simpa using tightened .ge (⌊bound.value⌋ + 1) strict
      next =>
        have below : (point.value symbol : ℝ) ≤ bound.value ↔
            (point.value symbol : ℝ) ≤ (⌊bound.value⌋ : ℤ) := by
          rw [asReal, Rat.cast_le, ← Int.le_floor, Rat.cast_intCast, Int.cast_le]
        exact tightened .le ⌊bound.value⌋ below
      next =>
        have above : (bound.value : ℝ) ≤ point.value symbol ↔
            ((⌈bound.value⌉ : ℤ) : ℝ) ≤ point.value symbol := by
          rw [asReal, Rat.cast_le, ← Int.ceil_le, Rat.cast_intCast, Int.cast_le]
        exact tightened .ge ⌈bound.value⌉ above
      next => exact unchanged
    next => exact unchanged
  next => exact unchanged

/-- Turned over, a relation holds between the reciprocals. -/
theorem invRelOp_holds {op turned : RelOp} (isTurned : invRelOp op = some turned) {value bound : ℝ}
    (valuePos : 0 < value) (boundPos : 0 < bound) :
    op.holds value⁻¹ bound ↔ turned.holds value bound⁻¹ := by
  cases op with
  | eq =>
      cases isTurned
      exact inv_eq_iff_eq_inv
  | ge =>
      cases isTurned
      exact le_inv_comm₀ boundPos valuePos
  | le =>
      cases isTurned
      exact inv_le_comm₀ valuePos boundPos
  | gt =>
      cases isTurned
      exact lt_inv_comm₀ boundPos valuePos
  | lt =>
      cases isTurned
      exact inv_lt_comm₀ valuePos boundPos
  | ne => cases isTurned

/-- The right-hand side of a reciprocal condition is positive. -/
def PositiveBound (point : Point) (cond : Expr) : Prop :=
  ∀ op base rhs, asReciprocal cond = some (op, base, rhs) →
    ∀ value, eval point rhs = some (.number value) → 0 < value

theorem asReciprocal_eq {cond rhs : Expr} {op : RelOp} {base : Symbol}
    (isReciprocal : asReciprocal cond = some (op, base, rhs)) :
    cond = node (.rel op) [node .pow [sym base, num (.exact (-1))], rhs] := by
  unfold asReciprocal at isReciprocal
  split at isReciprocal
  next =>
    rw [Option.ite_none_right_eq_some] at isReciprocal
    obtain ⟨⟨rfl, -⟩, same⟩ := isReciprocal
    cases same
    rfl
  next => cases isReciprocal

/-- A condition on `1/x` is turned over to one on `x`. -/
theorem turned_keeps {op turned : RelOp} (isTurned : invRelOp op = some turned) {base : Symbol}
    {rhs : Expr} (positive : ∀ value, eval point rhs = some (.number value) → 0 < value) :
    Refines (eval point (node (.rel op) [node .pow [sym base, num (.exact (-1))], rhs]))
      (eval point (tightenIntegerBound sympy turned
        (reciprocal sympy (node .pow [sym base, num (.exact (-1))])) (reciprocal sympy rhs))) := by
  refine Refines.trans (refines_rel fun first second isFirst isSecond => ?_)
    (tightenIntegerBound_keeps turned _ _)
  obtain ⟨value, isValue, nonzero, same⟩ := eval_reciprocal.1 isFirst
  cases same
  rw [eval_sym] at isValue
  cases isValue
  have valuePos : (0 : ℝ) < point.value base := lt_of_le_of_ne (Nat.cast_nonneg _) nonzero.symm
  have boundPos := positive second isSecond
  have turnedLeft := eval_reciprocal.2 ⟨_, isFirst, inv_ne_zero nonzero, rfl⟩
  have turnedRight := eval_reciprocal.2 ⟨second, isSecond, boundPos.ne', rfl⟩
  refine ⟨_, _, (sympy.build_keeps .pow _ point).number_eq turnedLeft,
    (sympy.build_keeps .pow _ point).number_eq turnedRight, ?_⟩
  rw [inv_inv]
  exact invRelOp_holds isTurned valuePos boundPos

/-- A branch on `Ne(1/x, ...)`. -/
def IsReciprocalNe (branch : Expr) : Prop :=
  ∃ value cond base rhs, branch = node .pair [value, cond] ∧ asReciprocal cond = some (.ne, base, rhs)

/-- The bounds of the reciprocal conditions are positive. -/
def PositiveBounds (point : Point) (branches : List Expr) : Prop :=
  ∀ value cond, node .pair [value, cond] ∈ branches → PositiveBound point cond

/-- What became of a branch: its value is as before, and its condition is as true as before. -/
def SameBranch (point : Point) (before after : Expr) : Prop :=
  before = after ∨ ∃ value cond cond', before = node .pair [value, cond] ∧
    after = node .pair [value, cond'] ∧ Refines (eval point cond) (eval point cond')

theorem SameBranch.refines {before after : Expr} (same : SameBranch point before after) :
    Refines (eval point before) (eval point after) := by
  rcases same with rfl | ⟨value, cond, cond', rfl, rfl, kept⟩
  · exact .refl _
  · exact refines_node (.cons (.refl _) (.cons kept .nil)) .pair

theorem canonicalBranch_ok {branch : Expr} (turnedOver : ¬ IsReciprocalNe branch) :
    ∃ result, canonicalBranch sympy branch = .ok result ∧
      ∀ point, (∀ value cond, branch = node .pair [value, cond] → PositiveBound point cond) →
        SameBranch point branch result := by
  unfold canonicalBranch
  split
  next value cond =>
    cases isReciprocal : asReciprocal cond with
    | none => exact ⟨_, rfl, fun _ _ => .inl rfl⟩
    | some found =>
        obtain ⟨op, base, rhs⟩ := found
        cases isTurned : invRelOp op with
        | none =>
            cases op with
            | ne => exact absurd ⟨value, cond, base, rhs, rfl, isReciprocal⟩ turnedOver
            | _ => cases isTurned
        | some turned =>
            simp only [isTurned]
            refine ⟨_, rfl, fun point positive => .inr ⟨value, cond, _, rfl, rfl, ?_⟩⟩
            have boundPos := positive value cond rfl op base rhs isReciprocal
            rw [asReciprocal_eq isReciprocal]
            exact turned_keeps isTurned boundPos
  next => exact ⟨_, rfl, fun _ _ => .inl rfl⟩

theorem canonicalBranch_error {branch : Expr} (isNe : IsReciprocalNe branch) :
    canonicalBranch sympy branch = .error "KeyError: Unequality" := by
  obtain ⟨value, cond, base, rhs, rfl, isReciprocal⟩ := isNe
  simp [canonicalBranch, isReciprocal, invRelOp]

/-- The conditions can be turned over when none is a `Ne`. -/
theorem piecewiseCanonical_ok_iff (branches : List Expr) :
    (∃ args, piecewiseCanonical sympy (node .piecewise branches) =
        .ok (sympy.build .piecewise args) ∧
      ∀ point, PositiveBounds point branches → List.Forall₂ (SameBranch point) branches args ∧
        Refines (eval point (node .piecewise branches))
          (eval point (sympy.build .piecewise args))) ↔
      ∀ branch ∈ branches, ¬ IsReciprocalNe branch := by
  constructor
  · rintro ⟨args, result, -⟩ branch listed isNe
    obtain ⟨args', isArgs, -⟩ := bind_eq_ok_iff.mp result
    obtain ⟨_, -, became⟩ := exists_right_of_forall₂ (forall₂_of_mapM isArgs) listed
    rw [canonicalBranch_error isNe] at became
    cases became
  · intro turnedOver
    have each : ∀ branch ∈ branches, ∃ result, canonicalBranch sympy branch = .ok result ∧
        ∀ point, PositiveBounds point branches → SameBranch point branch result := by
      intro branch listed
      obtain ⟨result, isResult, same⟩ := canonicalBranch_ok (turnedOver branch listed)
      refine ⟨result, isResult, fun point positive => same point fun value cond isPair => ?_⟩
      exact positive value cond (isPair ▸ listed)
    obtain ⟨args, isArgs, same⟩ := exists_mapM each
    refine ⟨args, bind_eq_ok_iff.mpr ⟨args, isArgs, rfl⟩, fun point positive => ?_⟩
    have sameBranches := same.imp fun _ _ sameBranch => sameBranch point positive
    refine ⟨sameBranches, Refines.trans (refines_node ?_ .piecewise)
      (sympy.build_keeps .piecewise args point)⟩
    exact sameBranches.imp fun _ _ sameBranch => sameBranch.refines

end Conditions

end TorchSpyre.Scratchpad.CostExpr
