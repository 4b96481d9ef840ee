import TorchSpyre.Lib.CaseExpr

/-!
# Logs of minima and maxima

The log of a minimum or maximum is the minimum or maximum of the logs, also with a positive factor.
-/

namespace TorchSpyre.Scratchpad.CostExpr

open Lib Lib.CaseExpr Expr

variable (sympy : Sympy)

/-! ## Logs of minima -/

/-- `_log_min` -/
def logMin (expr : Expr) : Expr :=
  match expr with
  | node .log [node .mul [num coefficient, node func args]] =>
      if func.isMinMax then
        sympy.build func (args.map fun arg =>
          sympy.build .log [sympy.numeric (sympy.build .mul [arg, num coefficient])])
      else expr
  | node .log [node func args] =>
      if func.isMinMax then
        sympy.build func (args.map fun arg => sympy.build .log [sympy.numeric arg])
      else expr
  | _ => expr

variable {sympy}

/-! ## Logs keep their value -/

section Logs

variable {point : Point} {func : Func} {args : List Expr}

/-- Every argument that has a value has a positive one. -/
def PositiveArgs (point : Point) (args : List Expr) : Prop :=
  ∀ arg ∈ args, ∀ value, eval point arg = some (.number value) → 0 < value

/-- Logs of arguments, each evaluated numerically. -/
theorem refines_logs {raw built : Expr → Expr} (keeps : ∀ arg, Keeps (raw arg) (built arg)) :
    Refines (eval point (node func (args.map fun arg => node .log [raw arg])))
      (eval point (sympy.build func (args.map fun arg =>
        sympy.build .log [sympy.numeric (built arg)]))) := by
  refine Refines.trans (refines_node ?_ func) (sympy.build_keeps func _ point)
  rw [List.forall₂_map_left_iff, List.forall₂_map_right_iff, List.forall₂_same]
  intro arg _
  have kept := ((keeps arg).trans (sympy.numeric_keeps _)) point
  exact Refines.trans (refines_node (.cons kept .nil) .log) (sympy.build_keeps .log _ point)

theorem logMin_keeps (isMinMax : func.isMinMax = true) (positive : PositiveArgs point args) :
    Refines (eval point (node .log [node func args]))
      (eval point (logMin sympy (node .log [node func args]))) := by
  have rewritten : logMin sympy (node .log [node func args]) =
      sympy.build func (args.map fun arg => sympy.build .log [sympy.numeric arg]) := by
    cases func with
    | min => rfl
    | max => rfl
    | _ => cases isMinMax
  rw [rewritten]
  refine Refines.trans (.of_some fun value defined => ?_) (refines_logs fun arg => .refl arg)
  obtain ⟨number, isNumber, -, rfl⟩ := eval_log.mp defined
  have moves : ∀ arg ∈ args, ∀ value, eval point arg = some (.number value) →
      value ∈ Set.Ioi (0 : ℝ) ∧
        eval point (node .log [arg]) = some (.number (Real.log value)) := by
    intro arg listed value isValue
    have positiveArg := positive arg listed value isValue
    exact ⟨positiveArg, eval_log.mpr ⟨value, isValue, positiveArg, rfl⟩⟩
  obtain ⟨_, -, same, moved⟩ := eval_minMax_image Real.strictMonoOn_log.monotoneOn isMinMax moves
    isNumber
  cases same
  exact moved

theorem logMin_scaled_keeps {coefficient : Number} (coefficientPos : 0 < coefficient.value)
    (isMinMax : func.isMinMax = true) (positive : PositiveArgs point args) :
    Refines (eval point (node .log [node .mul [num coefficient, node func args]]))
      (eval point (logMin sympy (node .log [node .mul [num coefficient, node func args]]))) := by
  have rewritten : logMin sympy (node .log [node .mul [num coefficient, node func args]]) =
      sympy.build func (args.map fun arg =>
        sympy.build .log [sympy.numeric (sympy.build .mul [arg, num coefficient])]) :=
    if_pos isMinMax
  rw [rewritten]
  refine Refines.trans (.of_some fun value defined => ?_)
    (refines_logs fun arg => sympy.build_keeps .mul [arg, num coefficient])
  obtain ⟨product, isProduct, -, rfl⟩ := eval_log.mp defined
  obtain ⟨first, number, isFirst, isNumber, isValue⟩ := eval_mul_pair.mp isProduct
  rw [eval_num] at isFirst
  cases isFirst
  cases isValue
  have scalePos : (0 : ℝ) < coefficient.value := Rat.cast_pos.mpr coefficientPos
  have moves : ∀ arg ∈ args, ∀ value, eval point arg = some (.number value) →
      value ∈ Set.Ioi (0 : ℝ) ∧ eval point (node .log [node .mul [arg, num coefficient]]) =
        some (.number (Real.log (value * coefficient.value))) := by
    intro arg listed value isValue
    have positiveArg := positive arg listed value isValue
    refine ⟨positiveArg, eval_log.mpr ⟨value * coefficient.value, ?_, mul_pos positiveArg scalePos, rfl⟩⟩
    exact eval_mul_pair.mpr ⟨value, coefficient.value, isValue, eval_num _ _, rfl⟩
  have mono : MonotoneOn (fun value : ℝ => Real.log (value * coefficient.value)) (Set.Ioi 0) := by
    intro first firstPos second secondPos below
    exact Real.log_le_log (mul_pos firstPos scalePos) (mul_le_mul_of_nonneg_right below scalePos.le)
  obtain ⟨_, -, same, moved⟩ := eval_minMax_image mono isMinMax moves isNumber
  cases same
  rw [moved, mul_comm]

end Logs

end TorchSpyre.Scratchpad.CostExpr
