import TorchSpyre.Lib.CaseExpr

/-!
# Numbers pushed into minima and cases

A product that starts with a number has the number's size multiplied into its first minimum, maximum
or `piecewise`; the sign stays outside.  The products that come up inside are treated in the same
way, which ends because they are nested less deep.
-/

namespace TorchSpyre.Scratchpad.CostExpr

open Lib Lib.CaseExpr Expr

/-! ## The rewrite -/

/-- The first minimum, maximum or `piecewise` among the factors, with those before and after it. -/
def splitFactor : List Expr → Option (List Expr × (Func × List Expr) × List Expr)
  | [] => none
  | factor :: factors =>
      let later := (splitFactor factors).map fun found => (factor :: found.1, found.2)
      match factor with
      | node func args => if func.isCase then some ([], (func, args), factors) else later
      | _ => later

variable (sympy : Sympy)

/-- `apply`: a branch of a `piecewise` has its value multiplied. -/
def applyScaled (scaled : Expr → Expr) : Expr → Expr
  | node .pair (value :: conds) => node .pair (scaled value :: conds)
  | arg => scaled arg

/-- An argument times the size of the number, with the products that come up rewritten. -/
def scaleArg (inside : Expr → Expr) (m : Number) (arg : Expr) : Expr :=
  replace sympy .mul inside (sympy.build .mul [arg, num ⟨|m.value|, m.precision⟩])

/-- `_min_piecewise_expand` around the same rewrite of the products inside. -/
def expandProduct (inside : Expr → Expr) (expr : Expr) : Expr :=
  match expr with
  | node .mul (num m :: factors) =>
      match splitFactor factors with
      | none => expr
      | some (before, (func, args), after) =>
          let newArgs := args.map (applyScaled (scaleArg sympy inside m))
          sympy.build .mul
            [sympy.build .mul [sympy.build func newArgs, num (.exact (SignType.sign m.value))],
              sympy.build .mul (before ++ after)]
  | _ => expr

def expandNested : ℕ → Expr → Expr
  | 0, expr => expr
  | nesting + 1, expr => expandProduct sympy (expandNested nesting) expr

/-- `_min_piecewise_expand` -/
def minPiecewiseExpand (expr : Expr) : Expr := expandNested sympy (depth expr) expr

variable {sympy}

theorem splitFactor_eq {factors before after : List Expr} {func : Func} {args : List Expr}
    (split : splitFactor factors = some (before, (func, args), after)) :
    factors = before ++ node func args :: after ∧ func.isCase = true := by
  induction factors generalizing before with
  | nil => cases split
  | cons factor factors inductionHypothesis =>
      have later : (splitFactor factors).map (fun found => (factor :: found.1, found.2)) =
          some (before, (func, args), after) →
          factor :: factors = before ++ node func args :: after ∧ func.isCase = true := by
        intro found
        obtain ⟨⟨before', rest⟩, isLater, same⟩ := Option.map_eq_some_iff.mp found
        cases same
        obtain ⟨rfl, isCase⟩ := inductionHypothesis isLater
        exact ⟨rfl, isCase⟩
      unfold splitFactor at split
      split at split
      next func' args' =>
        split at split
        next isCase =>
          cases split
          exact ⟨rfl, isCase⟩
        next => exact later split
      next => exact later split

/-! ## The value of the product -/

section Value

variable {point : Point} {inside : Expr → Expr}

theorem eval_scaleArg (keeps : ∀ expr, Keeps expr (inside expr)) (m : Number) (arg : Expr)
    (value : ℝ) (isValue : eval point arg = some (.number value)) :
    eval point (scaleArg sympy inside m arg) = some (.number (value * (|m.value| : ℚ))) := by
  have product : eval point (node .mul [arg, num ⟨|m.value|, m.precision⟩]) =
      some (.number (value * (|m.value| : ℚ))) :=
    eval_mul_pair.mpr ⟨value, _, isValue, eval_num _ _, rfl⟩
  exact (replace_keeps keeps _ point).number_eq ((sympy.build_keeps .mul _ point).number_eq product)

/-- A factor that is not negative moves into the minimum, maximum or `piecewise`. -/
theorem eval_factor {scaled : Expr → Expr} {size : ℝ} (nonneg : 0 ≤ size)
    (isScaled : ∀ arg value, eval point arg = some (.number value) →
      eval point (scaled arg) = some (.number (value * size)))
    {func : Func} (isCase : func.isCase = true) {args : List Expr} {value : Value}
    (defined : eval point (node func args) = some value) :
    ∃ number, value = .number number ∧
      eval point (node func (args.map (applyScaled scaled))) = some (.number (number * size)) := by
  have unbranched : ∀ arg ∈ args, ∀ value, eval point arg = some (.number value) →
      value ∈ Set.univ ∧ eval point (applyScaled scaled arg) = some (.number (value * size)) := by
    intro arg _ value isValue
    refine ⟨Set.mem_univ _, ?_⟩
    unfold applyScaled
    split
    next => exact absurd isValue (eval_pair_ne_number _ _ _)
    next => exact isScaled arg value isValue
  have mono : MonotoneOn (fun value : ℝ => value * size) Set.univ :=
    fun first _ second _ below => mul_le_mul_of_nonneg_right below nonneg
  cases func with
  | min =>
      obtain ⟨number, -, isNumber, moved⟩ := eval_minMax_image mono rfl unbranched defined
      exact ⟨number, isNumber, moved⟩
  | max =>
      obtain ⟨number, -, isNumber, moved⟩ := eval_minMax_image mono rfl unbranched defined
      exact ⟨number, isNumber, moved⟩
  | piecewise =>
      have moves : ∀ arg ∈ args, ∀ value taken, eval point arg = some (.branch value taken) →
          ∃ value', eval point (applyScaled scaled arg) = some (.branch value' taken) ∧
            ∀ number, value = some number → value' = some (number * size) := by
        intro arg _ value taken isBranch
        obtain ⟨result, cond, rfl, isTruth, rfl⟩ := exists_pair_of_branch isBranch
        refine ⟨_, eval_pair isTruth (scaled result), fun number isNumber => ?_⟩
        obtain ⟨value, isValue, same⟩ := Option.bind_eq_some_iff.mp isNumber
        rw [(asNumber_eq_some_iff _ _).mp same] at isValue
        rw [isScaled result number isValue]
        rfl
      exact eval_piecewise_image moves defined
  | _ => cases isCase

theorem expandProduct_keeps (keeps : ∀ expr, Keeps expr (inside expr)) (expr : Expr) :
    Keeps expr (expandProduct sympy inside expr) := by
  intro point
  unfold expandProduct
  split
  next m factors =>
    split
    next => exact .refl _
    next before func args after split =>
      obtain ⟨rfl, isCase⟩ := splitFactor_eq split
      refine .of_some fun value defined => ?_
      obtain ⟨numbers, areNumbers, rfl⟩ := eval_mul.mp defined
      simp only [numbers_cons, numbers_append, eval_num] at areNumbers
      obtain ⟨_, _, ⟨⟩, ⟨first, _, areFirst, ⟨factor, second, isFactor, areSecond, rfl⟩, rfl⟩, rfl⟩ :=
        areNumbers
      obtain ⟨_, ⟨⟩, isMoved⟩ := eval_factor (Rat.cast_nonneg.mpr (abs_nonneg m.value))
        (@eval_scaleArg sympy point inside keeps m) isCase isFactor
      have signed := eval_mul_pair.mpr ⟨_, _, (sympy.build_keeps func _ point).number_eq isMoved,
        eval_num point (.exact (SignType.sign m.value)), rfl⟩
      have others := eval_mul.mpr ⟨first ++ second, numbers_append.mpr
        ⟨first, second, areFirst, areSecond, rfl⟩, rfl⟩
      have product := eval_mul_pair.mpr ⟨_, _, (sympy.build_keeps .mul _ point).number_eq signed,
        (sympy.build_keeps .mul _ point).number_eq others, rfl⟩
      rw [(sympy.build_keeps .mul _ point).number_eq product]
      have whole : ((|m.value| : ℚ) : ℝ) * (SignType.sign m.value : ℚ) = m.value := by
        rw [← Rat.cast_mul, abs_mul_sign]
      simp only [Number.exact, List.prod_append, List.prod_cons, Option.some_inj, Value.number.injEq]
      rw [mul_assoc factor, whole]
      ring
  next => exact .refl _

theorem expandNested_keeps (nesting : ℕ) (expr : Expr) :
    Keeps expr (expandNested sympy nesting expr) := by
  induction nesting generalizing expr with
  | zero => exact .refl expr
  | succ nesting inductionHypothesis => exact expandProduct_keeps inductionHypothesis expr

end Value

/-! ## The nesting bounds the recursion -/

section Nesting

variable {inside inside' : Expr → Expr}

theorem depth_scaleArg (flat : ∀ expr, depth (inside expr) ≤ depth expr) (m : Number) (arg : Expr) :
    depth (scaleArg sympy inside m arg) ≤ depth arg := by
  refine (depth_replace flat _).trans ((sympy.build_depth .mul _).trans ?_)
  simp [depth, depthAll, Func.isCase]

theorem depth_applyScaled {scaled : Expr → Expr} (flat : ∀ arg, depth (scaled arg) ≤ depth arg)
    (arg : Expr) : depth (applyScaled scaled arg) ≤ depth arg := by
  unfold applyScaled
  split
  next value conds =>
    apply depth_node_mono
    exact max_le_max_right _ (flat value)
  next => exact flat arg

theorem depthAll_append (args args' : List Expr) :
    depthAll (args ++ args') = max (depthAll args) (depthAll args') := by
  induction args with
  | nil => simp [depthAll]
  | cons arg args inductionHypothesis => rw [List.cons_append, depthAll, depthAll, inductionHypothesis, max_assoc]

theorem depth_build_mul (args : List Expr) : depth (sympy.build .mul args) ≤ depthAll args := by
  simpa [depth, Func.isCase] using sympy.build_depth .mul args

/-- A product nests as deep as its factors. -/
theorem depth_product (m : Number) (before after : List Expr) (factor : Expr) :
    depth (node .mul (num m :: (before ++ factor :: after))) =
      max (depthAll before) (max (depth factor) (depthAll after)) := by
  simp [depth, depthAll, depthAll_append, Func.isCase]

theorem depth_expandProduct (flat : ∀ expr, depth (inside expr) ≤ depth expr) (expr : Expr) :
    depth (expandProduct sympy inside expr) ≤ depth expr := by
  unfold expandProduct
  split
  next m factors =>
    split
    next => exact le_rfl
    next before func args after split =>
      obtain ⟨rfl, -⟩ := splitFactor_eq split
      have newFactor : depth (sympy.build func (args.map (applyScaled (scaleArg sympy inside m)))) ≤
          depth (node func args) := by
        refine (sympy.build_depth func _).trans (depth_node_mono func ?_)
        rw [depthAll_le_iff, List.forall_mem_map]
        intro arg listed
        exact (depth_applyScaled (depth_scaleArg flat m) arg).trans
          (depthAll_le_iff.mp le_rfl arg listed)
      have others : depth (sympy.build .mul (before ++ after)) ≤ max (depthAll before) (depthAll after) := by
        rw [← depthAll_append]
        exact depth_build_mul _
      have signed : depth (sympy.build .mul
          [sympy.build func (args.map (applyScaled (scaleArg sympy inside m))),
            num (.exact (SignType.sign m.value))]) ≤ depth (node func args) :=
        (depth_build_mul _).trans (by simpa [depthAll] using newFactor)
      rw [depth_product]
      refine (depth_build_mul _).trans ?_
      simp only [depthAll, Nat.max_zero]
      omega
  next => exact le_rfl

theorem expandNested_depth (nesting : ℕ) (expr : Expr) :
    depth (expandNested sympy nesting expr) ≤ depth expr := by
  induction nesting generalizing expr with
  | zero => exact le_rfl
  | succ nesting inductionHypothesis => exact depth_expandProduct inductionHypothesis expr

theorem depth_lt_of_factor {m : Number} {before after : List Expr} {func : Func}
    (isCase : func.isCase = true) {args : List Expr} {arg : Expr} (listed : arg ∈ args) :
    depth arg < depth (node .mul (num m :: (before ++ node func args :: after))) := by
  have below := @depth_arg_le func _ _ listed
  rw [if_pos isCase] at below
  rw [depth_product]
  omega

theorem applyScaled_congr {scaled scaled' : Expr → Expr} {arg : Expr}
    (same : ∀ other, depth other ≤ depth arg → scaled other = scaled' other) :
    applyScaled scaled arg = applyScaled scaled' arg := by
  unfold applyScaled
  split
  next value conds =>
    have below : depth value ≤ depth (node .pair (value :: conds)) :=
      (Nat.le_add_left _ _).trans (depth_arg_le List.mem_cons_self)
    rw [same value below]
  next => exact same arg le_rfl

/-- Rewrites that agree on what is nested less deep give the same product. -/
theorem expandProduct_congr (flat : ∀ expr, depth (inside expr) ≤ depth expr) {expr : Expr}
    (same : ∀ other, depth other < depth expr → inside other = inside' other) :
    expandProduct sympy inside expr = expandProduct sympy inside' expr := by
  unfold expandProduct
  split
  next m factors =>
    split
    next => rfl
    next before func args after split =>
      obtain ⟨rfl, isCase⟩ := splitFactor_eq split
      have sameArgs : args.map (applyScaled (scaleArg sympy inside m)) =
          args.map (applyScaled (scaleArg sympy inside' m)) := by
        refine List.map_congr_left fun arg listed => applyScaled_congr fun other shallow => ?_
        have below := @depth_lt_of_factor m before after _ isCase _ _ listed
        have product : depth (sympy.build .mul [other, num ⟨|m.value|, m.precision⟩]) ≤ depth arg :=
          ((depth_build_mul _).trans (by simp [depthAll])).trans shallow
        exact replace_congr flat (fun nested inner => same nested (inner.trans_lt below)) product
      rw [sameArgs]
  next => rfl

theorem expandProduct_eq_self {expr : Expr} (unnested : depth expr = 0) :
    expandProduct sympy inside expr = expr := by
  unfold expandProduct
  split
  next m factors =>
    split
    next => rfl
    next before func args after split =>
      obtain ⟨rfl, isCase⟩ := splitFactor_eq split
      rw [depth_product, depth, if_pos isCase] at unnested
      omega
  next => rfl

theorem expandNested_eq_expandNested {nesting nesting' : ℕ} {expr : Expr}
    (enough : depth expr ≤ nesting) (enough' : depth expr ≤ nesting') :
    expandNested sympy nesting expr = expandNested sympy nesting' expr := by
  induction nesting generalizing nesting' expr with
  | zero =>
      cases nesting' with
      | zero => rfl
      | succ nesting' => exact (expandProduct_eq_self (Nat.le_zero.mp enough)).symm
  | succ nesting inductionHypothesis =>
      cases nesting' with
      | zero => exact expandProduct_eq_self (Nat.le_zero.mp enough')
      | succ nesting' =>
          refine expandProduct_congr (expandNested_depth nesting) fun other below => ?_
          exact inductionHypothesis (by omega) (by omega)

/-- `_min_piecewise_expand` calls itself on the products inside. -/
theorem minPiecewiseExpand_eq (expr : Expr) :
    minPiecewiseExpand sympy expr = expandProduct sympy (minPiecewiseExpand sympy) expr := by
  have once : minPiecewiseExpand sympy expr =
      expandProduct sympy (expandNested sympy (depth expr)) expr :=
    @expandNested_eq_expandNested _ _ (depth expr + 1) _ le_rfl (Nat.le_succ _)
  rw [once]
  refine expandProduct_congr (expandNested_depth _) fun other below => ?_
  exact expandNested_eq_expandNested below.le le_rfl

end Nesting

end TorchSpyre.Scratchpad.CostExpr
