import TorchSpyre.Lib.CaseExpr
import TorchSpyre.Lib.Outcome
import TorchSpyre.Scratchpad.CostExpr.InvScale

/-!
# Products of reciprocals

Three or more reciprocal symbols in a product become one, when their product is tabulated.  The
coefficient divides by the scale of every symbol, and is corrected to divide by the product's.
-/

namespace TorchSpyre.Scratchpad.CostExpr

open Lib Lib.CaseExpr Expr

/-! ## The rewrite -/

/-- `name[4:]` -/
def stem (name : String) : String := String.ofList (name.toList.drop 4)

def invSymbol (expr : Expr) : Option Symbol :=
  match expr with
  | sym symbol => if "inv_".toList.isPrefixOf symbol.name.toList then some symbol else none
  | _ => none

def productName (symbols : List Symbol) : String :=
  "_product_" ++ "_".intercalate
    ((symbols.map fun symbol => stem symbol.name).insertionSort (· ≤ ·))

def productSymbol (symbols : List Symbol) : Symbol :=
  { name := "inv_" ++ productName symbols, isInteger := true, sign := .nonnegative }

section Rewrite

variable (sympy : Sympy) (inSymMap : String → Bool) (rawValues : String → List ℤ)

/-- `_inv_scale`; `rawValues` are the candidate values that `_buffer_map` has for a name. -/
def invScaleOf (name : String) : Except InvScaleError ℤ := invScale (rawValues name)

/-- `math.prod` -/
def mathProd (args : List Expr) : Expr :=
  args.foldl (fun product arg => sympy.build .mul [product, arg]) (num (.exact 1))

/-- The `Mul` branch of `_inv_log_sym` -/
def mergeReciprocals (expr : Expr) : Except InvScaleError Expr :=
  match expr with
  | node .mul args =>
      let symbols := args.filterMap invSymbol
      if symbols.length ≤ 2 then .ok expr
      else if inSymMap (productName symbols) then do
        let scales ← symbols.mapM fun symbol => invScaleOf rawValues (stem symbol.name)
        let scale ← invScaleOf rawValues (productName symbols)
        let result := sympy.build .mul
          [sym (productSymbol symbols), num (.exact ((scales.prod : ℤ) / (scale : ℚ)))]
        return sympy.build .mul
          [result, mathProd sympy (args.filter fun arg => arg ∉ symbols.map sym)]
      else .ok expr
  | _ => .ok expr

/-- The symbol's value is the scale divided by the value that the plan has, without a rest. -/
def Tabulates (point : Point) (plan : String → ℕ) (symbol : Symbol) : Prop :=
  ∃ scale, invScaleOf rawValues (stem symbol.name) = .ok scale ∧
    (point.value symbol : ℤ) * plan (stem symbol.name) = scale

/-- All scales of a merge divide without a rest, and the product has the product of the values. -/
structure ExactScales (point : Point) (plan : String → ℕ) (symbols : List Symbol) : Prop where
  factors : ∀ symbol ∈ symbols, Tabulates rawValues point plan symbol
  merged : Tabulates rawValues point plan (productSymbol symbols)
  isProduct : plan (productName symbols) = (symbols.map fun symbol => plan (stem symbol.name)).prod

end Rewrite

/-! ## The value of the product -/

section Value

variable {sympy : Sympy} {inSymMap : String → Bool} {rawValues : String → List ℤ} {point : Point}

theorem invScale_ne_zero {raw : List ℤ} {scale : ℤ} (isScale : invScale raw = .ok scale) :
    scale ≠ 0 := by
  unfold invScale at isScale
  split at isScale
  next =>
    cases isScale
    decide
  next legal =>
    simp only [not_or, not_exists, not_and, not_lt] at legal
    have positive : ∀ value ∈ raw.map Int.toNat, 0 < value := by
      rw [List.forall_mem_map]
      intro value listed
      have atLeast := legal.2 value listed
      omega
    simp only at isScale
    split at isScale
    next =>
      cases isScale
      have lcmPos := foldl_lcm_pos positive Nat.one_pos
      omega
    next =>
      unfold sievedScale at isScale
      simp only at isScale
      split at isScale
      · cases isScale
      · split at isScale
        · cases isScale
        · split at isScale
          next => cases isScale
          next noZero =>
            split at isScale
            next => cases isScale
            next found isFound =>
              cases isScale
              exact fun isZero => noZero (isZero ▸ List.argmin_mem isFound)

theorem eq_sym_of_invSymbol {arg : Expr} {symbol : Symbol} (isSymbol : invSymbol arg = some symbol) :
    arg = sym symbol := by
  unfold invSymbol at isSymbol
  split at isSymbol
  next =>
    rw [Option.ite_none_right_eq_some, Option.some_inj] at isSymbol
    rw [isSymbol.2]
  next => cases isSymbol

theorem stem_productSymbol (symbols : List Symbol) :
    stem (productSymbol symbols).name = productName symbols := by
  simp [stem, productSymbol]

theorem eval_mathProd {args : List Expr} {numbers : List ℝ} (areNumbers : Numbers point args numbers) :
    eval point (mathProd sympy args) = some (.number numbers.prod) := by
  have running : ∀ product value, eval point product = some (.number value) →
      eval point (args.foldl (fun product arg => sympy.build .mul [product, arg]) product) =
        some (.number (value * numbers.prod)) := by
    induction areNumbers with
    | nil =>
        intro product value isValue
        simpa using isValue
    | @cons arg number args numbers isNumber _ inductionHypothesis =>
        intro product value isValue
        have step := eval_mul_pair.mpr ⟨_, _, isValue, isNumber, rfl⟩
        rw [List.foldl_cons, List.prod_cons, ← mul_assoc]
        exact inductionHypothesis _ _ ((sympy.build_keeps .mul _ point).number_eq step)
  simpa [mathProd, Number.exact] using running (num (.exact 1)) _ (eval_num point _)

/-- The factors that are reciprocals and the others. -/
theorem split_reciprocals {args : List Expr} {numbers : List ℝ} (areNumbers : Numbers point args numbers) :
    ∃ others, Numbers point (args.filter fun arg => (invSymbol arg).isNone) others ∧
      numbers.prod =
        ((args.filterMap invSymbol).map fun symbol => (point.value symbol : ℤ)).prod * others.prod := by
  induction areNumbers with
  | nil => exact ⟨[], .nil, by simp⟩
  | @cons arg number args numbers isNumber _ inductionHypothesis =>
      obtain ⟨others, areOthers, isProd⟩ := inductionHypothesis
      cases isSymbol : invSymbol arg with
      | none =>
          refine ⟨number :: others, ?_, ?_⟩
          · rw [List.filter_cons_of_pos (by simp [isSymbol])]
            exact .cons isNumber areOthers
          · rw [List.filterMap_cons_none isSymbol, List.prod_cons, List.prod_cons, isProd]
            ring
      | some symbol =>
          refine ⟨others, ?_, ?_⟩
          · rwa [List.filter_cons_of_neg (by simp [isSymbol])]
          · rw [List.filterMap_cons_some isSymbol, List.prod_cons, List.map_cons, List.prod_cons, isProd,
              Int.cast_mul]
            have isArg := eq_sym_of_invSymbol isSymbol
            rw [isArg, eval_sym] at isNumber
            cases isNumber
            rw [Int.cast_natCast]
            ring

theorem notMem_symbols_iff {args : List Expr} {arg : Expr} (listed : arg ∈ args) :
    arg ∉ (args.filterMap invSymbol).map sym ↔ (invSymbol arg).isNone := by
  rw [← not_iff_not, not_not, Option.isNone_iff_eq_none, ← ne_eq, Option.ne_none_iff_exists']
  simp only [List.mem_map, List.mem_filterMap]
  constructor
  · rintro ⟨symbol, ⟨arg', -, isSymbol⟩, rfl⟩
    rw [eq_sym_of_invSymbol isSymbol] at isSymbol
    exact ⟨symbol, isSymbol⟩
  · rintro ⟨symbol, isSymbol⟩
    exact ⟨symbol, ⟨arg, listed, isSymbol⟩, (eq_sym_of_invSymbol isSymbol).symm⟩

theorem exists_scales {plan : String → ℕ} {symbols : List Symbol}
    (tabulated : ∀ symbol ∈ symbols, Tabulates rawValues point plan symbol) :
    ∃ scales, symbols.mapM (fun symbol => invScaleOf rawValues (stem symbol.name)) = .ok scales ∧
      (symbols.map fun symbol => (point.value symbol : ℤ)).prod *
        ((symbols.map fun symbol => plan (stem symbol.name)).prod : ℕ) = scales.prod := by
  obtain ⟨scales, areScales, each⟩ := exists_mapM tabulated
  refine ⟨scales, areScales, ?_⟩
  clear tabulated areScales
  induction each with
  | nil => simp
  | cons isScale _ inductionHypothesis =>
      simp only [List.map_cons, List.prod_cons, Nat.cast_mul, ← isScale, ← inductionHypothesis]
      ring

/-- Merging keeps the value when the scales divide without a rest. -/
theorem mergeReciprocals_keeps {plan : String → ℕ} {args : List Expr}
    (exact : 2 < (args.filterMap invSymbol).length →
      inSymMap (productName (args.filterMap invSymbol)) →
      ExactScales rawValues point plan (args.filterMap invSymbol)) :
    ∃ result, mergeReciprocals sympy inSymMap rawValues (node .mul args) = .ok result ∧
      Refines (eval point (node .mul args)) (eval point result) := by
  unfold mergeReciprocals
  simp only
  split
  next => exact ⟨_, rfl, .refl _⟩
  next many =>
    split
    next inMap =>
      obtain ⟨factors, ⟨scale, isScale, isMerged⟩, isProduct⟩ := exact (by omega) inMap
      obtain ⟨scales, areScales, isProd⟩ := exists_scales factors
      rw [stem_productSymbol] at isScale isMerged
      refine ⟨_, bind_eq_ok_iff.mpr ⟨scales, areScales, bind_eq_ok_iff.mpr ⟨scale, isScale, rfl⟩⟩, ?_⟩
      refine .of_some fun value defined => ?_
      obtain ⟨numbers, areNumbers, rfl⟩ := eval_mul.mp defined
      obtain ⟨others, areOthers, isSplit⟩ := split_reciprocals areNumbers
      have kept : (args.filter fun arg => arg ∉ (args.filterMap invSymbol).map sym) =
          args.filter fun arg => (invSymbol arg).isNone :=
        List.filter_congr fun arg listed => by
          rw [← Bool.coe_iff_coe, decide_eq_true_eq]
          exact notMem_symbols_iff listed
      have merged := eval_mul_pair.mpr
        ⟨_, _, eval_sym point (productSymbol (args.filterMap invSymbol)),
          eval_num point (.exact ((scales.prod : ℤ) / (scale : ℚ))), rfl⟩
      have rest := @eval_mathProd sympy _ _ _ (kept ▸ areOthers)
      have product := eval_mul_pair.mpr
        ⟨_, _, (sympy.build_keeps .mul _ point).number_eq merged, rest, rfl⟩
      rw [(sympy.build_keeps .mul _ point).number_eq product, isSplit]
      have nonzero : (scale : ℝ) ≠ 0 := Int.cast_ne_zero.mpr (invScale_ne_zero isScale)
      have magnitude : (point.value (productSymbol (args.filterMap invSymbol)) : ℝ) *
          ((scales.prod : ℤ) / (scale : ℚ) : ℚ) =
          ((args.filterMap invSymbol).map fun symbol => (point.value symbol : ℤ)).prod := by
        rw [isProduct] at isMerged
        rw [Rat.cast_div, Rat.cast_intCast, Rat.cast_intCast, mul_div_assoc', div_eq_iff nonzero,
          ← isProd, ← isMerged]
        push_cast
        ring
      simp only [Number.exact, magnitude]
    next => exact ⟨_, rfl, .refl _⟩

end Value

end TorchSpyre.Scratchpad.CostExpr
