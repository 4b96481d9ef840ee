import Mathlib
import TorchSpyre.Lib.Symbolic

/-!
# SymPy on affine expressions

An instance of `Sympy` that rewrites affine expressions as SymPy does, and leaves
every other expression alone.  Floors of affine expressions with integer
coefficients are dropped by `simplify`.
-/

namespace Lib.Symbolic

namespace Expr

def isAffine : Expr → Bool
  | const _ => true
  | sym _ => true
  | add left right => left.isAffine && right.isAffine
  | mul (const _) right => right.isAffine
  | _ => false

def constantTerm : Expr → ℚ
  | const value => value
  | add left right => left.constantTerm + right.constantTerm
  | mul (const factor) right => factor * right.constantTerm
  | _ => 0

def coefficientOf (name : Symbol) : Expr → ℚ
  | sym other => if other = name then 1 else 0
  | add left right => left.coefficientOf name + right.coefficientOf name
  | mul (const factor) right => factor * right.coefficientOf name
  | _ => 0

theorem eval_of_isAffine {expr : Expr} (affine : expr.isAffine = true) {names : Finset Symbol}
    (covers : ∀ name ∈ expr.occurrences, name ∈ names) (point : Point) :
    expr.eval point =
      expr.constantTerm + ∑ name ∈ names, expr.coefficientOf name * (point name : ℚ) := by
  induction expr with
  | const value => simp [eval, constantTerm, coefficientOf]
  | sym name =>
      have member : name ∈ names := covers name (by simp [occurrences])
      simp [eval, constantTerm, coefficientOf, member]
  | add left right leftHypothesis rightHypothesis =>
      simp only [isAffine, Bool.and_eq_true] at affine
      simp only [occurrences, List.mem_append] at covers
      simp only [eval, constantTerm, coefficientOf, add_mul, Finset.sum_add_distrib]
      rw [leftHypothesis affine.1 fun name found => covers name (Or.inl found),
        rightHypothesis affine.2 fun name found => covers name (Or.inr found)]
      ring
  | mul left right leftHypothesis rightHypothesis =>
      cases left with
      | const factor =>
          simp only [isAffine] at affine
          simp only [occurrences, List.nil_append] at covers
          simp only [eval, constantTerm, coefficientOf, mul_assoc, ← Finset.mul_sum]
          rw [rightHypothesis affine covers, mul_add]
      | _ => cases affine
  | floor arg _ => cases affine
  | floorDiv arg divisor _ => cases affine
  | mod arg modulus _ => cases affine

/-- The terms of an affine expression in the order of its symbols, then the constant. -/
def affineTerms (expr : Expr) : List Expr :=
  (expr.freeSymbols.filterMap fun name =>
    let coefficient := expr.coefficientOf name
    if coefficient = 0 then none
    else if coefficient = 1 then some (sym name)
    else some (mul (const coefficient) (sym name))) ++
  if expr.constantTerm = 0 then [] else [const expr.constantTerm]

def sumOf : List Expr → Expr
  | [] => const 0
  | [term] => term
  | term :: terms => add term (sumOf terms)

def affineNormal (expr : Expr) : Expr :=
  if expr.isAffine then sumOf expr.affineTerms else expr

theorem eval_sumOf (terms : List Expr) (point : Point) :
    (sumOf terms).eval point = (terms.map (eval point)).sum := by
  induction terms with
  | nil => rfl
  | cons term terms inductionHypothesis =>
      cases terms with
      | nil => simp [sumOf]
      | cons next terms =>
          rw [List.map_cons, List.sum_cons, ← inductionHypothesis]
          rfl

theorem sum_affineTerms (expr : Expr) (names : List Symbol) (point : Point) :
    ((names.filterMap fun name =>
      if expr.coefficientOf name = 0 then none
      else if expr.coefficientOf name = 1 then some (sym name)
      else some (mul (const (expr.coefficientOf name)) (sym name))).map (eval point)).sum =
      (names.map fun name => expr.coefficientOf name * (point name : ℚ)).sum := by
  induction names with
  | nil => rfl
  | cons name names inductionHypothesis =>
      rw [List.filterMap_cons, List.map_cons, List.sum_cons, ← inductionHypothesis]
      by_cases zero : expr.coefficientOf name = 0
      · simp [zero]
      · by_cases one : expr.coefficientOf name = 1
        · simp [one, eval]
        · simp [zero, one, eval]

theorem eval_affineNormal (expr : Expr) (point : Point) :
    expr.affineNormal.eval point = expr.eval point := by
  unfold affineNormal
  split
  next affine =>
    have total := sum_affineTerms expr expr.freeSymbols point
    have covers : ∀ name ∈ expr.occurrences, name ∈ expr.freeSymbols.toFinset := by
      intro name found
      rw [List.mem_toFinset, mem_freeSymbols]
      exact found
    have distinct : expr.freeSymbols.Nodup := List.nodup_dedup _
    rw [eval_of_isAffine affine covers, List.sum_toFinset _ distinct, eval_sumOf,
      affineTerms, List.map_append, List.sum_append, total, add_comm]
    congr 1
    split
    next zero => simp [zero]
    next => simp [eval]
  next => rfl

theorem mem_occurrences_sumOf {terms : List Expr} {name : Symbol}
    (found : name ∈ (sumOf terms).occurrences) : ∃ term ∈ terms, name ∈ term.occurrences := by
  induction terms with
  | nil => cases found
  | cons term terms inductionHypothesis =>
      cases terms with
      | nil => exact ⟨term, List.mem_singleton_self _, found⟩
      | cons next terms =>
          rcases List.mem_append.mp found with here | later
          · exact ⟨term, List.mem_cons_self, here⟩
          · obtain ⟨other, listed, inside⟩ := inductionHypothesis later
            exact ⟨other, List.mem_cons_of_mem _ listed, inside⟩

theorem mem_freeSymbols_of_affineNormal {expr : Expr} {name : Symbol}
    (found : name ∈ expr.affineNormal.freeSymbols) : name ∈ expr.freeSymbols := by
  unfold affineNormal at found
  split at found
  next =>
    obtain ⟨term, listed, inside⟩ := mem_occurrences_sumOf (mem_freeSymbols.mp found)
    rcases List.mem_append.mp listed with isTerm | isConstant
    · obtain ⟨symbol, free, built⟩ := List.mem_filterMap.mp isTerm
      dsimp only at built
      split_ifs at built
      · cases built
        obtain rfl := List.mem_singleton.mp inside
        exact free
      · cases built
        obtain rfl := List.mem_singleton.mp inside
        exact free
    · split at isConstant
      next => cases isConstant
      next =>
        obtain rfl := List.mem_singleton.mp isConstant
        cases inside
  next => exact found

/-! ## Floors -/

def isIntegral (expr : Expr) : Bool :=
  expr.isAffine && decide (expr.constantTerm.den = 1) &&
    expr.freeSymbols.all fun name => (expr.coefficientOf name).den = 1

theorem floor_eval_of_isIntegral {expr : Expr} (integral : expr.isIntegral = true) (point : Point) :
    (⌊expr.eval point⌋ : ℤ) = expr.eval point := by
  simp only [isIntegral, Bool.and_eq_true, decide_eq_true_eq, List.all_eq_true] at integral
  obtain ⟨⟨affine, constant⟩, coefficients⟩ := integral
  have covers : ∀ name ∈ expr.occurrences, name ∈ expr.freeSymbols.toFinset := by
    intro name found
    rw [List.mem_toFinset, mem_freeSymbols]
    exact found
  have whole : expr.eval point = ((expr.constantTerm.num + ∑ name ∈ expr.freeSymbols.toFinset,
      (expr.coefficientOf name).num * (point name : ℤ) : ℤ) : ℚ) := by
    rw [eval_of_isAffine affine covers]
    push_cast
    congr 1
    · exact (Rat.coe_int_num_of_den_eq_one constant).symm
    · apply Finset.sum_congr rfl
      intro name found
      rw [Rat.coe_int_num_of_den_eq_one (coefficients name (List.mem_toFinset.mp found))]
  rw [whole, Int.floor_intCast]

def dropFloors : Expr → Expr
  | const value => const value
  | sym name => sym name
  | add left right => add left.dropFloors right.dropFloors
  | mul left right => mul left.dropFloors right.dropFloors
  | floor arg => if arg.dropFloors.isIntegral then arg.dropFloors else floor arg.dropFloors
  | floorDiv arg divisor => floorDiv arg.dropFloors divisor
  | mod arg modulus => mod arg.dropFloors modulus

theorem eval_dropFloors (expr : Expr) (point : Point) :
    expr.dropFloors.eval point = expr.eval point := by
  induction expr with
  | const value => rfl
  | sym name => rfl
  | add left right leftHypothesis rightHypothesis =>
      simp only [dropFloors, eval, leftHypothesis, rightHypothesis]
  | mul left right leftHypothesis rightHypothesis =>
      simp only [dropFloors, eval, leftHypothesis, rightHypothesis]
  | floor arg inductionHypothesis =>
      simp only [dropFloors]
      split
      next integral =>
        rw [← floor_eval_of_isIntegral integral, inductionHypothesis]
        rfl
      next => simp only [eval, inductionHypothesis]
  | floorDiv arg divisor inductionHypothesis => simp only [dropFloors, eval, inductionHypothesis]
  | mod arg modulus inductionHypothesis => simp only [dropFloors, eval, inductionHypothesis]

end Expr

def affineSympy : Sympy where
  auto := Expr.affineNormal
  expand := Expr.affineNormal
  simplify expr := expr.dropFloors.affineNormal
  together expr := expr
  asNumerDenom expr := (expr, .const 1)
  coeff expr name := .const (expr.coefficientOf name)
  auto_eval := Expr.eval_affineNormal
  expand_eval := Expr.eval_affineNormal
  simplify_eval expr point := by rw [Expr.eval_affineNormal, Expr.eval_dropFloors]
  together_eval _ _ := rfl
  asNumerDenom_eval expr point := by simp [Expr.eval]

end Lib.Symbolic
