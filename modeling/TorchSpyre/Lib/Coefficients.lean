import TorchSpyre.Lib.Symbolic

/-!
# Coefficients of a sum

SymPy's `as_coeff_Add()[1].as_coefficients_dict()`: the terms of a sum without its
constants, each with its coefficient.
-/

namespace Lib.Symbolic.Expr

def isConstant : Expr → Bool
  | const _ => true
  | _ => false

/-- The addends of `as_coeff_Add()[1]`. -/
def variablePart (expr : Expr) : List Expr :=
  match expr.addends.filter fun addend => !addend.isConstant with
  | [] => [const 0]
  | addends => addends

def addCoefficient (term : Expr) (coefficient : ℚ) : List (Expr × ℚ) → List (Expr × ℚ)
  | [] => [(term, coefficient)]
  | entry :: entries =>
      if entry.1 = term then (term, entry.2 + coefficient) :: entries
      else entry :: addCoefficient term coefficient entries

def addAll (entries : List (Expr × ℚ)) (addends : List Expr) : List (Expr × ℚ) :=
  addends.foldl (fun entries addend => addCoefficient addend.asCoeffMul.2 addend.asCoeffMul.1 entries)
    entries

def asCoefficientsDict (addends : List Expr) : List (Expr × ℚ) := addAll [] addends

/-- `as_coeff_Add()[1].as_coefficients_dict()` -/
def coefficients (expr : Expr) : List (Expr × ℚ) := asCoefficientsDict expr.variablePart

theorem mem_keys_addCoefficient {term other : Expr} {coefficient : ℚ} {entries : List (Expr × ℚ)} :
    other ∈ (addCoefficient term coefficient entries).map Prod.fst ↔
      other = term ∨ other ∈ entries.map Prod.fst := by
  induction entries with
  | nil => simp [addCoefficient]
  | cons entry entries inductionHypothesis =>
      rw [addCoefficient]
      split
      next same => simp [same]
      next =>
        rw [List.map_cons, List.mem_cons, inductionHypothesis, List.map_cons, List.mem_cons]
        exact or_left_comm

theorem nodup_addCoefficient {term : Expr} {coefficient : ℚ} {entries : List (Expr × ℚ)}
    (distinct : (entries.map Prod.fst).Nodup) :
    ((addCoefficient term coefficient entries).map Prod.fst).Nodup := by
  induction entries with
  | nil => simp [addCoefficient]
  | cons entry entries inductionHypothesis =>
      rw [List.map_cons, List.nodup_cons] at distinct
      rw [addCoefficient]
      split
      next same =>
        rw [List.map_cons, List.nodup_cons]
        exact ⟨same ▸ distinct.1, distinct.2⟩
      next different =>
        rw [List.map_cons, List.nodup_cons, mem_keys_addCoefficient, not_or]
        exact ⟨⟨different, distinct.1⟩, inductionHypothesis distinct.2⟩

theorem nodup_addAll {entries : List (Expr × ℚ)} (distinct : (entries.map Prod.fst).Nodup)
    (addends : List Expr) : ((addAll entries addends).map Prod.fst).Nodup := by
  induction addends generalizing entries with
  | nil => exact distinct
  | cons addend addends inductionHypothesis =>
      exact inductionHypothesis (nodup_addCoefficient distinct)

theorem mem_keys_addAll {term : Expr} {entries : List (Expr × ℚ)} {addends : List Expr} :
    term ∈ (addAll entries addends).map Prod.fst ↔
      (∃ addend ∈ addends, term = addend.asCoeffMul.2) ∨ term ∈ entries.map Prod.fst := by
  induction addends generalizing entries with
  | nil => simp [addAll]
  | cons addend addends inductionHypothesis =>
      rw [List.exists_mem_cons_iff, or_assoc, or_left_comm, ← mem_keys_addCoefficient]
      exact inductionHypothesis

theorem sum_addCoefficient (term : Expr) (coefficient : ℚ) (entries : List (Expr × ℚ))
    (point : Point) :
    ((addCoefficient term coefficient entries).map fun entry => entry.2 * entry.1.eval point).sum =
      coefficient * term.eval point + (entries.map fun entry => entry.2 * entry.1.eval point).sum := by
  induction entries with
  | nil => rfl
  | cons entry entries inductionHypothesis =>
      rw [addCoefficient]
      split
      next same =>
        rw [List.map_cons, List.sum_cons, List.map_cons, List.sum_cons, same, add_mul]
        ring
      next =>
        rw [List.map_cons, List.sum_cons, inductionHypothesis, List.map_cons, List.sum_cons]
        ring

theorem sum_addAll (entries : List (Expr × ℚ)) (addends : List Expr) (point : Point) :
    ((addAll entries addends).map fun entry => entry.2 * entry.1.eval point).sum =
      (entries.map fun entry => entry.2 * entry.1.eval point).sum +
        (addends.map (eval point)).sum := by
  induction addends generalizing entries with
  | nil => simp [addAll]
  | cons addend addends inductionHypothesis =>
      have later := inductionHypothesis
        (addCoefficient addend.asCoeffMul.2 addend.asCoeffMul.1 entries)
      rw [sum_addCoefficient, ← eval_asCoeffMul] at later
      rw [List.map_cons, List.sum_cons, add_left_comm, ← add_assoc]
      exact later

theorem eval_of_isConstant {expr : Expr} (isConst : expr.isConstant = true) (first second : Point) :
    expr.eval first = expr.eval second := by
  unfold isConstant at isConst
  split at isConst
  next => rfl
  next => cases isConst

theorem sum_variablePart (expr : Expr) (point : Point) :
    (expr.variablePart.map (eval point)).sum =
      ((expr.addends.filter fun addend => !addend.isConstant).map (eval point)).sum := by
  unfold variablePart
  split
  next empty =>
    rw [empty]
    simp [eval]
  next => rfl

/-- The coefficients tell how the value moves. -/
theorem eval_sub_eval (expr : Expr) (first second : Point) :
    expr.eval first - expr.eval second =
      (expr.coefficients.map fun entry => entry.2 * entry.1.eval first).sum -
        (expr.coefficients.map fun entry => entry.2 * entry.1.eval second).sum := by
  have constants : ∀ addends : List Expr,
      (addends.map (eval first)).sum - (addends.map (eval second)).sum =
        ((addends.filter fun addend => !addend.isConstant).map (eval first)).sum -
          ((addends.filter fun addend => !addend.isConstant).map (eval second)).sum := by
    intro addends
    induction addends with
    | nil => rfl
    | cons addend addends inductionHypothesis =>
        simp only [List.map_cons, List.sum_cons, List.filter_cons]
        split
        next =>
          simp only [List.map_cons, List.sum_cons]
          linarith
        next isConst =>
          rw [eval_of_isConstant (by simpa using isConst) first second]
          linarith
  rw [coefficients, asCoefficientsDict, sum_addAll, sum_addAll, sum_variablePart, sum_variablePart,
    List.map_nil, List.map_nil, add_sub_add_left_eq_sub, ← constants, eval_addends, eval_addends]

theorem mem_occurrences_asCoeffMul {term : Expr} {name : Symbol}
    (inside : name ∈ term.occurrences) : name ∈ term.asCoeffMul.2.occurrences := by
  unfold asCoeffMul
  split
  next => simpa [occurrences] using inside
  next => cases inside
  next => exact inside

theorem nodup_coefficients (expr : Expr) : (expr.coefficients.map Prod.fst).Nodup :=
  @nodup_addAll [] List.nodup_nil _

/-- Every symbol stands in a term. -/
theorem exists_coefficient {expr : Expr} {name : Symbol} (free : name ∈ expr.freeSymbols) :
    ∃ entry ∈ expr.coefficients, name ∈ entry.1.occurrences := by
  obtain ⟨addend, listed, inside⟩ := exists_addend (mem_freeSymbols.mp free)
  have moving : addend ∈ expr.addends.filter fun addend => !addend.isConstant := by
    apply List.mem_filter.mpr
    refine ⟨listed, ?_⟩
    cases addend with
    | const value => cases inside
    | _ => rfl
  have isPart : addend ∈ expr.variablePart := by
    unfold variablePart
    split
    next empty =>
      rw [empty] at moving
      cases moving
    next => exact moving
  have isKey : addend.asCoeffMul.2 ∈ expr.coefficients.map Prod.fst :=
    mem_keys_addAll.2 (.inl ⟨addend, isPart, rfl⟩)
  obtain ⟨entry, isEntry, same⟩ := List.mem_map.mp isKey
  refine ⟨entry, isEntry, ?_⟩
  rw [same]
  exact mem_occurrences_asCoeffMul inside

theorem mem_occurrences_of_asCoeffMul {term : Expr} {name : Symbol}
    (inside : name ∈ term.asCoeffMul.2.occurrences) : name ∈ term.occurrences := by
  unfold asCoeffMul at inside
  split at inside
  next => exact List.mem_append_right _ inside
  next => cases inside
  next => exact inside

theorem mem_occurrences_of_addend {expr addend : Expr} {name : Symbol}
    (listed : addend ∈ expr.addends) (inside : name ∈ addend.occurrences) :
    name ∈ expr.occurrences := by
  induction expr with
  | add left right leftHypothesis rightHypothesis =>
      rcases List.mem_append.mp listed with inLeft | inRight
      · exact List.mem_append_left _ (leftHypothesis inLeft)
      · exact List.mem_append_right _ (rightHypothesis inRight)
  | _ =>
      obtain rfl := List.mem_singleton.mp listed
      exact inside

theorem mem_freeSymbols_of_coefficient {expr : Expr} {entry : Expr × ℚ} {name : Symbol}
    (listed : entry ∈ expr.coefficients) (inside : name ∈ entry.1.occurrences) :
    name ∈ expr.freeSymbols := by
  have isKey : entry.1 ∈ (addAll [] expr.variablePart).map Prod.fst := List.mem_map_of_mem listed
  rcases mem_keys_addAll.1 isKey with ⟨addend, isPart, same⟩ | none
  · rw [same] at inside
    have occurs := mem_occurrences_of_asCoeffMul inside
    unfold variablePart at isPart
    split at isPart
    next =>
      obtain rfl := List.mem_singleton.mp isPart
      cases occurs
    next =>
      exact mem_freeSymbols.mpr (mem_occurrences_of_addend (List.mem_filter.mp isPart).1 occurs)
  · cases none

end Lib.Symbolic.Expr
