import Mathlib
import TorchSpyre.Lib.Outcome
import TorchSpyre.Lib.Slice
import TorchSpyre.Lib.Symbolic

/-!
# Coordinate proofs for slice ownership

A device axis cut into equal slices is read through a coordinate in several
loops.  A projection finds the one loop whose partitions stay inside the slices
whatever the other loops do; a factorisation writes the axis as a product of
digits, each owned on its own.
-/

namespace TorchSpyre.Ownership

open Lib Lib.Symbolic

/-- The loops with their extents; only the extent of a pair entry is read. -/
abbrev IterationSpace := List (Symbol × Expr)

def IterationSpace.extent (space : IterationSpace) (loop : Symbol) : Option ℕ :=
  match (space.lookup loop).bind Expr.asInteger with
  | none => none
  | some extent => if 0 < extent then some extent.toNat else none

/-- The point lies in the iteration space, on every loop of concrete extent. -/
def IterationSpace.Contains (space : IterationSpace) (point : Point) : Prop :=
  ∀ loop extent, space.extent loop = some extent → point loop < extent

/-- The point of a loop where every other symbol is zero. -/
def line (loop : Symbol) (value : ℕ) : Point := fun name => if name = loop then value else 0

/-! ## Affine projection -/

structure AffineLoop where
  symbol : Symbol
  coefficient : ℤ
  extent : ℕ

def AffineLoop.span (loop : AffineLoop) : ℤ := loop.coefficient * (loop.extent - 1)

def zeroed (symbols : List Symbol) (expr : Expr) : Expr :=
  expr.subst fun name => if name ∈ symbols then .const 0 else .sym name

def coefficientSum (coefficients : List (Symbol × ℤ)) : Expr :=
  .sum (coefficients.map fun (name, coefficient) => .mul (.const coefficient) (.sym name))

/-- The origin and the integer coefficients of an affine expression, checked by expansion. -/
def affineForm (sympy : Sympy) (expr : Expr) (symbols : List Symbol) :
    Option (ℤ × List (Symbol × ℤ)) := do
  let origin ← (sympy.auto (zeroed symbols expr)).asInteger
  let coefficients ← symbols.mapM fun name =>
    (sympy.coeff expr name).asInteger.map (name, ·)
  if sympy.expand ((expr.sub (.const origin)).sub (coefficientSum coefficients)) = .const 0 then
    return (origin, coefficients)
  else none

/-- Every partition of the loop stays in its slice over the whole rectangle of the others. -/
def partitionsContained (origin : ℤ) (loops : List AffineLoop) (width split : ℕ)
    (loop : AffineLoop) : Bool :=
  let otherSpan :=
    ((loops.filter fun other => other.symbol ≠ loop.symbol).map AffineLoop.span).sum
  let loopWidth := loop.extent / split
  decide (loop.extent % split = 0) && (List.range split).all fun slot =>
    let low := origin + loop.coefficient * slot * loopWidth
    let high := low + loop.coefficient * (loopWidth - 1) + otherSpan
    (slot : ℤ) * width ≤ low ∧ low ≤ high ∧ high < ((slot : ℤ) + 1) * width

def projectAffineSliceAxis (sympy : Sympy) (coordinate : Expr) (deviceExtent split : ℕ)
    (space : IterationSpace) : Option (Symbol × Expr) :=
  let symbols := coordinate.freeSymbols
  if symbols.length < 2 ∨ ∃ name ∈ symbols, (space.lookup name).isNone then none
  else do
    let (origin, coefficients) ← affineForm sympy coordinate symbols
    if coefficients.any fun entry => entry.2 ≤ 0 then none
    else do
      let loops ← coefficients.mapM fun (name, coefficient) =>
        (space.extent name).map fun extent => ⟨name, coefficient, extent⟩
      match loops.filter (partitionsContained origin loops (deviceExtent / split) split) with
      | [loop] =>
          some (loop.symbol,
            sympy.auto (.add (.const origin) (.mul (.const loop.coefficient) (.sym loop.symbol))))
      | _ => none

/-! ## Floor-affine projection -/

def projectFloorAffineSliceAxis (sympy : Sympy) (coordinate : Expr) (deviceExtent split : ℕ)
    (space : IterationSpace) : Option (Symbol × Expr) :=
  match coordinate.floors.dedup with
  | [.floor arg] => do
      let integerPart := sympy.expand (coordinate.sub (.floor arg))
      let symbols := coordinate.freeSymbols
      let _ ← affineForm sympy integerPart symbols
      let (numerator, denominator) := sympy.asNumerDenom (sympy.together (.add integerPart arg))
      let divisor ← denominator.asInteger
      if divisor ≤ 0 then none
      else do
        let (loop, _) ← projectAffineSliceAxis sympy (sympy.expand numerator)
          (deviceExtent * divisor.toNat) split space
        return (loop, sympy.auto (zeroed (symbols.filter (· ≠ loop)) coordinate))
  | _ => none

/-- `project_slice_axis`: the certificates of `SLICE_OWNERSHIP_PROOFS` in order. -/
def projectSliceAxis (sympy : Sympy) (coordinate : Expr) (deviceExtent split : ℕ)
    (space : IterationSpace) (floorOnly : Bool) : Option (Symbol × Expr) :=
  (if floorOnly then none
    else projectAffineSliceAxis sympy coordinate deviceExtent split space).or
  (projectFloorAffineSliceAxis sympy coordinate deviceExtent split space)

/-! ## Factorisation into digits -/

/-- One term `coefficient * (loop // divisor)` of a mixed-radix coordinate. -/
structure AxisDigit where
  coefficient : ℕ
  digit : Expr
  radix : ℕ
  loop : Symbol
  divisor : ℕ
  deriving DecidableEq

/-- An axis of the expanded frame: size, coordinate, split and owner formula. -/
structure AxisFactor where
  radix : ℕ
  digit : Expr
  count : ℕ
  owner : Expr

/-- The loop and the divisor of a digit. -/
def digitLoop (sympy : Sympy) : Expr → Option (Symbol × ℤ)
  | .sym name => some (name, 1)
  | .floor arg =>
      match sympy.asNumerDenom arg with
      | (.sym name, denominator) => do
          let divisor ← denominator.asInteger
          if divisor ≤ 0 then none else some (name, divisor)
      | _ => none
  | _ => none

def axisDigit (sympy : Sympy) (space : IterationSpace) (term : Expr) : Option AxisDigit := do
  let (coefficient, digit) := term.asCoeffMul
  if coefficient.den ≠ 1 ∨ coefficient ≤ 0 then none
  else do
    let (loop, divisor) ← digitLoop sympy digit
    let extent ← space.extent loop
    if extent % divisor.toNat ≠ 0 ∨ extent / divisor.toNat ≤ 1 then none
    else
      return {
        coefficient := coefficient.num.toNat
        digit := digit
        radix := extent / divisor.toNat
        loop := loop
        divisor := divisor.toNat }

def factorDigits (sympy : Sympy) (slot : Expr) :
    ℕ → ℕ → List AxisDigit → Option (List AxisFactor)
  | stride, remaining, [] => if stride = 1 ∧ remaining = 1 then some [] else none
  | stride, remaining, digit :: digits =>
      if stride % digit.radix ≠ 0 ∨ digit.coefficient ≠ stride / digit.radix then none
      else
        let count := min digit.radix remaining
        if digit.radix % count ≠ 0 ∨ remaining % count ≠ 0 then none
        else do
          let rest := remaining / count
          let owner := sympy.auto
            (.mod (.floor (.mul (.const (1 / rest)) slot)) count.toPNat')
          let factors ← factorDigits sympy slot (stride / digit.radix) rest digits
          return ⟨digit.radix, digit.digit, count, owner⟩ :: factors

def factorSliceAxis (sympy : Sympy) (coordinate : Expr) (deviceExtent split : ℕ) (slot : Expr)
    (space : IterationSpace) : Option (List AxisFactor) := do
  let digits ← (sympy.expand coordinate).addends.mapM (axisDigit sympy space)
  let ordered := digits.mergeSort fun first second => second.coefficient ≤ first.coefficient
  if ¬ (digits.map AxisDigit.loop).Nodup then none
  else if digits.length < 2 ∨ 4 < digits.length then none
  else factorDigits sympy slot deviceExtent split ordered

/-! ## What a projection proves -/

theorem mapM_fst {α β : Type} {items : List α} {step : α → Option β} {entries : List (α × β)}
    (succeeds : (items.mapM fun item => (step item).map (item, ·)) = some entries) :
    entries.map Prod.fst = items := by
  have paired := forall₂_of_mapM_some succeeds
  clear succeeds
  induction paired with
  | nil => rfl
  | cons stepped _ inductionHypothesis =>
      obtain ⟨value, -, rfl⟩ := Option.map_eq_some_iff.mp stepped
      rw [List.map_cons, inductionHypothesis]

/-- The loop's partitions decide the slice, and the projected expression is the coordinate on the
line where the other loops are zero. -/
structure Projects (space : IterationSpace) (width : ℕ) (coordinate : Expr) (loop : Symbol)
    (projected : Expr) : Prop where
  onLine : ∀ point, projected.eval point = coordinate.eval (line loop (point loop))
  sliced : ∃ loopWidth : ℕ, ∀ point, space.Contains point → ∃ value : ℤ,
    coordinate.eval point = value ∧ InSlice width (point loop / loopWidth : ℕ) value

/-- Each of the equal partitions of the loop reads inside the slice of the same position. -/
def Partitioned (space : IterationSpace) (split width : ℕ) (coordinate : Expr) (loop : Symbol) :
    Prop :=
  ∃ extent, space.extent loop = some extent ∧ split ∣ extent ∧
    ∀ point, space.Contains point → ∃ value : ℤ, coordinate.eval point = value ∧
      InSlice width (point loop / (extent / split) : ℕ) value

theorem eval_coefficientSum (coefficients : List (Symbol × ℤ)) (point : Point) :
    (coefficientSum coefficients).eval point =
      (((coefficients.map fun entry => entry.2 * (point entry.1 : ℤ)).sum : ℤ) : ℚ) := by
  unfold coefficientSum
  rw [Expr.eval_sum]
  induction coefficients with
  | nil => rfl
  | cons entry coefficients inductionHypothesis =>
      simp only [List.map_cons, List.sum_cons, inductionHypothesis, Expr.eval]
      push_cast
      rfl

theorem affineForm_eval {sympy : Sympy} {expr : Expr} {symbols : List Symbol} {origin : ℤ}
    {coefficients : List (Symbol × ℤ)}
    (found : affineForm sympy expr symbols = some (origin, coefficients)) :
    coefficients.map Prod.fst = symbols ∧ ∀ point, expr.eval point =
      ((origin + (coefficients.map fun entry => entry.2 * (point entry.1 : ℤ)).sum : ℤ) : ℚ) := by
  simp only [affineForm, Option.bind_eq_bind, Option.bind_eq_some_iff] at found
  obtain ⟨start, -, entries, named, found⟩ := found
  split at found
  next vanishes =>
    cases found
    constructor
    · exact mapM_fst named
    · intro point
      have expanded := sympy.expand_eval
        ((expr.sub (.const origin)).sub (coefficientSum coefficients)) point
      rw [vanishes, Expr.eval_sub, Expr.eval_sub, eval_coefficientSum] at expanded
      simp only [Expr.eval] at expanded
      push_cast at expanded ⊢
      linarith
  next => cases found

theorem affineLoops_of_mapM {space : IterationSpace} {coefficients : List (Symbol × ℤ)}
    {loops : List AffineLoop}
    (succeeds : (coefficients.mapM fun (name, coefficient) =>
      (space.extent name).map fun extent => AffineLoop.mk name coefficient extent) = some loops) :
    (loops.map fun loop => (loop.symbol, loop.coefficient)) = coefficients ∧
      ∀ loop ∈ loops, space.extent loop.symbol = some loop.extent := by
  have paired := forall₂_of_mapM_some succeeds
  clear succeeds
  induction paired with
  | nil => exact ⟨rfl, fun loop found => nomatch found⟩
  | cons stepped _ inductionHypothesis =>
      obtain ⟨extent, concrete, rfl⟩ := Option.map_eq_some_iff.mp stepped
      obtain ⟨same, extents⟩ := inductionHypothesis
      constructor
      · rw [List.map_cons, same]
      · rintro loop (_ | ⟨_, found⟩)
        · exact concrete
        · exact extents loop found

theorem sum_eq_loop_add_others {loops : List AffineLoop} {loop : AffineLoop}
    (distinct : (loops.map AffineLoop.symbol).Nodup) (listed : loop ∈ loops)
    (value : AffineLoop → ℤ) :
    (loops.map value).sum =
      value loop + ((loops.filter fun other => other.symbol ≠ loop.symbol).map value).sum := by
  induction loops with
  | nil => cases listed
  | cons head loops inductionHypothesis =>
      rw [List.map_cons, List.nodup_cons] at distinct
      by_cases same : head.symbol = loop.symbol
      · have others : loops.filter (fun other => other.symbol ≠ loop.symbol) = loops := by
          apply List.filter_eq_self.mpr
          intro other found
          rw [decide_eq_true_eq, ← same]
          intro clash
          exact distinct.1 (clash ▸ List.mem_map_of_mem found)
        have isHead : loop = head := by
          cases listed with
          | head => rfl
          | tail _ found => exact absurd (same ▸ List.mem_map_of_mem found) distinct.1
        rw [List.filter_cons_of_neg (by simpa using same), others, isHead, List.map_cons,
          List.sum_cons]
      · have inTail : loop ∈ loops := by
          cases listed with
          | head => exact absurd rfl same
          | tail _ found => exact found
        rw [List.filter_cons_of_pos (by simpa using same), List.map_cons, List.map_cons,
          List.sum_cons, List.sum_cons, inductionHypothesis distinct.2 inTail]
        ring

theorem sum_between_zero_and_span {loops : List AffineLoop} {point : Point}
    (rising : ∀ loop ∈ loops, 0 < loop.coefficient)
    (inside : ∀ loop ∈ loops, point loop.symbol < loop.extent) :
    0 ≤ (loops.map fun loop => loop.coefficient * (point loop.symbol : ℤ)).sum ∧
      (loops.map fun loop => loop.coefficient * (point loop.symbol : ℤ)).sum ≤
        (loops.map AffineLoop.span).sum := by
  constructor
  · apply List.sum_nonneg
    intro term found
    obtain ⟨loop, listed, rfl⟩ := List.mem_map.mp found
    exact mul_nonneg (rising loop listed).le (Int.natCast_nonneg _)
  · apply List.sum_le_sum
    intro loop listed
    apply mul_le_mul_of_nonneg_left _ (rising loop listed).le
    have below := inside loop listed
    omega

/-- A value between the bounds of its partition lies in the slice of the partition. -/
theorem inSlice_of_partitionsContained {origin : ℤ} {loops : List AffineLoop} {width split : ℕ}
    {loop : AffineLoop} (contained : partitionsContained origin loops width split loop = true)
    (positive : 0 < loop.coefficient) {value : ℕ} (inside : value < loop.extent) {others : ℤ}
    (above : 0 ≤ others)
    (below : others ≤
      ((loops.filter fun other => other.symbol ≠ loop.symbol).map AffineLoop.span).sum) :
    InSlice width (value / (loop.extent / split) : ℕ)
      (origin + (loop.coefficient * value + others)) := by
  simp only [partitionsContained, Bool.and_eq_true, decide_eq_true_eq, List.all_eq_true,
    List.mem_range] at contained
  obtain ⟨divides, contained⟩ := contained
  have exact_ : split * (loop.extent / split) = loop.extent :=
    Nat.mul_div_cancel' (Nat.dvd_of_mod_eq_zero divides)
  have slotBelow : value / (loop.extent / split) < split := by
    apply Nat.div_lt_of_lt_mul
    rw [mul_comm, exact_]
    exact inside
  obtain ⟨lower, -, upper⟩ := contained _ slotBelow
  generalize loop.extent / split = loopWidth at *
  generalize partition : value / loopWidth = slot at *
  have widthPositive : 0 < loopWidth := by
    apply Nat.pos_of_ne_zero
    rintro rfl
    omega
  -- The loop value sits `rest` points past the first one of its partition.
  have position : value = loopWidth * slot + value % loopWidth := by
    rw [← partition]
    exact (Nat.div_add_mod value loopWidth).symm
  have restBelow := Nat.mod_lt value widthPositive
  generalize value % loopWidth = rest at *
  have start : loop.coefficient * (value : ℤ) =
      loop.coefficient * slot * loopWidth + loop.coefficient * rest := by
    rw [position]
    push_cast
    ring
  have restNonneg : 0 ≤ loop.coefficient * (rest : ℤ) :=
    mul_nonneg positive.le (Int.natCast_nonneg rest)
  have restLe : loop.coefficient * (rest : ℤ) ≤ loop.coefficient * (loopWidth - 1) := by
    apply mul_le_mul_of_nonneg_left _ positive.le
    omega
  constructor
  · linarith
  · linarith

theorem split_dvd_of_partitionsContained {origin : ℤ} {loops : List AffineLoop} {width split : ℕ}
    {loop : AffineLoop} (contained : partitionsContained origin loops width split loop = true) :
    split ∣ loop.extent := by
  simp only [partitionsContained, Bool.and_eq_true, decide_eq_true_eq] at contained
  exact Nat.dvd_of_mod_eq_zero contained.1

theorem projectAffineSliceAxis_partitioned {sympy : Sympy} {coordinate : Expr}
    {deviceExtent split : ℕ} {space : IterationSpace} {loop : Symbol} {projected : Expr}
    (found : projectAffineSliceAxis sympy coordinate deviceExtent split space =
      some (loop, projected)) :
    (∀ point, projected.eval point = coordinate.eval (line loop (point loop))) ∧
      Partitioned space split (deviceExtent / split) coordinate loop := by
  simp only [projectAffineSliceAxis] at found
  split at found
  next => cases found
  next =>
    simp only [Option.bind_eq_bind, Option.bind_eq_some_iff] at found
    obtain ⟨⟨origin, coefficients⟩, affine, found⟩ := found
    split at found
    next => cases found
    next rising =>
      simp only [Option.bind_eq_some_iff] at found
      obtain ⟨loops, concrete, found⟩ := found
      split at found
      next chosen only =>
        cases found
        obtain ⟨names, evaluated⟩ := affineForm_eval affine
        obtain ⟨rfl, extents⟩ := affineLoops_of_mapM concrete
        simp only [List.map_map, Function.comp_def] at names evaluated
        have distinct : (loops.map AffineLoop.symbol).Nodup := by
          rw [names]
          exact List.nodup_dedup _
        have ascending : ∀ other ∈ loops, 0 < other.coefficient := by
          intro other listed
          rw [Bool.not_eq_true, List.any_eq_false] at rising
          have positive := rising _ (List.mem_map_of_mem listed)
          simpa using positive
        have member : chosen ∈ loops ∧
            partitionsContained origin loops (deviceExtent / split) split chosen = true := by
          apply List.mem_filter.mp
          rw [only]
          exact List.mem_singleton_self chosen
        obtain ⟨listed, contained⟩ := member
        have evaluatedAt : ∀ point, coordinate.eval point = ((origin +
            (chosen.coefficient * (point chosen.symbol : ℤ) +
              ((loops.filter fun other => other.symbol ≠ chosen.symbol).map
                fun other => other.coefficient * (point other.symbol : ℤ)).sum) : ℤ) : ℚ) := by
          intro point
          rw [evaluated point, sum_eq_loop_add_others distinct listed]
        constructor
        · intro point
          have othersVanish : ((loops.filter fun other => other.symbol ≠ chosen.symbol).map
              fun other => other.coefficient *
                (line chosen.symbol (point chosen.symbol) other.symbol : ℤ)).sum = 0 := by
            apply List.sum_eq_zero
            intro term found
            obtain ⟨other, kept, rfl⟩ := List.mem_map.mp found
            have different := of_decide_eq_true (List.mem_filter.mp kept).2
            simp [line, different]
          rw [evaluatedAt, othersVanish, sympy.auto_eval]
          simp [Expr.eval, line]
        · refine ⟨chosen.extent, extents chosen listed, split_dvd_of_partitionsContained contained, ?_⟩
          intro point inSpace
          refine ⟨_, evaluatedAt point, ?_⟩
          have inside : ∀ other ∈ loops, point other.symbol < other.extent :=
            fun other listed => inSpace other.symbol other.extent (extents other listed)
          obtain ⟨above, below⟩ := sum_between_zero_and_span
            (fun other kept => ascending other (List.mem_filter.mp kept).1)
            (fun other kept => inside other (List.mem_filter.mp kept).1)
          exact inSlice_of_partitionsContained contained (ascending chosen listed)
            (inside chosen listed) above below
      next => cases found

theorem eval_zeroed_others {expr : Expr} {loop : Symbol} (point : Point) :
    (zeroed (expr.freeSymbols.filter (· ≠ loop)) expr).eval point =
      expr.eval (line loop (point loop)) := by
  have replaced : (zeroed (expr.freeSymbols.filter (· ≠ loop)) expr).eval point =
      expr.eval fun name =>
        if name ∈ expr.freeSymbols.filter (· ≠ loop) then 0 else point name := by
    unfold zeroed
    apply Expr.eval_subst
    intro name
    split <;> simp [Expr.eval]
  rw [replaced]
  apply Expr.eval_congr
  intro name free
  by_cases same : name = loop
  · simp [line, same]
  · simp [line, same, free]

theorem IterationSpace.Contains.line {space : IterationSpace} {point : Point}
    (inSpace : space.Contains point) (loop : Symbol) :
    space.Contains (line loop (point loop)) := by
  intro name extent concrete
  have below := inSpace name extent concrete
  unfold Ownership.line
  split
  next same =>
    subst same
    exact below
  next => exact Nat.zero_lt_of_lt below

/-- An integer added inside a floor can be added outside it. -/
theorem floor_eq_ediv {integer value divisor : ℤ} {fraction : ℚ} (positive : 0 < divisor)
    (cleared : (value : ℚ) = (integer + fraction) * divisor) :
    (integer : ℚ) + (⌊fraction⌋ : ℤ) = ((value / divisor : ℤ) : ℚ) := by
  have floored : value / divisor = integer + ⌊fraction⌋ := by
    rw [← Int.floor_intCast_add, ← Int.mul_cast_floor_div_cancel_of_pos positive, ← cleared,
      Int.floor_intCast]
  rw [floored, Int.cast_add]

theorem projectFloorAffineSliceAxis_partitioned {sympy : Sympy} {coordinate : Expr}
    {deviceExtent split : ℕ} {space : IterationSpace} {loop : Symbol} {projected : Expr}
    (divides : split ∣ deviceExtent)
    (found : projectFloorAffineSliceAxis sympy coordinate deviceExtent split space =
      some (loop, projected)) :
    (∀ point, projected.eval point = coordinate.eval (line loop (point loop))) ∧
      Partitioned space split (deviceExtent / split) coordinate loop := by
  unfold projectFloorAffineSliceAxis at found
  split at found
  next arg _ =>
    simp only [Option.bind_eq_bind, Option.bind_eq_some_iff] at found
    obtain ⟨⟨origin, coefficients⟩, affine, divisor, cleared, found⟩ := found
    split at found
    next => cases found
    next positive =>
      rw [not_le] at positive
      simp only [Option.bind_eq_some_iff] at found
      obtain ⟨⟨name, line⟩, scaled, found⟩ := found
      cases found
      obtain ⟨-, extent, concrete, splits, sliced⟩ := projectAffineSliceAxis_partitioned scaled
      obtain ⟨-, integerPart⟩ := affineForm_eval affine
      constructor
      · intro point
        rw [sympy.auto_eval, eval_zeroed_others]
      · refine ⟨extent, concrete, splits, ?_⟩
        intro point inSpace
        obtain ⟨value, numerator, inside⟩ := sliced point inSpace
        have whole := integerPart point
        rw [sympy.expand_eval, Expr.eval_sub] at whole
        rw [sympy.expand_eval, sympy.asNumerDenom_eval, sympy.together_eval] at numerator
        rw [Expr.eval_of_asInteger cleared] at numerator
        simp only [Expr.eval] at numerator whole
        rw [integerPart point] at numerator
        refine ⟨value / divisor, ?_, ?_⟩
        · rw [← floor_eq_ediv positive numerator.symm, ← whole, sub_add_cancel]
        · apply InSlice.quotient positive
          have scaledWidth : ((deviceExtent * divisor.toNat / split : ℕ) : ℤ) =
              (deviceExtent / split : ℕ) * divisor := by
            rw [Nat.mul_div_right_comm divides, Nat.cast_mul, Int.toNat_of_nonneg positive.le]
          rwa [scaledWidth] at inside
  next => cases found

theorem projectSliceAxis_partitioned {sympy : Sympy} {coordinate : Expr} {deviceExtent split : ℕ}
    {space : IterationSpace} {floorOnly : Bool} {loop : Symbol} {projected : Expr}
    (divides : split ∣ deviceExtent)
    (found : projectSliceAxis sympy coordinate deviceExtent split space floorOnly =
      some (loop, projected)) :
    (∀ point, projected.eval point = coordinate.eval (line loop (point loop))) ∧
      Partitioned space split (deviceExtent / split) coordinate loop := by
  rcases Option.or_eq_some_iff.mp found with affine | ⟨-, floored⟩
  · split at affine
    next => cases affine
    next => exact projectAffineSliceAxis_partitioned affine
  · exact projectFloorAffineSliceAxis_partitioned divides floored

theorem projectSliceAxis_projects {sympy : Sympy} {coordinate : Expr} {deviceExtent split : ℕ}
    {space : IterationSpace} {floorOnly : Bool} {loop : Symbol} {projected : Expr}
    (divides : split ∣ deviceExtent)
    (found : projectSliceAxis sympy coordinate deviceExtent split space floorOnly =
      some (loop, projected)) :
    Projects space (deviceExtent / split) coordinate loop projected := by
  obtain ⟨onLine, extent, -, -, sliced⟩ := projectSliceAxis_partitioned divides found
  exact ⟨onLine, extent / split, sliced⟩

/-! ## What a factorisation proves -/

theorem digitLoop_eval {sympy : Sympy} {digit : Expr} {loop : Symbol} {divisor : ℤ}
    (found : digitLoop sympy digit = some (loop, divisor)) (point : Point) :
    0 < divisor ∧ digit.eval point = (point loop / divisor.toNat : ℕ) := by
  unfold digitLoop at found
  split at found
  next => 
    cases found
    simp [Expr.eval]
  next arg =>
    split at found
    next name denominator cleared =>
      simp only [Option.bind_eq_bind, Option.bind_eq_some_iff] at found
      obtain ⟨value, integer, found⟩ := found
      split at found
      next => cases found
      next positive =>
        cases found
        rw [not_le] at positive
        have scaled := sympy.asNumerDenom_eval arg point
        rw [cleared, Expr.eval_of_asInteger integer] at scaled
        refine ⟨positive, ?_⟩
        have quotient : arg.eval point = (point loop : ℚ) / divisor.toNat := by
          have whole : ((divisor.toNat : ℕ) : ℚ) = divisor := by
            exact_mod_cast Int.toNat_of_nonneg positive.le
          rw [whole, eq_div_iff (by exact_mod_cast positive.ne')]
          exact scaled.symm
        simp only [Expr.eval, quotient, Rat.floor_natCast_div_natCast]
        norm_cast
    next => cases found
  next => cases found

/-- A digit contributes its coefficient times a natural number below its radix. -/
theorem axisDigit_eval {sympy : Sympy} {space : IterationSpace} {term : Expr} {digit : AxisDigit}
    (found : axisDigit sympy space term = some digit) {point : Point} :
    1 < digit.radix ∧ term.eval point = digit.coefficient * digit.digit.eval point ∧
      digit.digit.eval point = (point digit.loop / digit.divisor : ℕ) ∧
      (space.Contains point → point digit.loop / digit.divisor < digit.radix) := by
  simp only [axisDigit] at found
  split at found
  next => cases found
  next usable =>
    simp only [Option.bind_eq_bind, Option.bind_eq_some_iff] at found
    obtain ⟨⟨loop, divisor⟩, parsed, extent, concrete, found⟩ := found
    split at found
    next => cases found
    next divides =>
      cases found
      rw [not_or, not_not] at usable divides
      obtain ⟨positive, evaluated⟩ := digitLoop_eval parsed point
      refine ⟨not_le.mp divides.2, ?_, evaluated, ?_⟩
      · rw [Expr.eval_asCoeffMul term point]
        congr 1
        have nonnegative : 0 ≤ term.asCoeffMul.1.num := Rat.num_nonneg.mpr (not_le.mp usable.2).le
        have whole : ((term.asCoeffMul.1.num.toNat : ℕ) : ℚ) = (term.asCoeffMul.1.num : ℚ) := by
          exact_mod_cast Int.toNat_of_nonneg nonnegative
        rw [whole]
        exact (Rat.coe_int_num_of_den_eq_one usable.1).symm
      · intro inSpace
        have below := inSpace loop extent concrete
        apply Nat.div_lt_of_lt_mul
        rwa [Nat.mul_div_cancel' (Nat.dvd_of_mod_eq_zero divides.1)]

/-- What `factorDigits` checked of its first digit. -/
theorem factorDigits_cons {sympy : Sympy} {slot : Expr} {stride remaining : ℕ} {digit : AxisDigit}
    {digits : List AxisDigit} {factors : List AxisFactor}
    (found : factorDigits sympy slot stride remaining (digit :: digits) = some factors) :
    ∃ count rest factor later, factors = factor :: later ∧
      factor.radix = digit.radix ∧ factor.digit = digit.digit ∧ factor.count = count ∧
      factor.owner = sympy.auto (.mod (.floor (.mul (.const (1 / (rest : ℕ))) slot))
        count.toPNat') ∧
      count = min digit.radix remaining ∧ count ∣ digit.radix ∧ remaining = count * rest ∧
      stride = digit.radix * digit.coefficient ∧
      factorDigits sympy slot digit.coefficient rest digits = some later := by
  simp only [factorDigits] at found
  split at found
  next => cases found
  next strides =>
    split at found
    next => cases found
    next counts =>
      rw [not_or, not_not, not_not] at strides counts
      simp only [Option.bind_eq_bind, Option.bind_eq_some_iff] at found
      obtain ⟨later, remainder, found⟩ := found
      cases found
      refine ⟨_, _, _, _, rfl, rfl, rfl, rfl, rfl, rfl, Nat.dvd_of_mod_eq_zero counts.1, ?_, ?_, ?_⟩
      · exact (Nat.mul_div_cancel' (Nat.dvd_of_mod_eq_zero counts.2)).symm
      · rw [strides.2]
        exact (Nat.mul_div_cancel' (Nat.dvd_of_mod_eq_zero strides.1)).symm
      · rw [strides.2]
        exact remainder

theorem count_rest_pos {count rest radix remaining : ℕ} (least : count = min radix remaining)
    (splits : remaining = count * rest) (radixPositive : 0 < radix) (positive : 0 < remaining) :
    0 < count ∧ 0 < rest := by
  constructor
  · rw [least]
    exact lt_min radixPositive positive
  · exact Nat.pos_of_mul_pos_left (splits ▸ positive)

theorem factorDigits_length {sympy : Sympy} {slot : Expr} {stride remaining : ℕ}
    {digits : List AxisDigit} {factors : List AxisFactor}
    (found : factorDigits sympy slot stride remaining digits = some factors) :
    factors.length = digits.length := by
  induction digits generalizing stride remaining factors with
  | nil =>
      simp only [factorDigits] at found
      split at found
      next =>
        cases found
        rfl
      next => cases found
  | cons digit digits inductionHypothesis =>
      obtain ⟨_, _, factor, later, rfl, _, _, _, _, _, _, _, _, remainder⟩ :=
        factorDigits_cons found
      rw [List.length_cons, List.length_cons, inductionHypothesis remainder]

theorem eval_owner {sympy : Sympy} {slot : Expr} {core : Point} {slotValue rest count : ℕ}
    (positive : 0 < count) (owned : slot.eval core = slotValue) :
    (sympy.auto (.mod (.floor (.mul (.const (1 / (rest : ℕ))) slot)) count.toPNat')).eval core =
      (slotValue / rest % count : ℕ) := by
  have evaluated := Expr.eval_mod_of_nat count.toPNat' (Expr.eval_floor_quotient rest owned)
  rw [Nat.toPNat'_coe, if_pos positive] at evaluated
  rw [sympy.auto_eval]
  exact evaluated

/-- An unsplit factor owns its whole axis. -/
theorem factorDigits_unsplit {sympy : Sympy} {slot : Expr} {stride remaining : ℕ}
    {digits : List AxisDigit} {factors : List AxisFactor}
    (found : factorDigits sympy slot stride remaining digits = some factors)
    (radices : ∀ digit ∈ digits, 0 < digit.radix) (positive : 0 < remaining)
    {core : Point} {slotValue : ℕ} (owned : slot.eval core = slotValue) {factor : AxisFactor}
    (listed : factor ∈ factors) (unsplit : ¬ 1 < factor.count) :
    factor.count = 1 ∧ factor.owner.eval core = (0 : ℕ) ∧
      ∃ digit ∈ digits, factor.radix = digit.radix ∧ factor.digit = digit.digit := by
  induction digits generalizing stride remaining factors with
  | nil =>
      simp only [factorDigits] at found
      split at found
      next =>
        cases found
        cases listed
      next => cases found
  | cons digit digits inductionHypothesis =>
      obtain ⟨count, rest, head, later, rfl, radix, expr, counted, owner, least, -, splits, -,
        remainder⟩ := factorDigits_cons found
      obtain ⟨countPositive, restPositive⟩ :=
        count_rest_pos least splits (radices digit List.mem_cons_self) positive
      cases listed with
      | head =>
          have single : count = 1 := by omega
          refine ⟨counted.trans single, ?_, digit, List.mem_cons_self, radix, expr⟩
          rw [owner, eval_owner countPositive owned, single, Nat.mod_one]
      | tail _ listed =>
          obtain ⟨single, zero, digit, member, same⟩ := inductionHypothesis remainder
            (fun other listed => radices other (List.mem_cons_of_mem _ listed)) restPositive listed
          exact ⟨single, zero, digit, List.mem_cons_of_mem _ member, same⟩

/-- What an axis digit is worth at a point: a natural number below its radix. -/
def AxisDigit.Natural (digit : AxisDigit) (point : Point) : Prop :=
  ∃ value : ℕ, digit.digit.eval point = value ∧ value < digit.radix

/-- The digit lies in the sub-slice named by the factor's owner formula. -/
def AxisFactor.Owns (factor : AxisFactor) (core point : Point) : Prop :=
  ∃ value owner : ℕ, factor.digit.eval point = value ∧ factor.owner.eval core = owner ∧
    InSlice (factor.radix / factor.count : ℕ) owner value

/-- The whole coordinate lies in the slice of the axis exactly when its digits lie in their own
slices. -/
theorem factorDigits_inSlice_iff {sympy : Sympy} {slot : Expr} {stride remaining : ℕ}
    {digits : List AxisDigit} {factors : List AxisFactor}
    (found : factorDigits sympy slot stride remaining digits = some factors)
    (positive : 0 < remaining) {core point : Point} {slotValue : ℕ}
    (owned : slot.eval core = slotValue) (natural : ∀ digit ∈ digits, digit.Natural point) :
    remaining ∣ stride ∧ ∃ total : ℕ,
      (digits.map fun digit => (digit.coefficient : ℚ) * digit.digit.eval point).sum = total ∧
        total < stride ∧
        (InSlice (stride / remaining : ℕ) (slotValue % remaining : ℕ) total ↔
          ∀ factor ∈ factors, factor.Owns core point) := by
  induction digits generalizing stride remaining factors with
  | nil =>
      simp only [factorDigits] at found
      split at found
      next ends =>
        cases found
        obtain ⟨rfl, rfl⟩ := ends
        refine ⟨dvd_rfl, 0, by simp, Nat.one_pos, ?_⟩
        rw [Nat.mod_one, Nat.div_one]
        refine iff_of_true ?_ fun factor listed => nomatch listed
        constructor <;> decide
      next => cases found
  | cons digit digits inductionHypothesis =>
      obtain ⟨count, rest, head, later, rfl, radix, expr, counted, owner, least, divides, splits,
        strides, remainder⟩ := factorDigits_cons found
      obtain ⟨value, digitValue, valueBelow⟩ := natural digit List.mem_cons_self
      obtain ⟨countPositive, restPositive⟩ :=
        count_rest_pos least splits (Nat.zero_lt_of_lt valueBelow) positive
      obtain ⟨restDivides, total, summed, totalBelow, inRest⟩ :=
        inductionHypothesis remainder restPositive
          (fun other listed => natural other (List.mem_cons_of_mem _ listed))
      have headOwns : head.Owns core point ↔
          InSlice (digit.radix / count : ℕ) (slotValue / rest % count : ℕ) value := by
        constructor
        · rintro ⟨other, ownerValue, otherValue, ownerAt, inDigit⟩
          rw [expr, digitValue, Nat.cast_inj] at otherValue
          rw [owner, eval_owner countPositive owned, Nat.cast_inj] at ownerAt
          rwa [radix, counted, ← otherValue, ← ownerAt] at inDigit
        · intro inDigit
          refine ⟨value, slotValue / rest % count, expr ▸ digitValue, ?_, ?_⟩
          · rw [owner, eval_owner countPositive owned]
          · rwa [radix, counted]
      rw [List.forall_mem_cons, headOwns, ← inRest]
      obtain ⟨width, widthEq⟩ := restDivides
      have sum : ((digit :: digits).map
          fun digit => (digit.coefficient : ℚ) * digit.digit.eval point).sum =
          (digit.coefficient * value + total : ℕ) := by
        rw [List.map_cons, List.sum_cons, summed, digitValue]
        push_cast
        rfl
      have sumBelow : digit.coefficient * value + total < stride := by
        calc digit.coefficient * value + total
            < digit.coefficient * value + digit.coefficient := Nat.add_lt_add_left totalBelow _
          _ = digit.coefficient * (value + 1) := by ring
          _ ≤ digit.coefficient * digit.radix := Nat.mul_le_mul_left _ valueBelow
          _ = stride := by rw [strides, Nat.mul_comm]
      rcases le_total digit.radix remaining with whole | partly
      · -- The digit is split into single values.
        have countEq : count = digit.radix := by rw [least, min_eq_left whole]
        subst countEq
        have strideEq : stride = remaining * width := by
          rw [strides, widthEq, splits, Nat.mul_assoc]
        have exactDigit : InSlice (digit.radix / digit.radix : ℕ)
            (slotValue / rest % digit.radix : ℕ) value ↔
              value = slotValue / rest % digit.radix := by
          rw [Nat.div_self countPositive, InSlice.iff_ediv_eq (by norm_num)]
          norm_cast
          rw [Nat.div_one]
        refine ⟨⟨width, strideEq⟩, _, sum, sumBelow, ?_⟩
        rw [exactDigit, widthEq, Nat.mul_div_cancel_left _ restPositive, strideEq,
          Nat.mul_div_cancel_left _ positive, splits, mul_comm digit.radix rest]
        exact InSlice.prepend_digit_iff (widthEq ▸ totalBelow)
      · -- The split ends inside this digit.
        have countEq : count = remaining := by rw [least, min_eq_right partly]
        subst countEq
        have restEq : rest = 1 := by
          apply Nat.eq_of_mul_eq_mul_left positive
          rw [mul_one]
          exact splits.symm
        subst restEq
        have restWhole : InSlice (digit.coefficient / 1 : ℕ) (slotValue % 1 : ℕ) total := by
          rw [Nat.div_one, Nat.mod_one]
          exact InSlice.first_of_lt totalBelow
        refine ⟨strides ▸ divides.mul_right _, _, sum, sumBelow, ?_⟩
        rw [and_iff_left restWhole, strides, Nat.mul_div_right_comm divides, Nat.div_one]
        exact InSlice.prepend_slice_iff totalBelow

/-- The digits of the coordinate add up to it. -/
theorem sum_axisDigits {sympy : Sympy} {space : IterationSpace} {terms : List Expr}
    {digits : List AxisDigit}
    (parsed : terms.mapM (axisDigit sympy space) = some digits) (point : Point) :
    (digits.map fun digit => (digit.coefficient : ℚ) * digit.digit.eval point).sum =
      (terms.map (Expr.eval point)).sum := by
  have paired := forall₂_of_mapM_some parsed
  clear parsed
  induction paired with
  | nil => rfl
  | @cons term digit _ _ stepped _ inductionHypothesis =>
      obtain ⟨-, contribution, -⟩ := @axisDigit_eval _ _ _ _ stepped point
      rw [List.map_cons, List.map_cons, List.sum_cons, List.sum_cons, contribution,
        inductionHypothesis]

/-- The digits of a factored axis, the outermost first. -/
structure Digitized (sympy : Sympy) (coordinate : Expr) (space : IterationSpace)
    (digits : List AxisDigit) : Prop where
  nonempty : 0 < digits.length
  distinct : (digits.map AxisDigit.loop).Nodup
  known : ∀ digit ∈ digits, ∃ term, axisDigit sympy space term = some digit
  sum : ∀ point, (digits.map fun digit => (digit.coefficient : ℚ) * digit.digit.eval point).sum =
    coordinate.eval point

theorem factorSliceAxis_digitized {sympy : Sympy} {coordinate : Expr} {deviceExtent split : ℕ}
    {slot : Expr} {space : IterationSpace} {factors : List AxisFactor}
    (found : factorSliceAxis sympy coordinate deviceExtent split slot space = some factors) :
    ∃ digits, Digitized sympy coordinate space digits ∧
      factorDigits sympy slot deviceExtent split digits = some factors := by
  simp only [factorSliceAxis, Option.bind_eq_bind, Option.bind_eq_some_iff] at found
  obtain ⟨digits, parsed, found⟩ := found
  split at found
  next => cases found
  next distinct =>
    split at found
    next => cases found
    next bounded =>
      have ordered := List.mergeSort_perm digits
        fun first second => decide (second.coefficient ≤ first.coefficient)
      refine ⟨_, ⟨?_, ?_, ?_, ?_⟩, found⟩
      · rw [List.length_mergeSort]
        omega
      · exact (ordered.map _).nodup_iff.mpr (not_not.mp distinct)
      · intro digit listed
        obtain ⟨term, -, stepped⟩ :=
          exists_left_of_forall₂ (forall₂_of_mapM_some parsed) (ordered.mem_iff.mp listed)
        exact ⟨term, stepped⟩
      · intro point
        rw [(ordered.map _).sum_eq, sum_axisDigits parsed, Expr.eval_addends, sympy.expand_eval]

theorem Digitized.natural {sympy : Sympy} {coordinate : Expr} {space : IterationSpace}
    {digits : List AxisDigit} (digitized : Digitized sympy coordinate space digits) {point : Point}
    (inSpace : space.Contains point) : ∀ digit ∈ digits, digit.Natural point := by
  intro digit listed
  obtain ⟨term, stepped⟩ := digitized.known digit listed
  obtain ⟨-, -, natural, below⟩ := @axisDigit_eval _ _ _ _ stepped point
  exact ⟨_, natural, below inSpace⟩

/-- A coordinate lies in a slice exactly when every digit lies in its own. -/
theorem factorSliceAxis_inSlice_iff {sympy : Sympy} {coordinate : Expr} {deviceExtent split : ℕ}
    {slot : Expr} {space : IterationSpace} {factors : List AxisFactor}
    (found : factorSliceAxis sympy coordinate deviceExtent split slot space = some factors)
    {core point : Point} {slotValue : ℕ} (owned : slot.eval core = slotValue)
    (slotBelow : slotValue < split) (inSpace : space.Contains point) :
    ∃ value : ℕ, coordinate.eval point = value ∧
      (InSlice (deviceExtent / split : ℕ) slotValue value ↔
        ∀ factor ∈ factors, factor.Owns core point) := by
  obtain ⟨digits, digitized, factored⟩ := factorSliceAxis_digitized found
  obtain ⟨-, total, summed, -, contained⟩ := factorDigits_inSlice_iff factored
    (Nat.zero_lt_of_lt slotBelow) owned (digitized.natural inSpace)
  rw [digitized.sum] at summed
  rw [Nat.mod_eq_of_lt slotBelow] at contained
  exact ⟨total, summed, contained⟩

theorem factorSliceAxis_inSlice {sympy : Sympy} {coordinate : Expr} {deviceExtent split : ℕ}
    {slot : Expr} {space : IterationSpace} {factors : List AxisFactor}
    (found : factorSliceAxis sympy coordinate deviceExtent split slot space = some factors)
    {core point : Point} {slotValue : ℕ} (owned : slot.eval core = slotValue)
    (slotBelow : slotValue < split) (inSpace : space.Contains point)
    (inside : ∀ factor ∈ factors, 1 < factor.count → factor.Owns core point) :
    ∃ value : ℤ, coordinate.eval point = value ∧
      InSlice (deviceExtent / split : ℕ) slotValue value := by
  obtain ⟨digits, digitized, factored⟩ := factorSliceAxis_digitized found
  have natural := digitized.natural inSpace
  have everywhere : ∀ factor ∈ factors, factor.Owns core point := by
    intro factor listed
    by_cases splits : 1 < factor.count
    · exact inside factor listed splits
    · have radices : ∀ digit ∈ digits, 0 < digit.radix := by
        intro digit member
        obtain ⟨value, -, below⟩ := natural digit member
        exact Nat.zero_lt_of_lt below
      obtain ⟨single, zero, digit, member, radix, expr⟩ :=
        factorDigits_unsplit factored radices (Nat.zero_lt_of_lt slotBelow) owned listed splits
      obtain ⟨value, evaluated, below⟩ := natural digit member
      refine ⟨value, 0, expr ▸ evaluated, zero, ?_⟩
      rw [single, Nat.div_one, radix]
      exact InSlice.first_of_lt below
  obtain ⟨value, evaluated, contained⟩ := factorSliceAxis_inSlice_iff found owned slotBelow inSpace
  exact ⟨value, by exact_mod_cast evaluated, contained.mpr everywhere⟩

theorem factorSliceAxis_pos {sympy : Sympy} {coordinate : Expr} {deviceExtent split : ℕ}
    {slot : Expr} {space : IterationSpace} {factors : List AxisFactor}
    (found : factorSliceAxis sympy coordinate deviceExtent split slot space = some factors) :
    0 < factors.length := by
  obtain ⟨digits, digitized, factored⟩ := factorSliceAxis_digitized found
  rw [factorDigits_length factored]
  exact digitized.nonempty

end TorchSpyre.Ownership
