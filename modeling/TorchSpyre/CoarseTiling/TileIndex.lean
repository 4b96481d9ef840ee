import Mathlib
import TorchSpyre.CoarseTiling.TileStrides

/-!
# Tile indices

An affine index is split into an offset and one atom for each iteration variable.  Each of these
numbers is converted on its own, through its greedy coordinates in the tensor.
-/

namespace TorchSpyre.CoarseTiling

open Lib Lib.NestedStrides Lib.Symbolic

variable {rank : ℕ}

/-- The paired strides come in decreasing tensor stride order. -/
def offsetStep (state : ℕ × ℕ) (pair : ℕ × ℕ) : Except TileError (ℕ × ℕ) :=
  if pair.1 = 0 then .error .zeroDivision
  else .ok (state.1 + state.2 / pair.1 * pair.2, state.2 % pair.1)

def computeTileOffset (offset : ℕ) (pairedStrides : List (ℕ × ℕ)) : Except TileError ℕ := do
  let state ← pairedStrides.foldlM offsetStep (0, offset)
  if state.2 ≠ 0 then .error (.offsetNotExpressible state.2) else .ok state.1

/-- The product of the factors read so far, and whether the variable was among them. -/
def factorStep (var : Symbol) (term : Expr) (state : ℚ × Bool) :
    Expr → Except TileError (ℚ × Bool)
  | .mod arg modulus => .error (.modularIndexing (.mod arg modulus))
  | .sym name =>
      if name = var then
        if state.2 then .error (.repeatedFactor var term) else .ok (state.1, true)
      else .error (.coefficient term)
  | .const value => .ok (state.1 * value, state.2)
  | _ => .error (.coefficient term)

def coefficientOf (var : Symbol) (term : Expr) : Except TileError ℕ := do
  let state ← term.factors.foldlM (factorStep var term) (1, false)
  if 0 < state.1 ∧ state.1.den = 1 then .ok state.1.num.toNat else .error (.coefficient term)

structure Decomposition where
  varsFound : List Symbol
  offset : ℚ
  /-- A positive coefficient and its iteration variable. -/
  atoms : List (ℕ × Symbol)

def decomposeTerm (names : List Symbol) (state : Decomposition) (term : Expr) :
    Except TileError Decomposition :=
  match term.freeSymbols.filter fun name => name ∈ names with
  | [] =>
      match term with
      | .const value => .ok { state with offset := state.offset + value }
      | _ => .error .offset
  | [var] =>
      if var ∈ state.varsFound then .error (.repeatedVariable var)
      else
        match term with
        | .mod _ _ => .error (.modularIndexing term)
        | .sym _ => .ok ⟨var :: state.varsFound, state.offset, state.atoms ++ [(1, var)]⟩
        | .mul _ _ => do
            let prod ← coefficientOf var term
            .ok ⟨var :: state.varsFound, state.offset, state.atoms ++ [(prod, var)]⟩
        | _ => .error (.notMonomial term)
  | termVars => .error (.multipleVariables term termVars)

def decomposeIndexForTiling (index : Expr) (varRanges : List (Symbol × ℕ)) :
    Except TileError (List (ℕ × Symbol) × ℕ) := do
  let state ← index.addends.foldlM (decomposeTerm (varRanges.map Prod.fst)) ⟨[], 0, []⟩
  if 0 ≤ state.offset ∧ state.offset.den = 1 then .ok (state.atoms, state.offset.num.toNat)
  else .error .offset

def pairedStrides (size stride tileStride : Dims rank) : List (ℕ × ℕ) :=
  (((regularDims size stride).map fun dim => (stride dim, tileStride dim)).insertionSort
    fun first second => toLex first ≤ toLex second).reverse

def computeTileIndex (index : Expr) (varRanges : List (Symbol × ℕ))
    (size stride tileStride : Dims rank) : Except TileError Expr := do
  let (atoms, offset) ← decomposeIndexForTiling index varRanges
  let tileOffset ← computeTileOffset offset (pairedStrides size stride tileStride)
  atoms.foldlM (fun (tileIndex : Expr) atom => do
    let coefficient ← computeTileOffset atom.1 (pairedStrides size stride tileStride)
    return tileIndex.add ((Expr.const coefficient).mul (.sym atom.2))) (Expr.const tileOffset)

/-! ## What an index decomposes into -/

section Decomposing

theorem eval_factors (term : Expr) (point : Point) :
    (term.factors.map (Expr.eval point)).prod = term.eval point := by
  induction term with
  | mul left right leftHypothesis rightHypothesis =>
      simp [Expr.factors, Expr.eval, leftHypothesis, rightHypothesis]
  | _ => simp [Expr.factors]

theorem exists_factor {term : Expr} {name : Symbol} (free : name ∈ term.occurrences) :
    ∃ factor ∈ term.factors, name ∈ factor.occurrences := by
  induction term with
  | mul left right leftHypothesis rightHypothesis =>
      rw [Expr.occurrences, List.mem_append] at free
      rcases free with inLeft | inRight
      · obtain ⟨factor, listed, found⟩ := leftHypothesis inLeft
        exact ⟨factor, List.mem_append_left _ listed, found⟩
      · obtain ⟨factor, listed, found⟩ := rightHypothesis inRight
        exact ⟨factor, List.mem_append_right _ listed, found⟩
  | _ => exact ⟨_, List.mem_singleton_self _, free⟩

variable {var : Symbol} {term : Expr}

/-- A factor is a number or the variable itself. -/
theorem factorStep_spec {state next : ℚ × Bool} {arg : Expr}
    (stepped : factorStep var term state arg = .ok next) :
    (∃ value, arg = .const value ∧ next = (state.1 * value, state.2)) ∨
      arg = .sym var ∧ state.2 = false ∧ next = (state.1, true) := by
  cases arg with
  | const value =>
      cases stepped
      exact .inl ⟨value, rfl, rfl⟩
  | sym name =>
      rw [factorStep] at stepped
      split at stepped
      next same =>
        split at stepped
        next => cases stepped
        next fresh =>
          cases stepped
          exact .inr ⟨same ▸ rfl, by simpa using fresh, rfl⟩
      next => cases stepped
  | _ => cases stepped

/-- The value of a product whose variable has or has not been met. -/
def monomial (state : ℚ × Bool) (value : ℚ) : ℚ := state.1 * if state.2 then value else 1

theorem foldlM_factorStep {args : List Expr} {state final : ℚ × Bool}
    (folded : args.foldlM (factorStep var term) state = .ok final) (point : Point) :
    monomial final (point var) = monomial state (point var) * (args.map (Expr.eval point)).prod ∧
      (final.2 = false → ∀ arg ∈ args, var ∉ arg.occurrences) ∧ (state.2 → final.2) := by
  induction args generalizing state with
  | nil =>
      cases folded
      simp
  | cons arg args inductionHypothesis =>
      rw [List.foldlM_cons] at folded
      obtain ⟨next, stepped, folded⟩ := bind_eq_ok_iff.mp folded
      obtain ⟨value, absent, kept⟩ := inductionHypothesis folded
      rw [value, List.map_cons, List.prod_cons, ← mul_assoc]
      rcases factorStep_spec stepped with ⟨number, rfl, rfl⟩ | ⟨rfl, fresh, rfl⟩
      · refine ⟨?_, ?_, kept⟩
        · simp only [monomial, Expr.eval]
          ring
        · intro unmet
          rw [List.forall_mem_cons]
          exact ⟨by simp [Expr.occurrences], absent unmet⟩
      · refine ⟨?_, fun unmet => ?_, fun met => ?_⟩
        · simp [monomial, Expr.eval, fresh]
        · rw [kept rfl] at unmet
          cases unmet
        · exact kept rfl

theorem natCast_toNat {value : ℚ} (nonnegative : 0 ≤ value) (integer : value.den = 1) :
    ((value.num.toNat : ℕ) : ℚ) = value := by
  have whole : ((value.num.toNat : ℕ) : ℤ) = value.num :=
    Int.toNat_of_nonneg (Rat.num_nonneg.mpr nonnegative)
  calc ((value.num.toNat : ℕ) : ℚ) = ((value.num.toNat : ℕ) : ℤ) := (Int.cast_natCast _).symm
    _ = value.num := by rw [whole]
    _ = value := Rat.coe_int_num_of_den_eq_one integer

theorem coefficientOf_spec {coefficient : ℕ} (free : var ∈ term.occurrences)
    (returned : coefficientOf var term = .ok coefficient) (point : Point) :
    term.eval point = coefficient * point var := by
  obtain ⟨final, folded, isCoefficient⟩ := bind_eq_ok_iff.mp returned
  obtain ⟨value, absent, -⟩ := foldlM_factorStep folded point
  have met : final.2 = true := by
    obtain ⟨factor, listed, found⟩ := exists_factor free
    by_contra unmet
    exact absent (by simpa using unmet) factor listed found
  split at isCoefficient
  next integer =>
    cases isCoefficient
    have whole := natCast_toNat integer.1.le integer.2
    rw [eval_factors] at value
    simpa [monomial, met, whole] using value.symm
  next => cases isCoefficient

/-- The sum of the offset and the atoms met so far. -/
def Decomposition.eval (state : Decomposition) (point : Point) : ℚ :=
  state.offset + (state.atoms.map fun atom => (atom.1 : ℚ) * point atom.2).sum

theorem decomposeTerm_spec {names : List Symbol} {state next : Decomposition}
    (stepped : decomposeTerm names state term = .ok next) (point : Point) :
    next.eval point = state.eval point + term.eval point := by
  unfold decomposeTerm at stepped
  split at stepped
  next =>
    split at stepped
    next value =>
      cases stepped
      simp only [Decomposition.eval, Expr.eval]
      ring
    next => cases stepped
  next var found =>
    have free : var ∈ term.occurrences := by
      have listed : var ∈ term.freeSymbols.filter fun name => name ∈ names := by simp [found]
      exact Expr.mem_freeSymbols.mp (List.mem_of_mem_filter listed)
    split at stepped
    next => cases stepped
    next =>
      cases term with
      | sym name =>
          cases stepped
          have same : var = name := by simpa [Expr.occurrences] using free
          subst same
          simp only [Decomposition.eval, Expr.eval, List.map_append, List.sum_append, List.map_cons,
            List.map_nil, List.sum_cons, List.sum_nil, Nat.cast_one]
          ring
      | mul left right =>
          obtain ⟨prod, isProd, isNext⟩ := bind_eq_ok_iff.mp stepped
          cases isNext
          rw [coefficientOf_spec free isProd point]
          simp only [Decomposition.eval, List.map_append, List.sum_append, List.map_cons,
            List.map_nil, List.sum_cons, List.sum_nil]
          ring
      | _ => cases stepped
  next => cases stepped

theorem foldlM_decomposeTerm {names : List Symbol} {terms : List Expr} {state final : Decomposition}
    (folded : terms.foldlM (decomposeTerm names) state = .ok final) (point : Point) :
    final.eval point = state.eval point + (terms.map (Expr.eval point)).sum := by
  induction terms generalizing state with
  | nil =>
      cases folded
      simp
  | cons term terms inductionHypothesis =>
      rw [List.foldlM_cons] at folded
      obtain ⟨next, stepped, folded⟩ := bind_eq_ok_iff.mp folded
      rw [inductionHypothesis folded, decomposeTerm_spec stepped point, List.map_cons,
        List.sum_cons, add_assoc]

/-- The number an offset and atoms stand for. -/
def addressOf (atoms : List (ℕ × Symbol)) (offset : ℕ) (point : Point) : ℕ :=
  offset + (atoms.map fun atom => atom.1 * point atom.2).sum

theorem eval_of_decomposed {index : Expr} {varRanges : List (Symbol × ℕ)}
    {atoms : List (ℕ × Symbol)} {offset : ℕ}
    (decomposed : decomposeIndexForTiling index varRanges = .ok (atoms, offset)) (point : Point) :
    index.eval point = addressOf atoms offset point := by
  obtain ⟨final, folded, isFinal⟩ := bind_eq_ok_iff.mp decomposed
  split at isFinal
  next integer =>
    cases isFinal
    have value := foldlM_decomposeTerm folded point
    have whole := natCast_toNat integer.1 integer.2
    rw [Expr.eval_addends] at value
    simpa [Decomposition.eval, addressOf, whole, Nat.cast_list_sum, Function.comp_def] using value.symm
  next => cases isFinal

end Decomposing

/-! ## What an index converts to -/

section Converting

variable {size stride tileStride : Dims rank}

/-- The coordinates of an offset in the tensor, read off the outermost dim first. -/
def coordinateOf (size stride : Dims rank) (offset : ℕ) : Dims rank :=
  digit stride (strideOrder size stride).reverse offset

theorem strideOrder_strict (nested : WellNested size stride) (positive : ∀ dim, Regular size stride dim → 0 < size dim) :
    (strideOrder size stride).Pairwise fun inner outer => stride inner < stride outer := by
  refine (nested.pairwise fun dim listed => positive dim (mem_strideOrder.mp listed)).imp_of_mem ?_
  intro inner outer innerListed _ step
  have regular := mem_strideOrder.mp innerListed
  have spans : 1 < size inner := lt_of_le_of_ne (positive inner regular) regular.1.symm
  exact ((Nat.lt_mul_iff_one_lt_right (Nat.pos_of_ne_zero regular.2)).mpr spans).trans_le step

/-- No two regular dims have one stride, so the pairs are sorted as their dims are. -/
theorem pairedStrides_eq (nested : WellNested size stride) (positive : ∀ dim, Regular size stride dim → 0 < size dim) :
    pairedStrides size stride tileStride =
      (strideOrder size stride).reverse.map fun dim => (stride dim, tileStride dim) := by
  have sorted : ((strideOrder size stride).map fun dim => (stride dim, tileStride dim)).Pairwise
      fun first second => toLex first ≤ toLex second := by
    rw [List.pairwise_map]
    exact (strideOrder_strict nested positive).imp fun less => (Prod.Lex.toLex_le_toLex).mpr (.inl less)
  have permuted : ((regularDims size stride).map fun dim => (stride dim, tileStride dim)).Perm
      ((strideOrder size stride).map fun dim => (stride dim, tileStride dim)) :=
    ((List.perm_insertionSort _ _).map _).symm
  rw [pairedStrides, List.map_reverse]
  congr 1
  refine List.Perm.eq_of_pairwise ?_ (List.pairwise_insertionSort _ _) sorted
    ((List.perm_insertionSort _ _).trans permuted)
  intro first second _ _ ahead behind
  exact toLex.injective (le_antisymm ahead behind)

theorem foldlM_offsetStep {order : List (Fin rank)} {start : ℕ × ℕ} {final : ℕ × ℕ}
    (distinct : order.Nodup)
    (folded : (order.map fun dim => (stride dim, tileStride dim)).foldlM offsetStep start = .ok final) :
    final.1 = start.1 + total tileStride order (digit stride order start.2) ∧
      final.2 = remainder stride order start.2 := by
  induction order generalizing start with
  | nil =>
      cases folded
      simp [total, remainder]
  | cons outer rest inductionHypothesis =>
      rw [List.nodup_cons] at distinct
      rw [List.map_cons, List.foldlM_cons] at folded
      obtain ⟨next, stepped, folded⟩ := bind_eq_ok_iff.mp folded
      obtain ⟨sum, left⟩ := inductionHypothesis distinct.2 folded
      rw [offsetStep] at stepped
      split at stepped
      next => cases stepped
      next =>
        cases stepped
        rw [sum, left, total_digit_cons distinct.1, Nat.add_assoc]
        exact ⟨rfl, rfl⟩

/-- A converted offset is made of its coordinates. -/
theorem computeTileOffset_spec {offset tileOffset : ℕ} (nested : WellNested size stride)
    (positive : ∀ dim, Regular size stride dim → 0 < size dim)
    (returned : computeTileOffset offset (pairedStrides size stride tileStride) = .ok tileOffset) :
    tileOffset = total tileStride (strideOrder size stride) (coordinateOf size stride offset) ∧
      offset = total stride (strideOrder size stride) (coordinateOf size stride offset) := by
  have distinct := List.nodup_reverse.mpr (nodup_strideOrder size stride)
  rw [pairedStrides_eq nested positive] at returned
  obtain ⟨final, folded, isFinal⟩ := bind_eq_ok_iff.mp returned
  obtain ⟨sum, left⟩ := foldlM_offsetStep distinct folded
  split at isFinal
  next => cases isFinal
  next exact =>
    cases isFinal
    rw [← @total_reverse _ tileStride, ← @total_reverse _ stride]
    have nothing : remainder stride (strideOrder size stride).reverse offset = 0 := by
      rw [← left]
      exact not_not.mp exact
    refine ⟨by simpa [coordinateOf] using sum, ?_⟩
    have whole := @total_digit_add_remainder _ _ stride _ distinct offset
    rw [nothing, Nat.add_zero] at whole
    exact whole.symm

/-- The coordinates of an offset and of its atoms, added up at a point. -/
def summedCoordinates (size stride : Dims rank) (atoms : List (ℕ × Symbol)) (offset : ℕ)
    (point : Point) (dim : Fin rank) : ℕ :=
  coordinateOf size stride offset dim +
    (atoms.map fun atom => coordinateOf size stride atom.1 dim * point atom.2).sum

theorem total_summedCoordinates (weight : Dims rank) (order : List (Fin rank))
    (atoms : List (ℕ × Symbol)) (offset : ℕ) (point : Point) :
    total weight order (summedCoordinates size stride atoms offset point) =
      total weight order (coordinateOf size stride offset) +
        (atoms.map fun atom =>
          total weight order (coordinateOf size stride atom.1) * point atom.2).sum := by
  unfold summedCoordinates
  rw [total_add, total_sum]
  simp only [total_mul]

theorem foldlM_atoms {atoms : List (ℕ × Symbol)} {start final : Expr} (nested : WellNested size stride)
    (positive : ∀ dim, Regular size stride dim → 0 < size dim)
    (folded : atoms.foldlM (fun (tileIndex : Expr) atom => do
      let coefficient ← computeTileOffset atom.1 (pairedStrides size stride tileStride)
      return tileIndex.add ((Expr.const coefficient).mul (.sym atom.2))) start =
        (.ok final : Except TileError Expr)) (point : Point) :
    final.eval point = start.eval point + ((atoms.map fun atom =>
        total tileStride (strideOrder size stride) (coordinateOf size stride atom.1) *
          point atom.2).sum : ℕ) ∧
      ∀ atom ∈ atoms,
        atom.1 = total stride (strideOrder size stride) (coordinateOf size stride atom.1) := by
  induction atoms generalizing start with
  | nil =>
      cases folded
      simp
  | cons atom atoms inductionHypothesis =>
      rw [List.foldlM_cons] at folded
      obtain ⟨next, stepped, folded⟩ := bind_eq_ok_iff.mp folded
      obtain ⟨coefficient, converted, isNext⟩ := bind_eq_ok_iff.mp stepped
      cases isNext
      obtain ⟨value, exact⟩ := inductionHypothesis folded
      obtain ⟨isCoefficient, whole⟩ := computeTileOffset_spec nested positive converted
      rw [List.forall_mem_cons]
      refine ⟨?_, whole, exact⟩
      rw [value, List.map_cons, List.sum_cons, ← isCoefficient]
      simp only [Expr.eval]
      push_cast
      ring

/-- The index and its tile index have the same coordinates at every point. -/
theorem computeTileIndex_spec {index tileIndex : Expr} {varRanges : List (Symbol × ℕ)}
    {atoms : List (ℕ × Symbol)} {offset : ℕ} (nested : WellNested size stride)
    (positive : ∀ dim, Regular size stride dim → 0 < size dim)
    (decomposed : decomposeIndexForTiling index varRanges = .ok (atoms, offset))
    (returned : computeTileIndex index varRanges size stride tileStride = .ok tileIndex)
    (point : Point) :
    tileIndex.eval point = total tileStride (strideOrder size stride)
        (summedCoordinates size stride atoms offset point) ∧
      addressOf atoms offset point = total stride (strideOrder size stride)
        (summedCoordinates size stride atoms offset point) := by
  obtain ⟨parts, isParts, returned⟩ := bind_eq_ok_iff.mp returned
  cases decomposed.symm.trans isParts
  obtain ⟨tileOffset, converted, folded⟩ := bind_eq_ok_iff.mp returned
  obtain ⟨isOffset, whole⟩ := computeTileOffset_spec nested positive converted
  obtain ⟨value, exact⟩ := foldlM_atoms nested positive folded point
  rw [total_summedCoordinates, total_summedCoordinates, value, ← isOffset, ← whole]
  refine ⟨by simp [Expr.eval], ?_⟩
  rw [addressOf]
  congr 2
  exact List.map_congr_left fun atom listed => by rw [← exact atom listed]

/-- Where the summed coordinates stay inside the tensor they are those of the index. -/
theorem coordinateOf_addressOf {atoms : List (ℕ × Symbol)} {offset : ℕ} {point : Point}
    (nested : WellNested size stride)
    (below : ∀ dim, Regular size stride dim →
      summedCoordinates size stride atoms offset point dim < size dim)
    (whole : addressOf atoms offset point = total stride (strideOrder size stride)
      (summedCoordinates size stride atoms offset point)) :
    ∀ dim ∈ strideOrder size stride, coordinateOf size stride (addressOf atoms offset point) dim =
      summedCoordinates size stride atoms offset point dim := by
  have inside : ∀ dim ∈ (strideOrder size stride).reverse,
      summedCoordinates size stride atoms offset point dim < size dim :=
    fun dim listed => below dim (mem_strideOrder.mp (List.mem_reverse.mp listed))
  have apart := nested.pairwise fun dim listed =>
    Nat.zero_lt_of_lt (below dim (mem_strideOrder.mp listed))
  intro dim listed
  rw [coordinateOf, whole, ← total_reverse]
  exact digit_total (List.nodup_reverse.mpr (nodup_strideOrder size stride))
    (List.pairwise_reverse.mpr apart)
    (fun dim listed => strideOrder_pos size stride dim (List.mem_reverse.mp listed)) inside dim
    (List.mem_reverse.mpr listed)

end Converting

/-! ## Tiling a nested tensor -/

def InRange (varRanges : List (Symbol × ℕ)) (point : Point) : Prop :=
  ∀ entry ∈ varRanges, point entry.1 < entry.2

end TorchSpyre.CoarseTiling
