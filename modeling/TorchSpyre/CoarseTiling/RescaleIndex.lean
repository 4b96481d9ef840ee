import Mathlib
import TorchSpyre.CoarseTiling.TileStrides

/-!
# Rescaling an index to tile strides

The terms of an index carry no dims: each is matched with a dim by the value of its coefficient,
largest stride first.  Dims of one stride are told apart by their position only.
-/

namespace TorchSpyre.CoarseTiling

open Lib Lib.Symbolic

inductive RescaleError where
  | noMatchingStride (term : Expr)
  | ambiguous (term : Expr)
  deriving DecidableEq

/-- A quotient of SymPy: the coefficient one is not written. -/
def scaled (coefficient : ℚ) (expr : Expr) : Expr :=
  if coefficient = 1 then expr else .mul (.const coefficient) expr

def isClean (quotient : Expr) : Bool := quotient.asCoeffMul.1 = 1

/-- The loop variable's part, when the stride divides the term; `simplify` is SymPy's. -/
def dividesEvenly (simplify : Expr → Expr) (term : Expr) (fullStride : ℕ) : Option Expr :=
  if fullStride = 0 then none
  else
    let quotient := scaled (term.asCoeffMul.1 / fullStride) term.asCoeffMul.2
    if isClean quotient then some quotient
    else if isClean (simplify quotient) then some (simplify quotient)
    else none

/-- The positions of the strides that divide a term, with their tile strides. -/
def matchesOf (simplify : Expr → Expr) (remaining : List (ℕ × ℕ)) (term : Expr) :
    List (ℕ × ℕ × Expr) :=
  remaining.zipIdx.filterMap fun (strides, i) =>
    (dividesEvenly simplify term strides.1).map fun loopVarPart => (i, strides.2, loopVarPart)

structure Rescaling where
  remaining : List (ℕ × ℕ)
  newIndex : Expr

def rescaleTerm (simplify : Expr → Expr) (stripConstant rejectAmbiguous : Bool) (state : Rescaling)
    (term : Expr) : Except RescaleError Rescaling :=
  if term.freeSymbols = [] then
    .ok (if stripConstant then state else { state with newIndex := state.newIndex.add term })
  else
    match matchesOf simplify state.remaining term with
    | [] => .error (.noMatchingStride term)
    | (i, tileStride, loopVarPart) :: others =>
        if rejectAmbiguous ∧ others.any (fun other => other.2.1 ≠ tileStride) then
          .error (.ambiguous term)
        else
          .ok ⟨state.remaining.eraseIdx i,
            state.newIndex.add (.mul (.const tileStride) loopVarPart)⟩

/-- Largest stride first; strides of one value stay in dim order. -/
def sortStrides (strides : List (ℕ × ℕ)) : List (ℕ × ℕ) :=
  strides.insertionSort fun first second => first.1 ≥ second.1

def rescaleIndex (simplify : Expr → Expr) (index : Expr) (strides : List (ℕ × ℕ))
    (stripConstant rejectAmbiguous : Bool) : Except RescaleError Expr := do
  let state ← index.addends.foldlM (rescaleTerm simplify stripConstant rejectAmbiguous)
    ⟨sortStrides strides, .const 0⟩
  return state.newIndex

/-! ## Strides of one value -/

def sameStride (stride : ℕ) (strides : ℕ × ℕ) : Bool := strides.1 = stride

/-- Sorting keeps the order of the strides of one value. -/
theorem filter_sortStrides (strides : List (ℕ × ℕ)) (stride : ℕ) :
    (sortStrides strides).filter (sameStride stride) = strides.filter (sameStride stride) := by
  have inserted : ∀ (entry : ℕ × ℕ) (sorted : List (ℕ × ℕ)),
      (sorted.orderedInsert (fun first second => first.1 ≥ second.1) entry).filter
        (sameStride stride) = (entry :: sorted).filter (sameStride stride) := by
    intro entry sorted
    induction sorted with
    | nil => rfl
    | cons head rest inductionHypothesis =>
        rw [List.orderedInsert_cons]
        split
        next => rfl
        next smaller =>
          rw [List.filter_cons, inductionHypothesis]
          by_cases here : sameStride stride entry
          · have larger : sameStride stride head = false := by
              simp only [sameStride, decide_eq_true_eq, decide_eq_false_iff_not] at here ⊢
              omega
            simp [larger, here]
          · simp [List.filter_cons, here]
  induction strides with
  | nil => rfl
  | cons entry rest inductionHypothesis =>
      rw [sortStrides, List.insertionSort_cons, inserted, List.filter_cons, List.filter_cons]
      rw [sortStrides] at inductionHypothesis
      rw [inductionHypothesis]

theorem filter_eraseIdx {strides : List (ℕ × ℕ)} {i : ℕ} {entry : ℕ × ℕ} {stride : ℕ}
    (found : strides[i]? = some entry) (other : entry.1 ≠ stride) :
    (strides.eraseIdx i).filter (sameStride stride) = strides.filter (sameStride stride) := by
  induction strides generalizing i with
  | nil => simp at found
  | cons head rest inductionHypothesis =>
      cases i with
      | zero =>
          have isHead : head = entry := by simpa using found
          simp [sameStride, isHead, other]
      | succ i =>
          have inRest : rest[i]? = some entry := by simpa using found
          simp [List.filter_cons, inductionHypothesis inRest]

/-! ## Terms of one variable -/

/-- A multiple of a variable, as SymPy spells it. -/
def monomialOf (stride : ℕ) (name : Symbol) : Expr := scaled stride (.sym name)

/-- SymPy does not rewrite a rational multiple of a symbol. -/
def KeepsMultiples (simplify : Expr → Expr) : Prop :=
  ∀ (coefficient : ℚ) (name : Symbol),
    simplify (.mul (.const coefficient) (.sym name)) = .mul (.const coefficient) (.sym name)

theorem asCoeffMul_scaled (coefficient : ℚ) (name : Symbol) :
    (scaled coefficient (.sym name)).asCoeffMul = (coefficient, .sym name) := by
  unfold scaled
  split
  next one => simp [Expr.asCoeffMul, one]
  next => rfl

variable {simplify : Expr → Expr} {stride : ℕ} {name : Symbol}

theorem freeSymbols_monomialOf : (monomialOf stride name).freeSymbols ≠ [] := by
  unfold monomialOf scaled
  split <;> simp [Expr.freeSymbols, Expr.occurrences]

/-- Only a stride of the coefficient's value divides a multiple of a variable. -/
theorem dividesEvenly_monomialOf (keeps : KeepsMultiples simplify) (nonzero : stride ≠ 0)
    (fullStride : ℕ) : dividesEvenly simplify (monomialOf stride name) fullStride =
      if fullStride = stride then some (.sym name) else none := by
  rw [dividesEvenly, monomialOf, asCoeffMul_scaled]
  by_cases zero : fullStride = 0
  · rw [if_pos zero, if_neg (fun same : fullStride = stride => nonzero (same.symm.trans zero))]
  · rw [if_neg zero]
    have fullNonzero : (fullStride : ℚ) ≠ 0 := by exact_mod_cast zero
    by_cases same : fullStride = stride
    · have quotient : scaled ((stride : ℚ) / fullStride) (.sym name) = .sym name := by
        rw [← same, div_self fullNonzero, scaled, if_pos rfl]
      rw [if_pos same]
      simp [quotient, isClean, Expr.asCoeffMul]
    · have notOne : (stride : ℚ) / fullStride ≠ 1 := by
        rw [Ne, div_eq_one_iff_eq fullNonzero]
        exact_mod_cast Ne.symm same
      have kept : simplify (scaled (stride / fullStride) (.sym name)) =
          scaled (stride / fullStride) (.sym name) := by
        rw [scaled, if_neg notOne, keeps]
      simp [isClean, asCoeffMul_scaled, same, notOne, kept]

/-- The matches of a multiple of a variable are the strides of its value. -/
theorem matchesOf_monomialOf (keeps : KeepsMultiples simplify) (nonzero : stride ≠ 0)
    (remaining : List (ℕ × ℕ)) :
    (matchesOf simplify remaining (monomialOf stride name)).map (fun found => found.2.1) =
        (remaining.filter (sameStride stride)).map Prod.snd ∧
      ∀ found ∈ matchesOf simplify remaining (monomialOf stride name),
        remaining[found.1]? = some (stride, found.2.1) ∧ found.2.2 = .sym name := by
  constructor
  · unfold matchesOf
    generalize 0 = start
    induction remaining generalizing start with
    | nil => rfl
    | cons entry rest inductionHypothesis =>
        have inside := inductionHypothesis (start + 1)
        by_cases same : entry.1 = stride <;>
          simp_all [List.zipIdx_cons, dividesEvenly_monomialOf keeps nonzero, sameStride]
  · rintro ⟨i, tileStride, loopVarPart⟩ listed
    obtain ⟨⟨entry, j⟩, inRemaining, isFound⟩ := List.mem_filterMap.mp listed
    have inside := List.mem_zipIdx_iff_getElem?.mp inRemaining
    simp only [dividesEvenly_monomialOf keeps nonzero] at isFound
    split at isFound
    next same =>
      simp only [Option.map_some, Option.some.injEq, Prod.mk.injEq] at isFound
      obtain ⟨rfl, rfl, rfl⟩ := isFound
      exact ⟨by rw [inside, ← same], rfl⟩
    next => cases isFound

/-! ## Terms of an index -/

section Terms

variable {rank : ℕ} {size stride tileStride : Dims rank} {stripConstant rejectAmbiguous : Bool}
  {var : Fin rank → Symbol}

def stridePairs (stride tileStride : Dims rank) : List (ℕ × ℕ) :=
  (List.finRange rank).map fun dim => (stride dim, tileStride dim)

/-- The dims that a term of this dim may stand for, in dim order. -/
def rivals (stride : Dims rank) (dim : Fin rank) : List (Fin rank) :=
  (List.finRange rank).filter fun other => stride other = stride dim

/-- The dim that a term of this dim is given. -/
def firstRival (stride : Dims rank) (dim : Fin rank) : Fin rank := (rivals stride dim).headD dim

theorem mem_rivals {dim other : Fin rank} : other ∈ rivals stride dim ↔ stride other = stride dim := by
  simp [rivals]

theorem exists_rivals (stride : Dims rank) (dim : Fin rank) :
    ∃ rest, rivals stride dim = firstRival stride dim :: rest := by
  have listed : dim ∈ rivals stride dim := mem_rivals.2 rfl
  cases found : rivals stride dim with
  | nil => simp [found] at listed
  | cons first rest => exact ⟨rest, by simp [firstRival, found]⟩

theorem filter_stridePairs (dim : Fin rank) :
    ((stridePairs stride tileStride).filter (sameStride (stride dim))).map Prod.snd =
      (rivals stride dim).map tileStride := by
  rw [stridePairs, List.filter_map, List.map_map]
  rfl

/-- A term of an index: a constant, or the stride of a dim times the dim's variable. -/
def itemTerm (stride : Dims rank) (var : Fin rank → Symbol) : ℤ ⊕ Fin rank → Expr
  | .inl value => .const value
  | .inr dim => monomialOf (stride dim) (var dim)

def dimsOf (items : List (ℤ ⊕ Fin rank)) : List (Fin rank) := items.filterMap Sum.getRight?

def constantOf (items : List (ℤ ⊕ Fin rank)) : ℤ := (items.filterMap Sum.getLeft?).sum

/-- The sum of a stride for each of the dims times the dim's variable. -/
def strideSum (strides : Dims rank) (var : Fin rank → Symbol) (dims : List (Fin rank))
    (point : Point) : ℚ :=
  (dims.map fun dim => (strides dim : ℚ) * point (var dim)).sum

/-- A term takes the tile stride of its first rival, which must be the one of every rival when
ambiguity is rejected. -/
theorem rescaleTerm_dim (keeps : KeepsMultiples simplify) {dim : Fin rank}
    (nonzero : stride dim ≠ 0) {state : Rescaling}
    (untouched : state.remaining.filter (sameStride (stride dim)) =
      (stridePairs stride tileStride).filter (sameStride (stride dim))) :
    (rejectAmbiguous = true ∧ ∃ error, rescaleTerm simplify stripConstant rejectAmbiguous state
        (itemTerm stride var (.inr dim)) = .error error) ∨
      (rejectAmbiguous = true → tileStride (firstRival stride dim) = tileStride dim) ∧
      ∃ i, state.remaining[i]? = some (stride dim, tileStride (firstRival stride dim)) ∧
        rescaleTerm simplify stripConstant rejectAmbiguous state (itemTerm stride var (.inr dim)) =
          .ok ⟨state.remaining.eraseIdx i, state.newIndex.add
            (.mul (.const (tileStride (firstRival stride dim))) (.sym (var dim)))⟩ := by
  obtain ⟨tiles, places⟩ :=
    @matchesOf_monomialOf simplify (stride dim) (var dim) keeps nonzero state.remaining
  obtain ⟨rest, areRivals⟩ := exists_rivals stride dim
  rw [untouched, filter_stridePairs, areRivals, List.map_cons] at tiles
  unfold rescaleTerm
  rw [if_neg (show (itemTerm stride var (.inr dim)).freeSymbols ≠ [] from freeSymbols_monomialOf)]
  simp only [itemTerm]
  cases found : matchesOf simplify state.remaining (monomialOf (stride dim) (var dim)) with
  | nil => simp [found] at tiles
  | cons first others =>
      obtain ⟨i, taken, loopVarPart⟩ := first
      rw [found, List.map_cons, List.cons.injEq] at tiles
      obtain ⟨isTaken, othersTiles⟩ := tiles
      obtain ⟨place, isVar⟩ := places (i, taken, loopVarPart) (by simp [found])
      simp only at isTaken place isVar
      subst isTaken isVar
      simp only
      split
      next ambiguous => exact .inl ⟨ambiguous.1, _, rfl⟩
      next clear =>
        refine .inr ⟨?_, i, place, rfl⟩
        intro rejects
        have agree : ∀ other ∈ rest, tileStride other = tileStride (firstRival stride dim) := by
          intro other listed
          have inOthers : tileStride other ∈ others.map fun found => found.2.1 := by
            rw [othersTiles]
            exact List.mem_map_of_mem listed
          obtain ⟨entry, entryListed, isOther⟩ := List.mem_map.mp inOthers
          by_contra different
          apply clear
          refine ⟨rejects, List.any_eq_true.mpr ⟨entry, entryListed, ?_⟩⟩
          simpa [isOther] using different
        have own : dim ∈ rivals stride dim := mem_rivals.2 rfl
        rw [areRivals] at own
        rcases List.mem_cons.mp own with isFirst | later
        · rw [← isFirst]
        · exact (agree dim later).symm

/-- Terms of distinct strides are rescaled each on its own. -/
theorem foldlM_rescaleTerm (keeps : KeepsMultiples simplify) {items : List (ℤ ⊕ Fin rank)}
    {state : Rescaling}
    (distinct : (dimsOf items).Pairwise fun first second => stride first ≠ stride second)
    (nonzero : ∀ dim ∈ dimsOf items, stride dim ≠ 0)
    (untouched : ∀ dim ∈ dimsOf items, state.remaining.filter (sameStride (stride dim)) =
      (stridePairs stride tileStride).filter (sameStride (stride dim))) :
    (rejectAmbiguous = true ∧ ∃ error, (items.map (itemTerm stride var)).foldlM
        (rescaleTerm simplify stripConstant rejectAmbiguous) state = .error error) ∨
      ∃ final, (items.map (itemTerm stride var)).foldlM
          (rescaleTerm simplify stripConstant rejectAmbiguous) state = .ok final ∧
        (rejectAmbiguous = true → ∀ dim ∈ dimsOf items,
          tileStride (firstRival stride dim) = tileStride dim) ∧
        ∀ point, final.newIndex.eval point = state.newIndex.eval point +
          (if stripConstant then 0 else (constantOf items : ℚ)) +
          strideSum (fun dim => tileStride (firstRival stride dim)) var (dimsOf items) point := by
  induction items generalizing state with
  | nil =>
      refine .inr ⟨state, rfl, fun _ _ listed => absurd listed List.not_mem_nil, fun point => ?_⟩
      simp [dimsOf, constantOf, strideSum]
  | cons item items inductionHypothesis =>
      rw [List.map_cons, List.foldlM_cons]
      cases item with
      | inl value =>
          have stepped : rescaleTerm simplify stripConstant rejectAmbiguous state
              (itemTerm stride var (.inl value)) = .ok (if stripConstant then state
                else { state with newIndex := state.newIndex.add (.const value) }) := rfl
          have kept : (if stripConstant then state
              else { state with newIndex := state.newIndex.add (.const value) }).remaining =
                state.remaining := by
            split <;> rfl
          rw [← kept] at untouched
          rw [stepped]
          rcases inductionHypothesis distinct nonzero untouched with
            rejected | ⟨final, folded, agree, sum⟩
          · exact .inl rejected
          · refine .inr ⟨final, folded, agree, fun point => ?_⟩
            have constants : constantOf (.inl value :: items) = value + constantOf items := rfl
            rw [sum point, constants]
            cases stripConstant with
            | true => rfl
            | false =>
                simp only [Expr.eval, Bool.false_eq_true, if_false, Int.cast_add, add_assoc]
                rfl
      | inr dim =>
          have dims : dimsOf (.inr dim :: items) = dim :: dimsOf items := rfl
          rw [dims, List.pairwise_cons] at distinct
          rw [dims, List.forall_mem_cons] at nonzero untouched
          rcases @rescaleTerm_dim simplify rank stride tileStride stripConstant rejectAmbiguous var
              keeps dim nonzero.1 state untouched.1 with ⟨rejects, error, stepped⟩ | ⟨own, i, place, stepped⟩
          · exact .inl ⟨rejects, error, by rw [stepped]; rfl⟩
          · have laterUntouched : ∀ other ∈ dimsOf items,
                (state.remaining.eraseIdx i).filter (sameStride (stride other)) =
                  (stridePairs stride tileStride).filter (sameStride (stride other)) := by
              intro other listed
              rw [filter_eraseIdx place (distinct.1 other listed), untouched.2 other listed]
            rw [stepped]
            rcases @inductionHypothesis ⟨state.remaining.eraseIdx i, state.newIndex.add
                (.mul (.const (tileStride (firstRival stride dim))) (.sym (var dim)))⟩
                distinct.2 nonzero.2 laterUntouched with
              rejected | ⟨final, folded, agree, sum⟩
            · exact .inl rejected
            · refine .inr ⟨final, folded, ?_, fun point => ?_⟩
              · intro rejects
                rw [dims, List.forall_mem_cons]
                exact ⟨own rejects, agree rejects⟩
              · have constants : constantOf (.inr dim :: items) = constantOf items := rfl
                rw [sum point, constants, dims]
                simp only [Expr.eval, strideSum, List.map_cons, List.sum_cons]
                ring

theorem strideSum_congr {first second : Dims rank} {dims : List (Fin rank)}
    (same : ∀ dim ∈ dims, first dim = second dim) (point : Point) :
    strideSum first var dims point = strideSum second var dims point := by
  unfold strideSum
  rw [List.map_congr_left fun dim listed => by rw [same dim listed]]

theorem strideSum_filter {strides : Dims rank} {dims : List (Fin rank)} {keep : Fin rank → Bool}
    (vanish : ∀ dim ∈ dims, keep dim = false → strides dim = 0) (point : Point) :
    strideSum strides var (dims.filter keep) point = strideSum strides var dims point := by
  induction dims with
  | nil => rfl
  | cons dim dims inductionHypothesis =>
      rw [List.forall_mem_cons] at vanish
      have inside := inductionHypothesis vanish.2
      cases kept : keep dim with
      | true => simpa [strideSum, kept] using inside
      | false => simpa [strideSum, kept, vanish.1 kept] using inside

/-- One where the variable is the dim's, else zero. -/
def unitPoint (name : Symbol) : Point := fun other => if other = name then 1 else 0

theorem strideSum_unitPoint {strides : Dims rank} {dims : List (Fin rank)} {dim : Fin rank}
    (distinct : dims.Nodup) (listed : dim ∈ dims)
    (named : ∀ other ∈ dims, var other = var dim → other = dim) :
    strideSum strides var dims (unitPoint (var dim)) = strides dim := by
  have isolated : strideSum strides var dims (unitPoint (var dim)) =
      strideSum strides var (dims.filter fun other => other = dim) (unitPoint (var dim)) := by
    clear listed distinct
    induction dims with
    | nil => rfl
    | cons other dims inductionHypothesis =>
        rw [List.forall_mem_cons] at named
        have inside := inductionHypothesis named.2
        by_cases same : other = dim
        · simpa [strideSum, same] using inside
        · have apart : var other ≠ var dim := fun sameName => same (named.1 sameName)
          simpa [strideSum, same, unitPoint, apart] using inside
  rw [isolated, List.filter_eq, List.count_eq_one_of_mem distinct listed]
  simp [strideSum, unitPoint]

end Terms

/-! ## Dense buffers -/

section Buffers

variable {rank : ℕ} {size stride tileSize tileStride : Dims rank}
  {stripConstant rejectAmbiguous : Bool} {var : Fin rank → Symbol}

/-- The dims, innermost first, are laid out without gaps. -/
def DenseFrom (size stride : Dims rank) : ℕ → List (Fin rank) → Prop
  | _, [] => True
  | elements, dim :: outer => stride dim = elements ∧ DenseFrom size stride (elements * size dim) outer

/-- A dense buffer, written with its dims in some order. -/
def Dense (size stride : Dims rank) : Prop :=
  ∃ order : List (Fin rank), order.Perm (List.finRange rank) ∧ DenseFrom size stride 1 order

theorem DenseFrom.stride_eq {elements : ℕ} {inside outside : List (Fin rank)} {dim : Fin rank}
    (dense : DenseFrom size stride elements (inside ++ dim :: outside)) :
    stride dim = elements * (inside.map size).prod := by
  induction inside generalizing elements with
  | nil => simpa using dense.1
  | cons inner inside inductionHypothesis =>
      rw [inductionHypothesis dense.2, List.map_cons, List.prod_cons, Nat.mul_assoc]

/-- Of two dims of one stride, the inner one has extent one. -/
theorem Dense.size_eq_one {dim other : Fin rank} (dense : Dense size stride) (apart : other ≠ dim)
    (same : stride other = stride dim) (nonzero : stride dim ≠ 0) (spans : 1 < size dim) :
    size other = 1 := by
  obtain ⟨order, permuted, gapless⟩ := dense
  have inner : ∀ {first second : Fin rank} {inside between outside : List (Fin rank)},
      order = inside ++ first :: (between ++ second :: outside) → stride first = stride second →
      stride second ≠ 0 → size first = 1 := by
    intro first second inside between outside split equal nonzero
    have isFirst : stride first = (inside.map size).prod := by
      have from1 := gapless
      rw [split] at from1
      simpa using from1.stride_eq
    have isSecond : stride second = ((inside ++ first :: between).map size).prod := by
      have from1 := gapless
      rw [split, ← List.cons_append, ← List.append_assoc] at from1
      simpa using from1.stride_eq
    rw [List.map_append, List.prod_append, ← isFirst, List.map_cons, List.prod_cons] at isSecond
    have positive : 0 < stride first := Nat.pos_of_ne_zero (equal ▸ nonzero)
    have one : size first * (between.map size).prod = 1 := by
      apply Nat.eq_of_mul_eq_mul_left positive
      rw [← isSecond, ← equal, Nat.mul_one]
    exact Nat.eq_one_of_mul_eq_one_right one
  have listed : dim ∈ order := permuted.mem_iff.mpr (List.mem_finRange dim)
  have otherListed : other ∈ order := permuted.mem_iff.mpr (List.mem_finRange other)
  obtain ⟨inside, outside, split⟩ := List.append_of_mem listed
  rw [split] at otherListed
  rcases List.mem_append.mp otherListed with before | after
  · obtain ⟨inmost, between, innerSplit⟩ := List.append_of_mem before
    exact @inner other dim inmost between outside (by simp [split, innerSplit]) same nonzero
  · have later : other ∈ outside := (List.mem_cons.mp after).resolve_left apart
    obtain ⟨between, outmost, outerSplit⟩ := List.append_of_mem later
    have one := @inner dim other inside between outmost (by rw [split, outerSplit]) same.symm
      (same ▸ nonzero)
    omega

def spannedDims (size : Dims rank) : List (Fin rank) :=
  (List.finRange rank).filter fun dim => 1 < size dim

/-- A constant plus the stride times the variable of each dim of extent above one. -/
def IndexOver (size stride : Dims rank) (var : Fin rank → Symbol) (constant : ℤ) (index : Expr) :
    Prop :=
  ∃ items : List (ℤ ⊕ Fin rank), index.addends = items.map (itemTerm stride var) ∧
    constantOf items = constant ∧
    (dimsOf items).Perm ((spannedDims size).filter fun dim => stride dim ≠ 0)

/-- What is returned is the constant and the tile stride of each dim times its variable. -/
def RescalesExactly (simplify : Expr → Expr) (size stride tileStride : Dims rank)
    (var : Fin rank → Symbol) (constant : ℤ) (index : Expr) (stripConstant rejectAmbiguous : Bool) :
    Prop :=
  ∀ result, rescaleIndex simplify index (stridePairs stride tileStride) stripConstant
      rejectAmbiguous = .ok result →
    ∀ point, result.eval point =
      (if stripConstant then 0 else (constant : ℚ)) +
        strideSum tileStride var (spannedDims size) point

theorem firstRival_le {dim other : Fin rank} (same : stride other = stride dim) :
    firstRival stride dim ≤ other := by
  have sorted : (rivals stride dim).Pairwise (· < ·) := (List.pairwise_lt_finRange rank).filter _
  have listed : other ∈ rivals stride dim := mem_rivals.mpr same
  obtain ⟨rest, areRivals⟩ := exists_rivals stride dim
  rw [areRivals, List.pairwise_cons] at sorted
  rw [areRivals] at listed
  rcases List.mem_cons.mp listed with isFirst | later
  · exact isFirst.ge
  · exact (sorted.1 other later).le

theorem stride_firstRival (dim : Fin rank) : stride (firstRival stride dim) = stride dim := by
  obtain ⟨rest, areRivals⟩ := exists_rivals stride dim
  exact mem_rivals.mp (areRivals ▸ List.mem_cons_self)

theorem tileStride_irregular (tiled : computeTileStride size stride tileSize = .ok tileStride)
    {dim : Fin rank} (irregular : ¬ Regular size stride dim) : tileStride dim = 0 := by
  rw [(computeTileStride_spec tiled).2.2 dim, if_neg fun both => irregular both.1]

/-- The terms get their own tile strides exactly when no tiled dim has an earlier rival. -/
theorem tileStride_firstRival_iff (dense : Dense size stride)
    (tiled : computeTileStride size stride tileSize = .ok tileStride) :
    (∀ dim ∈ (spannedDims size).filter fun dim => stride dim ≠ 0,
        tileStride (firstRival stride dim) = tileStride dim) ↔
      ∀ earlier dim, earlier < dim → 1 < size dim → stride earlier = stride dim →
        tileStride dim = 0 := by
  have degenerate : ∀ dim, firstRival stride dim ≠ dim → 1 < size dim → stride dim ≠ 0 →
      tileStride (firstRival stride dim) = 0 := by
    intro dim apart spans nonzero
    have one := dense.size_eq_one apart (stride_firstRival dim) nonzero spans
    exact tileStride_irregular tiled fun regular => regular.1 one
  constructor
  · intro own earlier dim before spans same
    by_cases zero : stride dim = 0
    · exact tileStride_irregular tiled fun regular => regular.2 zero
    · rw [← own dim (by simp [spannedDims, spans, zero])]
      apply degenerate dim _ spans zero
      exact ((firstRival_le same).trans_lt before).ne
  · intro alone dim listed
    have facts : stride dim ≠ 0 ∧ 1 < size dim := by simpa [spannedDims] using listed
    by_cases isFirst : firstRival stride dim = dim
    · rw [isFirst]
    · have before := lt_of_le_of_ne (firstRival_le rfl) isFirst
      rw [degenerate dim isFirst facts.2 facts.1,
        alone _ dim before facts.2 (stride_firstRival dim)]

theorem indexOver_strides (dense : Dense size stride) {items : List (ℤ ⊕ Fin rank)}
    (dims : (dimsOf items).Perm ((spannedDims size).filter fun dim => stride dim ≠ 0)) :
    (dimsOf items).Pairwise (fun first second => stride first ≠ stride second) ∧
      ∀ dim ∈ dimsOf items, stride dim ≠ 0 := by
  have nodup : (dimsOf items).Nodup :=
    dims.nodup_iff.mpr (((List.nodup_finRange rank).filter _).filter _)
  have facts : ∀ dim ∈ dimsOf items, 1 < size dim ∧ stride dim ≠ 0 := by
    intro dim listed
    have inside := dims.mem_iff.mp listed
    simpa [spannedDims, and_comm] using inside
  refine ⟨?_, fun dim listed => (facts dim listed).2⟩
  refine nodup.imp_of_mem ?_
  intro first second firstListed secondListed apart same
  have one := dense.size_eq_one apart same (facts second secondListed).2 (facts second secondListed).1
  have spans := (facts first firstListed).1
  omega

/-- The index is rescaled dim by dim exactly when ambiguity is rejected or no tiled dim has an
earlier dim of its stride. -/
theorem rescaleIndex_exact_iff (keeps : KeepsMultiples simplify) (dense : Dense size stride)
    (tiled : computeTileStride size stride tileSize = .ok tileStride)
    (named : ∀ first ∈ spannedDims size, ∀ second ∈ spannedDims size,
      var first = var second → first = second)
    {constant : ℤ} {index : Expr} (isIndex : IndexOver size stride var constant index) :
    RescalesExactly simplify size stride tileStride var constant index stripConstant
        rejectAmbiguous ↔
      rejectAmbiguous = true ∨ ∀ earlier dim, earlier < dim → 1 < size dim →
        stride earlier = stride dim → tileStride dim = 0 := by
  obtain ⟨items, isItems, isConstant, dims⟩ := isIndex
  obtain ⟨distinct, nonzero⟩ := indexOver_strides dense dims
  have whole : ∀ point, strideSum tileStride var (spannedDims size) point =
      strideSum tileStride var (dimsOf items) point := by
    intro point
    have permuted : strideSum tileStride var (dimsOf items) point =
        strideSum tileStride var ((spannedDims size).filter fun dim => stride dim ≠ 0) point :=
      (dims.map _).sum_eq
    rw [permuted, strideSum_filter]
    intro dim _ zero
    exact tileStride_irregular tiled fun regular => of_decide_eq_false zero regular.2
  rw [← tileStride_firstRival_iff dense tiled]
  unfold RescalesExactly
  rw [rescaleIndex, isItems]
  rcases @foldlM_rescaleTerm simplify rank stride tileStride stripConstant rejectAmbiguous var keeps
      items ⟨sortStrides (stridePairs stride tileStride), .const 0⟩ distinct nonzero
      (fun dim _ => filter_sortStrides _ _) with
    ⟨rejects, error, failed⟩ | ⟨final, folded, agree, value⟩
  · rw [failed]
    refine iff_of_true ?_ (.inl rejects)
    rintro result returned
    cases returned
  · rw [folded]
    have sum : ∀ point, final.newIndex.eval point =
        (if stripConstant then 0 else (constant : ℚ)) +
          strideSum (fun dim => tileStride (firstRival stride dim)) var (dimsOf items) point := by
      intro point
      rw [value point, isConstant]
      simp [Expr.eval]
    constructor
    · intro exact
      right
      intro dim listed
      have inDims : dim ∈ dimsOf items := dims.mem_iff.mpr listed
      have atUnit := exact final.newIndex rfl (unitPoint (var dim))
      rw [sum, whole, add_right_inj] at atUnit
      have nodup : (dimsOf items).Nodup := distinct.imp fun apart same => apart (congrArg stride same)
      have spanned : ∀ other ∈ dimsOf items, other ∈ spannedDims size :=
        fun other found => List.mem_of_mem_filter (dims.mem_iff.mp found)
      have apart : ∀ other ∈ dimsOf items, var other = var dim → other = dim :=
        fun other found => named other (spanned other found) dim (spanned dim inDims)
      rw [strideSum_unitPoint nodup inDims apart, strideSum_unitPoint nodup inDims apart] at atUnit
      exact_mod_cast atUnit
    · rintro own result returned point
      cases returned
      have same : ∀ dim ∈ dimsOf items, tileStride (firstRival stride dim) = tileStride dim := by
        rcases own with rejects | own
        · exact agree rejects
        · exact fun dim listed => own dim (dims.mem_iff.mp listed)
      rw [sum point, whole point, strideSum_congr same]

end Buffers

/-- Four rows of eight under a dim of extent one. -/
theorem rescaleIndex_exact_rows :
    computeTileStride ![1, 4, 8] ![32, 8, 1] ![1, 4, 2] = .ok ![0, 2, 1] ∧
    RescalesExactly id ![1, 4, 8] ![32, 8, 1] ![0, 2, 1] !["c0", "c1", "c2"] 5
      (((Expr.mul (.const 8) (.sym "c1")).add (.sym "c2")).add (.const 5)) false false := by
  have tiled : computeTileStride ![1, 4, 8] ![32, 8, 1] ![1, 4, 2] = .ok ![0, 2, 1] := by
    refine Eq.trans rfl (congrArg Except.ok (funext fun dim => ?_))
    fin_cases dim <;> rfl
  have dense : Dense ![1, 4, 8] ![32, 8, 1] := ⟨[2, 1, 0], by decide, rfl, rfl, rfl, trivial⟩
  refine ⟨tiled, (rescaleIndex_exact_iff (fun _ _ => rfl) dense tiled (by decide) ?_).mpr
    (.inr (by decide))⟩
  refine ⟨[.inr 1, .inr 2, .inl 5], ?_, rfl, by decide⟩
  simp [Expr.addends, itemTerm, monomialOf, scaled]

/-- A column of eight, transposed: the dim of extent one comes first and takes the term. -/
theorem rescaleIndex_drops_term :
    Dense ![1, 8] ![1, 1] ∧ computeTileStride ![1, 8] ![1, 1] ![1, 4] = .ok ![0, 1] ∧
    IndexOver ![1, 8] ![1, 1] !["c0", "c1"] 0 (.sym "c1") ∧
    ∃ result, rescaleIndex id (.sym "c1") (stridePairs ![1, 1] ![0, 1]) false false = .ok result ∧
      (∀ point, result.eval point = 0) ∧
      ¬ RescalesExactly id ![1, 8] ![1, 1] ![0, 1] !["c0", "c1"] 0 (.sym "c1") false false := by
  have returned : rescaleIndex id (.sym "c1") (stridePairs ![1, 1] ![0, 1]) false false =
      .ok ((Expr.const 0).add ((Expr.const 0).mul (.sym "c1"))) := by
    decide +kernel
  refine ⟨⟨[0, 1], by decide, rfl, rfl, trivial⟩, ?_, ?_, _, returned, ?_, ?_⟩
  · refine Eq.trans rfl (congrArg Except.ok (funext fun dim => ?_))
    fin_cases dim <;> rfl
  · refine ⟨[.inr 1], ?_, rfl, by decide⟩
    simp [Expr.addends, itemTerm, monomialOf, scaled]
  · simp [Expr.eval]
  · intro exact
    have atOne := exact _ returned fun _ => 1
    have spanned : spannedDims (![1, 8] : Dims 2) = [1] := by decide
    simp [Expr.eval, strideSum, spanned] at atOne

end TorchSpyre.CoarseTiling
