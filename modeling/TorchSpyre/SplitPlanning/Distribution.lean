import Mathlib
import TorchSpyre.Lib.Dict

/-!
# Distributing cores over an iteration space

`multi_dim_iteration_space_split`: mandatory factors first, then each output dimension in
priority order takes the largest legal factor that fits, then one reduction dimension.
-/

namespace TorchSpyre.SplitPlanning

open Lib

variable {Dim : Type} [DecidableEq Dim]

/-- The iteration space with sizes made concrete; `symbolMeta` has the maximum size and the
granularity of a symbolic dimension. -/
structure Ranges (Dim : Type) where
  iterationSpace : Dict Dim ℕ
  symbolMeta : Dict Dim (ℕ × ℕ)

/-- The legal split factors of the dimensions that have a domain. -/
abbrev Domains (Dim : Type) := Dict Dim (Finset ℕ)

inductive SplitError (Dim : Type) where
  | emptyDomain (dim : Dim)
  | mandatoryBudget (split : ℕ) (dim : Dim) (maxCores : ℕ)
  | outsideDomain (split : ℕ) (dim : Dim)
  | severalReductions (dims : List Dim)
  | noValidSplit (dim : Dim)
  | unknownDim (dim : Dim)
  | zeroDivision
  deriving DecidableEq

/-! ## Legal factors -/

namespace Ranges

variable (ranges : Ranges Dim)

/-- `_effective_size` -/
def effectiveSize (dim : Dim) : ℕ :=
  match ranges.symbolMeta.lookup dim with
  | some (maxSize, _) => maxSize
  | none => (ranges.iterationSpace.lookup dim).getD 1

/-- `_valid_divisor_basis` -/
def validDivisorBasis (dim : Dim) : ℕ :=
  match ranges.symbolMeta.lookup dim with
  | some (_, granularity) => granularity
  | none => (ranges.iterationSpace.lookup dim).getD 1

end Ranges

/-- The divisors in ascending order. -/
def divisors (basis : ℕ) : List ℕ := (List.range' 1 basis).filter (· ∣ basis)

theorem mem_divisors {basis factor : ℕ} : factor ∈ divisors basis ↔ 0 < basis ∧ factor ∣ basis := by
  simp only [divisors, List.mem_filter, List.mem_range'_1, decide_eq_true_iff]
  constructor
  · rintro ⟨⟨positive, below⟩, divides⟩
    exact ⟨by omega, divides⟩
  · rintro ⟨positive, divides⟩
    have := Nat.le_of_dvd positive divides
    have := Nat.pos_of_dvd_of_pos divides positive
    exact ⟨⟨by omega, by omega⟩, divides⟩

/-- `_legal_split_factors` -/
def legalSplitFactors (dim : Dim) (basis : ℕ) (allowedSplits : Domains Dim)
    (minSplits : Dict Dim ℕ) : List ℕ :=
  let factors :=
    match allowedSplits.lookup dim with
    | none => divisors basis
    | some domain => (divisors basis).filter (· ∈ domain)
  factors.filter fun split => (minSplits.lookup dim).getD 1 ≤ split

theorem mem_legalSplitFactors {dim : Dim} {basis : ℕ} {allowedSplits : Domains Dim}
    {minSplits : Dict Dim ℕ} {split : ℕ} :
    split ∈ legalSplitFactors dim basis allowedSplits minSplits ↔
      (0 < basis ∧ split ∣ basis) ∧ (∀ domain, allowedSplits.lookup dim = some domain → split ∈ domain) ∧
        (minSplits.lookup dim).getD 1 ≤ split := by
  rw [legalSplitFactors, List.mem_filter, decide_eq_true_iff, ← mem_divisors, ← and_assoc]
  refine and_congr_left fun _ => ?_
  cases allowedSplits.lookup dim with
  | none => simp
  | some domain => simp

/-- `_largest_legal_split_from` -/
def largestLegalSplitFrom (dim : Dim) (basis currentSplit coresUsed maxCores : ℕ)
    (allowedSplits : Domains Dim) (minSplits : Dict Dim ℕ) : Except (SplitError Dim) ℕ :=
  let legal := legalSplitFactors dim basis allowedSplits minSplits
  if currentSplit = 0 ∧ legal ≠ [] then .error .zeroDivision
  else
    .ok ((legal.reverse.find? fun split =>
      currentSplit ≤ split ∧ coresUsed / currentSplit * split ≤ maxCores).getD currentSplit)

/-! ## The three passes -/

structure Request (Dim : Type) where
  ranges : Ranges Dim
  maxCores : ℕ
  outputDims : List Dim
  reductionDims : List Dim
  minSplits : Dict Dim ℕ
  allowedSplits : Domains Dim

/-- The splits so far and their product, which is maintained beside them. -/
structure Splitting (Dim : Type) where
  splits : Dict Dim ℕ
  coresUsed : ℕ

/-- Replace a split by a larger factor. -/
def Splitting.replace (state : Splitting Dim) (dim : Dim) (split best : ℕ) : Splitting Dim :=
  ⟨state.splits.set dim best, state.coresUsed / split * best⟩

namespace Request

variable (request : Request Dim)

def basis (dim : Dim) : ℕ := request.ranges.validDivisorBasis dim

def legal (dim : Dim) : List ℕ :=
  legalSplitFactors dim (request.basis dim) request.allowedSplits request.minSplits

/-- A domain without one is a mandatory split as well: its least factor. -/
def reserveDomain (mandatory : Dict Dim ℕ) (entry : Dim × Finset ℕ) :
    Except (SplitError Dim) (Dict Dim ℕ) :=
  if 1 ∈ entry.2 ∨ (request.minSplits.lookup entry.1).isSome then .ok mandatory
  else
    match entry.2.min with
    | ⊤ => .error (.emptyDomain entry.1)
    | (least : ℕ) => .ok (mandatory.set entry.1 least)

def mandatorySplits : Except (SplitError Dim) (Dict Dim ℕ) :=
  request.allowedSplits.entries.foldlM request.reserveDomain request.minSplits

def satisfyMandatory (state : Splitting Dim) (entry : Dim × ℕ) :
    Except (SplitError Dim) (Splitting Dim) :=
  if request.maxCores < state.coresUsed * entry.2 then
    .error (.mandatoryBudget entry.2 entry.1 request.maxCores)
  else if (request.allowedSplits.lookup entry.1).any fun domain => entry.2 ∉ domain then
    .error (.outsideDomain entry.2 entry.1)
  else .ok ⟨state.splits.set entry.1 entry.2, state.coresUsed * entry.2⟩

def splitAt (splits : Dict Dim ℕ) (dim : Dim) : Except (SplitError Dim) ℕ :=
  match splits.lookup dim with
  | none => .error (.unknownDim dim)
  | some split => .ok split

def largestFrom (state : Splitting Dim) (dim : Dim) (split : ℕ) : Except (SplitError Dim) ℕ :=
  largestLegalSplitFrom dim (request.basis dim) split state.coresUsed request.maxCores
    request.allowedSplits request.minSplits

/-- The output dimensions in priority order, while cores are left. -/
def distributeOutput (state : Splitting Dim) : List Dim → Except (SplitError Dim) (Splitting Dim)
  | [] => .ok state
  | dim :: rest =>
      if request.maxCores ≤ state.coresUsed then .ok state
      else do
        let split ← splitAt state.splits dim
        let best ← request.largestFrom state dim split
        if split < best then distributeOutput (state.replace dim split best) rest
        else distributeOutput state rest

/-- `_most_splittable_dim`: the first dimension that grows the furthest. -/
def mostSplittableDim (state : Splitting Dim) :
    Option (Dim × ℕ) → List Dim → Except (SplitError Dim) (Option (Dim × ℕ))
  | best, [] => .ok best
  | best, dim :: rest => do
      let current ← splitAt state.splits dim
      let split ← request.largestFrom state dim current
      if current < split ∧ (best.map Prod.snd).getD 0 < split then
        mostSplittableDim state (some (dim, split)) rest
      else mostSplittableDim state best rest

def distributeReduction (state : Splitting Dim) (splitReductionDims : List Dim) :
    Except (SplitError Dim) (Splitting Dim) :=
  if request.reductionDims = [] ∨ request.maxCores ≤ state.coresUsed then .ok state
  else do
    let eligible := if splitReductionDims = [] then request.reductionDims else splitReductionDims
    match ← request.mostSplittableDim state none eligible with
    | none => .ok state
    | some (dim, best) => do
        let split ← splitAt state.splits dim
        .ok (state.replace dim split best)

end Request

/-- `multi_dim_iteration_space_split` -/
def multiDimIterationSpaceSplit (request : Request Dim) : Except (SplitError Dim) (Dict Dim ℕ) := do
  let mandatory ← request.mandatorySplits
  let start : Splitting Dim := ⟨request.ranges.iterationSpace.fromKeys 1, 1⟩
  let reserved ← mandatory.entries.foldlM request.satisfyMandatory start
  let reductions ← request.reductionDims.mapM (Request.splitAt reserved.splits)
  let splitReductionDims := ((request.reductionDims.zip reductions).filter fun entry =>
    1 < entry.2).map Prod.fst
  if 1 < splitReductionDims.length then .error (.severalReductions splitReductionDims)
  else do
    let distributed ← request.distributeOutput reserved request.outputDims
    let final ← request.distributeReduction distributed splitReductionDims
    .ok final.splits

end TorchSpyre.SplitPlanning
