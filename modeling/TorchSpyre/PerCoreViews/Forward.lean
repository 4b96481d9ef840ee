import Mathlib
import TorchSpyre.PerCoreViews.Prep

/-!
# `_per_core_view_from_prep`

The slices of a buffer that a division of the loops gives to the cores.  Each split that slices
the buffer is placed on one device dimension by its host stride; a placement that cannot be
proved is decomposed onto several dimensions, or the view is not representable.
-/

namespace TorchSpyre.PerCoreViews

open Lib Lib.Symbolic Ownership

/-! ## One axis -/

inductive DirectAxisFailure where
  | proofLimit (extent : ℕ)
  | unsupportedInput
  | splitCountsDiffer
  | crosses
  | notDistinct
  | differentOwners
  | evaluation (cause : RegionError)
  deriving DecidableEq

/-- `direct_axis_ownership_failure` -/
def directAxisOwnershipFailure (sympy : Sympy) (extent split : ℕ) (coordinate : Expr)
    (deviceExtent physicalSplit : ℕ) : Option DirectAxisFailure :=
  if maxExactDirectAxisPoints < extent then some (.proofLimit extent)
  else if split = 0 ∨ extent % split ≠ 0 ∨ deviceExtent = 0 ∨ deviceExtent % split ≠ 0 then
    some .unsupportedInput
  else if split ≠ physicalSplit then some .splitCountsDiffer
  else
    match loopRegions sympy extent [coordinate] [deviceExtent] split false with
    | .error cause => some (.evaluation cause)
    | .ok regions =>
        let width : ℕ := deviceExtent / split
        let bounds := regions.flatten
        if bounds.any fun bound => bound.1 / width ≠ bound.2 / width then some .crosses
        else
          let signatures := bounds.map fun bound => bound.1 / (width : ℤ)
          if signatures.dedup.length ≠ split then some .notDistinct
          else if signatures ≠ (List.range split).map fun slot => (slot : ℤ) then
            some .differentOwners
          else none

/-! ## Placing one split -/

section Placement

variable (config : ViewConfig) (sympy : Sympy) (concretize : Expr → ℕ) (prep : ViewPrep)
  (splits : Dict Symbol ℕ)

def loopExtent (sym : Symbol) : ℕ := (prep.iterSpace.lookup sym).elim 0 concretize

/-- A loop longer than the stickified axis owns something compound. -/
def spansBeyond (stride : ℤ) (sym : Symbol) : Bool :=
  decide (prep.stickHostStride = some stride) && (prep.directDim stride).isSome &&
    decide (prep.numStick * prep.elemsPerStick < loopExtent concretize prep sym)

def drivenBy (sym : Symbol) : List ℕ :=
  (prep.depDeviceCoordinates.zipIdx.filter fun entry => sym ∈ entry.1.freeSymbols).map Prod.snd

/-- The one axis that a loop without a stride match drives, when it is proved to own slices. -/
def repackedDim (sym : Symbol) (split : ℕ) (dim : Option ℕ) : Option ℕ :=
  if dim = none ∧ config.lxPlannerRelayout = true ∧ config.lxExtendedOwnership = true then
    match drivenBy prep sym with
    | [axis] =>
        if axis ≠ prep.deviceSize.length - 1 ∧ prep.sizeOf axis % split = 0 ∧
            ∀ other ∈ (prep.coordinateOf axis).freeSymbols, other ≠ sym →
              prep.perSym splits other = 1 then
          match projectSliceAxis sympy (prep.coordinateOf axis) (prep.sizeOf axis) split
              prep.iterSpace.entries true with
          | some (loop, _) => if loop = sym then some axis else none
          | none => none
        else none
    | _ => none
  else dim

/-- A stride of several sticks that covers the stick count, with the factor to report. -/
def rescued (stride : ℤ) (split : ℕ) (dim : Option ℕ) : Option ℕ × ℕ :=
  if dim = none ∧ 0 < prep.numStickStride ∧ stride % prep.numStickStride = 0 ∧
      split * (stride / prep.numStickStride) = prep.numStick then
    (prep.numStickDim, (split * (stride / prep.numStickStride)).toNat)
  else (dim, split)

/-- A loop that drives several axes has to own the slices of the proposed one. -/
def ownsSlices (stride : ℤ) (sym : Symbol) (factor dim : ℕ) : Bool :=
  if 1 < (drivenBy prep sym).length then
    let extent := loopExtent concretize prep sym
    let padded := prep.numStick * prep.elemsPerStick
    -- Sticks are atomic: a loop over the whole stickified axis is proved in padded elements.
    let extent :=
      if prep.stickHostStride = some stride ∧ padded < extent + prep.elemsPerStick ∧
        extent ≤ padded then padded
      else extent
    directAxisOwnershipFailure sympy extent (prep.perSym splits sym)
      ((prep.coordinateOf dim).replaceSymbol sym (.sym loopPoint)) (prep.sizeOf dim) factor = none
  else true

/-- An unsplit outer loop on the same dimension interleaves the slices. -/
def interleaved (stride : ℤ) (sym : Symbol) (dim : ℕ) : Bool :=
  (prep.coordinateOf dim).freeSymbols.any fun other =>
    decide (other ≠ sym ∧ prep.perSym splits other ≤ 1 ∧ stride < prep.hostStride other)

structure Placed where
  workSliceDims : List (ℕ × ℕ)
  symToDeviceDim : List (Symbol × ℕ)
  decomposedCoreToSlot : List (ℕ × Expr)

def proposedDim (stride : ℤ) (split : ℕ) (sym : Symbol) : Option ℕ × ℕ :=
  let (dim, factor) := rescued prep stride split
    (repackedDim config sympy prep splits sym split (prep.directDim stride))
  (dim.filter (ownsSlices sympy concretize prep splits stride sym factor), factor)

/-- A split on several dimensions, where relayouts are planned. -/
def decomposeSplit (mapping : Except OwnershipError (Option (List (Symbol × Expr)))) (numCores : ℕ)
    (placed : Placed) (factor : ℕ) (sym : Symbol) : Except OwnershipError (Option Placed) :=
  if !config.lxPlannerRelayout then .ok none
  else do
    match ← mapping with
    | none => return none
    | some mapping =>
        match mapping.lookup sym with
        | none => return none
        | some formula =>
            let owned := prep.tensorOwnedSplitSymbols splits
            let ownership : TensorWorkDivision := {
              workSlices := owned.map fun dim => (dim, prep.perSym splits dim)
              coreIdToWorkSlice := owned.filterMap fun dim => (mapping.lookup dim).map (dim, ·)
              numCores := some numCores }
            match decomposeFusedSplitView sympy sym factor formula ownership prep.iterSpace.entries
                prep.deviceSize prep.depDeviceCoordinates numCores with
            | .error _ => return none
            | .ok (decomposed, slots) =>
                let dims := decomposed.map Prod.fst
                if prep.deviceSize.length - 1 ∈ dims ∨
                    ∃ dim ∈ dims, dim ∈ placed.workSliceDims.map Prod.fst then return none
                else
                  return some { placed with
                    workSliceDims := placed.workSliceDims ++ decomposed
                    decomposedCoreToSlot := placed.decomposedCoreToSlot ++ slots }

/-- One entry of the splits by stride; `none` where the view is not representable. -/
def placeSplit (mapping : Except OwnershipError (Option (List (Symbol × Expr)))) (numCores : ℕ)
    (placed : Placed) (entry : ℤ × ℕ × Symbol) : Except OwnershipError (Option Placed) :=
  let (stride, split, sym) := entry
  if spansBeyond concretize prep stride sym then .ok none
  else
    match proposedDim config sympy concretize prep splits stride split sym with
    | (none, factor) => decomposeSplit config sympy prep splits mapping numCores placed factor sym
    | (some dim, factor) =>
        if interleaved prep splits stride sym dim then .ok none
        else if dim ∈ placed.workSliceDims.map Prod.fst ∨ prep.sizeOf dim % factor ≠ 0 then
          decomposeSplit config sympy prep splits mapping numCores placed factor sym
        else
          .ok (some { placed with
            workSliceDims := placed.workSliceDims ++ [(dim, factor)]
            symToDeviceDim := placed.symToDeviceDim ++ [(sym, dim)] })

def placeSplits (mapping : Except OwnershipError (Option (List (Symbol × Expr)))) (numCores : ℕ)
    (placed : Placed) : List (ℤ × ℕ × Symbol) → Except OwnershipError (Option Placed)
  | [] => .ok (some placed)
  | entry :: entries => do
      match ← placeSplit config sympy concretize prep splits mapping numCores placed entry with
      | none => return none
      | some next => placeSplits mapping numCores next entries

end Placement

/-! ## The view -/

/-- The entries in the order of their keys. -/
def sortedByKey {Key Value : Type} [LE Key] [DecidableLE Key] (entries : List (Key × Value)) :
    List (Key × Value) :=
  entries.insertionSort fun first second => first.1 ≤ second.1

section View

variable (config : ViewConfig) (prep : ViewPrep) (splits : Dict Symbol ℕ)

/-- The position of the loop whose owners are adjacent. -/
def contiguousDim : Option ℕ :=
  if prep.isMatmul && config.coreIdKFastEmission then some (prep.iterSpace.keys.length - 1)
  else none

/-- The owner formula of each loop; `none` where a given ownership has other loops. -/
def iterationCoreToSlot (ownership : Option TensorWorkDivision) (numCores : ℕ) :
    Except OwnershipError (Option (List (Symbol × Expr))) :=
  match ownership with
  | some division =>
      if (division.workSlices.map Prod.fst).toFinset = prep.iterSpace.keys.toFinset ∧
          (division.coreIdToWorkSlice.map Prod.fst).toFinset = prep.iterSpace.keys.toFinset then
        .ok (some division.coreIdToWorkSlice)
      else .ok none
  | none => do
      let mapping ← coreToSliceMapping prep.iterSpace.keys (prep.iterSpace.keys.map (prep.perSym splits))
        numCores (contiguousDim config prep)
      return some mapping

end View

def unrepresentable (numCores : ℕ) : PerCoreView × Bool × Bool := (⟨[], [], some numCores⟩, false, false)

/-- The view, whether a reduction is split, and whether the view is representable. -/
def perCoreViewFromPrep (config : ViewConfig) (sympy : Sympy) (concretize : Expr → ℕ)
    (prep : Option ViewPrep) (splits reductionSplits : Dict Symbol ℕ)
    (ownership : Option TensorWorkDivision) : Except OwnershipError (PerCoreView × Bool × Bool) :=
  let numCores := ownership.elim splits.values.prod TensorWorkDivision.physicalCoreCount
  if !splits.values.any (1 < ·) then .ok (⟨[], [], some numCores⟩, false, true)
  else
    match prep with
    | none => .ok (unrepresentable numCores)
    | some prep => do
        let mapping := iterationCoreToSlot config prep splits ownership numCores
        let entries := sortedByKey (prep.splitsByStride splits).entries
        match ← placeSplits config sympy concretize prep splits mapping numCores ⟨[], [], []⟩
            entries with
        | none => return unrepresentable numCores
        | some placed =>
            match ← mapping with
            | none => return unrepresentable numCores
            | some mapping =>
                let slots := placed.symToDeviceDim.filterMap fun entry =>
                  (mapping.lookup entry.1).map (entry.2, ·)
                return ({
                  workSliceDims := sortedByKey placed.workSliceDims
                  coreToSlot := sortedByKey (slots ++ placed.decomposedCoreToSlot)
                  numCores := some numCores }, reductionSplits.values.any (1 < ·), true)

/-- `same_partition` -/
def samePartition (view other : PerCoreView) : Bool :=
  sameOwnerMaps view.workSliceDims view.coreToSlot
    (view.numCores.getD (view.workSliceDims.map Prod.snd).prod) other.workSliceDims other.coreToSlot
    (other.numCores.getD (other.workSliceDims.map Prod.snd).prod)

end TorchSpyre.PerCoreViews
