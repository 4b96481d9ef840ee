import TorchSpyre.Ownership.LoopRegions
import TorchSpyre.Ownership.SliceOwnership

/-!
# `work_division_from_view`

The physical slices of a buffer, read through an access: which contiguous
partition of each loop a core owns.  A split axis is mapped to the one loop of
its coordinate, projected to one loop, or factored into digits, in which case the
function starts again on the expanded axes.
-/

namespace TorchSpyre.Ownership

open Lib Lib.Symbolic

def maxExactOwnershipPoints : ℕ := 1024

def maxExactDirectAxisPoints : ℕ := 65536

/-- Depth at which the interpreter stops a recursion. -/
def recursionLimit : ℕ := 1000

/-- A buffer's slices: the split of each device axis and the owner formula along it. -/
structure PerCoreView where
  workSliceDims : List (ℕ × ℕ)
  coreToSlot : List (ℕ × Expr)
  numCores : Option ℕ

/-! ## Axes and their loops -/

/-- A split axis whose slices are decided by one loop, through the coordinate `proof`. -/
structure MappedAxis where
  axis : ℕ
  size : ℕ
  split : ℕ
  slot : Expr
  loop : Symbol
  proof : Expr

inductive AxisOutcome where
  | mapped (axis : MappedAxis)
  | factored (factors : List AxisFactor)

/-- The coordinate reads one loop of the iteration space. -/
def directLoop (space : IterationSpace) (coordinate : Expr) : Option Symbol :=
  match coordinate.freeSymbols with
  | [loop] => if (space.lookup loop).isSome then some loop else none
  | _ => none

/-- The device axes of an access: sizes and coordinates. -/
structure Frame where
  deviceSize : List ℕ
  deviceCoordinates : List Expr

variable (sympy : Sympy)

def mapAxis (frame : Frame) (space : IterationSpace) (allowExtended : Bool)
    (slots : List (ℕ × Expr)) (axis split : ℕ) : Except OwnershipError AxisOutcome :=
  match frame.deviceSize[axis]?, frame.deviceCoordinates[axis]?, slots.lookup axis with
  | some size, some coordinate, some slot =>
      if size = 0 ∨ size % split ≠ 0 then .error (.axisNotDivisible axis split)
      else
        match directLoop space coordinate with
        | some loop => .ok (.mapped ⟨axis, size, split, slot, loop, coordinate⟩)
        | none =>
            if !allowExtended then .error (.unmappedAxis axis)
            else
              match projectSliceAxis sympy coordinate size split space false with
              | some (loop, projected) =>
                  .ok (.mapped ⟨axis, size, split, slot, loop, projected⟩)
              | none =>
                  -- The physical stick axis stays intact.
                  if axis = frame.deviceSize.length - 1 then .error (.unmappedAxis axis)
                  else
                    match factorSliceAxis sympy coordinate size split slot space with
                    | none => .error (.unmappedAxis axis)
                    | some factors => .ok (.factored factors)
  | _, _, _ => .error (.axisNotDivisible axis split)

inductive AxesOutcome where
  | mapped (axes : List MappedAxis)
  | expand (axis : ℕ) (factors : List AxisFactor)

/-- The axes in order, up to the first that has to be factored. -/
def mapAxes (frame : Frame) (space : IterationSpace) (allowExtended : Bool)
    (slots : List (ℕ × Expr)) : List (ℕ × ℕ) → Except OwnershipError AxesOutcome
  | [] => .ok (.mapped [])
  | (axis, split) :: rest => do
      match ← mapAxis sympy frame space allowExtended slots axis split with
      | .factored factors => return .expand axis factors
      | .mapped first =>
          match ← mapAxes frame space allowExtended slots rest with
          | .expand axis factors => return .expand axis factors
          | .mapped axes => return .mapped (first :: axes)

/-! ## The expanded frame -/

def shiftAxis (axis shift other : ℕ) : ℕ := if axis < other then other + shift else other

/-- The entries of the other axes at their new positions and those of the factors, sorted. -/
def expandEntries {α : Type} (axis shift : ℕ) (entries added : List (ℕ × α)) : List (ℕ × α) :=
  (((entries.filter fun entry => entry.1 ≠ axis).map
    fun entry => (shiftAxis axis shift entry.1, entry.2)) ++ added).mergeSort
      fun first second => first.1 ≤ second.1

/-- The split factors at their positions. -/
def splitFactors (axis : ℕ) (factors : List AxisFactor) : List (ℕ × AxisFactor) :=
  factors.zipIdx.filterMap fun (factor, offset) =>
    if 1 < factor.count then some (axis + offset, factor) else none

def expandView (view : PerCoreView) (axis : ℕ) (factors : List AxisFactor) : PerCoreView where
  workSliceDims := expandEntries axis (factors.length - 1) view.workSliceDims
    ((splitFactors axis factors).map fun (position, factor) => (position, factor.count))
  coreToSlot := expandEntries axis (factors.length - 1)
    (view.workSliceDims.filterMap fun (other, _) => (view.coreToSlot.lookup other).map (other, ·))
    ((splitFactors axis factors).map fun (position, factor) => (position, factor.owner))
  numCores := view.numCores

def replaceAt {α : Type} (axis : ℕ) (replacement items : List α) : List α :=
  items.take axis ++ replacement ++ items.drop (axis + 1)

def expandFrame (frame : Frame) (axis : ℕ) (factors : List AxisFactor) : Frame where
  deviceSize := replaceAt axis (factors.map AxisFactor.radix) frame.deviceSize
  deviceCoordinates := replaceAt axis (factors.map AxisFactor.digit) frame.deviceCoordinates

/-! ## One loop -/

/-- What is proved of one loop: its split, the extent that is partitioned, the owner formula of
its first axis, and the partition of each core. -/
structure LoopProof where
  loop : Symbol
  split : ℕ
  extent : ℕ
  owner : Expr
  table : List ℕ

/-- The extent rounded up to whole sticks, where the loop also runs inside the stick. -/
def stickPadded (frame : Frame) (splits : List (ℕ × ℕ)) (axis : MappedAxis) (extent : ℕ) : ℕ :=
  match frame.deviceSize.getLast?, frame.deviceCoordinates.getLast? with
  | some stickSize, some stickCoordinate =>
      if axis.axis ≠ frame.deviceSize.length - 1 ∧
          frame.deviceSize.length - 1 ∉ splits.map Prod.fst ∧
          axis.loop ∈ stickCoordinate.freeSymbols ∧
          axis.size * stickSize < extent + stickSize ∧ extent ≤ axis.size * stickSize then
        axis.size * stickSize
      else extent
  | _, _ => extent

/-- The axes of the loop carry the same slices, or their product. -/
def loopSplit (numCores : ℕ) (first : MappedAxis) (axes : List MappedAxis) : ℕ :=
  if axes.all fun axis => decide (axis.split = first.split) &&
      coreMappingsEqual [(first.loop, axis.slot)] [(first.loop, first.slot)] numCores then
    first.split
  else (axes.map MappedAxis.split).prod

/-- The extent to partition and the states counted for fused loops so far. -/
def loopExtent (frame : Frame) (splits : List (ℕ × ℕ)) (first : MappedAxis)
    (axes : List MappedAxis) (split fusedStates extent : ℕ) : Except OwnershipError (ℕ × ℕ) :=
  if axes.length = 1 then
    let extent := stickPadded frame splits first extent
    if maxExactDirectAxisPoints < extent then .error (.directAxisLimit extent)
    else .ok (extent, fusedStates)
  else
    let fusedStates := fusedStates + (extent + split)
    if maxExactOwnershipPoints < fusedStates then .error (.fusedLimit fusedStates)
    else .ok (extent, fusedStates)

def signature (axes : List MappedAxis) (region : List (ℤ × ℤ)) : List ℤ :=
  List.zipWith (fun (bound : ℤ × ℤ) (axis : MappedAxis) => bound.1 / (axis.size / axis.split : ℕ))
    region axes

def crosses (axes : List MappedAxis) (region : List (ℤ × ℤ)) : Bool :=
  (region.zip axes).any fun (bound, axis) =>
    bound.1 / (axis.size / axis.split : ℕ) ≠ bound.2 / (axis.size / axis.split : ℕ)

/-- The slots of a core on the axes of a loop. -/
def rowSignature (axes : List MappedAxis) (row : List (ℕ × ℕ)) : List ℤ :=
  axes.map fun axis => ((row.lookup axis.axis).getD 0 : ℕ)

def ownerTable (axes : List MappedAxis) (signatures : List (List ℤ)) (rows : List (List (ℕ × ℕ))) :
    Except OwnershipError (List ℕ) :=
  rows.mapM fun row =>
    match signatures.idxOf? (rowSignature axes row) with
    | none => .error .sliceNotCovered
    | some partition => .ok partition

/-- The slices that the partitions of a loop fall in, and the partition of each core. -/
def partitionOwners (extent split : ℕ) (axes : List MappedAxis) (anyFused : Bool)
    (rows : List (List (ℕ × ℕ))) : Except OwnershipError (List ℕ) :=
  let coordinates := axes.map fun axis =>
    sympy.auto (axis.proof.replaceSymbol axis.loop (.sym loopPoint))
  match loopRegions sympy extent coordinates (axes.map MappedAxis.size) split false with
  | .error cause => .error (.evaluation cause)
  | .ok regions =>
      let signatures := regions.map (signature axes)
      if regions.any (crosses axes) then .error .partitionCrosses
      else if signatures.dedup.length ≠ split then .error .partitionsNotDistinct
      else do
        let table ← ownerTable axes signatures rows
        let plain := (List.range split).map fun (partition : ℕ) => [(partition : ℤ)]
        if ¬ (table.all (· < split) ∧ (List.range split).all (table.contains ·)) ∨
            ¬ anyFused ∧ signatures ≠ plain then
          .error .differentOwners
        else .ok table

def certifyLoop (frame : Frame) (space : IterationSpace) (splits : List (ℕ × ℕ)) (numCores : ℕ)
    (rows : List (List (ℕ × ℕ))) (anyFused : Bool) (fusedStates : ℕ) (first : MappedAxis)
    (axes : List MappedAxis) : Except OwnershipError (LoopProof × ℕ) :=
  match space.extent first.loop with
  | none => .error (.extentNotConcrete ((space.lookup first.loop).getD (.const 0)))
  | some extent =>
      let split := loopSplit numCores first axes
      do
        let (extent, fusedStates) ←
          loopExtent frame splits first axes split fusedStates extent
        if extent % split ≠ 0 then .error (.loopNotDivisible first.loop split)
        else do
          let table ← partitionOwners sympy extent split axes anyFused rows
          return (⟨first.loop, split, extent, first.slot, table⟩, fusedStates)

/-- Group the axes by loop, in the order in which the loops appear. -/
def axesByLoop (axes : List MappedAxis) : List (MappedAxis × List MappedAxis) :=
  (axes.map MappedAxis.loop).reverse.dedup.reverse.filterMap fun loop =>
    match axes.filter fun axis => axis.loop = loop with
    | [] => none
    | first :: rest => some (first, first :: rest)

def certifyLoops (frame : Frame) (space : IterationSpace) (splits : List (ℕ × ℕ)) (numCores : ℕ)
    (rows : List (List (ℕ × ℕ))) (anyFused : Bool) :
    ℕ → List (MappedAxis × List MappedAxis) → Except OwnershipError (List LoopProof)
  | _, [] => .ok []
  | fusedStates, (first, axes) :: rest => do
      let (proof, fusedStates) ←
        certifyLoop sympy frame space splits numCores rows anyFused fusedStates first axes
      let proofs ← certifyLoops frame space splits numCores rows anyFused fusedStates rest
      return proof :: proofs

/-! ## The division -/

/-- The division, with the extent by which each split loop is partitioned. -/
structure Certificate where
  division : TensorWorkDivision
  extents : List (Symbol × ℕ)
  deriving DecidableEq

/-- The division of the proved loops; fused axes need a canonical spelling of the owners. -/
def divide (space : IterationSpace) (numCores : ℕ) (anyFused : Bool) (proofs : List LoopProof) :
    Except OwnershipError TensorWorkDivision :=
  let splits := proofs.map fun proof => (proof.loop, proof.split)
  if !anyFused then
    .ok ⟨splits, proofs.map fun proof => (proof.loop, proof.owner), some numCores⟩
  else do
    let expectedRows := (List.range numCores).map fun core =>
      proofs.map fun proof => (proof.loop, proof.table.getD core 0)
    let dimensions := (space.map Prod.fst).filter fun loop => loop ∈ splits.map Prod.fst
    let selected ← selectUniquePartitionDivision sympy dimensions splits numCores
      fun division => do
        let rows ← ownerSlots division.coreIdToWorkSlice splits numCores
        return decide (rows = expectedRows)
    match selected with
    | none => .error .noCanonicalMapping
    | some division => .ok division

def certifyAxes (frame : Frame) (space : IterationSpace) (splits : List (ℕ × ℕ)) (numCores : ℕ)
    (rows : List (List (ℕ × ℕ))) (axes : List MappedAxis) :
    Except OwnershipError Certificate := do
  let groups := axesByLoop axes
  let anyFused := groups.any fun group => 1 < group.2.length
  let proofs ← certifyLoops sympy frame space splits numCores rows anyFused 0 groups
  let division ← divide sympy space numCores anyFused proofs
  return ⟨division, proofs.map fun proof => (proof.loop, proof.extent)⟩

/-- `work_division_from_view` with the extents it partitions. -/
def certify (space : IterationSpace) (allowExtended : Bool) :
    ℕ → PerCoreView → Frame → Except OwnershipError Certificate
  | 0, _, _ => .error .recursionLimit
  | depth + 1, view, frame =>
      match view.numCores with
      | none => .error .noCoreDomain
      | some numCores =>
          if numCores = 0 then .error .noCoreDomain
          else if frame.deviceSize.length ≠ frame.deviceCoordinates.length then
            .error .rankDiffers
          else if ¬ ((view.workSliceDims.map Prod.fst).Nodup ∧
              (view.coreToSlot.map Prod.fst).Nodup) then
            .error .duplicateDimensions
          else do
            let rows ← ownerSlots view.coreToSlot view.workSliceDims numCores
            match ← mapAxes sympy frame space allowExtended view.coreToSlot view.workSliceDims with
            | .expand axis factors =>
                certify space allowExtended depth (expandView view axis factors)
                  (expandFrame frame axis factors)
            | .mapped axes => certifyAxes sympy frame space view.workSliceDims numCores rows axes

def workDivisionFromView (view : Option PerCoreView) (deviceSize : List ℕ)
    (deviceCoordinates : List Expr) (space : IterationSpace) (allowExtended : Bool) :
    Except OwnershipError (Option TensorWorkDivision) :=
  match view with
  | none => .ok none
  | some view => do
      let certificate ← certify sympy space allowExtended recursionLimit view
        ⟨deviceSize, deviceCoordinates⟩
      return some certificate.division

end TorchSpyre.Ownership
