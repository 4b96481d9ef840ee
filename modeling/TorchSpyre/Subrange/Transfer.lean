import Mathlib
import TorchSpyre.Lib.Box
import TorchSpyre.Lib.Outcome

/-!
# Transfers of a dense subrange

A rectangular child of a parent tensor is handed from the cores that own slices of the
parent to the cores that own slices of the child.  The certificate lists, for each
destination core, the fragments it receives with their offsets in local storage.
-/

namespace TorchSpyre.Subrange

open Lib

/-- A tuple with one entry per axis. -/
abbrev Tuple (rank : ℕ) := Fin rank → ℤ

abbrev Mapping (Value : Type) := AList fun _ : ℤ => Value

inductive PartitionError where
  /-- `partition has an invalid physical axis` -/
  | invalidAxis
  /-- `partition must divide each axis and retain complete sticks` -/
  | mustDivide
  /-- `partition requires concrete physical core IDs` -/
  | noCores
  /-- `partition core IDs must describe its complete physical domain` -/
  | coreIds
  /-- `partition owners do not cover the complete domain` -/
  | notCovered
  /-- `owner has an invalid physical axis` -/
  | ownerAxis
  /-- `owner slot is missing, nonintegral or outside its partition` -/
  | ownerSlot
  /-- `source owners must be unique and destination replicas uniform` -/
  | notUniform
  deriving DecidableEq

inductive TransferError where
  /-- `subrange requires positive static extents inside the parent` -/
  | extents
  /-- `subrange must contain complete aligned 128-byte sticks` -/
  | incompleteSticks
  | partition (cause : PartitionError)
  /-- `subrange fragment exceeds its reserved local span` -/
  | exceedsSpan
  /-- `subrange destination exceeds the eight-source fragment limit` -/
  | fanIn
  /-- `subrange fragments do not completely cover the destination` -/
  | notCovered
  deriving DecidableEq

def maxShuffleFanin : ℕ := 8

/-! ## Partitions -/

/-- A validated partition: the split of each axis, the slots of each core and the shape
of a core's slice. -/
structure Partition (rank : ℕ) where
  splits : Tuple rank
  owners : List (Tuple rank)
  localShape : Tuple rank

section Partition

variable {rank : ℕ}

def splitOf (splits : Mapping ℤ) (axis : Fin rank) : ℤ := (splits.lookup (axis : ℤ)).getD 1

def slotOf (owners : Mapping (Mapping ℤ)) (core : ℕ) (axis : Fin rank) : ℤ :=
  ((owners.lookup (core : ℤ)).bind fun row => row.lookup (axis : ℤ)).getD 0

/-- The keys of a mapping are axes. -/
def validAxes {Value : Type} (rank : ℕ) (mapping : Mapping Value) : Bool :=
  mapping.keys.all fun axis => 0 ≤ axis ∧ axis < rank

def ownerRow (splits : Tuple rank) (owners : Mapping (Mapping ℤ)) (core : ℕ) :
    Except PartitionError (Tuple rank) :=
  match owners.lookup (core : ℤ) with
  | none => .error .coreIds
  | some row =>
      if ¬ validAxes rank row then .error .ownerAxis
      else if ∃ axis : Fin rank, (1 < splits axis ∧ row.lookup (axis : ℤ) = none) ∨
          ¬ (0 ≤ (row.lookup (axis : ℤ)).getD 0 ∧ (row.lookup (axis : ℤ)).getD 0 < splits axis) then
        .error .ownerSlot
      else .ok fun axis => (row.lookup (axis : ℤ)).getD 0

/-- `_dense_subrange_partition` -/
def denseSubrangePartition (shape : Tuple rank) (splits : Mapping ℤ)
    (owners : Mapping (Mapping ℤ)) (allowReplicas : Bool) :
    Except PartitionError (Partition rank) :=
  let fullSplits : Tuple rank := splitOf splits
  let cores := owners.entries.length
  if ¬ validAxes rank splits then .error .invalidAxis
  else if (∃ axis, fullSplits axis ≤ 0 ∨ shape axis % fullSplits axis ≠ 0) ∨
      ∃ axis : Fin rank, axis.val + 1 = rank ∧ fullSplits axis ≠ 1 then .error .mustDivide
  else if cores = 0 then .error .noCores
  else if ¬ ((∀ core ∈ owners.keys, 0 ≤ core ∧ core < cores) ∧
      ∀ core < cores, (core : ℤ) ∈ owners.keys) then .error .coreIds
  else if (cores : ℤ) % ∏ axis, fullSplits axis ≠ 0 ∨
      (¬ allowReplicas ∧ (cores : ℤ) ≠ ∏ axis, fullSplits axis) then .error .notCovered
  else do
    let rows ← (List.range cores).mapM (ownerRow fullSplits owners)
    let counts := rows.map fun row => rows.count row
    if rows.toFinset ≠ box 0 fullSplits then .error .notCovered
    else if counts.toFinset.card ≠ 1 ∨ (¬ allowReplicas ∧ counts.foldr max 0 ≠ 1) then
      .error .notUniform
    else .ok ⟨fullSplits, rows, fun axis => shape axis / fullSplits axis⟩

end Partition

/-! ## Fragments -/

structure SubrangeTransferFragment (rank : ℕ) where
  sourceCore : ℕ
  destinationCore : ℕ
  parentOrigin : Tuple rank
  extent : Tuple rank
  sourceOffsetBytes : ℤ
  destinationOffsetBytes : ℤ
  sourceStridesBytes : Tuple rank
  destinationStridesBytes : Tuple rank

structure DenseSubrangeTransfer (rank : ℕ) where
  parentShape : Tuple rank
  origin : Tuple rank
  extent : Tuple rank
  elementBytes : ℤ
  source : Partition rank
  destination : Partition rank
  sourceReservationBytes : ℤ
  destinationReservationBytes : ℤ
  fragments : List (SubrangeTransferFragment rank)

section Transfer

variable {rank : ℕ} (source destination : Partition rank) (origin : Tuple rank) (elementBytes : ℤ)

/-- Dense strides of a local shape, in bytes. -/
def byteStrides (shape : Tuple rank) (axis : Fin rank) : ℤ := stride shape axis * elementBytes

def byteSpan (shape : Tuple rank) : ℤ := (∏ axis, shape axis) * elementBytes

def sourceStart (slots : Tuple rank) (axis : Fin rank) : ℤ := slots axis * source.localShape axis

def destinationStart (slots : Tuple rank) (axis : Fin rank) : ℤ :=
  origin axis + slots axis * destination.localShape axis

/-- The offset of a corner of a fragment from the start of the slice it lies in. -/
def localOffset (shape corner start : Tuple rank) : ℤ :=
  ∑ axis, (corner axis - start axis) * byteStrides elementBytes shape axis

/-- `_intervals_overlap` -/
def intervalsOverlap (aStart aEnd bStart bEnd : ℤ) : Bool := aStart < bEnd ∧ bStart < aEnd

/-- What a source core has of a destination core's rectangle. -/
def fragment (sourceCore destinationCore : ℕ) (srcSlots dstSlots : Tuple rank) :
    SubrangeTransferFragment rank :=
  let srcStart := sourceStart source srcSlots
  let dstStart := destinationStart destination origin dstSlots
  let start : Tuple rank := fun axis => max (srcStart axis) (dstStart axis)
  { sourceCore
    destinationCore
    parentOrigin := start
    extent := fun axis => min (srcStart axis + source.localShape axis)
      (dstStart axis + destination.localShape axis) - start axis
    sourceOffsetBytes := localOffset elementBytes source.localShape start srcStart
    destinationOffsetBytes := localOffset elementBytes destination.localShape start dstStart
    sourceStridesBytes := byteStrides elementBytes source.localShape
    destinationStridesBytes := byteStrides elementBytes destination.localShape }

/-- The fragment is not at a stick boundary, or its last element ends beyond the span. -/
def exceeds (shape widths : Tuple rank) (offset : ℤ) : Bool :=
  offset < 0 ∨ offset % 128 ≠ 0 ∨
    byteSpan elementBytes shape <
      offset + ∑ axis, (widths axis - 1) * byteStrides elementBytes shape axis + elementBytes

/-- The fragment of one source core, if its slice meets the rectangle. -/
def incomingFrom (destinationCore : ℕ) (dstSlots : Tuple rank) (sourceOwner : Tuple rank × ℕ) :
    Except TransferError (Option (SubrangeTransferFragment rank)) :=
  let srcStart := sourceStart source sourceOwner.1
  let dstStart := destinationStart destination origin dstSlots
  if ¬ ∀ axis, intervalsOverlap (srcStart axis) (srcStart axis + source.localShape axis)
      (dstStart axis) (dstStart axis + destination.localShape axis) then .ok none
  else
    let piece := fragment source destination origin elementBytes sourceOwner.2 destinationCore
      sourceOwner.1 dstSlots
    if exceeds elementBytes source.localShape piece.extent piece.sourceOffsetBytes ∨
        exceeds elementBytes destination.localShape piece.extent piece.destinationOffsetBytes then
      .error .exceedsSpan
    else .ok (some piece)

/-- All fragments of one destination core. -/
def incoming (destinationOwner : Tuple rank × ℕ) :
    Except TransferError (List (SubrangeTransferFragment rank)) := do
  let pieces ← source.owners.zipIdx.mapM
    (incomingFrom source destination origin elementBytes destinationOwner.2 destinationOwner.1)
  let found := pieces.reduceOption
  if found = [] ∨ maxShuffleFanin < found.length then .error .fanIn
  else if (found.map fun piece => ∏ axis, piece.extent axis).sum ≠
      ∏ axis, destination.localShape axis then .error .notCovered
  else .ok found

variable (parentShape extent : Tuple rank) (sourceSplits destinationSplits : Mapping ℤ)
  (sourceMap destinationMap : Mapping (Mapping ℤ))

def certifyTuples : Except TransferError (DenseSubrangeTransfer rank) :=
  if rank < 2 ∨ (elementBytes ≠ 1 ∧ elementBytes ≠ 2 ∧ elementBytes ≠ 4) ∨
      ∃ axis, parentShape axis ≤ 0 ∨ origin axis < 0 ∨ extent axis ≤ 0 ∨
        parentShape axis < origin axis + extent axis then .error .extents
  else if ∃ axis : Fin rank, axis.val + 1 = rank ∧ (parentShape axis * elementBytes ≠ 128 ∨
      origin axis ≠ 0 ∨ extent axis ≠ parentShape axis) then .error .incompleteSticks
  else do
    let source ← (denseSubrangePartition parentShape sourceSplits sourceMap false).mapError
      TransferError.partition
    let destination ← (denseSubrangePartition extent destinationSplits destinationMap true).mapError
      TransferError.partition
    let fragments ← destination.owners.zipIdx.mapM (incoming source destination origin elementBytes)
    return {
      parentShape, origin, extent, elementBytes, source, destination
      sourceReservationBytes := byteSpan elementBytes source.localShape
      destinationReservationBytes := byteSpan elementBytes destination.localShape
      fragments := fragments.flatten }

end Transfer

def tupleOf (rank : ℕ) (values : List ℤ) : Tuple rank := fun axis => values.getD axis 0

/-- `certify_dense_subrange_transfer` -/
def certifyDenseSubrangeTransfer (parentShape origin extent : List ℤ)
    (sourceSplits destinationSplits : Mapping ℤ) (sourceMap destinationMap : Mapping (Mapping ℤ))
    (elementBytes : ℤ) : Except TransferError (DenseSubrangeTransfer parentShape.length) :=
  if origin.length ≠ parentShape.length ∨ extent.length ≠ parentShape.length then .error .extents
  else
    certifyTuples (tupleOf _ origin) elementBytes (tupleOf _ parentShape) (tupleOf _ extent)
      sourceSplits destinationSplits sourceMap destinationMap

end TorchSpyre.Subrange
