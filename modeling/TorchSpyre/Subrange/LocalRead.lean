import TorchSpyre.Subrange.Certificate

/-!
# Local reads of a subrange

When every core receives its whole rectangle from itself, at one common offset, the
child can be read in place of the parent on every core.
-/

namespace TorchSpyre.Subrange

open Lib

variable {rank : ℕ}

inductive LocalReadError where
  /-- `local subrange needs one fragment on every source core` -/
  | fragmentCount
  /-- `subrange is not a compact same-core read` -/
  | notCompact
  /-- `local subrange needs one common byte offset` -/
  | noCommonOffset
  deriving DecidableEq

/-- The fragment is the whole child of its core, read on the same core. -/
def compactRead (certificate : DenseSubrangeTransfer rank)
    (entry : SubrangeTransferFragment rank × ℕ) : Bool :=
  entry.1.sourceCore = entry.2 ∧ entry.1.destinationCore = entry.2 ∧
    entry.1.destinationOffsetBytes = 0 ∧
    (∀ axis, entry.1.extent axis = certificate.destination.localShape axis) ∧
    ∀ axis, 1 < entry.1.extent axis →
      entry.1.sourceStridesBytes axis = entry.1.destinationStridesBytes axis

/-- `local_subrange_byte_offset` -/
def localSubrangeByteOffset (certificate : DenseSubrangeTransfer rank) :
    Except LocalReadError ℤ :=
  let count := certificate.source.owners.length
  if certificate.destination.owners.length ≠ count ∨ certificate.fragments.length ≠ count then
    .error .fragmentCount
  else if ¬ certificate.fragments.zipIdx.all (compactRead certificate) then .error .notCompact
  else
    match (certificate.fragments.map fun piece => piece.sourceOffsetBytes).dedup with
    | [common] => .ok common
    | _ => .error .noCommonOffset

/-- A local read with an offset takes every fragment from its own core at that offset. -/
theorem localSubrangeByteOffset_ok {certificate : DenseSubrangeTransfer rank} {common : ℤ}
    (readable : localSubrangeByteOffset certificate = .ok common) :
    ∀ piece ∈ certificate.fragments, piece.sourceCore = piece.destinationCore ∧
      piece.destinationOffsetBytes = 0 ∧ piece.sourceOffsetBytes = common ∧
      ∀ axis, 1 < piece.extent axis →
        piece.sourceStridesBytes axis = piece.destinationStridesBytes axis := by
  unfold localSubrangeByteOffset at readable
  obtain ⟨-, readable⟩ := of_guard readable
  obtain ⟨compact, readable⟩ := of_guard readable
  intro piece listed
  obtain ⟨core, located⟩ := List.mem_iff_getElem?.mp listed
  have isCompact := List.all_eq_true.mp (not_not.mp compact) (piece, core)
    (List.mem_zipIdx_iff_getElem?.mpr located)
  obtain ⟨sourceCore, destinationCore, atStart, -, sameStrides⟩ := of_decide_eq_true isCompact
  refine ⟨sourceCore.trans destinationCore.symm, atStart, ?_, sameStrides⟩
  have member : piece.sourceOffsetBytes ∈
      (certificate.fragments.map fun piece => piece.sourceOffsetBytes).dedup :=
    List.mem_dedup.mpr (List.mem_map_of_mem listed)
  split at readable
  next value isCommon =>
    cases readable
    rw [isCommon] at member
    exact List.mem_singleton.mp member
  next => cases readable

/-- Within the fragment the two addresses differ by the offsets only. -/
theorem sourceAddress_eq {piece : SubrangeTransferFragment rank} {common : ℤ}
    (atStart : piece.destinationOffsetBytes = 0) (isCommon : piece.sourceOffsetBytes = common)
    (sameStrides : ∀ axis, 1 < piece.extent axis →
      piece.sourceStridesBytes axis = piece.destinationStridesBytes axis)
    {point : Tuple rank} (inside : point ∈ piece.region) :
    piece.sourceAddress point = common + piece.destinationAddress point := by
  unfold SubrangeTransferFragment.sourceAddress SubrangeTransferFragment.destinationAddress
  rw [atStart, isCommon, zero_add]
  congr 1
  apply Finset.sum_congr rfl
  intro axis _
  by_cases wide : 1 < piece.extent axis
  · rw [sameStrides axis wide]
  · have bounds := mem_box.mp inside axis
    have same : point axis = piece.parentOrigin axis := by omega
    rw [same, sub_self, zero_mul, zero_mul]

/-- A local read finds every element of every core's child at its place in the parent's
local storage on that core, and no other element there. -/
theorem localSubrangeByteOffset_sound {parentShape origin extent : List ℤ}
    {sourceSplits destinationSplits : Mapping ℤ} {sourceMap destinationMap : Mapping (Mapping ℤ)}
    {elementBytes : ℤ} {certificate : DenseSubrangeTransfer parentShape.length} {common : ℤ}
    (certified : certifyDenseSubrangeTransfer parentShape origin extent sourceSplits
      destinationSplits sourceMap destinationMap elementBytes = .ok certificate)
    (readable : localSubrangeByteOffset certificate = .ok common) :
    ∀ core < destinationMap.entries.length,
      ∀ point ∈ slice (tupleOf parentShape.length origin) (tupleOf _ extent) destinationSplits
        destinationMap core,
      ∀ held, HeldAt elementBytes
          (sliceStart 0 (tupleOf _ parentShape) sourceSplits sourceMap core)
          (share (tupleOf _ parentShape) sourceSplits)
          (common + offset (share (tupleOf _ extent) destinationSplits)
            (point - sliceStart (tupleOf _ origin) (tupleOf _ extent) destinationSplits
              destinationMap core) * elementBytes) held ↔ held = point := by
  have isExact := exact_of_certified certified
  intro core owned point inChild held
  obtain ⟨piece, isReceived, inside⟩ := (isExact.union core owned point).mp inChild
  obtain ⟨listed, isCore⟩ := List.mem_filter.mp isReceived
  rw [decide_eq_true_iff] at isCore
  obtain ⟨sameCore, atStart, isCommon, sameStrides⟩ := localSubrangeByteOffset_ok readable piece listed
  have fragmentExact := isExact.fragments piece listed
  have sourceHeld := fragmentExact.source point inside held
  have destinationHeld := ((fragmentExact.destination point inside point).mpr rfl).2
  rw [isCore] at destinationHeld
  rw [sameCore, isCore, sourceAddress_eq atStart isCommon sameStrides inside,
    ← destinationHeld] at sourceHeld
  exact sourceHeld

def rowsOfColumns : Except TransferError (DenseSubrangeTransfer 3) :=
  certifyDenseSubrangeTransfer [4, 2, 32] [1, 0, 0] [2, 2, 32]
    (AList.insert 1 2 ∅) (AList.insert 1 2 ∅)
    (AList.insert 0 (AList.insert 1 0 ∅) (AList.insert 1 (AList.insert 1 1 ∅) ∅))
    (AList.insert 0 (AList.insert 1 0 ∅) (AList.insert 1 (AList.insert 1 1 ∅) ∅)) 4

/-- The second core reads its two middle rows one stick into its half of the parent. -/
theorem rowsOfColumns_sound : ∃ certificate, rowsOfColumns = .ok certificate ∧
    localSubrangeByteOffset certificate = .ok 128 ∧
    HeldAt 4 (sliceStart 0 (tupleOf 3 [4, 2, 32]) (AList.insert 1 2 ∅)
        (AList.insert 0 (AList.insert 1 0 ∅) (AList.insert 1 (AList.insert 1 1 ∅) ∅)) 1)
      (share (tupleOf 3 [4, 2, 32]) (AList.insert 1 2 ∅)) (128 + 132) (tupleOf 3 [2, 1, 1]) := by
  have offsets : (rowsOfColumns.toOption.map localSubrangeByteOffset).map Except.toOption =
      some (some 128) := by
    decide +kernel
  cases certified : rowsOfColumns with
  | error error =>
      rw [certified] at offsets
      cases offsets
  | ok certificate =>
      rw [certified] at offsets
      have readable : localSubrangeByteOffset certificate = .ok 128 := by
        cases common : localSubrangeByteOffset certificate with
        | error error =>
            rw [show (Except.ok certificate : Except TransferError _).toOption = some certificate
              from rfl, Option.map_some, common] at offsets
            cases offsets
        | ok value =>
            rw [show (Except.ok certificate : Except TransferError _).toOption = some certificate
              from rfl, Option.map_some, common] at offsets
            cases offsets
            rfl
      have held := localSubrangeByteOffset_sound certified readable 1 (by decide)
        (tupleOf 3 [2, 1, 1]) (by decide +kernel) (tupleOf 3 [2, 1, 1])
      exact ⟨certificate, rfl, readable, held.mpr rfl⟩

end TorchSpyre.Subrange
