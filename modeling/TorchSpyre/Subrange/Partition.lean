import Mathlib
import TorchSpyre.Lib.Order
import TorchSpyre.Subrange.Transfer

/-!
# What a validated partition is

A partition that passes its checks is a grid: every axis is divided evenly, every slot
of the grid is owned, and by one core only where replicas are not allowed.
-/

namespace TorchSpyre.Subrange

open Lib

variable {rank : ℕ}

/-- The partition of a shape by a grid, read off the splits and the owner map. -/
structure Partitions (shape : Tuple rank) (splits : Mapping ℤ) (owners : Mapping (Mapping ℤ))
    (partition : Partition rank) : Prop where
  owners_eq : partition.owners = (List.range owners.entries.length).map (slotOf owners)
  localShape_eq : partition.localShape = fun axis => shape axis / splitOf splits axis
  splits_pos : ∀ axis, 0 < partition.splits axis
  whole : ∀ axis, partition.splits axis * partition.localShape axis = shape axis
  last : ∀ axis : Fin rank, axis.val + 1 = rank → partition.splits axis = 1
  mem_owners : ∀ row, row ∈ partition.owners ↔ row ∈ box 0 partition.splits

theorem ownerRow_eq {splits row : Tuple rank} {owners : Mapping (Mapping ℤ)} {core : ℕ}
    (owned : ownerRow splits owners core = .ok row) : row = slotOf owners core := by
  unfold ownerRow at owned
  split at owned
  next => cases owned
  next slots found =>
    obtain ⟨-, owned⟩ := of_guard owned
    obtain ⟨-, owned⟩ := of_guard owned
    cases owned
    funext axis
    simp [slotOf, found]

theorem rows_eq {splits : Tuple rank} {owners : Mapping (Mapping ℤ)} {cores : List ℕ}
    {rows : List (Tuple rank)} (succeeds : cores.mapM (ownerRow splits owners) = .ok rows) :
    rows = cores.map (slotOf owners) := by
  have paired := forall₂_of_mapM succeeds
  clear succeeds
  induction paired with
  | nil => rfl
  | cons here _ inductionHypothesis =>
      rw [List.map_cons, ← ownerRow_eq here, ← inductionHypothesis]

/-- What the checks of a partition guarantee. -/
theorem denseSubrangePartition_ok {shape : Tuple rank} {splits : Mapping ℤ}
    {owners : Mapping (Mapping ℤ)} {allowReplicas : Bool} {partition : Partition rank}
    (validated : denseSubrangePartition shape splits owners allowReplicas = .ok partition) :
    Partitions shape splits owners partition ∧
      (allowReplicas = false → partition.owners.Nodup) := by
  unfold denseSubrangePartition at validated
  obtain ⟨-, validated⟩ := of_guard validated
  obtain ⟨divided, validated⟩ := of_guard validated
  obtain ⟨-, validated⟩ := of_guard validated
  obtain ⟨-, validated⟩ := of_guard validated
  obtain ⟨-, validated⟩ := of_guard validated
  obtain ⟨rows, succeeds, validated⟩ := bind_eq_ok_iff.mp validated
  obtain ⟨covered, validated⟩ := of_guard validated
  obtain ⟨uniform, validated⟩ := of_guard validated
  cases validated
  simp only [not_or, not_exists, not_and, not_not, not_le] at divided covered uniform
  refine ⟨⟨rows_eq succeeds, rfl, fun axis => (divided.1 axis).1, ?_, divided.2, ?_⟩, ?_⟩
  · intro axis
    exact Int.mul_ediv_cancel' (Int.dvd_of_emod_eq_zero (divided.1 axis).2)
  · intro row
    rw [← covered, List.mem_toFinset]
  · intro unique
    rw [List.nodup_iff_count_le_one]
    intro row
    by_cases inside : row ∈ rows
    · rw [← uniform.2 (by simp [unique])]
      exact le_foldr_max (List.mem_map_of_mem inside)
    · rw [List.count_eq_zero.mpr inside]
      exact Nat.zero_le _

namespace Partitions

variable {shape : Tuple rank} {splits : Mapping ℤ} {owners : Mapping (Mapping ℤ)}
  {partition : Partition rank}

theorem localShape_pos (partitions : Partitions shape splits owners partition)
    (positive : ∀ axis, 0 < shape axis) (axis : Fin rank) : 0 < partition.localShape axis := by
  have product := partitions.whole axis
  have whole := positive axis
  rw [← product] at whole
  exact (mul_pos_iff_of_pos_left (partitions.splits_pos axis)).mp whole

theorem localShape_last (partitions : Partitions shape splits owners partition) {axis : Fin rank}
    (isLast : axis.val + 1 = rank) : partition.localShape axis = shape axis := by
  rw [← partitions.whole axis, partitions.last axis isLast, one_mul]

theorem owner_mem_iff (partitions : Partitions shape splits owners partition) {row : Tuple rank} :
    row ∈ partition.owners ↔ ∃ core < owners.entries.length, slotOf owners core = row := by
  rw [partitions.owners_eq, List.mem_map]
  simp

end Partitions

end TorchSpyre.Subrange
