import TorchSpyre.TensorLayout.Conversion

/-!
# How a layout arranges host dimensions

The layout of an accepted `dim_order`, read by position: every position has its device
dimension, and the last position, the stick, is cut into tiles of one stick each.  The
sparse form has a stick position without a host dimension.
-/

namespace TorchSpyre.TensorLayout

open Lib

variable {hostRank outer : ℕ}

/-! ## Positions and device dimensions -/

/-- The device dimension of a position. -/
def place (i : Fin (outer + 1)) : Fin (outer + 2) :=
  ⟨deviceIndex (outer + 1) i, by
    unfold deviceIndex
    split <;> omega⟩

/-- The last position is the stick. -/
abbrev stickPosition : Fin (outer + 1) := Fin.last outer

/-- Positions in the order of their device dimensions. -/
def turn (i : Fin (outer + 1)) : Fin (outer + 1) :=
  ⟨deviceIndex (outer + 1) i, by
    unfold deviceIndex
    split <;> omega⟩

theorem turn_bijective : Function.Bijective (@turn outer) := by
  apply Finite.injective_iff_bijective.mp
  intro i i' same
  have values := congrArg Fin.val same
  simp only [turn, deviceIndex] at values
  apply Fin.ext
  split at values <;> split at values <;> omega

theorem place_injective : Function.Injective (@place outer) := by
  intro i i' same
  exact turn_bijective.injective (Fin.castSucc_injective _ same)

theorem place_ne_last (i : Fin (outer + 1)) : place i ≠ Fin.last (outer + 1) :=
  Fin.castSucc_ne_last (turn i)

theorem eq_last_or_place (j : Fin (outer + 2)) : j = Fin.last (outer + 1) ∨ ∃ i, j = place i := by
  induction j using Fin.lastCases with
  | last => exact .inl rfl
  | cast j =>
      obtain ⟨i, rfl⟩ := turn_bijective.surjective j
      exact .inr ⟨i, rfl⟩

theorem sum_dims (value : Fin (outer + 2) → ℤ) :
    ∑ j, value j = ∑ i, value (place i) + value (Fin.last (outer + 1)) := by
  rw [Fin.sum_univ_castSucc, ← turn_bijective.sum_comp fun i => value i.castSucc]
  rfl

theorem place_val_eq_stickDimIndex (i : Fin (outer + 1)) :
    (place i).val = stickDimIndex (outer + 2) ↔ i = stickPosition := by
  have bound := i.isLt
  rw [Fin.ext_iff, Fin.val_last]
  simp only [place, deviceIndex, stickDimIndex]
  split <;> split <;> omega

/-! ## Arrangements -/

section Arranged

variable (sizes strides : Fin hostRank → ℤ) (order : Fin (outer + 1) → Option (Fin hostRank))

def sizeAt (i : Fin (outer + 1)) : ℤ := (order i).elim 1 sizes

def strideAt (i : Fin (outer + 1)) : ℤ := (order i).elim 0 strides

/-- Row-major strides; a dimension of size 1 may have any stride. -/
def Contiguous : Prop := ∀ dim, sizes dim ≠ 1 → strides dim = stride sizes dim

/-- The device sizes and the stride map of an accepted `dim_order`. -/
structure Arranged (elems : ℤ) (deviceSize strideMap : Fin (outer + 2) → ℤ) : Prop where
  order_injective : ∀ {i i' dim}, order i = some dim → order i' = some dim → i = i'
  order_surjective : ∀ dim, ∃ i, order i = some dim
  sizes_pos : ∀ dim, 0 < sizes dim
  contiguous : Contiguous sizes strides
  elems_gt_one : 1 < elems
  deviceSize_last : deviceSize (Fin.last _) = elems
  deviceSize_stick : deviceSize (place stickPosition) =
    (sizeAt sizes order stickPosition + elems - 1) / elems
  deviceSize_place : ∀ i, i ≠ stickPosition → deviceSize (place i) = sizeAt sizes order i
  strideMap_last : strideMap (Fin.last _) =
    if sizeAt sizes order stickPosition = 1 then -1 else strideAt strides order stickPosition
  strideMap_stick : strideMap (place stickPosition) =
    if sizeAt sizes order stickPosition = 1 then -1
    else min (strideAt strides order stickPosition * elems)
      (strideAt strides order stickPosition * sizeAt sizes order stickPosition)
  strideMap_place : ∀ i, i ≠ stickPosition →
    strideMap (place i) = if sizeAt sizes order i = 1 then -1 else strideAt strides order i

end Arranged

namespace Arranged

variable {sizes strides : Fin hostRank → ℤ} {order : Fin (outer + 1) → Option (Fin hostRank)}
  {elems : ℤ} {deviceSize strideMap : Fin (outer + 2) → ℤ}

section Sizes

variable (arranged : Arranged sizes strides order elems deviceSize strideMap)

include arranged

theorem sizeAt_pos (i : Fin (outer + 1)) : 0 < sizeAt sizes order i := by
  unfold sizeAt
  cases order i with
  | none => exact Int.one_pos
  | some dim => exact arranged.sizes_pos dim

theorem strides_pos {dim : Fin hostRank} (wide : sizes dim ≠ 1) : 0 < strides dim := by
  rw [arranged.contiguous dim wide]
  exact stride_pos arranged.sizes_pos dim

/-- A position that is not of size 1 has a host dimension. -/
theorem exists_dim {i : Fin (outer + 1)} (wide : sizeAt sizes order i ≠ 1) :
    ∃ dim, order i = some dim ∧ sizes dim ≠ 1 ∧ sizeAt sizes order i = sizes dim ∧
      strideAt strides order i = strides dim := by
  unfold sizeAt at wide
  unfold sizeAt strideAt
  cases found : order i with
  | none =>
      rw [found] at wide
      exact absurd rfl wide
  | some dim =>
      rw [found] at wide
      exact ⟨dim, rfl, wide, rfl, rfl⟩

theorem one_lt_deviceSize_stick (long : elems < sizeAt sizes order stickPosition) :
    1 < deviceSize (place stickPosition) := by
  have elemsPos := arranged.elems_gt_one
  rw [arranged.deviceSize_stick]
  exact (Int.le_ediv_iff_mul_le (by omega)).mpr (by omega)

/-- The tiles are one iff the stick dimension fits in a stick. -/
theorem deviceSize_stick_eq_one :
    deviceSize (place stickPosition) = 1 ↔ sizeAt sizes order stickPosition ≤ elems := by
  have positive := arranged.sizeAt_pos stickPosition
  have elemsPos := arranged.elems_gt_one
  rw [arranged.deviceSize_stick, Int.ediv_eq_iff_of_pos (by omega)]
  omega

theorem hostStrides_last (wide : sizeAt sizes order stickPosition ≠ 1) :
    hostStridesOf strideMap (Fin.last _) = strideAt strides order stickPosition := by
  obtain ⟨dim, -, wideDim, -, isStride⟩ := arranged.exists_dim wide
  have positive := arranged.strides_pos wideDim
  unfold hostStridesOf
  rw [arranged.strideMap_last, if_neg wide, if_neg (by omega)]

theorem strideMap_long (long : elems < sizeAt sizes order stickPosition) :
    strideMap (place stickPosition) = strideAt strides order stickPosition * elems ∧
      0 < strideMap (place stickPosition) := by
  have elemsPos := arranged.elems_gt_one
  have wide : sizeAt sizes order stickPosition ≠ 1 := by omega
  obtain ⟨dim, -, wideDim, -, isStride⟩ := arranged.exists_dim wide
  have positive := arranged.strides_pos wideDim
  rw [← isStride] at positive
  have shorter : strideAt strides order stickPosition * elems ≤
      strideAt strides order stickPosition * sizeAt sizes order stickPosition :=
    mul_le_mul_of_nonneg_left (le_of_lt long) (le_of_lt positive)
  rw [arranged.strideMap_stick, if_neg wide, min_eq_left shorter]
  exact ⟨rfl, mul_pos positive (by omega)⟩

theorem hostStrides_stick (long : elems < sizeAt sizes order stickPosition) :
    hostStridesOf strideMap (place stickPosition) =
      strideAt strides order stickPosition * elems := by
  obtain ⟨isStride, positive⟩ := arranged.strideMap_long long
  unfold hostStridesOf
  rw [if_neg (by omega), isStride]

theorem hostStrides_place {i : Fin (outer + 1)} (other : i ≠ stickPosition)
    (wide : sizeAt sizes order i ≠ 1) :
    hostStridesOf strideMap (place i) = strideAt strides order i := by
  obtain ⟨dim, -, wideDim, -, isStride⟩ := arranged.exists_dim wide
  have positive := arranged.strides_pos wideDim
  unfold hostStridesOf
  rw [arranged.strideMap_place i other, if_neg wide, if_neg (by omega)]

end Sizes

end Arranged

end TorchSpyre.TensorLayout
