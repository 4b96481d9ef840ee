import Mathlib
import TorchSpyre.CoarseTiling.TileStrides
import TorchSpyre.TensorLayout.RoundTrip
import TorchSpyre.TensorLayout.Shrunk

/-!
# Device layouts of tiles

A dense buffer is cut into tiles.  The device layout of a tile is derived from the one of the
buffer; it is the layout that the tile is given when it is laid out directly.
-/

namespace TorchSpyre.CoarseTiling

open Lib TensorLayout

variable {rank : ℕ}

/-- The sizes or strides of a buffer, as the layout takes them. -/
def entries (dims : Dims rank) : List ℤ := List.ofFn fun dim => (dims dim : ℤ)

/-- A buffer written densely with its dims in the order of their positions; dims of size one may
have any stride. -/
def DenseIn (position : Equiv.Perm (Fin rank)) (size stride : Dims rank) : Prop :=
  ∀ dim, size dim ≠ 1 → stride dim = ∏ other with position dim < position other, size other

instance (position : Equiv.Perm (Fin rank)) (size stride : Dims rank) :
    Decidable (DenseIn position size stride) :=
  inferInstanceAs (Decidable (∀ _, _ → _))

@[simp]
theorem entries_length (dims : Dims rank) : (entries dims).length = rank := List.length_ofFn

theorem entries_getD (dims : Dims rank) {p : ℕ} (inside : p < rank) :
    (entries dims).getD p 0 = dims ⟨p, inside⟩ := by
  rw [List.getD_eq_getElem _ _ (by rwa [entries_length])]
  exact List.getElem_ofFn _

theorem DenseIn.nested {position : Equiv.Perm (Fin rank)} {size stride : Dims rank}
    (dense : DenseIn position size stride) (positive : ∀ dim, 0 < size dim) {dim other : Fin rank}
    (before : position dim < position other) (wide : size dim ≠ 1) (wide' : size other ≠ 1) :
    size other * stride other ≤ stride dim := by
  rw [dense dim wide, dense other wide']
  have fresh : other ∉ Finset.univ.filter fun inner => position other < position inner := by simp
  rw [← Finset.prod_insert fresh]
  refine Finset.prod_le_prod_of_subset_of_one_le' ?_ fun inner _ _ => positive inner
  intro inner listed
  rw [Finset.mem_insert, Finset.mem_filter] at listed
  rw [Finset.mem_filter]
  rcases listed with rfl | ⟨-, later⟩
  · exact ⟨Finset.mem_univ _, before⟩
  · exact ⟨Finset.mem_univ _, before.trans later⟩

theorem DenseIn.stride_pos {position : Equiv.Perm (Fin rank)} {size stride : Dims rank}
    (dense : DenseIn position size stride) (positive : ∀ dim, 0 < size dim) {dim : Fin rank}
    (wide : size dim ≠ 1) : 0 < stride dim := by
  rw [dense dim wide]
  exact Finset.prod_pos fun other _ => positive other

section Init

variable {sendefs : Sendefs} {size stride dimOrder : List ℤ} {dtype : ScalarType}
  {layout : SpyreTensorLayout}

theorem deviceDtype_of_init (laidOut : init sendefs size stride dtype dimOrder = .ok layout) :
    layout.deviceDtype = getDeviceDtype dtype ∧ 0 < elemsPerStick sendefs (getDeviceDtype dtype) := by
  unfold init at laidOut
  obtain ⟨-, laidOut⟩ := of_guard laidOut
  obtain ⟨-, laidOut⟩ := of_guard laidOut
  obtain ⟨-, laidOut⟩ := of_guard laidOut
  obtain ⟨known, laidOut⟩ := of_guard laidOut
  refine ⟨?_, not_not.mp known⟩
  simp only at laidOut
  split at laidOut <;> cases laidOut <;> rfl

/-- Whether a layout is accepted depends on the rank alone. -/
theorem exists_init {size' stride' : List ℤ}
    (laidOut : init sendefs size stride dtype dimOrder = .ok layout)
    (sameRank : size'.length = size.length) (sameRank' : stride'.length = stride.length) :
    ∃ fresh, init sendefs size' stride' dtype dimOrder = .ok fresh := by
  unfold init at laidOut ⊢
  obtain ⟨strides, laidOut⟩ := of_guard laidOut
  obtain ⟨order, laidOut⟩ := of_guard laidOut
  obtain ⟨valid, laidOut⟩ := of_guard laidOut
  obtain ⟨known, laidOut⟩ := of_guard laidOut
  rw [sameRank, sameRank', if_neg strides, if_neg order, if_neg valid, if_neg known]
  simp only
  split
  next => exact ⟨_, rfl⟩
  next => exact ⟨_, rfl⟩

end Init

section Tile

variable {sendefs : Sendefs} {position : Equiv.Perm (Fin rank)}
  {size stride newSize newStride : Dims rank} {dtype : ScalarType} {dimOrder : List ℤ}
  {layout fresh result : SpyreTensorLayout}

theorem newSize_le_of_not_grows
    (shrinks : ¬ ((entries size).zip (entries newSize)).any (fun sizes => sizes.2 > sizes.1) = true)
    (dim : Fin rank) : newSize dim ≤ size dim := by
  by_contra grows
  apply shrinks
  rw [List.any_eq_true]
  refine ⟨((size dim : ℤ), (newSize dim : ℤ)), ?_, by simpa using grows⟩
  rw [List.mem_iff_getElem]
  exact ⟨dim, by simp, by simp [entries]⟩

/-- A tile of a dense buffer, by the positions of its layout. -/
theorem shrink_of_tile {outer : ℕ} {size stride newSize newStride : Dims (outer + 1)}
    {position : Equiv.Perm (Fin (outer + 1))} (several : SticksHoldSeveral sendefs)
    (dense : DenseIn position size stride)
    (order : dimOrder.Perm (genericStickDimOrder (outer + 1)))
    (laidOut : init sendefs (entries size) (entries stride) dtype dimOrder = .ok layout)
    (isFresh : init sendefs (entries newSize) (entries newStride) dtype dimOrder = .ok fresh)
    (tiled : computeTileStride size stride newSize = .ok newStride)
    (smaller : ∀ dim, newSize dim ≤ size dim) :
    Shrink (fun i : Fin (outer + 1) => (dimOrder.getD i 0).toNat) (entries size) (entries newSize)
      (entries stride) (entries newStride) (elemsPerStick sendefs (getDeviceDtype dtype)) layout
      fresh := by
  obtain ⟨divides, -, -⟩ := computeTileStride_spec tiled
  have positive : ∀ dim, 0 < size dim := fun dim => (divides dim).1.trans_le (smaller dim)
  have size_pos : ∀ p < outer + 1, 0 < (entries size).getD p 0 := by
    intro p inside
    rw [entries_getD size inside]
    exact Int.natCast_pos.mpr (positive _)
  have newSize_pos : ∀ p < outer + 1, 0 < (entries newSize).getD p 0 := by
    intro p inside
    rw [entries_getD newSize inside]
    exact Int.natCast_pos.mpr (divides _).1
  have stride_pos : ∀ p < outer + 1, (entries size).getD p 0 ≠ 1 → 0 < (entries stride).getD p 0 := by
    intro p inside wide
    rw [entries_getD size inside] at wide
    rw [entries_getD stride inside]
    exact Int.natCast_pos.mpr (dense.stride_pos positive (by exact_mod_cast wide))
  have newStride_pos : ∀ p < outer + 1, (entries newSize).getD p 0 ≠ 1 →
      0 < (entries newStride).getD p 0 := by
    intro p inside wide
    rw [entries_getD newSize inside] at wide
    rw [entries_getD newStride inside]
    have tileWide : newSize ⟨p, inside⟩ ≠ 1 := by exact_mod_cast wide
    have sizeWide : size ⟨p, inside⟩ ≠ 1 := by
      have below := smaller ⟨p, inside⟩
      have above := (divides ⟨p, inside⟩).1
      omega
    have regular : Regular size stride ⟨p, inside⟩ :=
      ⟨sizeWide, (dense.stride_pos positive sizeWide).ne'⟩
    have tileRegular := (regular_tile tiled ⟨p, inside⟩).mpr ⟨regular, tileWide⟩
    exact Int.natCast_pos.mpr (Nat.pos_of_ne_zero tileRegular.2)
  have orderRank : dimOrder.length = outer + 1 := by
    rw [order.length_eq, genericStickDimOrder, List.length_map, List.length_range]
  have accepted : AcceptedOrder (outer + 1) dimOrder := .inl order
  have sameOrder : dimOrder.Perm (genericStickDimOrder (entries size).length) := by
    rwa [entries_length]
  have acceptedHere : AcceptedOrder (entries size).length dimOrder := .inl sameOrder
  have sameOrder' : dimOrder.Perm (genericStickDimOrder (entries newSize).length) := by
    rwa [entries_length]
  have bounds : ∀ i : Fin (outer + 1), 0 ≤ dimOrder.getD i 0 ∧ dimOrder.getD i 0 < (outer + 1 : ℕ) :=
    fun i => AcceptedOrder.mem_generic.1 (order.mem_iff.mp (getD_mem orderRank i))
  exact
    { rank := entries_length size
      hostDim_injective := by
        intro i i' same
        have bound := bounds i
        have bound' := bounds i'
        simp only at same
        refine Fin.ext (getD_injective acceptedHere orderRank i.isLt i'.isLt ?_)
        omega
      hostDim_lt := by
        intro i
        have bound := bounds i
        omega
      exists_hostDim := by
        intro p inside
        have member := accepted.complete (Int.natCast_nonneg p) (Int.ofNat_lt.mpr inside)
        obtain ⟨index, bound, isDim⟩ := List.mem_iff_getElem.mp member
        refine ⟨⟨index, by omega⟩, ?_⟩
        simp only
        rw [List.getD_eq_getElem _ _ bound, isDim]
        rfl
      elems_gt_one := several _ (deviceDtype_of_init laidOut).2
      laid := laid_of_init (entries_length size) sameOrder size_pos stride_pos laidOut
      laid_target := laid_of_init (entries_length newSize) sameOrder' newSize_pos newStride_pos isFresh
      newSize_pos
      newSize_le := by
        intro p inside
        rw [entries_getD newSize inside, entries_getD size inside]
        exact Int.ofNat_le.mpr (smaller _)
      stride_pos
      nested := by
        intro p inside q inside' apart wide wide'
        rw [entries_getD size inside] at wide ⊢
        rw [entries_getD size inside'] at wide' ⊢
        rw [entries_getD stride inside, entries_getD stride inside']
        have long : size ⟨p, inside⟩ ≠ 1 := by exact_mod_cast wide
        have long' : size ⟨q, inside'⟩ ≠ 1 := by exact_mod_cast wide'
        have distinct : position ⟨p, inside⟩ ≠ position ⟨q, inside'⟩ :=
          position.injective.ne fun same => apart (congrArg Fin.val same)
        rcases lt_or_gt_of_ne distinct with before | before
        · exact .inl (by exact_mod_cast dense.nested positive before long long')
        · exact .inr (by exact_mod_cast dense.nested positive before long' long) }

/-- Without host dims there is one device dim, and it stays. -/
theorem resizeDeviceLayout_scalar {size newSize stride newStride : Dims 0}
    (order : dimOrder.Perm (genericStickDimOrder 0))
    (laidOut : init sendefs (entries size) (entries stride) dtype dimOrder = .ok layout)
    (isFresh : init sendefs (entries newSize) (entries newStride) dtype dimOrder = .ok fresh)
    {stickHostDim : Option ℤ}
    (resized : resizeDeviceLayout sendefs layout (entries size) (entries newSize) stickHostDim
      (some (entries stride)) (some (entries newStride)) = .ok result) :
    result.deviceSize = fresh.deviceSize ∧ result.strideMap = fresh.strideMap := by
  have noOrder : dimOrder = [] := List.eq_nil_of_length_eq_zero order.length_eq
  have noEntries : ∀ dims : Dims 0, entries dims = [] := fun _ => rfl
  have known := (deviceDtype_of_init laidOut).2
  have noStick : ∀ orig eps, trustedStick orig eps [] stickHostDim = none := by
    intro orig eps
    unfold trustedStick
    split
    next => rfl
    next => exact if_neg (by simp)
  rw [noOrder, noEntries, noEntries] at laidOut isFresh
  obtain rfl : layout = fresh := Except.ok.inj (laidOut.symm.trans isFresh)
  have isLayout : layout.deviceSize = [1, elemsPerStick sendefs (getDeviceDtype dtype)] ∧
      layout.strideMap = [-1, -1] := by
    unfold init at laidOut
    obtain ⟨-, laidOut⟩ := of_guard laidOut
    obtain ⟨-, laidOut⟩ := of_guard laidOut
    obtain ⟨-, laidOut⟩ := of_guard laidOut
    obtain ⟨-, laidOut⟩ := of_guard laidOut
    cases laidOut
    exact ⟨rfl, rfl⟩
  have passes : ∀ eps, resizePasses layout eps [] [] [] [] none =
      ofDeviceSize (layout.deviceSize, layout.strideMap) layout.deviceDtype := by
    intro eps
    simp [resizePasses, pass1, matchDim, sizeCands, pass1b, findPstar, pstarCands, unmatchedAll,
      finalPstar, isLayout, bind, Except.bind]
  rw [noEntries, noEntries, noEntries, noEntries] at resized
  unfold resizeDeviceLayout at resized
  simp only [noStick, passes] at resized
  obtain ⟨-, resized⟩ := of_guard resized
  obtain ⟨-, resized⟩ := of_guard resized
  exact Shrink.ofDeviceSize_eq_ok resized

/-- The layout derived for a tile, with the stick host dim or without, is the layout that the
tile is given when it is laid out in the same order; device dims of host dims that are not tiled
keep their sizes. -/
theorem resizeDeviceLayout_eq_init (several : SticksHoldSeveral sendefs)
    (dense : DenseIn position size stride) (order : dimOrder.Perm (genericStickDimOrder rank))
    (laidOut : init sendefs (entries size) (entries stride) dtype dimOrder = .ok layout)
    (tiled : computeTileStride size stride newSize = .ok newStride) {stickHostDim : Option ℤ}
    (stick : stickHostDim = none ∨ stickHostDim = some (dimOrder.getLastD 0))
    (resized : resizeDeviceLayout sendefs layout (entries size) (entries newSize) stickHostDim
      (some (entries stride)) (some (entries newStride)) = .ok result) :
    (∃ fresh, init sendefs (entries newSize) (entries newStride) dtype dimOrder = .ok fresh ∧
      result.deviceSize = fresh.deviceSize ∧ result.strideMap = fresh.strideMap) ∧
    ∀ i < dimOrder.length,
      entry (entries newSize) (dimOrder.getD i 0) = entry (entries size) (dimOrder.getD i 0) →
      result.deviceSize.getD (deviceIndex dimOrder.length i) 0 =
        layout.deviceSize.getD (deviceIndex dimOrder.length i) 0 := by
  obtain ⟨fresh, isFresh⟩ := @exists_init _ _ _ _ _ _ (entries newSize) (entries newStride) laidOut
    (by simp) (by simp)
  cases rank with
  | zero =>
      refine ⟨⟨fresh, isFresh, resizeDeviceLayout_scalar order laidOut isFresh resized⟩, ?_⟩
      intro i inside
      rw [order.length_eq] at inside
      exact absurd inside (Nat.not_lt_zero i)
  | succ outer =>
      have isDtype := (deviceDtype_of_init laidOut).1
      have orderRank : dimOrder.length = outer + 1 := by
        rw [order.length_eq, genericStickDimOrder, List.length_map, List.length_range]
      unfold resizeDeviceLayout at resized
      obtain ⟨shrinks, resized⟩ := of_guard resized
      obtain ⟨-, resized⟩ := of_guard resized
      have shrink := shrink_of_tile several dense order laidOut isFresh tiled
        (newSize_le_of_not_grows shrinks)
      rw [isDtype] at resized
      have known : trustedStick layout (elemsPerStick sendefs (getDeviceDtype dtype)) (entries size)
            stickHostDim = none ∨
          trustedStick layout (elemsPerStick sendefs (getDeviceDtype dtype)) (entries size)
            stickHostDim = some (dimOrder.getD (stickPosition : Fin (outer + 1)) 0).toNat := by
        rcases stick with rfl | rfl
        · exact .inl rfl
        · rw [getLastD_eq orderRank]
          unfold trustedStick
          simp only
          split
          next => split <;> simp
          next => exact .inl rfl
      obtain ⟨isSize, isStride⟩ := shrink.resizePasses_eq known resized
      refine ⟨⟨fresh, isFresh, isSize, isStride⟩, fun i inside same => ?_⟩
      rw [orderRank] at inside ⊢
      have places := shrink.laid.deviceSize_place ⟨i, inside⟩
      have freshPlaces := shrink.laid_target.deviceSize_place ⟨i, inside⟩
      unfold entry at same
      simp only at places freshPlaces
      rw [same, ← places, ← isSize] at freshPlaces
      exact freshPlaces

end Tile

/-- Two outer dims of one size, written the other way round, and a row of as many sticks. -/
theorem swappedRows_resized : ∃ layout result fresh,
    init floatSticks [4, 4, 256] [256, 1024, 1] .half [1, 0, 2] = .ok layout ∧
    resizeDeviceLayout floatSticks layout [4, 4, 256] [2, 4, 256] none (some [256, 1024, 1])
      (some [256, 512, 1]) = .ok result ∧
    init floatSticks [2, 4, 256] [256, 512, 1] .half [1, 0, 2] = .ok fresh ∧
    result.deviceSize = fresh.deviceSize ∧ result.strideMap = fresh.strideMap ∧
    result.deviceSize = [2, 4, 4, 64] := by
  have dense : DenseIn (Equiv.swap 0 1) ![4, 4, 256] ![256, 1024, 1] := by decide +kernel
  have tiled : computeTileStride ![4, 4, 256] ![256, 1024, 1] ![2, 4, 256] = .ok ![256, 512, 1] := by
    refine Eq.trans rfl (congrArg Except.ok (funext fun dim => ?_))
    fin_cases dim <;> rfl
  obtain ⟨layout, laidOut⟩ : ∃ layout,
      init floatSticks [4, 4, 256] [256, 1024, 1] .half [1, 0, 2] = .ok layout := ⟨_, rfl⟩
  obtain ⟨result, resized⟩ : ∃ result, resizeDeviceLayout floatSticks layout [4, 4, 256] [2, 4, 256]
      none (some [256, 1024, 1]) (some [256, 512, 1]) = .ok result := by
    cases laidOut
    exact ⟨_, rfl⟩
  obtain ⟨⟨fresh, isFresh, isSize, isStride⟩, -⟩ :=
    resizeDeviceLayout_eq_init floatSticks_several dense (List.Perm.swap _ _ _) laidOut tiled
      (.inl rfl) resized
  refine ⟨layout, result, fresh, laidOut, resized, isFresh, isSize, isStride, ?_⟩
  rw [isSize]
  cases isFresh
  rfl

end TorchSpyre.CoarseTiling
