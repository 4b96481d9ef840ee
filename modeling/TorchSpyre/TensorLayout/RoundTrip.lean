import TorchSpyre.TensorLayout.Assignment
import TorchSpyre.TensorLayout.Copies

/-!
# Copies to the device and back

For every accepted layout the copy descriptions move each host element to a device
position of its own, and the descriptions of the two directions are inverse to each
other.
-/

namespace TorchSpyre.TensorLayout

open Lib

/-- A stick is 128 bytes and no element is as large, so a known stick size is at least 2. -/
def SticksHoldSeveral (sendefs : Sendefs) : Prop :=
  ∀ format, 0 < elemsPerStick sendefs format → 1 < elemsPerStick sendefs format

/-- The converter has made the moves: every destination holds what its source held, and
nothing else has changed. -/
def Copied {Value : Type} (moves : Multiset (ℤ × ℤ)) (source before after : ℤ → Value) : Prop :=
  (∀ move ∈ moves, after move.2 = source move.1) ∧
    ∀ address, (∀ move ∈ moves, move.2 ≠ address) → after address = before address

/-- The moves of both directions, for a host tensor and the device storage of a layout. -/
structure InverseCopies (hostElements deviceElements : ℤ) (toDevice toHost : Multiset (ℤ × ℤ)) :
    Prop where
  everyHost : toDevice.map Prod.fst = (Finset.Ico 0 hostElements).val
  distinctDevice : (toDevice.map Prod.snd).Nodup
  insideDevice : ∀ move ∈ toDevice, 0 ≤ move.2 ∧ move.2 < deviceElements
  inverse : toHost = toDevice.map Prod.swap

namespace InverseCopies

variable {hostElements deviceElements : ℤ} {toDevice toHost : Multiset (ℤ × ℤ)}
  (copies : InverseCopies hostElements deviceElements toDevice toHost)

include copies

theorem exists_move {address : ℤ} (nonneg : 0 ≤ address) (below : address < hostElements) :
    ∃ move ∈ toDevice, move.1 = address := by
  have member : address ∈ toDevice.map Prod.fst := by
    rw [copies.everyHost]
    exact Finset.mem_Ico.mpr ⟨nonneg, below⟩
  exact Multiset.mem_map.mp member

/-- A host tensor survives the way to the device and back. -/
theorem host_restored {Value : Type} {host device device' target target' : ℤ → Value}
    (there : Copied toDevice host device device') (back : Copied toHost device' target target')
    {address : ℤ} (nonneg : 0 ≤ address) (below : address < hostElements) :
    target' address = host address := by
  obtain ⟨move, member, rfl⟩ := copies.exists_move nonneg below
  have swapped : move.swap ∈ toHost := by
    rw [copies.inverse]
    exact Multiset.mem_map_of_mem _ member
  exact (back.1 _ swapped).trans (there.1 _ member)

/-- So does every device position that holds an element. -/
theorem device_restored {Value : Type} {device host host' target target' : ℤ → Value}
    (there : Copied toHost device host host') (back : Copied toDevice host' target target')
    {move : ℤ × ℤ} (member : move ∈ toDevice) : target' move.2 = device move.2 := by
  have swapped : move.swap ∈ toHost := by
    rw [copies.inverse]
    exact Multiset.mem_map_of_mem _ member
  exact (back.1 _ member).trans (there.1 _ swapped)

end InverseCopies

/-! ## Copies of an arrangement -/

theorem Arranged.inverseCopies {hostRank outer : ℕ} {sizes strides : Fin hostRank → ℤ}
    {order : Fin (outer + 1) → Option (Fin hostRank)} {elems : ℤ}
    {deviceSize strideMap : Fin (outer + 2) → ℤ}
    (arranged : Arranged sizes strides order elems deviceSize strideMap) :
    ∃ toDevice toHost,
      getDeviceStrideInfos sizes strides deviceSize strideMap 0 0 true = .ok toDevice ∧
      getDeviceStrideInfos sizes strides deviceSize strideMap 0 0 false = .ok toHost ∧
      InverseCopies (∏ dim, sizes dim) (∏ j, deviceSize j) (movesOf toDevice) (movesOf toHost) := by
  obtain ⟨toDevice, isToDevice, there⟩ := arranged.exists_infos true _ _ rfl rfl
  obtain ⟨toHost, isToHost, back⟩ := arranged.exists_infos false _ _ rfl rfl
  simp only [if_true, Bool.false_eq_true, if_false] at there back
  refine ⟨toDevice, toHost, isToDevice, isToHost, ?_, ?_, ?_, ?_⟩
  · rw [there, Multiset.map_map, ← arranged.host_addresses]
    exact Multiset.map_congr rfl fun point inside => arranged.host_address inside
  · rw [there, Multiset.map_map]
    refine Multiset.Nodup.map_on (fun point inside point' inside' same => ?_) (Finset.nodup _)
    exact devicePoint_injective elems (offset_injective (arranged.devicePoint_inside inside)
      (arranged.devicePoint_inside inside') same)
  · intro move member
    rw [there] at member
    obtain ⟨point, inside, rfl⟩ := Multiset.mem_map.mp member
    have onDevice := arranged.devicePoint_inside inside
    have positive : ∀ j, 0 < deviceSize j := by
      intro j
      have bound := mem_box.mp onDevice j
      simp only [Pi.zero_apply, zero_add] at bound
      omega
    exact ⟨offset_nonneg positive fun j => (mem_box.mp onDevice j).1, offset_lt onDevice⟩
  · rw [there, back, Multiset.map_map]
    rfl

/-! ## Copies of an accepted layout -/

section Layouts

variable {sendefs : Sendefs} {hostSize hostStrides dimOrder : List ℤ} {dtype : ScalarType}
  {layout : SpyreTensorLayout}

theorem prod_vector (values : List ℤ) : ∏ dim, vector values.length values dim = values.prod := by
  have listed : (List.ofFn fun dim : Fin values.length => vector values.length values dim) = values := by
    apply List.ext_getElem
    · rw [List.length_ofFn]
    · intro index inside inside'
      rw [List.getElem_ofFn]
      exact List.getD_eq_getElem _ _ inside'
  rw [← List.prod_ofFn, listed]

/-- What `init` makes of an accepted order is an arrangement. -/
theorem arranged_of_init (several : SticksHoldSeveral sendefs)
    (accepted : AcceptedOrder hostSize.length dimOrder) (positive : ∀ size ∈ hostSize, 0 < size)
    (contiguous : Contiguous (vector hostSize.length hostSize) (vector hostSize.length hostStrides))
    (laidOut : init sendefs hostSize hostStrides dtype dimOrder = .ok layout) :
    hostStrides.length = hostSize.length ∧ ∃ outer, layout.strideMap.length = outer + 2 ∧
      layout.deviceSize.length = outer + 2 ∧
      ∃ order : Fin (outer + 1) → Option (Fin hostSize.length),
        Arranged (vector hostSize.length hostSize) (vector hostSize.length hostStrides) order
          (elemsPerStick sendefs (getDeviceDtype dtype)) (vector (outer + 2) layout.deviceSize)
          (vector (outer + 2) layout.strideMap) := by
  have sizesPos : ∀ dim, 0 < vector hostSize.length hostSize dim := by
    intro dim
    refine positive _ ?_
    rw [vector, List.getD_eq_getElem _ _ dim.isLt]
    exact List.getElem_mem _
  unfold init at laidOut
  obtain ⟨sameLength, laidOut⟩ := of_guard laidOut
  obtain ⟨-, laidOut⟩ := of_guard laidOut
  obtain ⟨-, laidOut⟩ := of_guard laidOut
  obtain ⟨known, laidOut⟩ := of_guard laidOut
  have elemsPos := several _ (not_not.mp known)
  refine ⟨(not_not.mp sameLength).symm, ?_⟩
  simp only at laidOut
  split at laidOut
  next scalar =>
    cases laidOut
    refine ⟨0, rfl, rfl, fun _ => none, ?_⟩
    have noDim : ∀ dim : Fin hostSize.length, False := by
      intro dim
      have bound := dim.isLt
      omega
    have onlyStick : ∀ i : Fin (0 + 1), i = stickPosition := by
      intro i
      have bound := i.isLt
      exact Fin.ext (by rw [Fin.val_last]; omega)
    exact
      { order_injective := fun isDim => by cases isDim
        order_surjective := fun dim => (noDim dim).elim
        sizes_pos := sizesPos
        contiguous
        elems_gt_one := elemsPos
        deviceSize_last := rfl
        deviceSize_stick := by
          change (1 : ℤ) = (1 + elemsPerStick sendefs (getDeviceDtype dtype) - 1) / _
          rw [add_sub_cancel_left, Int.ediv_self (by omega)]
        deviceSize_place := fun i other => absurd (onlyStick i) other
        strideMap_last := rfl
        strideMap_stick := rfl
        strideMap_place := fun i other => absurd (onlyStick i) other }
  next nonempty =>
    cases laidOut
    obtain ⟨outer, isRank⟩ : ∃ outer, dimOrder.length = outer + 1 := by
      have member := accepted.complete le_rfl (Int.ofNat_lt.mpr (Nat.pos_of_ne_zero nonempty))
      exact ⟨dimOrder.length - 1, by have := List.length_pos_of_mem member; omega⟩
    refine ⟨outer, ?_, ?_, orderOf hostSize.length outer dimOrder,
      arranged_of_order accepted isRank elemsPos sizesPos contiguous⟩
    · rw [strideMapOf_length, isRank]
    · unfold deviceSizeOf
      simp [isRank]

/-- The descriptions of an accepted layout are inverse to each other. -/
theorem layout_inverseCopies (several : SticksHoldSeveral sendefs)
    (accepted : AcceptedOrder hostSize.length dimOrder) (positive : ∀ size ∈ hostSize, 0 < size)
    (contiguous : Contiguous (vector hostSize.length hostSize) (vector hostSize.length hostStrides))
    (laidOut : init sendefs hostSize hostStrides dtype dimOrder = .ok layout) :
    ∃ toDevice toHost,
      layoutStrideInfos hostSize hostStrides layout 0 0 true = .ok toDevice ∧
      layoutStrideInfos hostSize hostStrides layout 0 0 false = .ok toHost ∧
      InverseCopies hostSize.prod layout.deviceSize.prod (movesOf toDevice) (movesOf toHost) := by
  obtain ⟨sameLength, outer, isRank, isDeviceRank, order, arranged⟩ :=
    arranged_of_init several accepted positive contiguous laidOut
  have hostElements := prod_vector hostSize
  have deviceElements := prod_vector layout.deviceSize
  unfold layoutStrideInfos
  rw [sameLength]
  rw [isDeviceRank] at deviceElements
  generalize layout.strideMap.length = rank at isRank
  subst isRank
  obtain ⟨toDevice, toHost, isToDevice, isToHost, copies⟩ := arranged.inverseCopies
  rw [hostElements, deviceElements] at copies
  exact ⟨toDevice, toHost, isToDevice, isToHost, copies⟩

/-- For every accepted layout the descriptions of both directions pass all checks; together
they visit each host element once, send it to a device position of its own, and are
inverse to each other. -/
theorem layoutStrideInfos_inverse (several : SticksHoldSeveral sendefs)
    (accepted : AcceptedOrder hostSize.length dimOrder) (positive : ∀ size ∈ hostSize, 0 < size)
    (contiguous : Contiguous (vector hostSize.length hostSize) (vector hostSize.length hostStrides))
    (laidOut : init sendefs hostSize hostStrides dtype dimOrder = .ok layout) :
    ∃ toDevice toHost,
      layoutStrideInfos hostSize hostStrides layout 0 0 true = .ok toDevice ∧
      layoutStrideInfos hostSize hostStrides layout 0 0 false = .ok toHost ∧
      InverseCopies hostSize.prod layout.deviceSize.prod (movesOf toDevice) (movesOf toHost) ∧
      (∀ {Value : Type} {host device device' target target' : ℤ → Value},
        Copied (movesOf toDevice) host device device' →
        Copied (movesOf toHost) device' target target' →
        ∀ address, 0 ≤ address → address < hostSize.prod → target' address = host address) ∧
      ∀ {Value : Type} {device host host' target target' : ℤ → Value},
        Copied (movesOf toHost) device host host' →
        Copied (movesOf toDevice) host' target target' →
        ∀ move ∈ movesOf toDevice, target' move.2 = device move.2 := by
  obtain ⟨toDevice, toHost, isToDevice, isToHost, copies⟩ :=
    layout_inverseCopies several accepted positive contiguous laidOut
  exact ⟨toDevice, toHost, isToDevice, isToHost, copies,
    fun there back _ nonneg below => copies.host_restored there back nonneg below,
    fun there back _ member => copies.device_restored there back member⟩

end Layouts

/-- Stick sizes of the two floating-point formats. -/
def floatSticks : Sendefs :=
  { dataFormatToStickSize := fun format => match format with
      | .sen169Fp16 => some 64
      | .ieeeFp32 => some 32
      | _ => none
    getNumElemsInStick := fun _ => 32
    getSizeInBits := fun _ => 16 }

theorem floatSticks_several : SticksHoldSeveral floatSticks := by
  intro format
  cases format <;> decide

/-- Two rows of one and a half sticks. -/
theorem halfFilledRows_inverse : ∃ layout toDevice toHost,
    init floatSticks [2, 96] [96, 1] .half [0, 1] = .ok layout ∧
    layoutStrideInfos [2, 96] [96, 1] layout 0 0 true = .ok toDevice ∧
    layoutStrideInfos [2, 96] [96, 1] layout 0 0 false = .ok toHost ∧
    InverseCopies 192 256 (movesOf toDevice) (movesOf toHost) := by
  have positive : ∀ size ∈ ([2, 96] : List ℤ), 0 < size := by decide
  have contiguous : Contiguous (vector 2 [2, 96]) (vector 2 [96, 1]) := by
    unfold Contiguous
    decide
  obtain ⟨toDevice, toHost, isToDevice, isToHost, copies, -⟩ :=
    @layoutStrideInfos_inverse floatSticks [2, 96] [96, 1] [0, 1] .half _ floatSticks_several
      (.inl (List.Perm.refl [0, 1])) positive contiguous rfl
  exact ⟨_, toDevice, toHost, rfl, isToDevice, isToHost, copies⟩

end TorchSpyre.TensorLayout
