import TorchSpyre.TensorLayout.TileWalk

/-!
# The copies of an arrangement

The strided loops of an arrangement move every host element once, to the place its
coordinates have on the device: the stick coordinate is split into a tile and a place in
the tile, and the others are kept.
-/

namespace TorchSpyre.TensorLayout

open Lib

/-! ## Element moves -/

namespace DataConversionStrideInfo

variable {rank : ℕ}

/-- Source and destination of every element a loop copies. -/
def moves (info : DataConversionStrideInfo rank) : Multiset (ℤ × ℤ) :=
  (box 0 info.size).val.map fun index =>
    (info.offsetSrc + ∑ k, index k * info.strideSrc k,
      info.offsetDst + ∑ k, index k * info.strideDst k)

/-- The loop with its dimensions reversed and its start moved to a corner. -/
theorem moves_reversed (size source destination start : Fin rank → ℤ) :
    moves { size := fun k => size k.rev
            strideSrc := fun k => source k.rev
            strideDst := fun k => destination k.rev
            offsetSrc := ∑ j, start j * source j
            offsetDst := ∑ j, start j * destination j } =
      (box start size).val.map fun point =>
        (∑ j, point j * source j, ∑ j, point j * destination j) := by
  have reversed : ∀ index values : Fin rank → ℤ,
      ∑ k : Fin rank, index k.rev * values k.rev = ∑ j, index j * values j := fun index values =>
    Equiv.sum_comp Fin.revPerm fun j => index j * values j
  have moved : ∀ index values : Fin rank → ℤ,
      ∑ j, start j * values j + ∑ j, index j * values j = ∑ j, (index + start) j * values j := by
    intro index values
    rw [← Finset.sum_add_distrib]
    apply Finset.sum_congr rfl
    intro j _
    rw [Pi.add_apply]
    ring
  unfold moves
  rw [box_rev, box_add start, Finset.map_val, Finset.map_val, Multiset.map_map, Multiset.map_map]
  apply Multiset.map_congr rfl
  intro index _
  change (_ + ∑ k : Fin rank, index k.rev * source k.rev,
    _ + ∑ k : Fin rank, index k.rev * destination k.rev) =
      (∑ j, (index + start) j * source j, ∑ j, (index + start) j * destination j)
  rw [reversed, reversed, moved, moved]

end DataConversionStrideInfo

def movesOf {rank : ℕ} (infos : List (DataConversionStrideInfo rank)) : Multiset (ℤ × ℤ) :=
  (infos.map DataConversionStrideInfo.moves).sum

/-! ## Points of an arrangement -/

section Points

variable {hostRank outer : ℕ}

/-- The position of a device dimension. -/
def position (j : Fin (outer + 2)) : Fin (outer + 1) :=
  if inner : j.val < outer then ⟨j.val + 1, by omega⟩ else 0

theorem position_place (i : Fin (outer + 1)) : position (place i) = i := by
  have bound := i.isLt
  apply Fin.ext
  unfold position place deviceIndex
  split
  next first =>
    rw [dif_neg (by simp)]
    exact first.symm
  next later =>
    simp only
    rw [dif_pos (by omega)]
    simp only
    omega

variable (elems : ℤ)

/-- Where a point is on the device. -/
def devicePoint (point : Fin (outer + 1) → ℤ) (j : Fin (outer + 2)) : ℤ :=
  if j = Fin.last _ then point stickPosition % elems
  else if j = place stickPosition then point stickPosition / elems
  else point (position j)

theorem devicePoint_last (point : Fin (outer + 1) → ℤ) :
    devicePoint elems point (Fin.last _) = point stickPosition % elems := by
  unfold devicePoint
  rw [if_pos rfl]

theorem devicePoint_stick (point : Fin (outer + 1) → ℤ) :
    devicePoint elems point (place stickPosition) = point stickPosition / elems := by
  unfold devicePoint
  rw [if_neg (place_ne_last _), if_pos rfl]

theorem devicePoint_place (point : Fin (outer + 1) → ℤ) {i : Fin (outer + 1)}
    (other : i ≠ stickPosition) : devicePoint elems point (place i) = point i := by
  unfold devicePoint
  rw [if_neg (place_ne_last _), if_neg (place_injective.ne other), position_place]

/-- The stick coordinate is put together again from tile and place in the tile. -/
theorem devicePoint_injective : Function.Injective (@devicePoint outer elems) := by
  intro point point' same
  funext i
  by_cases atStick : i = stickPosition
  · have tile := congrFun same (place stickPosition)
    have inTile := congrFun same (Fin.last _)
    rw [devicePoint_stick, devicePoint_stick] at tile
    rw [devicePoint_last, devicePoint_last] at inTile
    rw [atStick, ← Int.mul_ediv_add_emod (point stickPosition) elems, tile, inTile,
      Int.mul_ediv_add_emod]
  · have kept := congrFun same (place i)
    rwa [devicePoint_place elems point atStick, devicePoint_place elems point' atStick] at kept

/-- A device point is where its host point is, if its place in the tile is proper. -/
theorem exists_devicePoint {y : Fin (outer + 2) → ℤ} (lower : 0 ≤ y (Fin.last _))
    (upper : y (Fin.last _) < elems) :
    ∃ point, y = devicePoint elems point ∧
      point stickPosition = y (Fin.last _) + y (place stickPosition) * elems ∧
      ∀ i, i ≠ stickPosition → point i = y (place i) := by
  have elemsPos : elems ≠ 0 := by omega
  refine ⟨fun i => if i = stickPosition then y (Fin.last _) + y (place stickPosition) * elems
    else y (place i), ?_, if_pos rfl, fun i other => if_neg other⟩
  funext j
  rcases eq_last_or_place j with rfl | ⟨i, rfl⟩
  · rw [devicePoint_last, if_pos rfl, Int.add_mul_emod_self_right,
      Int.emod_eq_of_lt lower upper]
  · by_cases atStick : i = stickPosition
    · rw [atStick, devicePoint_stick, if_pos rfl, Int.add_mul_ediv_right _ _ elemsPos,
        Int.ediv_eq_zero_of_lt lower upper, zero_add]
    · rw [devicePoint_place elems _ atStick, if_neg atStick]

end Points

/-! ## Full tiles and the last tile -/

/-- Tile and place in the tile of a coordinate in one of the full tiles. -/
theorem full_tile_iff {coordinate size elems tiles : ℤ} (elemsPos : 0 < elems) (sizePos : 0 < size)
    (isTiles : tiles = if size ≤ elems then 1 else size / elems) :
    ((0 ≤ coordinate % elems ∧ coordinate % elems < min size elems) ∧
        0 ≤ coordinate / elems ∧ coordinate / elems < tiles) ↔
      (0 ≤ coordinate ∧ coordinate < size) ∧ coordinate / elems < tiles := by
  have split := Int.mul_ediv_add_emod coordinate elems
  have lower := Int.emod_nonneg coordinate (ne_of_gt elemsPos)
  have upper := Int.emod_lt_of_pos coordinate elemsPos
  have sign : 0 ≤ coordinate / elems ↔ 0 ≤ coordinate := Int.ediv_nonneg_iff_of_pos elemsPos
  by_cases short : size ≤ elems
  · rw [if_pos short] at isTiles
    rw [min_eq_left short, sign, isTiles]
    constructor
    · rintro ⟨⟨-, inside⟩, nonneg, first⟩
      have zero : coordinate / elems = 0 := by
        have nonnegTile := sign.mpr nonneg
        omega
      rw [zero, mul_zero, zero_add] at split
      exact ⟨⟨nonneg, by omega⟩, first⟩
    · rintro ⟨⟨nonneg, inside⟩, first⟩
      have same : coordinate % elems = coordinate := Int.emod_eq_of_lt nonneg (by omega)
      exact ⟨⟨lower, by omega⟩, nonneg, first⟩
  · rw [if_neg short] at isTiles
    rw [min_eq_right (by omega), sign, isTiles]
    constructor
    · rintro ⟨-, nonneg, full⟩
      refine ⟨⟨nonneg, ?_⟩, full⟩
      by_contra beyond
      exact absurd full (not_lt.mpr (Int.ediv_le_ediv elemsPos (not_lt.mp beyond)))
    · rintro ⟨⟨nonneg, -⟩, full⟩
      exact ⟨⟨lower, upper⟩, nonneg, full⟩

/-- A coordinate in the tile that is not full. -/
theorem last_tile_iff {coordinate size elems : ℤ} (elemsPos : 0 < elems) (sizePos : 0 < size) :
    ((0 ≤ coordinate % elems ∧ coordinate % elems < size % elems) ∧
        size / elems ≤ coordinate / elems ∧ coordinate / elems < size / elems + 1) ↔
      (0 ≤ coordinate ∧ coordinate < size) ∧ coordinate / elems = size / elems := by
  have split := Int.mul_ediv_add_emod coordinate elems
  have splitSize := Int.mul_ediv_add_emod size elems
  have lower := Int.emod_nonneg coordinate (ne_of_gt elemsPos)
  have sign : 0 ≤ coordinate / elems ↔ 0 ≤ coordinate := Int.ediv_nonneg_iff_of_pos elemsPos
  have sizeSign : 0 ≤ size / elems := Int.ediv_nonneg (le_of_lt sizePos) (le_of_lt elemsPos)
  constructor
  · rintro ⟨⟨-, inside⟩, atLeast, atMost⟩
    have same : coordinate / elems = size / elems := by omega
    rw [same] at split
    exact ⟨⟨sign.mp (same ▸ sizeSign), by omega⟩, same⟩
  · rintro ⟨⟨nonneg, inside⟩, same⟩
    rw [same] at split
    exact ⟨⟨lower, by omega⟩, by omega, by omega⟩

/-- A coordinate beyond the full tiles is in a last tile that is not full. -/
theorem last_of_not_full {coordinate size elems : ℤ} (elemsPos : 0 < elems)
    (nonneg : 0 ≤ coordinate) (below : coordinate < size)
    (beyond : ¬ coordinate / elems < if size ≤ elems then 1 else size / elems) :
    (elems < size ∧ size % elems ≠ 0) ∧
      coordinate / elems = if size ≤ elems then 1 else size / elems := by
  split at beyond
  next short =>
    rw [Int.ediv_eq_zero_of_lt nonneg (by omega)] at beyond
    exact absurd Int.one_pos beyond
  next long =>
    have same : coordinate / elems = size / elems :=
      le_antisymm (Int.ediv_le_ediv elemsPos (le_of_lt below)) (not_lt.mp beyond)
    have split := Int.mul_ediv_add_emod coordinate elems
    have splitSize := Int.mul_ediv_add_emod size elems
    have lower := Int.emod_nonneg coordinate (ne_of_gt elemsPos)
    rw [same] at split
    rw [if_neg long]
    exact ⟨⟨by omega, by omega⟩, same⟩

section Dims

variable {outer : ℕ}

theorem mem_box_dims {y start width : Fin (outer + 2) → ℤ} : y ∈ box start width ↔
    ((start (Fin.last _) ≤ y (Fin.last _) ∧ y (Fin.last _) < start (Fin.last _) + width (Fin.last _)) ∧
      start (place stickPosition) ≤ y (place stickPosition) ∧
      y (place stickPosition) < start (place stickPosition) + width (place stickPosition)) ∧
    ∀ i, i ≠ stickPosition → start (place i) ≤ y (place i) ∧
      y (place i) < start (place i) + width (place i) := by
  rw [mem_box]
  constructor
  · intro bounds
    exact ⟨⟨bounds _, bounds _⟩, fun i _ => bounds _⟩
  · rintro ⟨⟨atLast, atStick⟩, atOther⟩ j
    rcases eq_last_or_place j with rfl | ⟨i, rfl⟩
    · exact atLast
    · by_cases isStick : i = stickPosition
      · rw [isStick]
        exact atStick
      · exact atOther i isStick

theorem mem_box_positions {point width : Fin (outer + 1) → ℤ} : point ∈ box 0 width ↔
    (0 ≤ point stickPosition ∧ point stickPosition < width stickPosition) ∧
      ∀ i, i ≠ stickPosition → 0 ≤ point i ∧ point i < width i := by
  rw [mem_box]
  simp only [Pi.zero_apply, zero_add]
  constructor
  · intro bounds
    exact ⟨bounds _, fun i _ => bounds i⟩
  · rintro ⟨atStick, atOther⟩ i
    by_cases isStick : i = stickPosition
    · rw [isStick]
      exact atStick
    · exact atOther i isStick

end Dims

namespace Arranged

variable {hostRank outer : ℕ} {sizes strides : Fin hostRank → ℤ}
  {order : Fin (outer + 1) → Option (Fin hostRank)} {elems : ℤ}
  {deviceSize strideMap : Fin (outer + 2) → ℤ}

/-- The start of the last tile on the device. -/
def lastStart (sizes : Fin hostRank → ℤ) (order : Fin (outer + 1) → Option (Fin hostRank))
    (elems : ℤ) : Fin (outer + 2) → ℤ :=
  Function.update 0 (place stickPosition) (fullTiles sizes order elems)

/-- The sizes of the loop over the last tile. -/
def lastSize (sizes : Fin hostRank → ℤ) (order : Fin (outer + 1) → Option (Fin hostRank))
    (elems : ℤ) (deviceSize : Fin (outer + 2) → ℤ) : Fin (outer + 2) → ℤ :=
  Function.update (Function.update (fullSize sizes order elems deviceSize) (place stickPosition) 1)
    (Fin.last _) (sizeAt sizes order stickPosition % elems)

variable (arranged : Arranged sizes strides order elems deviceSize strideMap)

include arranged

theorem mem_full_iff (point : Fin (outer + 1) → ℤ) :
    devicePoint elems point ∈ box 0 (fullSize sizes order elems deviceSize) ↔
      point ∈ box 0 (sizeAt sizes order) ∧
        point stickPosition / elems < fullTiles sizes order elems := by
  have elemsPos := arranged.elems_gt_one
  have stick := @full_tile_iff (point stickPosition) _ elems (fullTiles sizes order elems) (by omega)
    (arranged.sizeAt_pos stickPosition) rfl
  have others : (∀ i, i ≠ stickPosition → 0 ≤ devicePoint elems point (place i) ∧
      devicePoint elems point (place i) < fullSize sizes order elems deviceSize (place i)) ↔
        ∀ i, i ≠ stickPosition → 0 ≤ point i ∧ point i < sizeAt sizes order i := by
    refine forall_congr' fun i => forall_congr' fun other => ?_
    rw [devicePoint_place elems point other, fullSize_place other, arranged.deviceSize_place i other]
  rw [mem_box_dims, mem_box_positions]
  simp only [Pi.zero_apply, zero_add]
  rw [devicePoint_last, devicePoint_stick, fullSize_last, fullSize_stick, stick, others]
  tauto

theorem mem_last_iff (ragged : Ragged sizes order elems) (point : Fin (outer + 1) → ℤ) :
    devicePoint elems point ∈ box (lastStart sizes order elems)
        (lastSize sizes order elems deviceSize) ↔
      point ∈ box 0 (sizeAt sizes order) ∧
        point stickPosition / elems = fullTiles sizes order elems := by
  have elemsPos := arranged.elems_gt_one
  have tiles : fullTiles sizes order elems = sizeAt sizes order stickPosition / elems :=
    if_neg (not_le.mpr ragged.1)
  have stick := @last_tile_iff (point stickPosition) _ elems (by omega)
    (arranged.sizeAt_pos stickPosition)
  have others : (∀ i, i ≠ stickPosition →
      lastStart sizes order elems (place i) ≤ devicePoint elems point (place i) ∧
        devicePoint elems point (place i) < lastStart sizes order elems (place i) +
          lastSize sizes order elems deviceSize (place i)) ↔
        ∀ i, i ≠ stickPosition → 0 ≤ point i ∧ point i < sizeAt sizes order i := by
    refine forall_congr' fun i => forall_congr' fun other => ?_
    unfold lastStart lastSize
    rw [devicePoint_place elems point other, Function.update_of_ne (place_injective.ne other),
      Function.update_of_ne (place_ne_last i), Function.update_of_ne (place_injective.ne other),
      fullSize_place other, arranged.deviceSize_place i other, Pi.zero_apply, zero_add]
  have startLast : lastStart sizes order elems (Fin.last _) = 0 :=
    Function.update_of_ne (place_ne_last _).symm _ _
  have startStick : lastStart sizes order elems (place stickPosition) = fullTiles sizes order elems :=
    Function.update_self _ _ _
  have sizeLast : lastSize sizes order elems deviceSize (Fin.last _) =
      sizeAt sizes order stickPosition % elems := Function.update_self _ _ _
  have sizeStick : lastSize sizes order elems deviceSize (place stickPosition) = 1 := by
    unfold lastSize
    rw [Function.update_of_ne (place_ne_last _), Function.update_self]
  rw [mem_box_dims, mem_box_positions, others, startLast, startStick, sizeLast, sizeStick,
    devicePoint_last, devicePoint_stick, tiles, zero_add, stick]
  tauto

/-- The device dimensions the loops visit. -/
def visited (sizes : Fin hostRank → ℤ) (order : Fin (outer + 1) → Option (Fin hostRank))
    (elems : ℤ) (deviceSize : Fin (outer + 2) → ℤ) : Multiset (Fin (outer + 2) → ℤ) :=
  (box 0 (fullSize sizes order elems deviceSize)).val +
    if Ragged sizes order elems then
      (box (lastStart sizes order elems) (lastSize sizes order elems deviceSize)).val
    else 0

theorem last_lt_elems {y : Fin (outer + 2) → ℤ}
    (inside : y ∈ visited sizes order elems deviceSize) :
    0 ≤ y (Fin.last _) ∧ y (Fin.last _) < elems := by
  have elemsPos := arranged.elems_gt_one
  rcases Multiset.mem_add.mp inside with full | last
  · have bounds := mem_box.mp (Finset.mem_val.mp full) (Fin.last _)
    rw [fullSize_last] at bounds
    simp only [Pi.zero_apply, zero_add] at bounds
    omega
  · split at last
    next =>
      have bounds := mem_box.mp (Finset.mem_val.mp last) (Fin.last _)
      have startLast : lastStart sizes order elems (Fin.last _) = 0 :=
        Function.update_of_ne (place_ne_last _).symm _ _
      have sizeLast : lastSize sizes order elems deviceSize (Fin.last _) =
          sizeAt sizes order stickPosition % elems := Function.update_self _ _ _
      have upper := Int.emod_lt_of_pos (sizeAt sizes order stickPosition) (b := elems) (by omega)
      rw [startLast, sizeLast] at bounds
      omega
    next => exact absurd last (Multiset.notMem_zero _)

/-- The loops visit the place of every host point once. -/
theorem visited_eq : visited sizes order elems deviceSize =
    (box 0 (sizeAt sizes order)).val.map (devicePoint elems) := by
  have elemsPos := arranged.elems_gt_one
  have distinct : (visited sizes order elems deviceSize).Nodup := by
    unfold visited
    rw [Multiset.nodup_add]
    refine ⟨Finset.nodup _, ?_, ?_⟩
    · split
      next => exact Finset.nodup _
      next => exact Multiset.nodup_zero
    · split
      next ragged =>
        rw [Multiset.disjoint_left]
        intro y full last
        have fullBounds := mem_box.mp (Finset.mem_val.mp full) (place stickPosition)
        have lastBounds := mem_box.mp (Finset.mem_val.mp last) (place stickPosition)
        have startStick : lastStart sizes order elems (place stickPosition) =
            fullTiles sizes order elems := Function.update_self _ _ _
        rw [fullSize_stick] at fullBounds
        rw [startStick] at lastBounds
        simp only [Pi.zero_apply, zero_add] at fullBounds
        omega
      next => exact Multiset.disjoint_left.mpr fun _ absent => Multiset.notMem_zero _ absent
  have distinctPoints : ((box 0 (sizeAt sizes order)).val.map (devicePoint elems)).Nodup :=
    Multiset.Nodup.map (devicePoint_injective elems) (Finset.nodup _)
  rw [Multiset.Nodup.ext distinct distinctPoints]
  intro y
  rw [Multiset.mem_map]
  constructor
  · intro inside
    obtain ⟨lower, upper⟩ := arranged.last_lt_elems inside
    obtain ⟨point, rfl, -⟩ := exists_devicePoint elems lower upper
    refine ⟨point, ?_, rfl⟩
    rcases Multiset.mem_add.mp inside with full | last
    · exact ((arranged.mem_full_iff point).mp full).1
    · split at last
      next ragged => exact ((arranged.mem_last_iff ragged point).mp last).1
      next => exact absurd last (Multiset.notMem_zero _)
  · rintro ⟨point, inside, rfl⟩
    unfold visited
    rw [Multiset.mem_add]
    by_cases full : point stickPosition / elems < fullTiles sizes order elems
    · exact .inl ((arranged.mem_full_iff point).mpr ⟨inside, full⟩)
    · right
      obtain ⟨⟨nonneg, below⟩, -⟩ := mem_box_positions.mp inside
      obtain ⟨ragged, last⟩ : Ragged sizes order elems ∧
          point stickPosition / elems = fullTiles sizes order elems :=
        last_of_not_full (by omega) nonneg below full
      rw [if_pos ragged]
      exact (arranged.mem_last_iff ragged point).mpr ⟨inside, last⟩


/-! ## Addresses -/

/-- The host address of a visited point is the address of its host coordinates. -/
theorem host_address {point : Fin (outer + 1) → ℤ} (inside : point ∈ box 0 (sizeAt sizes order)) :
    ∑ j, devicePoint elems point j * hostStridesOf strideMap j =
      ∑ i, point i * strideAt strides order i := by
  have elemsPos := arranged.elems_gt_one
  have bounds := mem_box.mp inside
  simp only [Pi.zero_apply, zero_add] at bounds
  have others : ∀ i, i ≠ stickPosition →
      devicePoint elems point (place i) * hostStridesOf strideMap (place i) =
        point i * strideAt strides order i := by
    intro i other
    rw [devicePoint_place elems point other]
    by_cases narrow : sizeAt sizes order i = 1
    · have zero : point i = 0 := by
        have bound := bounds i
        omega
      rw [zero, zero_mul, zero_mul]
    · rw [arranged.hostStrides_place other narrow]
  have stick : devicePoint elems point (place stickPosition) *
        hostStridesOf strideMap (place stickPosition) +
      devicePoint elems point (Fin.last _) * hostStridesOf strideMap (Fin.last _) =
        point stickPosition * strideAt strides order stickPosition := by
    obtain ⟨lower, upper⟩ := bounds stickPosition
    rw [devicePoint_stick, devicePoint_last]
    by_cases narrow : sizeAt sizes order stickPosition = 1
    · have zero : point stickPosition = 0 := by omega
      rw [zero, Int.zero_ediv, Int.zero_emod, zero_mul, zero_mul, zero_mul, add_zero]
    · rw [arranged.hostStrides_last narrow]
      by_cases short : sizeAt sizes order stickPosition ≤ elems
      · rw [Int.ediv_eq_zero_of_lt lower (by omega), Int.emod_eq_of_lt lower (by omega), zero_mul,
          zero_add]
      · rw [arranged.hostStrides_stick (by omega)]
        have split := Int.mul_ediv_add_emod (point stickPosition) elems
        calc point stickPosition / elems * (strideAt strides order stickPosition * elems) +
              point stickPosition % elems * strideAt strides order stickPosition
            = (elems * (point stickPosition / elems) + point stickPosition % elems) *
                strideAt strides order stickPosition := by ring
          _ = point stickPosition * strideAt strides order stickPosition := by rw [split]
  rw [sum_dims, Fin.sum_univ_castSucc, Fin.sum_univ_castSucc (n := outer), add_assoc, stick]
  congr 1
  apply Finset.sum_congr rfl
  intro i _
  exact others i.castSucc (Fin.castSucc_ne_last i)

/-- A choice of the position of every host dimension. -/
theorem exists_positions : ∃ positions : Fin hostRank → Fin (outer + 1),
    Function.Injective positions ∧ (∀ dim, order (positions dim) = some dim) ∧
      ∀ i, (∃ dim, i = positions dim) ∨ order i = none := by
  choose positions isPosition using arranged.order_surjective
  refine ⟨positions, fun dim dim' same => ?_, isPosition, fun i => ?_⟩
  · have isDim := isPosition dim
    rw [same, isPosition dim'] at isDim
    exact (Option.some.inj isDim).symm
  · cases isDim : order i with
    | none => exact .inr rfl
    | some dim => exact .inl ⟨dim, arranged.order_injective isDim (isPosition dim)⟩

/-- The host addresses are those of the dense host shape. -/
theorem host_addresses : (box 0 (sizeAt sizes order)).val.map
      (fun point => ∑ i, point i * strideAt strides order i) =
    (Finset.Ico 0 (∏ dim, sizes dim)).val := by
  obtain ⟨positions, injective, isPosition, positioned⟩ := arranged.exists_positions
  have size : ∀ dim, sizeAt sizes order (positions dim) = sizes dim := fun dim =>
    sizeAt_of_order (isPosition dim)
  have unplaced : ∀ i, i ∉ Set.range positions → order i = none := fun i outside =>
    (positioned i).resolve_left fun ⟨dim, isDim⟩ => outside ⟨dim, isDim.symm⟩
  have wholeSize : ∏ i, sizeAt sizes order i = ∏ dim, sizes dim := by
    symm
    refine Fintype.prod_of_injective positions injective _ _ (fun i outside => ?_) fun dim =>
      (size dim).symm
    unfold sizeAt
    rw [unplaced i outside]
    rfl
  have inHost : ∀ point ∈ box 0 (sizeAt sizes order),
      (fun dim => point (positions dim)) ∈ box 0 sizes := by
    intro point inside
    refine mem_box.mpr fun dim => ?_
    rw [← size dim]
    exact mem_box.mp inside (positions dim)
  have address : ∀ point ∈ box 0 (sizeAt sizes order),
      ∑ i, point i * strideAt strides order i = offset sizes fun dim => point (positions dim) := by
    intro point inside
    symm
    refine Fintype.sum_of_injective positions injective _ _ (fun i outside => ?_) fun dim => ?_
    · unfold strideAt
      rw [unplaced i outside]
      exact mul_zero _
    · change point (positions dim) * stride sizes dim = _
      rw [strideAt_of_order (isPosition dim)]
      by_cases narrow : sizes dim = 1
      · have bound := mem_box.mp (inHost point inside) dim
        have zero : point (positions dim) = 0 := by
          simp only [Pi.zero_apply, zero_add] at bound
          omega
        rw [zero, zero_mul, zero_mul]
      · rw [arranged.contiguous dim narrow]
  have distinct : Set.InjOn (fun point : Fin (outer + 1) → ℤ => ∑ i, point i * strideAt strides order i)
      (box 0 (sizeAt sizes order)) := by
    intro point inside point' inside' same
    simp only [address point inside, address point' inside'] at same
    have samePoint := offset_injective (inHost point inside) (inHost point' inside') same
    funext i
    rcases positioned i with ⟨dim, rfl⟩ | isNone
    · exact congrFun samePoint dim
    · have isOne : sizeAt sizes order i = 1 := by
        unfold sizeAt
        rw [isNone]
        rfl
      have bound := mem_box.mp inside i
      have bound' := mem_box.mp inside' i
      simp only [Pi.zero_apply, zero_add, isOne] at bound bound'
      omega
  have below : (box 0 (sizeAt sizes order)).image
      (fun point => ∑ i, point i * strideAt strides order i) ⊆ Finset.Ico 0 (∏ dim, sizes dim) := by
    intro value found
    obtain ⟨point, inside, rfl⟩ := Finset.mem_image.mp found
    rw [address point inside, Finset.mem_Ico]
    exact ⟨offset_nonneg arranged.sizes_pos fun dim => (mem_box.mp (inHost point inside) dim).1,
      offset_lt (inHost point inside)⟩
  have enough : (Finset.Ico 0 (∏ dim, sizes dim)).card ≤ ((box 0 (sizeAt sizes order)).image
      fun point => ∑ i, point i * strideAt strides order i).card := by
    rw [Finset.card_image_of_injOn distinct, Int.card_Ico, sub_zero]
    have volume := @card_box _ 0 _ fun i => le_of_lt (arranged.sizeAt_pos i)
    rw [wholeSize] at volume
    omega
  rw [← Finset.eq_of_subset_of_card_le below enough, Finset.image_val_of_injOn distinct]

theorem devicePoint_inside {point : Fin (outer + 1) → ℤ}
    (inside : point ∈ box 0 (sizeAt sizes order)) : devicePoint elems point ∈ box 0 deviceSize := by
  have elemsPos := arranged.elems_gt_one
  obtain ⟨⟨nonneg, below⟩, others⟩ := mem_box_positions.mp inside
  rw [mem_box_dims]
  simp only [Pi.zero_apply, zero_add]
  refine ⟨⟨?_, ?_⟩, fun i other => ?_⟩
  · rw [devicePoint_last, arranged.deviceSize_last]
    exact ⟨Int.emod_nonneg _ (by omega), Int.emod_lt_of_pos _ (by omega)⟩
  · rw [devicePoint_stick, arranged.deviceSize_stick]
    refine ⟨Int.ediv_nonneg nonneg (by omega), ?_⟩
    have atMost := Int.ediv_mul_le (point stickPosition) (b := elems) (by omega)
    apply Int.lt_of_add_one_le
    rw [Int.le_ediv_iff_mul_le (by omega), add_mul, one_mul]
    omega
  · rw [devicePoint_place elems point other, arranged.deviceSize_place i other]
    exact others i other

/-! ## The descriptors -/

omit arranged in
/-- The loop over the full tiles. -/
theorem moves_firstInfo (host2device : Bool) (size source destination : Fin (outer + 2) → ℤ)
    (isSource : source = if host2device then hostStridesOf strideMap else stride deviceSize)
    (isDestination : destination =
      if host2device then stride deviceSize else hostStridesOf strideMap) :
    (firstInfo deviceSize strideMap 0 0 host2device size).moves =
      (box 0 size).val.map fun y => (∑ j, y j * source j, ∑ j, y j * destination j) := by
  have reversed := DataConversionStrideInfo.moves_reversed size source destination 0
  simp only [Pi.zero_apply, zero_mul, Finset.sum_const_zero] at reversed
  rw [← reversed, isSource, isDestination]
  unfold firstInfo
  cases host2device with
  | true => rfl
  | false => rfl

/-- The loop over the last tile. -/
theorem moves_remainderInfo (ragged : Ragged sizes order elems) (host2device : Bool)
    (source destination : Fin (outer + 2) → ℤ)
    (isSource : source = if host2device then hostStridesOf strideMap else stride deviceSize)
    (isDestination : destination =
      if host2device then stride deviceSize else hostStridesOf strideMap) :
    (remainderInfo host2device (lastTile sizes order elems deviceSize strideMap)
        (firstInfo deviceSize strideMap 0 0 host2device
          (fullSize sizes order elems deviceSize))).moves =
      (box (lastStart sizes order elems) (lastSize sizes order elems deviceSize)).val.map fun y =>
        (∑ j, y j * source j, ∑ j, y j * destination j) := by
  have startSum : ∀ values : Fin (outer + 2) → ℤ, ∑ j, lastStart sizes order elems j * values j =
      fullTiles sizes order elems * values (place stickPosition) := by
    intro values
    unfold lastStart
    rw [Finset.sum_eq_single (place stickPosition)]
    · rw [Function.update_self]
    · intro j _ other
      rw [Function.update_of_ne other, Pi.zero_apply, zero_mul]
    · intro absent
      exact absurd (Finset.mem_univ _) absent
  have sizeOf : ∀ j, (if (lastTile sizes order elems deviceSize strideMap).size j = 0 then
      fullSize sizes order elems deviceSize j
      else (lastTile sizes order elems deviceSize strideMap).size j) =
        lastSize sizes order elems deviceSize j := by
    intro j
    unfold lastTile lastSize
    by_cases isLast : j = Fin.last _
    · rw [isLast]
      simp [ragged.2]
    · by_cases isStick : j = place stickPosition
      · rw [isStick]
        simp [Function.update_of_ne (place_ne_last _)]
      · simp [Function.update_of_ne isLast, Function.update_of_ne isStick]
  have reversed := DataConversionStrideInfo.moves_reversed (lastSize sizes order elems deviceSize)
    source destination (lastStart sizes order elems)
  rw [← reversed, startSum, startSum, isSource, isDestination]
  congr 1
  unfold remainderInfo firstInfo
  cases host2device with
  | true =>
      simp only [sizeOf, if_true, zero_add]
      rfl
  | false =>
      simp only [sizeOf, Bool.false_eq_true, if_false, zero_add]
      rfl

/-- The descriptors pass all checks and move what the loops visit. -/
theorem exists_infos (host2device : Bool) (source destination : Fin (outer + 2) → ℤ)
    (isSource : source = if host2device then hostStridesOf strideMap else stride deviceSize)
    (isDestination : destination =
      if host2device then stride deviceSize else hostStridesOf strideMap) :
    ∃ infos, getDeviceStrideInfos sizes strides deviceSize strideMap 0 0 host2device = .ok infos ∧
      movesOf infos = (box 0 (sizeAt sizes order)).val.map fun point =>
        (∑ j, devicePoint elems point j * source j,
          ∑ j, devicePoint elems point j * destination j) := by
  have first := moves_firstInfo host2device (fullSize sizes order elems deviceSize) source
    destination isSource isDestination
  have visits := congrArg (Multiset.map fun y : Fin (outer + 2) → ℤ =>
    (∑ j, y j * source j, ∑ j, y j * destination j)) arranged.visited_eq
  rw [Multiset.map_map] at visits
  unfold getDeviceStrideInfos
  rw [arranged.conversionOf_eq]
  refine ⟨_, rfl, visits ▸ ?_⟩
  unfold lastTiles visited
  split
  next ragged =>
    have last := arranged.moves_remainderInfo ragged host2device source destination isSource
      isDestination
    simp only [List.foldl_cons, List.foldl_nil, List.map_cons, List.map_nil]
    unfold movesOf
    rw [Multiset.map_add, ← first, ← last]
    simp
  next =>
    unfold movesOf
    simp only [List.foldl_nil, List.map_cons, List.map_nil, List.sum_singleton]
    rw [add_zero, ← first]

end Arranged

end TorchSpyre.TensorLayout
