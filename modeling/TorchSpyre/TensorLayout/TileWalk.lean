import Mathlib
import TorchSpyre.TensorLayout.Tiles

/-!
# The sizes of the strided loops

The walk over the tiles of an arrangement raises nothing.  Each host dimension sets the
sizes of its own device dimensions, and the stick dimension adds one remainder when its
last tile is partial.
-/

namespace TorchSpyre.TensorLayout

open Lib

/-! ## One host dimension -/

section Walk

variable {rank : ℕ} {deviceSizes hostStrides deviceStrides : Fin rank → ℤ}
  {hostStride hostSize : ℤ} (conversion : Conversion rank)

/-- A dimension that is stored untiled. -/
theorem walkTiles_one {j : Fin rank} (stridePos : 0 < hostStride) (sizePos : 0 < hostSize)
    (sameStride : hostStrides j = hostStride) (wide : 1 < deviceSizes j) :
    walkTiles deviceSizes hostStrides deviceStrides hostStride hostSize [j] 1 conversion =
      .ok { conversion with
            dcsiSizes := Function.update conversion.dcsiSizes j (min hostSize (deviceSizes j)) } := by
  have nonzero : hostStride ≠ 0 := by omega
  have notOne : deviceSizes j ≠ 1 := by omega
  have positive : 0 < deviceSizes j := by omega
  simp [walkTiles, nonzero, notOne, positive, sameStride, Int.tdiv_self nonzero, sizePos]

/-- Full tiles only. -/
theorem walkTiles_even {tile stick : Fin rank} {elems tiles : ℤ} (stridePos : 0 < hostStride)
    (elemsPos : 1 < elems) (tilesPos : 1 < tiles) (isSize : hostSize = tiles * elems)
    (tileStride : hostStrides tile = hostStride * elems) (stickStride : hostStrides stick = hostStride)
    (tileSize : deviceSizes tile = tiles) (stickSize : deviceSizes stick = elems) :
    walkTiles deviceSizes hostStrides deviceStrides hostStride hostSize [tile, stick] 1 conversion =
      .ok { conversion with
            dcsiSizes :=
              Function.update (Function.update conversion.dcsiSizes tile tiles) stick elems } := by
  have nonzero : hostStride ≠ 0 := by omega
  have elemsNonzero : elems ≠ 0 := by omega
  have tilesNonzero : tiles ≠ 0 := by omega
  have tilesOne : tiles ≠ 1 := by omega
  have elemsOne : elems ≠ 1 := by omega
  have tilesGt : 0 < tiles := by omega
  have elemsGt : 0 < elems := by omega
  simp [walkTiles, nonzero, elemsNonzero, tilesOne, elemsOne, tilesGt, elemsGt,
    tileStride, stickStride, tileSize, stickSize, isSize, Int.tdiv_self nonzero,
    Int.mul_tdiv_cancel_left _ nonzero, Int.mul_tdiv_cancel _ elemsNonzero,
    Int.mul_tdiv_cancel_left _ tilesNonzero]

/-- A last tile that is not full. -/
theorem walkTiles_ragged {tile stick : Fin rank} {elems : ℤ} (stridePos : 0 < hostStride)
    (elemsPos : 1 < elems) (long : elems < hostSize) (ragged : hostSize % elems ≠ 0)
    (tileStride : hostStrides tile = hostStride * elems) (stickStride : hostStrides stick = hostStride)
    (tileSize : 1 < deviceSizes tile) (stickSize : deviceSizes stick = elems) :
    walkTiles deviceSizes hostStrides deviceStrides hostStride hostSize [tile, stick] 1 conversion =
      .ok { dcsiSizes := Function.update
              (Function.update conversion.dcsiSizes tile (hostSize / elems)) stick elems
            remainders := conversion.remainders ++
              [{ size := Function.update (Function.update (fun _ => 0) tile 1) stick
                  (hostSize % elems)
                 hostOffset := hostSize / elems * hostStrides tile
                 deviceOffset := hostSize / elems * deviceStrides tile }] } := by
  have nonzero : hostStride ≠ 0 := by omega
  have elemsNonzero : elems ≠ 0 := by omega
  have tileOne : deviceSizes tile ≠ 1 := by omega
  have tilePos : 0 < deviceSizes tile := by omega
  have elemsGt : 0 < elems := by omega
  have quotient : hostSize.tdiv elems = hostSize / elems := Int.tdiv_eq_ediv_of_nonneg (by omega)
  have remainder : hostSize.tmod elems = hostSize % elems := Int.tmod_eq_emod_of_nonneg (by omega)
  have quotientPos : 0 < hostSize / elems := (Int.le_ediv_iff_mul_le elemsGt).mpr (by omega)
  simp [walkTiles, nonzero, elemsNonzero, tileOne, tilePos, elemsGt, tileStride, stickStride,
    stickSize, Int.mul_tdiv_cancel_left _ nonzero, quotient, remainder,
    quotientPos, ragged]

end Walk

/-! ## The sizes of an arrangement -/

section Full

variable {hostRank outer : ℕ} (sizes : Fin hostRank → ℤ)
  (order : Fin (outer + 1) → Option (Fin hostRank)) (elems : ℤ)
  (deviceSize strideMap : Fin (outer + 2) → ℤ)

/-- The number of tiles that are full, or the only tile. -/
def fullTiles : ℤ :=
  if sizeAt sizes order stickPosition ≤ elems then 1 else sizeAt sizes order stickPosition / elems

/-- The sizes of the loop over the full tiles. -/
def fullSize (j : Fin (outer + 2)) : ℤ :=
  if j = Fin.last _ then min (sizeAt sizes order stickPosition) elems
  else if j = place stickPosition then fullTiles sizes order elems
  else deviceSize j

/-- The last tile is partial and not the only one. -/
def Ragged : Prop :=
  elems < sizeAt sizes order stickPosition ∧ sizeAt sizes order stickPosition % elems ≠ 0

instance : Decidable (Ragged sizes order elems) := inferInstanceAs (Decidable (_ ∧ _))

def lastTile : Remainder (outer + 2) :=
  { size := Function.update (Function.update (fun _ => 0) (place stickPosition) 1) (Fin.last _)
      (sizeAt sizes order stickPosition % elems)
    hostOffset := fullTiles sizes order elems * hostStridesOf strideMap (place stickPosition)
    deviceOffset := fullTiles sizes order elems * stride deviceSize (place stickPosition) }

def lastTiles : List (Remainder (outer + 2)) :=
  if Ragged sizes order elems then [lastTile sizes order elems deviceSize strideMap] else []

/-- The device dimension belongs to the host dimension. -/
def Owns (dim : Fin hostRank) (j : Fin (outer + 2)) : Prop :=
  (j = Fin.last _ ∧ order stickPosition = some dim) ∨ ∃ i, j = place i ∧ order i = some dim

instance (dim : Fin hostRank) (j : Fin (outer + 2)) : Decidable (Owns order dim j) :=
  inferInstanceAs (Decidable (_ ∨ _))

end Full

namespace Arranged

variable {hostRank outer : ℕ} {sizes strides : Fin hostRank → ℤ}
  {order : Fin (outer + 1) → Option (Fin hostRank)} {elems : ℤ}
  {deviceSize strideMap : Fin (outer + 2) → ℤ}

section Full

theorem fullSize_last : fullSize sizes order elems deviceSize (Fin.last _) =
    min (sizeAt sizes order stickPosition) elems := by
  unfold fullSize
  rw [if_pos rfl]

theorem fullSize_stick : fullSize sizes order elems deviceSize (place stickPosition) =
    fullTiles sizes order elems := by
  unfold fullSize
  rw [if_neg (place_ne_last _), if_pos rfl]

theorem fullSize_place {i : Fin (outer + 1)} (other : i ≠ stickPosition) :
    fullSize sizes order elems deviceSize (place i) = deviceSize (place i) := by
  unfold fullSize
  rw [if_neg (place_ne_last _), if_neg (place_injective.ne other)]

end Full

variable (arranged : Arranged sizes strides order elems deviceSize strideMap)

include arranged

theorem narrow_of_getTileMap {dim : Fin hostRank}
    (untiled : getTileMap sizes strides deviceSize strideMap dim = []) : sizes dim = 1 := by
  obtain ⟨i, isDim⟩ := arranged.order_surjective dim
  by_contra wide
  by_cases atStick : i = stickPosition
  · rw [atStick] at isDim
    rw [arranged.getTileMap_stick isDim, if_neg wide] at untiled
    split at untiled
    next => cases untiled
    next => cases untiled
  · rw [arranged.getTileMap_place isDim atStick, if_neg wide] at untiled
    cases untiled

/-- Only dimensions of size 1 are folded in. -/
theorem foldedSize_eq (dim : Fin hostRank) :
    foldedSize sizes strides (getTileMap sizes strides deviceSize strideMap) dim = sizes dim := by
  unfold foldedSize
  have folded : ∀ j ∈ ((((List.finRange hostRank).filter (· < dim)).reverse.takeWhile fun j =>
      getTileMap sizes strides deviceSize strideMap j = []).filter fun j => strides j ≠ 0),
      sizes j = 1 := by
    intro j member
    have untiled := List.mem_takeWhile_imp (List.mem_filter.mp member).1
    exact arranged.narrow_of_getTileMap (of_decide_eq_true untiled)
  generalize List.filter _ _ = dims at folded
  induction dims with
  | nil => rfl
  | cons j dims inductionHypothesis =>
      rw [List.foldl_cons, folded j List.mem_cons_self, mul_one]
      exact inductionHypothesis fun other member => folded other (List.mem_cons_of_mem _ member)

omit arranged in
theorem owns_iff_of_other {i : Fin (outer + 1)} {dim : Fin hostRank} (isDim : order i = some dim)
    (injective : ∀ {i i' dim}, order i = some dim → order i' = some dim → i = i')
    (other : i ≠ stickPosition) (j : Fin (outer + 2)) : Owns order dim j ↔ j = place i := by
  constructor
  · rintro (⟨-, atStick⟩ | ⟨i', rfl, isDim'⟩)
    · exact absurd (injective isDim atStick) other
    · rw [injective isDim isDim']
  · rintro rfl
    exact .inr ⟨i, rfl, isDim⟩

omit arranged in
theorem owns_iff_of_stick {dim : Fin hostRank} (isDim : order stickPosition = some dim)
    (injective : ∀ {i i' dim}, order i = some dim → order i' = some dim → i = i')
    (j : Fin (outer + 2)) : Owns order dim j ↔ j = Fin.last _ ∨ j = place stickPosition := by
  constructor
  · rintro (⟨isLast, -⟩ | ⟨i', rfl, isDim'⟩)
    · exact .inl isLast
    · rw [injective isDim' isDim]
      exact .inr rfl
  · rintro (rfl | rfl)
    · exact .inl ⟨rfl, isDim⟩
    · exact .inr ⟨_, rfl, isDim⟩

theorem convertDim_walk (conversion : Conversion (outer + 2)) (dim : Fin hostRank) :
    convertDim sizes strides deviceSize strideMap conversion dim =
      walkTiles deviceSize (hostStridesOf strideMap) (stride deviceSize) (strides dim) (sizes dim)
        (getTileMap sizes strides deviceSize strideMap dim).reverse 1 conversion := by
  unfold convertDim
  simp only [arranged.foldedSize_eq]

/-- What a host dimension contributes to the conversion. -/
def converted (sizes : Fin hostRank → ℤ) (order : Fin (outer + 1) → Option (Fin hostRank))
    (elems : ℤ) (deviceSize strideMap : Fin (outer + 2) → ℤ) (conversion : Conversion (outer + 2))
    (dim : Fin hostRank) : Conversion (outer + 2) :=
  { dcsiSizes := fun j =>
      if Owns order dim j then fullSize sizes order elems deviceSize j else conversion.dcsiSizes j
    remainders := conversion.remainders ++
      if order stickPosition = some dim then lastTiles sizes order elems deviceSize strideMap
      else [] }

theorem convertDim_place {conversion : Conversion (outer + 2)} {i : Fin (outer + 1)}
    {dim : Fin hostRank} (fresh : ∀ j, Owns order dim j → conversion.dcsiSizes j = 1)
    (isDim : order i = some dim) (other : i ≠ stickPosition) :
    convertDim sizes strides deviceSize strideMap conversion dim =
      .ok (converted sizes order elems deviceSize strideMap conversion dim) := by
  have owned := owns_iff_of_other isDim arranged.order_injective other
  have notStick : order stickPosition ≠ some dim := fun atStick =>
    other (arranged.order_injective isDim atStick)
  have isSize : sizeAt sizes order i = sizes dim := sizeAt_of_order isDim
  have sizePos := arranged.sizes_pos dim
  unfold converted
  rw [arranged.convertDim_walk, arranged.getTileMap_place isDim other, if_neg notStick,
    List.append_nil]
  by_cases narrow : sizes dim = 1
  · rw [if_pos narrow]
    have unchanged : (fun j => if Owns order dim j then fullSize sizes order elems deviceSize j
        else conversion.dcsiSizes j) = conversion.dcsiSizes := by
      funext j
      split
      next isOwned =>
        rw [fresh j isOwned, (owned j).mp isOwned, fullSize_place other,
          arranged.deviceSize_place i other, isSize, narrow]
      next => rfl
    rw [unchanged]
    rfl
  · have wide : sizeAt sizes order i ≠ 1 := by rwa [isSize]
    have device := arranged.deviceSize_place i other
    rw [if_neg narrow, List.reverse_singleton, walkTiles_one _ (arranged.strides_pos narrow) sizePos
      ((arranged.hostStrides_place other wide).trans (strideAt_of_order isDim)) (by omega)]
    congr 2
    funext j
    rw [device, isSize, min_self]
    by_cases here : j = place i
    · rw [if_pos ((owned j).mpr here), here, Function.update_self, fullSize_place other, device,
        isSize]
    · rw [if_neg fun isOwned => here ((owned j).mp isOwned), Function.update_of_ne here]

omit arranged in
theorem lastTiles_eq_nil (notRagged : ¬ Ragged sizes order elems) :
    lastTiles sizes order elems deviceSize strideMap = [] :=
  if_neg notRagged

/-- A stick dimension that fits in one stick. -/
theorem convertDim_short {conversion : Conversion (outer + 2)} {dim : Fin hostRank}
    (fresh : ∀ j, Owns order dim j → conversion.dcsiSizes j = 1)
    (isDim : order stickPosition = some dim) (short : sizes dim ≤ elems) :
    convertDim sizes strides deviceSize strideMap conversion dim =
      .ok (converted sizes order elems deviceSize strideMap conversion dim) := by
  have owned := owns_iff_of_stick isDim arranged.order_injective
  have isSize : sizeAt sizes order stickPosition = sizes dim := sizeAt_of_order isDim
  have notRagged : ¬ Ragged sizes order elems := by
    rintro ⟨long, -⟩
    omega
  have oneTile : fullTiles sizes order elems = 1 := if_pos (by omega)
  have sizesOf : (fun j => if Owns order dim j then fullSize sizes order elems deviceSize j
      else conversion.dcsiSizes j) =
        Function.update conversion.dcsiSizes (Fin.last _) (sizes dim) := by
    funext j
    by_cases isLast : j = Fin.last _
    · rw [if_pos ((owned j).mpr (.inl isLast)), isLast, Function.update_self, fullSize_last, isSize,
        min_eq_left short]
    · rw [Function.update_of_ne isLast]
      split
      next isOwned =>
        rw [fresh j isOwned, ((owned j).mp isOwned).resolve_left isLast, fullSize_stick, oneTile]
      next => rfl
  unfold converted
  rw [arranged.convertDim_walk, arranged.getTileMap_stick isDim, if_pos isDim,
    lastTiles_eq_nil notRagged, List.append_nil, sizesOf]
  by_cases narrow : sizes dim = 1
  · have atLast := fresh _ ((owned (Fin.last _)).mpr (.inl rfl))
    rw [if_pos narrow, narrow, ← atLast, Function.update_eq_self]
    rfl
  · have sizePos := arranged.sizes_pos dim
    have stickSize := arranged.deviceSize_last
    have wide : sizeAt sizes order stickPosition ≠ 1 := by rwa [isSize]
    have stickStride := (arranged.hostStrides_last wide).trans (strideAt_of_order isDim)
    rw [if_neg narrow, if_pos short, List.reverse_singleton,
      walkTiles_one _ (arranged.strides_pos narrow) sizePos stickStride (by omega), stickSize,
      min_eq_left short]

/-- A stick dimension of several tiles. -/
theorem convertDim_long {conversion : Conversion (outer + 2)} {dim : Fin hostRank}
    (isDim : order stickPosition = some dim) (long : elems < sizes dim) :
    convertDim sizes strides deviceSize strideMap conversion dim =
      .ok (converted sizes order elems deviceSize strideMap conversion dim) := by
  have owned := owns_iff_of_stick isDim arranged.order_injective
  have isSize : sizeAt sizes order stickPosition = sizes dim := sizeAt_of_order isDim
  have isLong : elems < sizeAt sizes order stickPosition := by rwa [isSize]
  have elemsPos := arranged.elems_gt_one
  have tiles : fullTiles sizes order elems = sizes dim / elems := by
    unfold fullTiles
    rw [if_neg (by omega), isSize]
  have sizesOf : (fun j => if Owns order dim j then fullSize sizes order elems deviceSize j
      else conversion.dcsiSizes j) = Function.update (Function.update conversion.dcsiSizes
        (place stickPosition) (sizes dim / elems)) (Fin.last _) elems := by
    funext j
    by_cases isLast : j = Fin.last _
    · rw [if_pos ((owned j).mpr (.inl isLast)), isLast, Function.update_self, fullSize_last,
        min_eq_right (le_of_lt isLong)]
    · rw [Function.update_of_ne isLast]
      by_cases isTile : j = place stickPosition
      · rw [if_pos ((owned j).mpr (.inr isTile)), isTile, Function.update_self, fullSize_stick, tiles]
      · rw [Function.update_of_ne isTile, if_neg]
        exact fun isOwned => ((owned j).mp isOwned).elim isLast isTile
  have narrow : sizes dim ≠ 1 := by omega
  have wide : sizeAt sizes order stickPosition ≠ 1 := by rwa [isSize]
  have stridePos := arranged.strides_pos narrow
  have stickStride := (arranged.hostStrides_last wide).trans (strideAt_of_order isDim)
  have tileStride : hostStridesOf strideMap (place stickPosition) = strides dim * elems := by
    rw [arranged.hostStrides_stick isLong, strideAt_of_order isDim]
  have tileWide := arranged.one_lt_deviceSize_stick isLong
  unfold converted
  rw [arranged.convertDim_walk, arranged.getTileMap_stick isDim, if_pos isDim, if_neg narrow,
    if_neg (not_le.mpr long), sizesOf]
  change walkTiles _ _ _ _ _ [place stickPosition, Fin.last _] 1 conversion = _
  by_cases even : sizes dim % elems = 0
  · have notRagged : ¬ Ragged sizes order elems := by
      rintro ⟨-, ragged⟩
      rw [isSize] at ragged
      exact ragged even
    have whole : sizes dim = sizes dim / elems * elems :=
      (Int.ediv_mul_cancel (Int.dvd_of_emod_eq_zero even)).symm
    have tileSize : deviceSize (place stickPosition) = sizes dim / elems := by
      rw [arranged.deviceSize_stick, isSize, Int.ediv_eq_iff_of_pos (by omega)]
      rw [mul_comm] at whole
      constructor <;> linarith
    rw [lastTiles_eq_nil notRagged, List.append_nil, walkTiles_even _ stridePos elemsPos
      (tileSize ▸ tileWide) whole tileStride stickStride tileSize arranged.deviceSize_last]
  · have ragged : Ragged sizes order elems := ⟨isLong, by rwa [isSize]⟩
    rw [walkTiles_ragged _ stridePos elemsPos long even tileStride stickStride tileWide
      arranged.deviceSize_last]
    unfold lastTiles lastTile
    rw [if_pos ragged, tiles, isSize]

/-- One host dimension sets the sizes of its own device dimensions. -/
theorem convertDim_eq {conversion : Conversion (outer + 2)} {dim : Fin hostRank}
    (fresh : ∀ j, Owns order dim j → conversion.dcsiSizes j = 1) :
    convertDim sizes strides deviceSize strideMap conversion dim =
      .ok (converted sizes order elems deviceSize strideMap conversion dim) := by
  obtain ⟨i, isDim⟩ := arranged.order_surjective dim
  by_cases atStick : i = stickPosition
  · rw [atStick] at isDim
    by_cases short : sizes dim ≤ elems
    · exact arranged.convertDim_short fresh isDim short
    · exact arranged.convertDim_long isDim (not_le.mp short)
  · exact arranged.convertDim_place fresh isDim atStick

/-! ## All host dimensions -/

theorem owns_unique {dim dim' : Fin hostRank} {j : Fin (outer + 2)} (owned : Owns order dim j)
    (owned' : Owns order dim' j) : dim = dim' := by
  rcases owned with ⟨isLast, isDim⟩ | ⟨i, isPlace, isDim⟩
  · rcases owned' with ⟨-, isDim'⟩ | ⟨i', isPlace', -⟩
    · exact Option.some.inj (isDim.symm.trans isDim')
    · exact absurd (isPlace'.symm.trans isLast) (place_ne_last i')
  · rcases owned' with ⟨isLast', -⟩ | ⟨i', isPlace', isDim'⟩
    · exact absurd (isPlace.symm.trans isLast') (place_ne_last i)
    · rw [place_injective (isPlace'.symm.trans isPlace)] at isDim'
      exact Option.some.inj (isDim.symm.trans isDim')

theorem foldlM_convertDim {dims : List (Fin hostRank)} (distinct : dims.Nodup)
    {conversion : Conversion (outer + 2)}
    (fresh : ∀ dim ∈ dims, ∀ j, Owns order dim j → conversion.dcsiSizes j = 1) :
    dims.foldlM (convertDim sizes strides deviceSize strideMap) conversion =
      .ok { dcsiSizes := fun j => if ∃ dim ∈ dims, Owns order dim j then
              fullSize sizes order elems deviceSize j else conversion.dcsiSizes j
            remainders := conversion.remainders ++
              if ∃ dim ∈ dims, order stickPosition = some dim then
                lastTiles sizes order elems deviceSize strideMap else [] } := by
  induction dims generalizing conversion with
  | nil => simp [pure, Except.pure]
  | cons dim dims inductionHypothesis =>
      obtain ⟨absent, distinct⟩ := List.nodup_cons.mp distinct
      have restFresh : ∀ other ∈ dims, ∀ j, Owns order other j →
          (converted sizes order elems deviceSize strideMap conversion dim).dcsiSizes j = 1 := by
        intro other member j owned
        change (if Owns order dim j then _ else conversion.dcsiSizes j) = 1
        rw [if_neg]
        · exact fresh other (List.mem_cons_of_mem _ member) j owned
        · intro ownedHere
          exact absent (arranged.owns_unique ownedHere owned ▸ member)
      rw [List.foldlM_cons, arranged.convertDim_eq (fresh dim List.mem_cons_self)]
      change dims.foldlM _ (converted sizes order elems deviceSize strideMap conversion dim) = _
      rw [inductionHypothesis distinct restFresh]
      unfold converted
      congr 2
      · funext j
        by_cases here : Owns order dim j
        · simp [here]
        · simp [here]
      · rw [List.append_assoc]
        congr 1
        by_cases here : order stickPosition = some dim
        · have notLater : ¬ ∃ other ∈ dims, order stickPosition = some other := by
            rintro ⟨other, member, isOther⟩
            rw [Option.some.inj (here.symm.trans isOther)] at absent
            exact absent member
          rw [if_pos here, if_neg notLater, List.append_nil, if_pos ⟨dim, List.mem_cons_self, here⟩]
        · simp [here]

theorem strideMap_ne_zero (j : Fin (outer + 2)) : strideMap j ≠ 0 := by
  have positive : ∀ i, sizeAt sizes order i ≠ 1 → 0 < strideAt strides order i := by
    intro i wide
    obtain ⟨dim, -, wideDim, -, isStride⟩ := arranged.exists_dim wide
    rw [isStride]
    exact arranged.strides_pos wideDim
  rcases eq_last_or_place j with rfl | ⟨i, rfl⟩
  · rw [arranged.strideMap_last]
    split
    next => decide
    next wide => exact ne_of_gt (positive _ wide)
  · by_cases atStick : i = stickPosition
    · rw [atStick, arranged.strideMap_stick]
      split
      next => decide
      next wide =>
        have elemsPos := arranged.elems_gt_one
        exact ne_of_gt (lt_min (mul_pos (positive _ wide) (by omega))
          (mul_pos (positive _ wide) (arranged.sizeAt_pos _)))
    · rw [arranged.strideMap_place i atStick]
      split
      next => decide
      next wide => exact ne_of_gt (positive _ wide)

/-- The conversion of an arrangement: a loop over the full tiles, and the last tile. -/
theorem conversionOf_eq : conversionOf sizes strides deviceSize strideMap =
    .ok { dcsiSizes := fullSize sizes order elems deviceSize
          remainders := lastTiles sizes order elems deviceSize strideMap } := by
  unfold conversionOf
  simp only [arranged.strideMap_ne_zero, if_false]
  rw [arranged.foldlM_convertDim (List.nodup_reverse.mpr (List.nodup_finRange _))
    fun _ _ _ _ => rfl]
  have elemsPos := arranged.elems_gt_one
  congr 2
  · funext j
    split
    next => rfl
    next unowned =>
      have noDim : ∀ dim, ¬ Owns order dim j := fun dim owned => unowned ⟨dim, by simp, owned⟩
      rcases eq_last_or_place j with rfl | ⟨i, rfl⟩
      · have narrow : sizeAt sizes order stickPosition = 1 := by
          by_contra wide
          obtain ⟨dim, isDim, -⟩ := arranged.exists_dim wide
          exact noDim dim (.inl ⟨rfl, isDim⟩)
        rw [fullSize_last, narrow, min_eq_left (by omega)]
      · have narrow : sizeAt sizes order i = 1 := by
          by_contra wide
          obtain ⟨dim, isDim, -⟩ := arranged.exists_dim wide
          exact noDim dim (.inr ⟨i, rfl, isDim⟩)
        by_cases atStick : i = stickPosition
        · rw [atStick] at narrow ⊢
          rw [fullSize_stick]
          unfold fullTiles
          rw [if_pos (by omega)]
        · rw [fullSize_place atStick, arranged.deviceSize_place i atStick, narrow]
  · rw [List.nil_append]
    split
    next => rfl
    next noStick =>
      symm
      apply lastTiles_eq_nil
      rintro ⟨long, -⟩
      obtain ⟨dim, isDim, -⟩ := arranged.exists_dim (i := stickPosition) (by omega)
      exact noStick ⟨dim, by simp, isDim⟩

end Arranged

end TorchSpyre.TensorLayout
