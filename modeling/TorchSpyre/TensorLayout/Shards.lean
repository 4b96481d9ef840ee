import TorchSpyre.TensorLayout.ResizeContents

/-!
# Shards of a tensor

A sharded tensor keeps each shard in its own device chunk, under the layout of the shard's shape.
The check compares the device sizes of the two layouts; what it accepts makes every shard one
contiguous block of the layout of the whole shape.
-/

namespace TorchSpyre.TensorLayout

open Lib

variable (sendefs : Sendefs)

/-! ## The check -/

def localSizes (size : List ℤ) (shardDim numShards : ℕ) : List ℤ :=
  size.set shardDim (size.getD shardDim 0 / numShards)

def deviceStride (dev : List ℤ) (i : ℕ) : ℤ := (dev.drop (i + 1)).prod

def localStridesAgree (globalDev localDev : List ℤ) (size localSize : List ℤ)
    (shardDim numShards : ℕ) : Bool :=
  let dims := List.range (min globalDev.length localDev.length)
  decide (globalDev.length = localDev.length) &&
    decide (shardDim ≠ size.length - 1 ∨ localSize.getLastD 0 % globalDev.getLastD 0 = 0) &&
    (match dims.filter fun i => globalDev.getD i 0 ≠ localDev.getD i 0 with
      | [split] => decide (globalDev.getD split 0 = numShards * localDev.getD split 0)
      | _ => false) &&
    dims.all fun i =>
      decide (1 < localDev.getD i 0 → deviceStride globalDev i = deviceStride localDev i)

/-- `_check_local_strides` -/
def checkLocalStrides (size : List ℤ) (dtype : ScalarType) (shardDim numShards : ℕ) :
    Except String Unit :=
  if size.length ≤ shardDim then .error "list index out of range"
  else if numShards = 0 then .error "integer division or modulo by zero"
  else do
    let localSize := localSizes size shardDim numShards
    let globalLayout ← initDefault sendefs size dtype
    let localLayout ← initDefault sendefs localSize dtype
    if localStridesAgree globalLayout.deviceSize localLayout.deviceSize size localSize shardDim
        numShards then .ok ()
    else .error "non-unified kernels need shard-local strides equal to the global ones"

variable {sendefs}

/-! ## The default layout -/

theorem deviceStride_eq {rank : ℕ} {dev : List ℤ} (isRank : dev.length = rank) (i : Fin rank) :
    deviceStride dev i = stride (vector rank dev) i := by
  subst isRank
  rw [← vector_computeHostStride]
  unfold vector deviceStride
  induction dev with
  | nil => exact i.elim0
  | cons extent rest inductionHypothesis =>
      cases i using Fin.cases with
      | zero => rfl
      | succ i => exact inductionHypothesis i

theorem prod_vector_of_length {rank : ℕ} {values : List ℤ} (isRank : values.length = rank) :
    ∏ dim, vector rank values dim = values.prod := by
  subst isRank
  exact prod_vector values

/-- The default layout keeps the host dimensions in order. -/
theorem arranged_default {rank outer : ℕ} {size : List ℤ} {elems : ℤ} (sameLength : size.length = rank)
    (isRank : rank = outer + 1) (several : 1 < elems) (positive : ∀ dim, 0 < vector rank size dim) :
    Arranged (vector rank size) (vector rank (computeHostStride size))
      (fun i : Fin (outer + 1) => some (Fin.cast isRank.symm i)) elems
      (vector (outer + 2) (deviceSizeOf size elems (genericStickDimOrder size.length)))
      (vector (outer + 2) (strideMapOf size (computeHostStride size)
        (deviceSizeOf size elems (genericStickDimOrder size.length))
        (genericStickDimOrder size.length))) := by
  subst sameLength
  have accepted : AcceptedOrder size.length (genericStickDimOrder size.length) :=
    .inl (List.Perm.refl _)
  have orderRank : (genericStickDimOrder size.length).length = outer + 1 := by
    simp [genericStickDimOrder, isRank]
  have arranged := arranged_of_order accepted orderRank several positive
    (contiguous_computeHostStride size)
  have sameOrder : orderOf size.length outer (genericStickDimOrder size.length) =
      fun i : Fin (outer + 1) => some (Fin.cast isRank.symm i) := by
    funext i
    have inside : i.val < size.length := by omega
    exact orderOf_eq_some.mpr (by simp [genericStickDimOrder, inside])
  rwa [sameOrder] at arranged

/-! ## Places of elements -/

/-- Where the copy descriptions put an element of an arrangement in host order. -/
theorem Arranged.placed {outer : ℕ} {sizes strides : Fin (outer + 1) → ℤ} {elems : ℤ}
    {deviceSize strideMap : Fin (outer + 2) → ℤ}
    (arranged : Arranged sizes strides some elems deviceSize strideMap)
    {element : Fin (outer + 1) → ℤ} (inside : element ∈ box 0 sizes) :
    ∃ infos, getDeviceStrideInfos sizes strides deviceSize strideMap 0 0 true = .ok infos ∧
      ∀ position, (offset sizes element, position) ∈ movesOf infos ↔
        position = offset deviceSize (devicePoint elems element) := by
  have address : ∀ point ∈ box 0 sizes,
      ∑ j, devicePoint elems point j * hostStridesOf strideMap j = offset sizes point := by
    intro point inBox
    rw [arranged.host_address inBox]
    apply Finset.sum_congr rfl
    intro dim _
    by_cases narrow : sizes dim = 1
    · have bound := mem_box.mp inBox dim
      have zero : point dim = 0 := by
        simp only [Pi.zero_apply, zero_add] at bound
        omega
      rw [zero, zero_mul, zero_mul]
    · rw [← arranged.contiguous dim narrow]
      rfl
  obtain ⟨infos, isInfos, moves⟩ := arranged.exists_infos true _ _ rfl rfl
  simp only [if_true] at moves
  refine ⟨infos, isInfos, fun position => ?_⟩
  rw [moves, Multiset.mem_map]
  constructor
  · rintro ⟨point, inBox, same⟩
    rw [Prod.mk.injEq, address point inBox] at same
    rw [← same.2, offset_injective inBox inside same.1]
    rfl
  · rintro rfl
    refine ⟨element, inside, ?_⟩
    rw [address element inside]
    rfl

section Default

variable {size : List ℤ} {dtype : ScalarType} {layout : SpyreTensorLayout}

theorem initDefault_eq_ok (nonempty : size.length ≠ 0)
    (laidOut : initDefault sendefs size dtype = .ok layout) :
    let elems := elemsPerStick sendefs (getDeviceDtype dtype)
    0 < elems ∧
      layout.deviceSize = deviceSizeOf size elems (genericStickDimOrder size.length) ∧
      layout.strideMap = strideMapOf size (computeHostStride size)
        (deviceSizeOf size elems (genericStickDimOrder size.length))
        (genericStickDimOrder size.length) := by
  unfold initDefault init at laidOut
  obtain ⟨-, laidOut⟩ := of_guard laidOut
  obtain ⟨-, laidOut⟩ := of_guard laidOut
  obtain ⟨-, laidOut⟩ := of_guard laidOut
  obtain ⟨known, laidOut⟩ := of_guard laidOut
  simp only [nonempty, if_false] at laidOut
  cases laidOut
  exact ⟨not_not.mp known, rfl, rfl⟩

/-- The default layout of a shape with elements, arranged by host dimension. -/
theorem arranged_of_initDefault {outer : ℕ} (several : SticksHoldSeveral sendefs)
    (isRank : size.length = outer + 1) (positive : ∀ dim, 0 < vector (outer + 1) size dim)
    (laidOut : initDefault sendefs size dtype = .ok layout) :
    Arranged (vector (outer + 1) size) (vector (outer + 1) (computeHostStride size))
      (some : Fin (outer + 1) → _) (elemsPerStick sendefs (getDeviceDtype dtype))
      (vector (outer + 2) layout.deviceSize) (vector (outer + 2) layout.strideMap) := by
  obtain ⟨known, isDeviceSize, isStrideMap⟩ := initDefault_eq_ok (by omega) laidOut
  rw [isDeviceSize, isStrideMap]
  exact arranged_default isRank rfl (several _ known) positive

theorem initDefault_lengths {outer : ℕ} (isRank : size.length = outer + 1)
    (laidOut : initDefault sendefs size dtype = .ok layout) :
    layout.deviceSize.length = outer + 2 ∧ layout.strideMap.length = outer + 2 := by
  obtain ⟨-, isDeviceSize, isStrideMap⟩ := initDefault_eq_ok (by omega) laidOut
  rw [isDeviceSize, isStrideMap, strideMapOf_length]
  simp [deviceSizeOf, genericStickDimOrder, isRank]

theorem placedAt_default {outer : ℕ} (several : SticksHoldSeveral sendefs)
    (isRank : size.length = outer + 1) (positive : ∀ dim, 0 < vector (outer + 1) size dim)
    (laidOut : initDefault sendefs size dtype = .ok layout) {element : Fin (outer + 1) → ℤ}
    (inside : element ∈ box 0 (vector (outer + 1) size)) (position : ℤ) :
    PlacedAt size (computeHostStride size) layout (offset (vector (outer + 1) size) element)
        position ↔
      position = offset (vector (outer + 2) layout.deviceSize)
        (devicePoint (elemsPerStick sendefs (getDeviceDtype dtype)) element) := by
  have arranged := arranged_of_initDefault several isRank positive laidOut
  obtain ⟨-, deviceRank⟩ := initDefault_lengths isRank laidOut
  obtain ⟨infos, isInfos, places⟩ := arranged.placed inside
  rw [← places position]
  unfold PlacedAt layoutStrideInfos
  rw [computeHostStride_length, isRank]
  generalize layout.strideMap.length = rank at deviceRank
  subst deviceRank
  constructor
  · rintro ⟨toDevice, isToDevice, member⟩
    cases isInfos.symm.trans isToDevice
    exact member
  · intro member
    exact ⟨infos, isInfos, member⟩

end Default

/-! ## Shards -/

section Shards

variable {outer : ℕ} {sizes localSize strides localStrides : Fin (outer + 1) → ℤ} {elems : ℤ}
  {globalDev localDev strideMap localStrideMap : Fin (outer + 2) → ℤ} {shardDim : Fin (outer + 1)}

/-- The coordinates of a shard's element in the whole tensor. -/
def inWhole {rank : ℕ} (localSize : Fin rank → ℤ) (shardDim : Fin rank) (shard : ℤ)
    (element : Fin rank → ℤ) : Fin rank → ℤ :=
  Function.update element shardDim (element shardDim + shard * localSize shardDim)

/-- Only the device dimension of the shard dimension has another size. -/
theorem Arranged.deviceSize_eq
    (arranged : Arranged sizes strides some elems globalDev strideMap)
    (localArranged : Arranged localSize localStrides some elems localDev localStrideMap)
    (others : ∀ dim, dim ≠ shardDim → sizes dim = localSize dim) :
    ∀ j, j ≠ place shardDim → globalDev j = localDev j := by
  intro j apart
  rcases eq_last_or_place j with rfl | ⟨i, rfl⟩
  · rw [arranged.deviceSize_last, localArranged.deviceSize_last]
  · have otherDim : i ≠ shardDim := fun same => apart (same ▸ rfl)
    have sameSize : sizeAt sizes some i = sizeAt localSize some i := others i otherDim
    by_cases atStick : i = stickPosition
    · subst atStick
      rw [arranged.deviceSize_stick, localArranged.deviceSize_stick, sameSize]
    · rw [arranged.deviceSize_place i atStick, localArranged.deviceSize_place i atStick, sameSize]

/-- Whole shards away is whole device blocks away, when the stick is cut between sticks. -/
theorem Arranged.devicePoint_inWhole
    (localArranged : Arranged localSize localStrides some elems localDev localStrideMap)
    (wholeSticks : shardDim = stickPosition → elems ∣ localSize shardDim) (shard : ℤ)
    (element : Fin (outer + 1) → ℤ) :
    devicePoint elems (inWhole localSize shardDim shard element) =
      Function.update (devicePoint elems element) (place shardDim)
        (devicePoint elems element (place shardDim) + shard * localDev (place shardDim)) := by
  have elemsPos := localArranged.elems_gt_one
  have sizeAtLocal : ∀ i, sizeAt localSize some i = localSize i := fun _ => rfl
  by_cases atStick : shardDim = stickPosition
  · subst atStick
    obtain ⟨sticks, isWhole⟩ := wholeSticks rfl
    have tiles : localDev (place stickPosition) = sticks := by
      rw [localArranged.deviceSize_stick, sizeAtLocal, isWhole, add_sub_assoc,
        Int.mul_add_ediv_left _ _ (by omega), Int.ediv_eq_zero_of_lt (by omega) (by omega), add_zero]
    have stick : inWhole localSize stickPosition shard element stickPosition =
        element stickPosition + elems * (shard * sticks) := by
      rw [inWhole, Function.update_self, isWhole]
      ring
    funext j
    rcases eq_last_or_place j with rfl | ⟨i, rfl⟩
    · rw [Function.update_of_ne (place_ne_last _).symm, devicePoint_last, devicePoint_last, stick,
        Int.add_mul_emod_self_left]
    · by_cases isStick : i = stickPosition
      · subst isStick
        rw [Function.update_self, devicePoint_stick, devicePoint_stick, stick, tiles,
          Int.add_mul_ediv_left _ _ (by omega)]
      · rw [Function.update_of_ne (place_injective.ne isStick), devicePoint_place _ _ isStick,
          devicePoint_place _ _ isStick, inWhole, Function.update_of_ne isStick]
  · have stick : inWhole localSize shardDim shard element stickPosition = element stickPosition :=
      Function.update_of_ne (Ne.symm atStick) _ _
    funext j
    rcases eq_last_or_place j with rfl | ⟨i, rfl⟩
    · rw [Function.update_of_ne (place_ne_last _).symm, devicePoint_last, devicePoint_last, stick]
    · by_cases isStick : i = stickPosition
      · subst isStick
        rw [Function.update_of_ne (place_injective.ne (Ne.symm atStick)), devicePoint_stick,
          devicePoint_stick, stick]
      · rw [devicePoint_place _ _ isStick]
        by_cases isShard : i = shardDim
        · subst isShard
          rw [Function.update_self, devicePoint_place _ _ isStick,
            localArranged.deviceSize_place i isStick, inWhole, Function.update_self]
          rfl
        · rw [Function.update_of_ne (place_injective.ne isShard), devicePoint_place _ _ isStick,
            inWhole, Function.update_of_ne isShard]

/-- A shard is a block of the whole: its elements keep their places in it. -/
theorem Arranged.offset_inWhole
    (arranged : Arranged sizes strides some elems globalDev strideMap)
    (localArranged : Arranged localSize localStrides some elems localDev localStrideMap)
    (others : ∀ dim, dim ≠ shardDim → sizes dim = localSize dim)
    (wholeSticks : shardDim = stickPosition → elems ∣ localSize shardDim)
    (cut : ∃ j, globalDev j ≠ localDev j)
    (kept : ∀ j, 1 < localDev j → stride globalDev j = stride localDev j) (shard : ℤ)
    {element : Fin (outer + 1) → ℤ} (inside : element ∈ box 0 localSize) :
    offset globalDev (devicePoint elems (inWhole localSize shardDim shard element)) =
      shard * ∏ j, localDev j + offset localDev (devicePoint elems element) := by
  have sameSizes := arranged.deviceSize_eq localArranged others
  obtain ⟨j, different⟩ := cut
  have isPlace : j = place shardDim := by
    by_contra apart
    exact different (sameSizes j apart)
  subst isPlace
  have inDevice := localArranged.devicePoint_inside inside
  have positive : ∀ j, 0 < localDev j := by
    intro j
    have bound := mem_box.mp inDevice j
    simp only [Pi.zero_apply, zero_add] at bound
    omega
  rw [localArranged.devicePoint_inWhole wholeSticks]
  exact offset_block sameSizes (fun j outside =>
    eq_one_of_stride_eq sameSizes positive different kept outside) inDevice shard

end Shards

/-! ## What the check accepts -/

section Accepted

variable {outer : ℕ} {size : List ℤ} {shardDim numShards : ℕ} {globalDev localDev : List ℤ}

theorem vector_localSizes {rank : ℕ} (isRank : size.length = rank) (inside : shardDim < rank) :
    vector rank (localSizes size shardDim numShards) =
      Function.update (vector rank size) ⟨shardDim, inside⟩
        (vector rank size ⟨shardDim, inside⟩ / numShards) := by
  funext dim
  unfold vector localSizes
  by_cases atShard : dim = ⟨shardDim, inside⟩
  · subst atShard
    rw [Function.update_self, List.getD_eq_getElem _ _ (by simp [isRank, inside])]
    simp
  · have apart : shardDim ≠ dim.val := fun same => atShard (Fin.ext same.symm)
    rw [Function.update_of_ne atShard]
    simp [List.getD_eq_getElem?_getD, apart]

/-- The device dimension that is cut, and the strides that are kept. -/
theorem localStridesAgree_spec {localSize : List ℤ} (isRank : globalDev.length = outer + 2)
    (agree : localStridesAgree globalDev localDev size localSize shardDim numShards = true) :
    localDev.length = outer + 2 ∧
      (shardDim ≠ size.length - 1 ∨ localSize.getLastD 0 % globalDev.getLastD 0 = 0) ∧
      (∃ j, vector (outer + 2) globalDev j ≠ vector (outer + 2) localDev j) ∧
      ∀ j, 1 < vector (outer + 2) localDev j →
        stride (vector (outer + 2) globalDev) j = stride (vector (outer + 2) localDev) j := by
  unfold localStridesAgree at agree
  simp only [Bool.and_eq_true, decide_eq_true_eq, List.all_eq_true] at agree
  obtain ⟨⟨⟨sameRank, wholeSticks⟩, oneSplit⟩, kept⟩ := agree
  have localRank : localDev.length = outer + 2 := sameRank.symm.trans isRank
  have dims : min globalDev.length localDev.length = outer + 2 := by
    rw [isRank, localRank, Nat.min_self]
  rw [dims] at oneSplit kept
  refine ⟨localRank, wholeSticks, ?_, ?_⟩
  · split at oneSplit
    next split isSplit =>
      have listed : split ∈ [split] := List.mem_singleton_self split
      rw [← isSplit, List.mem_filter, List.mem_range] at listed
      exact ⟨⟨split, listed.1⟩, of_decide_eq_true listed.2⟩
    next => contradiction
  · intro j wide
    rw [← deviceStride_eq isRank, ← deviceStride_eq localRank]
    exact kept j (List.mem_range.mpr j.isLt) wide

theorem getLastD_eq_vector {rank : ℕ} {values : List ℤ} (isRank : values.length = rank + 1) :
    values.getLastD 0 = vector (rank + 1) values (Fin.last rank) := by
  unfold vector
  rw [List.getLastD_eq_getLast?, List.getLast?_eq_getElem?, List.getD_eq_getElem?_getD, isRank]
  rfl

end Accepted

section Blocks

variable {outer : ℕ} {size : List ℤ} {dtype : ScalarType} {shardDim numShards : ℕ}
  {globalLayout localLayout : SpyreTensorLayout}

theorem inWhole_mem_box {sizes : Fin (outer + 1) → ℤ} {dim : Fin (outer + 1)} {pieces shard : ℕ}
    (divides : (pieces : ℤ) ∣ sizes dim) (bounded : shard < pieces)
    {element : Fin (outer + 1) → ℤ}
    (inside : element ∈ box 0 (Function.update sizes dim (sizes dim / pieces))) :
    inWhole (Function.update sizes dim (sizes dim / pieces)) dim shard element ∈ box 0 sizes := by
  refine mem_box.mpr fun other => ?_
  have bounds := mem_box.mp inside other
  simp only [Pi.zero_apply, zero_add] at bounds ⊢
  unfold inWhole
  by_cases same : other = dim
  · subst same
    obtain ⟨part, isPart⟩ := divides
    have positive : (pieces : ℤ) ≠ 0 := by omega
    rw [Function.update_self, isPart, Int.mul_ediv_cancel_left _ positive] at bounds
    rw [Function.update_self, Function.update_self, isPart, Int.mul_ediv_cancel_left _ positive]
    have nonneg : 0 ≤ (shard : ℤ) * part := mul_nonneg (by omega) (by omega)
    have last : ((shard : ℤ) + 1) * part ≤ pieces * part :=
      mul_le_mul_of_nonneg_right (by omega) (by omega)
    constructor
    · omega
    · linarith
  · rw [Function.update_of_ne same] at bounds ⊢
    exact bounds

/-- The place of a shard's element in both layouts. -/
theorem exists_place (several : SticksHoldSeveral sendefs) (isRank : size.length = outer + 1)
    (inside : shardDim < outer + 1)
    (isGlobal : initDefault sendefs size dtype = .ok globalLayout)
    (isLocal : initDefault sendefs (localSizes size shardDim numShards) dtype = .ok localLayout)
    (agree : localStridesAgree globalLayout.deviceSize localLayout.deviceSize size
      (localSizes size shardDim numShards) shardDim numShards = true)
    (divides : (numShards : ℤ) ∣ vector (outer + 1) size ⟨shardDim, inside⟩) {shard : ℕ}
    (bounded : shard < numShards) {element : Fin (outer + 1) → ℤ}
    (inShard : element ∈ box 0 (vector (outer + 1) (localSizes size shardDim numShards))) :
    ∃ position,
      (∀ place, PlacedAt (localSizes size shardDim numShards)
          (computeHostStride (localSizes size shardDim numShards)) localLayout
          (offset (vector (outer + 1) (localSizes size shardDim numShards)) element) place ↔
        place = position) ∧
      ∀ place, PlacedAt size (computeHostStride size) globalLayout
          (offset (vector (outer + 1) size)
            (inWhole (vector (outer + 1) (localSizes size shardDim numShards))
              ⟨shardDim, inside⟩ shard element)) place ↔
        place = shard * localLayout.deviceSize.prod + position := by
  have localRank : (localSizes size shardDim numShards).length = outer + 1 := by
    simp [localSizes, isRank]
  have isUpdate := @vector_localSizes size shardDim numShards _ isRank inside
  have localPositive : ∀ dim, 0 < vector (outer + 1) (localSizes size shardDim numShards) dim := by
    intro dim
    have bounds := mem_box.mp inShard dim
    simp only [Pi.zero_apply, zero_add] at bounds
    omega
  have inGlobal : inWhole (vector (outer + 1) (localSizes size shardDim numShards))
      ⟨shardDim, inside⟩ shard element ∈ box 0 (vector (outer + 1) size) := by
    rw [isUpdate] at inShard ⊢
    exact inWhole_mem_box divides bounded inShard
  have positive : ∀ dim, 0 < vector (outer + 1) size dim := by
    intro dim
    have bounds := mem_box.mp inGlobal dim
    simp only [Pi.zero_apply, zero_add] at bounds
    omega
  have arranged := arranged_of_initDefault several isRank positive isGlobal
  have localArranged := arranged_of_initDefault several localRank localPositive isLocal
  obtain ⟨deviceRank, -⟩ := initDefault_lengths isRank isGlobal
  obtain ⟨localDeviceRank, wholeSticks, cut, kept⟩ := localStridesAgree_spec deviceRank agree
  refine ⟨_, placedAt_default several localRank localPositive isLocal inShard, fun place => ?_⟩
  rw [placedAt_default several isRank positive isGlobal inGlobal,
    arranged.offset_inWhole localArranged _ _ cut kept shard inShard,
    prod_vector_of_length localDeviceRank]
  · intro dim apart
    rw [isUpdate, Function.update_of_ne apart]
  · intro atStick
    have lastDim : shardDim = outer := congrArg Fin.val atStick
    have aligned := wholeSticks.resolve_left (not_not.mpr (by omega))
    rw [getLastD_eq_vector localRank, getLastD_eq_vector deviceRank,
      arranged.deviceSize_last] at aligned
    rw [atStick]
    exact Int.dvd_of_emod_eq_zero aligned

end Blocks

/-- Where the check accepts the shards of a shape, each is one block of the whole: an element's
place in the layout of the whole is its place in the layout of the shard, behind the places of
the shards before. -/
theorem checkLocalStrides_blocks (several : SticksHoldSeveral sendefs) {size : List ℤ}
    {dtype : ScalarType} {shardDim numShards : ℕ}
    (accepted : checkLocalStrides sendefs size dtype shardDim numShards = .ok ())
    (divides : (numShards : ℤ) ∣ size.getD shardDim 0) :
    ∃ globalLayout localLayout inside,
      initDefault sendefs size dtype = .ok globalLayout ∧
      initDefault sendefs (localSizes size shardDim numShards) dtype = .ok localLayout ∧
      ∀ shard < numShards,
        ∀ element ∈ box 0 (vector size.length (localSizes size shardDim numShards)),
          ∃ position,
            (∀ place, PlacedAt (localSizes size shardDim numShards)
                (computeHostStride (localSizes size shardDim numShards)) localLayout
                (offset (vector size.length (localSizes size shardDim numShards)) element) place ↔
              place = position) ∧
            ∀ place, PlacedAt size (computeHostStride size) globalLayout
                (offset (vector size.length size)
                  (inWhole (vector size.length (localSizes size shardDim numShards))
                    ⟨shardDim, inside⟩ shard element)) place ↔
              place = shard * localLayout.deviceSize.prod + position := by
  unfold checkLocalStrides at accepted
  obtain ⟨outOfRange, accepted⟩ := of_guard accepted
  obtain ⟨-, accepted⟩ := of_guard accepted
  rw [bind_eq_ok_iff] at accepted
  obtain ⟨globalLayout, isGlobal, accepted⟩ := accepted
  rw [bind_eq_ok_iff] at accepted
  obtain ⟨localLayout, isLocal, accepted⟩ := accepted
  have inside : shardDim < size.length := not_le.mp outOfRange
  split at accepted
  next agree =>
    refine ⟨globalLayout, localLayout, inside, isGlobal, isLocal, ?_⟩
    intro shard bounded
    obtain ⟨outer, isRank⟩ : ∃ outer, size.length = outer + 1 := ⟨size.length - 1, by omega⟩
    have places := fun element => @exists_place sendefs outer size dtype shardDim numShards
      globalLayout localLayout several isRank (isRank ▸ inside) isGlobal isLocal agree divides shard
      bounded element
    generalize outer + 1 = rank at isRank places
    subst isRank
    exact places
  next => contradiction

/-- Four rows of two sticks, one stick of every row to a shard: column 5 of row 3 of the second
shard. -/
theorem twoSticks_blocks : ∃ globalLayout localLayout position,
    initDefault floatSticks [4, 128] .half = .ok globalLayout ∧
    initDefault floatSticks [4, 64] .half = .ok localLayout ∧
    (∀ place, PlacedAt [4, 64] [64, 1] localLayout 197 place ↔ place = position) ∧
    ∀ place, PlacedAt [4, 128] [128, 1] globalLayout 453 place ↔ place = 256 + position := by
  obtain ⟨globalLayout, localLayout, inside, isGlobal, isLocal, blocks⟩ :=
    @checkLocalStrides_blocks floatSticks floatSticks_several [4, 128] .half 1 2 (by rfl) (by decide)
  have localSize : localSizes [4, 128] 1 2 = [4, 64] := by decide +kernel
  rw [localSize] at isLocal blocks
  have localAddress : offset (vector 2 [4, 64]) (vector 2 [3, 5]) = 197 := by decide +kernel
  have address : offset (vector 2 [4, 128]) (inWhole (vector 2 [4, 64]) 1 (1 : ℕ) (vector 2 [3, 5])) =
      453 := by decide +kernel
  obtain ⟨position, alone, whole⟩ := blocks 1 (by decide) (vector 2 [3, 5]) (by
    rw [mem_box]
    decide +kernel)
  refine ⟨globalLayout, localLayout, position, isGlobal, isLocal, ?_, ?_⟩
  · intro place
    rw [← localAddress]
    exact alone place
  · intro place
    rw [← address]
    cases isLocal
    exact whole place

end TorchSpyre.TensorLayout
