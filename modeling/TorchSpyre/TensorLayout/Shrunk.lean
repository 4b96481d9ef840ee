import TorchSpyre.TensorLayout.Shrink

/-!
# The layout of a shrunk buffer

With the strides of a buffer whose dims are nested in one another, every device dim is matched
to the host dim it walks, or to another of extent 1; so the layout that is returned is the one
the smaller buffer is given.
-/

namespace TorchSpyre.TensorLayout

open Lib

/-! ## Lists that are set entry by entry -/

/-- The entries that differ from the target are still to be set. -/
def Pending (target values : List ℤ) (keys : List ℕ) : Prop :=
  values.length = target.length ∧
    ∀ key < target.length, values.getD key 0 = target.getD key 0 ∨ key ∈ keys

namespace Pending

variable {target values : List ℤ} {keys : List ℕ} {key : ℕ} {value : ℤ}

theorem set (pending : Pending target values (key :: keys)) (same : value = target.getD key 0) :
    Pending target (values.set key value) keys := by
  refine ⟨by rw [List.length_set, pending.1], fun other inside => ?_⟩
  by_cases atKey : other = key
  · subst atKey
    rw [getD_set_self (pending.1 ▸ inside)]
    exact .inl same
  · rw [getD_set_ne (Ne.symm atKey)]
    refine (pending.2 other inside).imp_right fun listed => ?_
    exact (List.mem_cons.mp listed).resolve_left atKey

theorem cons (pending : Pending target values keys) (key : ℕ) : Pending target values (key :: keys) :=
  ⟨pending.1, fun other inside => (pending.2 other inside).imp_right (List.mem_cons_of_mem _)⟩

theorem eq (pending : Pending target values []) : values = target := by
  apply List.ext_getElem pending.1
  intro key inside inside'
  have same := (pending.2 key inside').resolve_right List.not_mem_nil
  rwa [List.getD_eq_getElem _ _ inside, List.getD_eq_getElem _ _ inside'] at same

end Pending

theorem filter_eq_singleton {values : List ℕ} {keep : ℕ → Bool} {value : ℕ}
    (distinct : values.Nodup) (alone : ∀ other, other ∈ values ∧ keep other ↔ other = value) :
    values.filter keep = [value] := by
  rw [← List.perm_singleton]
  refine (List.perm_ext_iff_of_nodup (distinct.filter _) (List.nodup_singleton _)).mpr fun other => ?_
  rw [List.mem_filter, List.mem_singleton]
  exact alone other

/-! ## Layouts by host dim -/

/-- A layout without a sparse stick, by the host dims of its positions. -/
structure Laid {outer : ℕ} (hostDim : Fin (outer + 1) → ℕ) (size stride : List ℤ) (elems : ℤ)
    (deviceSize strideMap : List ℤ) : Prop where
  deviceSize_length : deviceSize.length = outer + 2
  strideMap_length : strideMap.length = outer + 2
  deviceSize_last : deviceSize.getD (outer + 1) 0 = elems
  deviceSize_place : ∀ i : Fin (outer + 1), deviceSize.getD (place i) 0 =
    if i = stickPosition then ceilDiv (size.getD (hostDim i) 0) elems else size.getD (hostDim i) 0
  strideMap_last : strideMap.getD (outer + 1) 0 =
    if size.getD (hostDim stickPosition) 0 = 1 then -1 else stride.getD (hostDim stickPosition) 0
  strideMap_place : ∀ i : Fin (outer + 1), strideMap.getD (place i) 0 =
    if size.getD (hostDim i) 0 = 1 then -1
    else if i = stickPosition then
      min elems (size.getD (hostDim i) 0) * stride.getD (hostDim i) 0
    else stride.getD (hostDim i) 0

/-- A buffer with nested dims, its layout, and the layout of a smaller buffer. -/
structure Shrink {outer : ℕ} (hostDim : Fin (outer + 1) → ℕ) (size newSize stride newStride : List ℤ)
    (elems : ℤ) (orig target : SpyreTensorLayout) : Prop where
  rank : size.length = outer + 1
  hostDim_injective : Function.Injective hostDim
  hostDim_lt : ∀ i, hostDim i < outer + 1
  exists_hostDim : ∀ p < outer + 1, ∃ i, hostDim i = p
  elems_gt_one : 1 < elems
  laid : Laid hostDim size stride elems orig.deviceSize orig.strideMap
  laid_target : Laid hostDim newSize newStride elems target.deviceSize target.strideMap
  newSize_pos : ∀ p < outer + 1, 0 < newSize.getD p 0
  newSize_le : ∀ p < outer + 1, newSize.getD p 0 ≤ size.getD p 0
  stride_pos : ∀ p < outer + 1, size.getD p 0 ≠ 1 → 0 < stride.getD p 0
  nested : ∀ p < outer + 1, ∀ q < outer + 1, p ≠ q → size.getD p 0 ≠ 1 → size.getD q 0 ≠ 1 →
    size.getD q 0 * stride.getD q 0 ≤ stride.getD p 0 ∨
      size.getD p 0 * stride.getD p 0 ≤ stride.getD q 0

theorem ceilDiv_lt {value elems : ℤ} (several : 1 < elems) (wide : 1 < value) :
    ceilDiv value elems < value := by
  unfold ceilDiv
  have below : -value < -value / elems := by
    rw [Int.lt_iff_add_one_le, Int.le_ediv_iff_mul_le (by omega)]
    nlinarith
  omega

theorem ceilDiv_one {elems : ℤ} (several : 1 < elems) : ceilDiv 1 elems = 1 := by
  unfold ceilDiv
  have quotient : (-1 : ℤ) / elems = -1 := by
    rw [Int.ediv_eq_iff_of_pos (by omega)]
    omega
  rw [quotient]
  rfl

theorem ceilDiv_pos {value elems : ℤ} (several : 1 < elems) (positive : 0 < value) :
    0 < ceilDiv value elems := by
  unfold ceilDiv
  have below : -value / elems < 0 := Int.ediv_neg_of_neg_of_pos (by omega) (by omega)
  omega

theorem one_lt_of_ceilDiv {value elems : ℤ} (several : 1 < elems) (positive : 0 < value)
    (tiles : ceilDiv value elems ≠ 1) : elems < value := by
  by_contra within
  apply tiles
  unfold ceilDiv
  have quotient : -value / elems = -1 := by
    rw [Int.ediv_eq_iff_of_pos (by omega)]
    omega
  rw [quotient]
  rfl

theorem ceilDiv_eq {value elems : ℤ} (positive : 0 < elems) :
    (value + elems - 1) / elems = ceilDiv value elems := by
  unfold ceilDiv
  have quotient := Int.mul_ediv_add_emod (-value) elems
  have nonneg := Int.emod_nonneg (-value) positive.ne'
  have below := Int.emod_lt_of_pos (-value) positive
  rw [Int.ediv_eq_iff_of_pos positive]
  constructor
  · linarith
  · linarith

/-- What `init` makes of a permutation of the host dims. -/
theorem laid_of_init {sendefs : Sendefs} {outer : ℕ} {size stride dimOrder : List ℤ}
    {dtype : ScalarType} {layout : SpyreTensorLayout} (isRank : size.length = outer + 1)
    (order : dimOrder.Perm (genericStickDimOrder size.length))
    (size_pos : ∀ p < outer + 1, 0 < size.getD p 0)
    (stride_pos : ∀ p < outer + 1, size.getD p 0 ≠ 1 → 0 < stride.getD p 0)
    (laidOut : init sendefs size stride dtype dimOrder = .ok layout) :
    Laid (fun i : Fin (outer + 1) => (dimOrder.getD i 0).toNat) size stride
      (elemsPerStick sendefs (getDeviceDtype dtype)) layout.deviceSize layout.strideMap := by
  unfold init at laidOut
  obtain ⟨-, laidOut⟩ := of_guard laidOut
  obtain ⟨-, laidOut⟩ := of_guard laidOut
  obtain ⟨-, laidOut⟩ := of_guard laidOut
  obtain ⟨known, laidOut⟩ := of_guard laidOut
  have elemsPos := not_not.mp known
  simp only at laidOut
  rw [if_neg (by omega)] at laidOut
  cases laidOut
  have accepted : AcceptedOrder size.length dimOrder := .inl order
  have orderRank : dimOrder.length = outer + 1 := by
    rw [order.length_eq, genericStickDimOrder, List.length_map, List.length_range, isRank]
  have real : ∀ dim ∈ dimOrder, 0 ≤ dim ∧ dim.toNat < outer + 1 := by
    intro dim member
    have bounds := AcceptedOrder.mem_generic.1 (order.mem_iff.mp member)
    omega
  have notSkipped : ∀ i : Fin (outer + 1), dimOrder.getD i 0 ≠ -1 := by
    intro i
    have bounds := real _ (getD_mem orderRank i)
    omega
  have lastExtent : (deviceSizeOf size (elemsPerStick sendefs (getDeviceDtype dtype))
      dimOrder).getD (outer + 1) 0 = elemsPerStick sendefs (getDeviceDtype dtype) :=
    deviceSizeOf_last orderRank _
  obtain ⟨isLast, places⟩ := strideMapOf_values accepted orderRank
    (fun dim member notSkips => stride_pos _ (real dim member).2 fun single => notSkips (.inr single))
    (fun dim member _ => size_pos _ (real dim member).2)
    (lastExtent.symm ▸ elemsPos)
  have isStick := getLastD_eq orderRank
  constructor
  · simp [deviceSizeOf, orderRank]
  · rw [strideMapOf_length, orderRank]
  · exact lastExtent
  · intro i
    refine (deviceSizeOf_place orderRank _ i).trans ?_
    rw [isStick, if_neg (notSkipped _)]
    unfold computeExtent
    rw [if_neg (notSkipped i)]
    by_cases atStick : i = stickPosition
    · rw [if_pos (by rw [atStick]), if_pos atStick, decide_eq_false (notSkipped _),
        if_neg Bool.false_ne_true, ceilDiv_eq elemsPos]
      rfl
    · have apart : dimOrder.getD i 0 ≠ dimOrder.getD (stickPosition : Fin (outer + 1)) 0 :=
        fun same => atStick (Fin.ext (getD_injective accepted orderRank i.isLt (Fin.isLt _) same))
      rw [if_neg apart, if_neg atStick]
      rfl
  · rw [isLast, isStick]
    simp only [Skips, notSkipped, false_or]
    rfl
  · intro i
    rw [places i]
    simp only [Skips, notSkipped, false_or]
    have inside := real _ (getD_mem orderRank i)
    unfold entry
    by_cases single : size.getD (dimOrder.getD i 0).toNat 0 = 1
    · rw [if_pos single, if_pos single]
    · have nonneg := (stride_pos _ inside.2 single).le
      rw [if_neg single, if_neg single, lastExtent, ← mul_min_of_nonneg _ _ nonneg, mul_comm]

namespace Shrink

variable {outer : ℕ} {hostDim : Fin (outer + 1) → ℕ} {size newSize stride newStride : List ℤ}
  {elems : ℤ} {orig target : SpyreTensorLayout} {stick : Option ℕ}
  (shrink : Shrink hostDim size newSize stride newStride elems orig target)

include shrink

theorem size_pos {p : ℕ} (inside : p < outer + 1) : 0 < size.getD p 0 :=
  (shrink.newSize_pos p inside).trans_le (shrink.newSize_le p inside)

theorem one_lt_size {p : ℕ} (inside : p < outer + 1) (wide : size.getD p 0 ≠ 1) :
    1 < size.getD p 0 := by
  have positive := shrink.size_pos inside
  omega

theorem newSize_eq_one {p : ℕ} (inside : p < outer + 1) (narrow : size.getD p 0 = 1) :
    newSize.getD p 0 = 1 := by
  have positive := shrink.newSize_pos p inside
  have bound := shrink.newSize_le p inside
  omega

/-- Two dims of more than one entry have different strides. -/
theorem eq_of_stride_eq {p q : ℕ} (inside : p < outer + 1) (inside' : q < outer + 1)
    (wide : size.getD p 0 ≠ 1) (wide' : size.getD q 0 ≠ 1)
    (same : stride.getD p 0 = stride.getD q 0) : p = q := by
  by_contra apart
  have long := shrink.one_lt_size inside wide
  have long' := shrink.one_lt_size inside' wide'
  have positive := shrink.stride_pos p inside wide
  rcases shrink.nested p inside q inside' apart wide wide' with within | within
  · rw [← same] at within
    nlinarith
  · rw [← same] at within
    nlinarith

/-- No other dim steps a stick of the stick dim. -/
theorem stick_stride_ne {p q : ℕ} (inside : p < outer + 1) (inside' : q < outer + 1)
    (apart : p ≠ q) (wide : size.getD q 0 ≠ 1) (long : elems < size.getD p 0) :
    elems * stride.getD p 0 ≠ stride.getD q 0 := by
  intro same
  have several := shrink.elems_gt_one
  have sizePos := shrink.size_pos inside'
  have positive := shrink.stride_pos p inside (by omega)
  have beyond : stride.getD p 0 < stride.getD q 0 := by
    rw [← same]
    exact lt_mul_of_one_lt_left positive several
  rcases shrink.nested p inside q inside' apart (by omega) wide with within | within
  · nlinarith
  · nlinarith

theorem mem_sizeCands {dsz : ℤ} {p : ℕ} : p ∈ sizeCands size stick dsz ↔
    p < outer + 1 ∧ size.getD p 0 = dsz ∧ stick ≠ some p := by
  simp [sizeCands, shrink.rank]

end Shrink

/-! ## What the first pass finds -/

section FirstPass

variable {orig : SpyreTensorLayout} {size stride : List ℤ} {stick : Option ℕ} {j : ℕ}

theorem mem_of_matchDim_host {p : ℕ} (found : matchDim orig size stride stick j = .host p) :
    p ∈ sizeCands size stick (orig.deviceSize.getD j 0) := by
  unfold matchDim at found
  simp only at found
  split at found
  next => cases found
  next =>
    split at found
    next single =>
      rw [single]
      split at found
      next only =>
        cases found
        simp [only]
      next => cases found
    next =>
      split at found
      next => cases found
      next only =>
        cases found
        rw [only]
        exact List.mem_singleton_self p
      next =>
        split at found
        next only =>
          cases found
          have listed := List.mem_singleton_self p
          rw [← only] at listed
          exact List.mem_of_mem_filter listed
        next => cases found

theorem matchDim_single (extent : orig.deviceSize.getD j 0 = 1) (undefined : orig.strideMap.getD j 0 = -1) :
    matchDim orig size stride stick j ≠ .unmatched := by
  intro found
  unfold matchDim at found
  simp only [extent, undefined, ne_eq, not_true, and_false, if_false, if_true] at found
  split at found <;> cases found

theorem matchDim_tile (extent : orig.deviceSize.getD j 0 = 1) (defined : orig.strideMap.getD j 0 ≠ -1) :
    matchDim orig size stride stick j = .unmatched := by
  unfold matchDim
  exact if_pos ⟨extent, defined⟩

theorem matchDim_ne_placeholder
    (several : orig.deviceSize.getD j 0 ≠ 1 ∨ orig.strideMap.getD j 0 ≠ -1) :
    matchDim orig size stride stick j ≠ .placeholder := by
  intro found
  unfold matchDim at found
  simp only at found
  split at found
  next => cases found
  next notTile =>
    split at found
    next single => exact notTile ⟨single, several.resolve_left (not_not.mpr single)⟩
    next =>
      split at found
      next => cases found
      next => cases found
      next => split at found <;> cases found

/-- The strides tell a host dim from others of its size. -/
theorem matchDim_eq_host {p : ℕ} (wide : orig.deviceSize.getD j 0 ≠ 1)
    (listed : p ∈ sizeCands size stick (orig.deviceSize.getD j 0))
    (alone : ∀ q ∈ sizeCands size stick (orig.deviceSize.getD j 0),
      stride.getD q 0 = orig.strideMap.getD j 0 ↔ q = p) :
    matchDim orig size stride stick j = .host p := by
  unfold matchDim
  simp only [wide, false_and, if_false]
  split
  next none =>
    rw [none] at listed
    exact absurd listed List.not_mem_nil
  next only =>
    rw [only, List.mem_singleton] at listed
    rw [listed]
  next =>
    have distinct : (sizeCands size stick (orig.deviceSize.getD j 0)).Nodup :=
      List.nodup_range.filter _
    have single : (sizeCands size stick (orig.deviceSize.getD j 0)).filter
        (fun q => stride.getD q 0 = orig.strideMap.getD j 0) = [p] := by
      refine filter_eq_singleton distinct fun q => ?_
      rw [decide_eq_true_eq]
      constructor
      · rintro ⟨member, same⟩
        exact (alone q member).mp same
      · rintro rfl
        exact ⟨listed, (alone q listed).mpr rfl⟩
    rw [single]

end FirstPass

namespace Shrink

variable {outer : ℕ} {hostDim : Fin (outer + 1) → ℕ} {size newSize stride newStride : List ℤ}
  {elems : ℤ} {orig target : SpyreTensorLayout} {stick : Option ℕ} {i : Fin (outer + 1)}
  (shrink : Shrink hostDim size newSize stride newStride elems orig target)

section Dims

include shrink

theorem narrow_place (narrow : size.getD (hostDim i) 0 = 1) :
    orig.deviceSize.getD (place i) 0 = 1 ∧ orig.strideMap.getD (place i) 0 = -1 := by
  rw [shrink.laid.deviceSize_place, shrink.laid.strideMap_place, narrow, if_pos rfl,
    ceilDiv_one shrink.elems_gt_one]
  exact ⟨ite_self _, rfl⟩

theorem narrow_target (narrow : size.getD (hostDim i) 0 = 1) :
    target.deviceSize.getD (place i) 0 = 1 ∧ target.strideMap.getD (place i) 0 = -1 := by
  rw [shrink.laid_target.deviceSize_place, shrink.laid_target.strideMap_place,
    shrink.newSize_eq_one (shrink.hostDim_lt i) narrow, if_pos rfl,
    ceilDiv_one shrink.elems_gt_one]
  exact ⟨ite_self _, rfl⟩

theorem wide_place (apart : i ≠ stickPosition) (wide : size.getD (hostDim i) 0 ≠ 1) :
    orig.deviceSize.getD (place i) 0 = size.getD (hostDim i) 0 ∧
      orig.strideMap.getD (place i) 0 = stride.getD (hostDim i) 0 := by
  rw [shrink.laid.deviceSize_place, shrink.laid.strideMap_place, if_neg apart, if_neg wide,
    if_neg apart]
  exact ⟨rfl, rfl⟩

theorem stick_place (wide : size.getD (hostDim stickPosition) 0 ≠ 1) :
    orig.deviceSize.getD (place (stickPosition : Fin (outer + 1))) 0 =
        ceilDiv (size.getD (hostDim stickPosition) 0) elems ∧
      orig.strideMap.getD (place (stickPosition : Fin (outer + 1))) 0 =
        min elems (size.getD (hostDim stickPosition) 0) * stride.getD (hostDim stickPosition) 0 := by
  rw [shrink.laid.deviceSize_place, shrink.laid.strideMap_place, if_pos rfl, if_neg wide, if_pos rfl]
  exact ⟨rfl, rfl⟩

/-- A device dim of another host dim is matched to it. -/
theorem matchDim_wide (known : stick = none ∨ stick = some (hostDim stickPosition))
    (apart : i ≠ stickPosition) (wide : size.getD (hostDim i) 0 ≠ 1) :
    matchDim orig size stride stick (place i) = .host (hostDim i) := by
  obtain ⟨extent, step⟩ := shrink.wide_place apart wide
  have inside := shrink.hostDim_lt i
  apply matchDim_eq_host
  · rw [extent]
    exact wide
  · rw [extent, shrink.mem_sizeCands]
    refine ⟨inside, rfl, ?_⟩
    rcases known with rfl | rfl
    · exact Option.some_ne_none _ |>.symm
    · intro same
      exact apart (shrink.hostDim_injective (Option.some_inj.mp same)).symm
  · intro q listed
    rw [extent, shrink.mem_sizeCands] at listed
    rw [step]
    constructor
    · exact shrink.eq_of_stride_eq listed.1 inside (listed.2.1 ▸ wide) wide
    · rintro rfl
      rfl

theorem matchDim_narrow (narrow : size.getD (hostDim i) 0 = 1) :
    matchDim orig size stride stick (place i) ≠ .unmatched ∧
      ∀ p, matchDim orig size stride stick (place i) = .host p →
        p < outer + 1 ∧ size.getD p 0 = 1 := by
  obtain ⟨extent, undefined⟩ := shrink.narrow_place narrow
  refine ⟨matchDim_single extent undefined, fun p found => ?_⟩
  have listed := mem_of_matchDim_host found
  rw [extent, shrink.mem_sizeCands] at listed
  exact ⟨listed.1, listed.2.1⟩

theorem stick_step_pos (wide : size.getD (hostDim stickPosition) 0 ≠ 1) :
    0 < orig.strideMap.getD (place (stickPosition : Fin (outer + 1))) 0 := by
  have inside := shrink.hostDim_lt stickPosition
  have several := shrink.elems_gt_one
  have long := shrink.size_pos inside
  rw [(shrink.stick_place wide).2]
  exact mul_pos (lt_min (by omega) long) (shrink.stride_pos _ inside wide)

/-- The tile count is left over, or taken for another host dim of its size. -/
theorem matchDim_stick (wide : size.getD (hostDim stickPosition) 0 ≠ 1) :
    matchDim orig size stride stick (place (stickPosition : Fin (outer + 1))) ≠ .placeholder ∧
      ∀ p, matchDim orig size stride stick (place (stickPosition : Fin (outer + 1))) = .host p →
        p < outer + 1 ∧ p ≠ hostDim stickPosition ∧
          size.getD p 0 = ceilDiv (size.getD (hostDim stickPosition) 0) elems ∧
          size.getD p 0 ≠ 1 := by
  obtain ⟨extent, -⟩ := shrink.stick_place wide
  have stepPos := shrink.stick_step_pos wide
  have inside := shrink.hostDim_lt stickPosition
  constructor
  · exact matchDim_ne_placeholder (.inr (by omega))
  · intro p found
    have listed := mem_of_matchDim_host found
    rw [extent, shrink.mem_sizeCands] at listed
    refine ⟨listed.1, ?_, listed.2.1, fun single => ?_⟩
    · rintro rfl
      have below := ceilDiv_lt shrink.elems_gt_one (shrink.one_lt_size inside wide)
      omega
    · rw [listed.2.1, ← extent] at single
      have tile := @matchDim_tile orig size stride stick _ single (by omega)
      cases tile.symm.trans found

end Dims

/-! ## The matching -/

section Matching

theorem mem_pass1 {found : ℕ × ℕ} :
    found ∈ (pass1 orig size stride stick).matchedHost ↔
      found.1 < orig.strideMap.length - 1 ∧ matchDim orig size stride stick found.1 = .host found.2 := by
  obtain ⟨j, p⟩ := found
  unfold pass1
  simp only [List.mem_filterMap, List.mem_range]
  constructor
  · rintro ⟨other, inside, isFound⟩
    split at isFound
    next isHost =>
      cases isFound
      exact ⟨inside, isHost⟩
    next => cases isFound
  · rintro ⟨inside, isHost⟩
    exact ⟨j, inside, by rw [isHost]⟩

theorem mem_pass1_unmatched {j : ℕ} :
    j ∈ (pass1 orig size stride stick).unmatched ↔
      j < orig.strideMap.length - 1 ∧ matchDim orig size stride stick j = .unmatched := by
  simp [pass1]

/-- What stays to be shown of a matching: which device dims have a host dim and which are tiles. -/
structure Settled (hostDim : Fin (outer + 1) → ℕ) (size : List ℤ) (matching : Matching) : Prop where
  matched : ∀ found ∈ matching.matchedHost, ∃ i : Fin (outer + 1), found.1 = place i ∧
    (i ≠ stickPosition ∧ size.getD (hostDim i) 0 ≠ 1 ∧ found.2 = hostDim i ∨
      size.getD (hostDim i) 0 = 1 ∧ found.2 < outer + 1 ∧ size.getD found.2 0 = 1)
  unmatched : ∀ j ∈ matching.unmatched, j = place (stickPosition : Fin (outer + 1)) ∧
    size.getD (hostDim stickPosition) 0 ≠ 1
  wide : ∀ i : Fin (outer + 1), i ≠ stickPosition → size.getD (hostDim i) 0 ≠ 1 →
    ((place i).val, hostDim i) ∈ matching.matchedHost
  stick : size.getD (hostDim stickPosition) 0 ≠ 1 →
    (place (stickPosition : Fin (outer + 1))).val ∈ matching.unmatched

include shrink

/-- The host dims left over: of the wide ones, the stick. -/
theorem mem_unmatchedAll {matchedHost : List (ℕ × ℕ)}
    (wide : ∀ i : Fin (outer + 1), i ≠ stickPosition → size.getD (hostDim i) 0 ≠ 1 →
      ((place i).val, hostDim i) ∈ matchedHost)
    (others : ∀ found ∈ matchedHost, size.getD (hostDim stickPosition) 0 ≠ 1 →
      found.2 ≠ hostDim stickPosition) (p : ℕ) :
    p ∈ unmatchedAll size matchedHost ∧ 1 < size.getD p 0 ↔
      p = hostDim stickPosition ∧ size.getD (hostDim stickPosition) 0 ≠ 1 := by
  unfold unmatchedAll
  rw [List.mem_filter, List.mem_range, shrink.rank, decide_eq_true_eq]
  constructor
  · rintro ⟨⟨inside, left⟩, long⟩
    obtain ⟨i, rfl⟩ := shrink.exists_hostDim p inside
    by_cases atStick : i = stickPosition
    · subst atStick
      exact ⟨rfl, by omega⟩
    · exact absurd (List.mem_map_of_mem (wide i atStick (by omega))) left
  · rintro ⟨rfl, long⟩
    refine ⟨⟨shrink.hostDim_lt _, fun listed => ?_⟩, shrink.one_lt_size (shrink.hostDim_lt _) long⟩
    obtain ⟨found, member, same⟩ := List.mem_map.mp listed
    exact others found member long same

omit shrink in
theorem pstarCands_stick {matchedHost : List (ℕ × ℕ)}
    (left : ∀ p, p ∈ unmatchedAll size matchedHost ∧ 1 < size.getD p 0 ↔
      p = hostDim stickPosition ∧ size.getD (hostDim stickPosition) 0 ≠ 1)
    (wide : size.getD (hostDim stickPosition) 0 ≠ 1) :
    pstarCands size matchedHost = [hostDim stickPosition] := by
  have single : (unmatchedAll size matchedHost).filter (fun p => 1 < size.getD p 0) =
      [hostDim stickPosition] := by
    refine filter_eq_singleton (List.nodup_range.filter _) fun p => ?_
    rw [decide_eq_true_eq, left p]
    exact and_iff_left wide
  unfold pstarCands
  simp only
  rw [single, if_neg (List.cons_ne_nil _ _)]

/-- A narrow stick leaves narrow host dims only. -/
theorem narrow_of_mem_pstarCands {matchedHost : List (ℕ × ℕ)}
    (left : ∀ p, p ∈ unmatchedAll size matchedHost ∧ 1 < size.getD p 0 ↔
      p = hostDim stickPosition ∧ size.getD (hostDim stickPosition) 0 ≠ 1)
    (narrow : size.getD (hostDim stickPosition) 0 = 1) {p : ℕ}
    (candidate : p ∈ pstarCands size matchedHost) : p < outer + 1 ∧ size.getD p 0 = 1 := by
  have none : (unmatchedAll size matchedHost).filter (fun p => 1 < size.getD p 0) = [] := by
    refine List.filter_eq_nil_iff.mpr fun p member long => ?_
    exact ((left p).mp ⟨member, of_decide_eq_true long⟩).2 narrow
  unfold pstarCands at candidate
  simp only at candidate
  rw [none, if_pos rfl] at candidate
  have inside : p < outer + 1 := by
    have member := List.mem_of_mem_filter candidate
    rwa [List.mem_range, shrink.rank] at member
  refine ⟨inside, ?_⟩
  by_contra wide
  exact ((left p).mp ⟨candidate, shrink.one_lt_size inside wide⟩).2 narrow

theorem exists_place {j : ℕ} (inside : j < orig.strideMap.length - 1) :
    ∃ i : Fin (outer + 1), j = place i := by
  rw [shrink.laid.strideMap_length] at inside
  obtain isLast | ⟨i, isPlace⟩ := eq_last_or_place (⟨j, by omega⟩ : Fin (outer + 2))
  · rw [Fin.ext_iff, Fin.val_last] at isLast
    simp only at isLast
    omega
  · exact ⟨i, congrArg Fin.val isPlace⟩

theorem place_lt (i : Fin (outer + 1)) : (place i).val < orig.strideMap.length - 1 := by
  have bound := (place i).isLt
  have notLast : (place i).val ≠ outer + 1 := fun same => place_ne_last i (Fin.ext same)
  rw [shrink.laid.strideMap_length]
  omega

theorem pass1_cases (known : stick = none ∨ stick = some (hostDim stickPosition)) {found : ℕ × ℕ}
    (listed : found ∈ (pass1 orig size stride stick).matchedHost) :
    ∃ i : Fin (outer + 1), found.1 = place i ∧
      (i ≠ stickPosition ∧ size.getD (hostDim i) 0 ≠ 1 ∧ found.2 = hostDim i ∨
        size.getD (hostDim i) 0 = 1 ∧ found.2 < outer + 1 ∧ size.getD found.2 0 = 1 ∨
        i = stickPosition ∧ size.getD (hostDim i) 0 ≠ 1 ∧ found.2 < outer + 1 ∧
          found.2 ≠ hostDim stickPosition ∧
          size.getD found.2 0 = ceilDiv (size.getD (hostDim stickPosition) 0) elems ∧
          size.getD found.2 0 ≠ 1) := by
  obtain ⟨inside, isHost⟩ := mem_pass1.1 listed
  obtain ⟨i, isPlace⟩ := shrink.exists_place inside
  rw [isPlace] at isHost
  refine ⟨i, isPlace, ?_⟩
  by_cases narrow : size.getD (hostDim i) 0 = 1
  · exact .inr (.inl ⟨narrow, (shrink.matchDim_narrow narrow).2 _ isHost⟩)
  · by_cases atStick : i = stickPosition
    · subst atStick
      exact .inr (.inr ⟨rfl, narrow, (shrink.matchDim_stick narrow).2 _ isHost⟩)
    · rw [shrink.matchDim_wide known atStick narrow] at isHost
      exact .inl ⟨atStick, narrow, (DimMatch.host.inj isHost).symm⟩

/-- Only a tile count that was taken for another host dim clashes, and it does. -/
theorem clashes_iff (known : stick = none ∨ stick = some (hostDim stickPosition)) {found : ℕ × ℕ}
    (listed : found ∈ (pass1 orig size stride stick).matchedHost)
    (wide : size.getD (hostDim stickPosition) 0 ≠ 1) :
    Clashes orig stride (ceilDiv (size.getD (hostDim stickPosition) 0) elems) found ↔
      found.1 = place (stickPosition : Fin (outer + 1)) := by
  obtain ⟨i, isPlace, cases⟩ := shrink.pass1_cases known listed
  unfold Clashes
  rw [isPlace]
  rcases cases with ⟨apart, long, isHost⟩ | ⟨narrow, -, -⟩ | ⟨rfl, long, inside, apart, tiles, several⟩
  · rw [(shrink.wide_place apart long).2, isHost]
    have elsewhere : (place i).val ≠ (place (stickPosition : Fin (outer + 1))).val :=
      fun same => apart (place_injective (Fin.ext same))
    simp [elsewhere]
  · have elsewhere : (place i).val ≠ (place (stickPosition : Fin (outer + 1))).val := by
      intro same
      rw [place_injective (Fin.ext same)] at narrow
      exact wide narrow
    rw [(shrink.narrow_place narrow).1]
    simp [elsewhere]
  · have inside' := shrink.hostDim_lt stickPosition
    have beyond := one_lt_of_ceilDiv shrink.elems_gt_one (shrink.size_pos inside') (tiles ▸ several)
    have positive := ceilDiv_pos shrink.elems_gt_one (shrink.size_pos inside')
    obtain ⟨extent, step⟩ := shrink.stick_place wide
    rw [extent, step, min_eq_left beyond.le]
    refine iff_of_true ⟨?_, ?_, rfl⟩ rfl
    · omega
    · exact shrink.stick_stride_ne inside' inside (Ne.symm apart) several beyond

theorem wide_pass1 (known : stick = none ∨ stick = some (hostDim stickPosition))
    (apart : i ≠ stickPosition) (wide : size.getD (hostDim i) 0 ≠ 1) :
    ((place i).val, hostDim i) ∈ (pass1 orig size stride stick).matchedHost :=
  mem_pass1.mpr ⟨shrink.place_lt i, shrink.matchDim_wide known apart wide⟩

theorem ne_stick_of_pass1 (known : stick = none ∨ stick = some (hostDim stickPosition))
    {found : ℕ × ℕ} (listed : found ∈ (pass1 orig size stride stick).matchedHost)
    (wide : size.getD (hostDim stickPosition) 0 ≠ 1) : found.2 ≠ hostDim stickPosition := by
  obtain ⟨i, -, cases⟩ := shrink.pass1_cases known listed
  rcases cases with ⟨apart, -, isHost⟩ | ⟨-, -, narrow⟩ | ⟨-, -, -, apart, -, -⟩
  · rw [isHost]
    exact shrink.hostDim_injective.ne apart
  · intro same
    rw [same] at narrow
    exact wide narrow
  · exact apart

theorem left_pass1 (known : stick = none ∨ stick = some (hostDim stickPosition))
    (isLeft : matchDim orig size stride stick (place i) = .unmatched) :
    i = stickPosition ∧ size.getD (hostDim i) 0 ≠ 1 := by
  by_cases narrow : size.getD (hostDim i) 0 = 1
  · exact absurd isLeft (shrink.matchDim_narrow narrow).1
  · refine ⟨?_, narrow⟩
    by_contra apart
    rw [shrink.matchDim_wide known apart narrow] at isLeft
    cases isLeft

/-- The host dims that the first pass leaves over. -/
theorem unmatched_pass1 (known : stick = none ∨ stick = some (hostDim stickPosition)) (p : ℕ) :
    p ∈ unmatchedAll size (pass1 orig size stride stick).matchedHost ∧ 1 < size.getD p 0 ↔
      p = hostDim stickPosition ∧ size.getD (hostDim stickPosition) 0 ≠ 1 :=
  shrink.mem_unmatchedAll (fun _ apart wide => shrink.wide_pass1 known apart wide)
    (fun _ listed wide => shrink.ne_stick_of_pass1 known listed wide) p

/-- The second pass moves the tile count from a host dim of its size to the tiles. -/
theorem settled_wide (known : stick = none ∨ stick = some (hostDim stickPosition))
    (wide : size.getD (hostDim stickPosition) 0 ≠ 1) :
    Settled hostDim size (pass1b orig elems size stride (pass1 orig size stride stick)) := by
  have isStick : findPstar size (pass1 orig size stride stick).matchedHost =
      some (hostDim stickPosition) := by
    unfold findPstar
    rw [pstarCands_stick (shrink.unmatched_pass1 known) wide]
  unfold pass1b
  rw [isStick]
  simp only
  constructor
  · intro found listed
    rw [List.mem_filter, decide_eq_true_eq] at listed
    rw [shrink.clashes_iff known listed.1 wide] at listed
    obtain ⟨i, isPlace, cases⟩ := shrink.pass1_cases known listed.1
    refine ⟨i, isPlace, ?_⟩
    rcases cases with other | narrow | ⟨rfl, -⟩
    · exact .inl other
    · exact .inr narrow
    · exact absurd isPlace listed.2
  · intro j listed
    refine ⟨?_, wide⟩
    rcases List.mem_append.mp listed with listed | listed
    · obtain ⟨inside, isLeft⟩ := mem_pass1_unmatched.mp listed
      obtain ⟨i, rfl⟩ := shrink.exists_place inside
      rw [(shrink.left_pass1 known isLeft).1]
    · obtain ⟨found, member, rfl⟩ := List.mem_map.mp listed
      rw [List.mem_filter, decide_eq_true_eq] at member
      exact (shrink.clashes_iff known member.1 wide).mp member.2
  · intro i apart long
    have listed := shrink.wide_pass1 known apart long
    rw [List.mem_filter, decide_eq_true_eq, shrink.clashes_iff known listed wide]
    exact ⟨listed, fun same => apart (place_injective (Fin.ext same))⟩
  · intro _
    rw [List.mem_append]
    cases isFound : matchDim orig size stride stick (place (stickPosition : Fin (outer + 1))) with
    | host p =>
        have listed : ((place (stickPosition : Fin (outer + 1))).val, p) ∈
            (pass1 orig size stride stick).matchedHost :=
          mem_pass1.mpr ⟨shrink.place_lt stickPosition, isFound⟩
        refine .inr (List.mem_map.mpr
          ⟨((place (stickPosition : Fin (outer + 1))).val, p), ?_, rfl⟩)
        rw [List.mem_filter, decide_eq_true_eq, shrink.clashes_iff known listed wide]
        exact ⟨listed, rfl⟩
    | unmatched => exact .inl (mem_pass1_unmatched.mpr ⟨shrink.place_lt stickPosition, isFound⟩)
    | placeholder => exact absurd isFound (shrink.matchDim_stick wide).1

theorem pass1b_narrow (known : stick = none ∨ stick = some (hostDim stickPosition))
    (narrow : size.getD (hostDim stickPosition) 0 = 1) :
    pass1b orig elems size stride (pass1 orig size stride stick) = pass1 orig size stride stick := by
  unfold pass1b
  split
  next => rfl
  next pstar isFound =>
    have candidate : pstar ∈ pstarCands size (pass1 orig size stride stick).matchedHost := by
      unfold findPstar at isFound
      split at isFound
      next only =>
        cases isFound
        rw [only]
        exact List.mem_singleton_self pstar
      next => cases isFound
    have single := (shrink.narrow_of_mem_pstarCands (shrink.unmatched_pass1 known) narrow candidate).2
    have apart : ∀ found, ¬ Clashes orig stride (ceilDiv (size.getD pstar 0) elems) found := by
      rintro found ⟨several, -, extent⟩
      rw [extent, single, ceilDiv_one shrink.elems_gt_one] at several
      exact lt_irrefl 1 several
    simp only [apart, not_false_eq_true, decide_true, decide_false, List.filter_true,
      List.filter_false, List.map_nil, List.append_nil]

theorem settled_narrow (known : stick = none ∨ stick = some (hostDim stickPosition))
    (narrow : size.getD (hostDim stickPosition) 0 = 1) :
    Settled hostDim size (pass1b orig elems size stride (pass1 orig size stride stick)) := by
  rw [shrink.pass1b_narrow known narrow]
  constructor
  · intro found listed
    obtain ⟨i, isPlace, cases⟩ := shrink.pass1_cases known listed
    refine ⟨i, isPlace, ?_⟩
    rcases cases with other | single | ⟨rfl, wide, -⟩
    · exact .inl other
    · exact .inr single
    · exact absurd narrow wide
  · intro j listed
    obtain ⟨inside, isLeft⟩ := mem_pass1_unmatched.mp listed
    obtain ⟨i, rfl⟩ := shrink.exists_place inside
    obtain ⟨rfl, wide⟩ := shrink.left_pass1 known isLeft
    exact ⟨rfl, wide⟩
  · exact fun i apart wide => shrink.wide_pass1 known apart wide
  · exact fun wide => absurd narrow wide

theorem settled (known : stick = none ∨ stick = some (hostDim stickPosition)) :
    Settled hostDim size (pass1b orig elems size stride (pass1 orig size stride stick)) := by
  by_cases narrow : size.getD (hostDim stickPosition) 0 = 1
  · exact shrink.settled_narrow known narrow
  · exact shrink.settled_wide known narrow

/-- The stick host dim that is settled on, where it is wide. -/
theorem finalPstar_spec (known : stick = none ∨ stick = some (hostDim stickPosition))
    {matching : Matching} (settled : Settled hostDim size matching) {pstar : Option ℕ}
    (found : finalPstar size stick matching = .ok pstar) :
    (size.getD (hostDim stickPosition) 0 ≠ 1 → pstar = some (hostDim stickPosition)) ∧
      (size.getD (hostDim stickPosition) 0 = 1 → ∀ p, pstar = some p →
        p < outer + 1 ∧ size.getD p 0 = 1) := by
  have left := @mem_unmatchedAll _ _ _ _ _ _ _ _ _ shrink matching.matchedHost settled.wide
    (by
      intro found listed wide same
      obtain ⟨i, -, ⟨apart, -, isHost⟩ | ⟨-, -, narrow⟩⟩ := settled.matched found listed
      · exact apart (shrink.hostDim_injective (isHost.symm.trans same))
      · rw [same] at narrow
        exact wide narrow)
  unfold finalPstar at found
  simp only at found
  rcases known with rfl | rfl
  · simp only at found
    split at found
    next none =>
      obtain ⟨-, found⟩ := of_guard found
      cases found
      refine ⟨fun wide => ?_, fun _ p impossible => by cases impossible⟩
      have member := ((left (hostDim stickPosition)).mpr ⟨rfl, wide⟩).1
      rw [none] at member
      exact absurd member List.not_mem_nil
    next =>
      split at found
      next only =>
        cases found
        constructor
        · intro wide
          rw [pstarCands_stick left wide, List.singleton_inj] at only
          rw [only]
        · rintro narrow p ⟨rfl⟩
          apply shrink.narrow_of_mem_pstarCands left narrow
          rw [only]
          exact List.mem_singleton_self _
      next => cases found
  · simp only at found
    obtain ⟨-, found⟩ := of_guard found
    cases found
    refine ⟨fun _ => rfl, ?_⟩
    rintro narrow p ⟨rfl⟩
    exact ⟨shrink.hostDim_lt _, narrow⟩

end Matching

/-! ## The passes that set sizes and strides -/

section Passes

variable {dims : List ℤ × List ℤ} {sizeKeys strideKeys : List ℕ} {matching : Matching}

/-- Sizes and strides that are still to be set. -/
def Unset (target : SpyreTensorLayout) (dims : List ℤ × List ℤ) (sizeKeys strideKeys : List ℕ) :
    Prop :=
  Pending target.deviceSize dims.1 sizeKeys ∧ Pending target.strideMap dims.2 strideKeys

theorem foldl_pass2Step {founds : List (ℕ × ℕ)}
    (right : ∀ found ∈ founds, newSize.getD found.2 0 = target.deviceSize.getD found.1 0 ∧
      resizedStride (newSize.getD found.2 0) (orig.strideMap.getD found.1 0)
        (stride.getD found.2 0) (newStride.getD found.2 0) = target.strideMap.getD found.1 0)
    (unset : Unset target dims (founds.map Prod.fst ++ sizeKeys) (founds.map Prod.fst ++ strideKeys)) :
    Unset target (founds.foldl (pass2Step orig newSize stride newStride) dims) sizeKeys
      strideKeys := by
  induction founds generalizing dims with
  | nil => exact unset
  | cons found founds inductionHypothesis =>
      rw [List.forall_mem_cons] at right
      exact inductionHypothesis right.2 ⟨unset.1.set right.1.1, unset.2.set right.1.2⟩

theorem foldlM_pass3Step {matchedHost : List (ℕ × ℕ)} {pstar : ℕ} {tiles : List ℕ}
    {final : List ℤ × List ℤ}
    (right : ∀ j ∈ tiles, ceilDiv (newSize.getD pstar 0) elems = target.deviceSize.getD j 0 ∧
      resizedStride (newSize.getD pstar 0) (orig.strideMap.getD j 0)
        (min elems (size.getD pstar 0) * stride.getD pstar 0)
        (min elems (newSize.getD pstar 0) * newStride.getD pstar 0) = target.strideMap.getD j 0)
    (unset : Unset target dims (tiles ++ sizeKeys) (tiles ++ strideKeys))
    (ran : tiles.foldlM (pass3Step orig elems size newSize stride newStride matchedHost pstar) dims =
      .ok final) :
    Unset target final sizeKeys strideKeys := by
  induction tiles generalizing dims with
  | nil =>
      cases ran
      exact unset
  | cons j tiles inductionHypothesis =>
      rw [List.forall_mem_cons] at right
      rw [List.foldlM_cons, bind_eq_ok_iff] at ran
      obtain ⟨next, stepped, ran⟩ := ran
      obtain ⟨-, stepped⟩ := of_guard stepped
      cases stepped
      exact inductionHypothesis right.2 ⟨unset.1.set right.1.1, unset.2.set right.1.2⟩ ran

theorem ofDeviceSize_eq_ok {dtype : DataFormats} {result : SpyreTensorLayout}
    (built : ofDeviceSize dims dtype = .ok result) :
    result.deviceSize = dims.1 ∧ result.strideMap = dims.2 := by
  obtain ⟨-, built⟩ := of_guard built
  cases built
  exact ⟨rfl, rfl⟩

include shrink

theorem resized_place {p : ℕ} (right : i ≠ stickPosition ∧ size.getD (hostDim i) 0 ≠ 1 ∧ p = hostDim i ∨
      size.getD (hostDim i) 0 = 1 ∧ p < outer + 1 ∧ size.getD p 0 = 1) :
    newSize.getD p 0 = target.deviceSize.getD (place i) 0 ∧
      resizedStride (newSize.getD p 0) (orig.strideMap.getD (place i) 0) (stride.getD p 0)
        (newStride.getD p 0) = target.strideMap.getD (place i) 0 := by
  rcases right with ⟨apart, wide, rfl⟩ | ⟨narrow, inside, single⟩
  · rw [(shrink.wide_place apart wide).2, shrink.laid_target.deviceSize_place,
      shrink.laid_target.strideMap_place, if_neg apart, if_neg apart]
    exact ⟨rfl, by rw [resizedStride, if_pos rfl]⟩
  · rw [(shrink.narrow_target narrow).1, (shrink.narrow_target narrow).2,
      shrink.newSize_eq_one inside single]
    exact ⟨rfl, if_pos rfl⟩

theorem resized_stick (wide : size.getD (hostDim stickPosition) 0 ≠ 1) :
    ceilDiv (newSize.getD (hostDim stickPosition) 0) elems =
        target.deviceSize.getD (place (stickPosition : Fin (outer + 1))) 0 ∧
      resizedStride (newSize.getD (hostDim stickPosition) 0)
        (orig.strideMap.getD (place (stickPosition : Fin (outer + 1))) 0)
        (min elems (size.getD (hostDim stickPosition) 0) * stride.getD (hostDim stickPosition) 0)
        (min elems (newSize.getD (hostDim stickPosition) 0) *
          newStride.getD (hostDim stickPosition) 0) =
        target.strideMap.getD (place (stickPosition : Fin (outer + 1))) 0 := by
  rw [(shrink.stick_place wide).2, shrink.laid_target.deviceSize_place,
    shrink.laid_target.strideMap_place, if_pos rfl, if_pos rfl]
  exact ⟨rfl, by rw [resizedStride, if_pos rfl]⟩

/-- What no pass sets is the same in both layouts. -/
theorem unset_start (settled : Settled hostDim size matching) :
    Unset target (orig.deviceSize, orig.strideMap)
      (matching.matchedHost.map Prod.fst ++ matching.unmatched)
      (matching.matchedHost.map Prod.fst ++ (matching.unmatched ++
        if size.getD (hostDim stickPosition) 0 = 1 then [] else [outer + 1])) := by
  have places : ∀ i : Fin (outer + 1),
      (orig.deviceSize.getD (place i) 0 = target.deviceSize.getD (place i) 0 ∧
        orig.strideMap.getD (place i) 0 = target.strideMap.getD (place i) 0) ∨
      (place i).val ∈ matching.matchedHost.map Prod.fst ++ matching.unmatched := by
    intro i
    by_cases narrow : size.getD (hostDim i) 0 = 1
    · left
      rw [(shrink.narrow_place narrow).1, (shrink.narrow_place narrow).2,
        (shrink.narrow_target narrow).1, (shrink.narrow_target narrow).2]
      exact ⟨rfl, rfl⟩
    · right
      rw [List.mem_append]
      by_cases atStick : i = stickPosition
      · subst atStick
        exact .inr (settled.stick narrow)
      · exact .inl (List.mem_map_of_mem (settled.wide i atStick narrow))
  have keys : ∀ key < outer + 2, key = outer + 1 ∨ ∃ i : Fin (outer + 1), key = place i := by
    intro key inside
    refine (eq_last_or_place (⟨key, inside⟩ : Fin (outer + 2))).imp ?_ ?_
    · exact fun isLast => congrArg Fin.val isLast
    · rintro ⟨i, isPlace⟩
      exact ⟨i, congrArg Fin.val isPlace⟩
  constructor
  · refine ⟨shrink.laid.deviceSize_length.trans shrink.laid_target.deviceSize_length.symm, ?_⟩
    intro key inside
    rw [shrink.laid_target.deviceSize_length] at inside
    rcases keys key inside with rfl | ⟨i, rfl⟩
    · exact .inl (shrink.laid.deviceSize_last.trans shrink.laid_target.deviceSize_last.symm)
    · exact (places i).imp_left And.left
  · refine ⟨shrink.laid.strideMap_length.trans shrink.laid_target.strideMap_length.symm, ?_⟩
    intro key inside
    rw [shrink.laid_target.strideMap_length] at inside
    rw [← List.append_assoc, List.mem_append]
    rcases keys key inside with rfl | ⟨i, rfl⟩
    · by_cases narrow : size.getD (hostDim stickPosition) 0 = 1
      · left
        rw [shrink.laid.strideMap_last, shrink.laid_target.strideMap_last,
          shrink.newSize_eq_one (shrink.hostDim_lt _) narrow, if_pos narrow, if_pos rfl]
      · right
        rw [if_neg narrow]
        exact .inr (List.mem_singleton_self _)
    · exact (places i).imp And.right Or.inl

theorem pass4_eq {p : ℕ} (unset : Unset target dims [] [outer + 1])
    (right : resizedStride (newSize.getD p 0) (orig.strideMap.getD (outer + 1) 0) (stride.getD p 0)
      (newStride.getD p 0) = target.strideMap.getD (outer + 1) 0) :
    pass4 orig newSize stride newStride p dims = (target.deviceSize, target.strideMap) := by
  unfold pass4
  simp only
  rw [shrink.laid.strideMap_length]
  exact Prod.ext unset.1.eq (unset.2.set right).eq

/-- The layout of the smaller buffer is what the passes return. -/
theorem resizePasses_eq (known : stick = none ∨ stick = some (hostDim stickPosition))
    {result : SpyreTensorLayout}
    (resized : resizePasses orig elems size newSize stride newStride stick = .ok result) :
    result.deviceSize = target.deviceSize ∧ result.strideMap = target.strideMap := by
  unfold resizePasses at resized
  have settled := shrink.settled known
  generalize pass1b orig elems size stride (pass1 orig size stride stick) = matching at settled resized
  simp only at resized
  rw [bind_eq_ok_iff] at resized
  obtain ⟨pstar, found, resized⟩ := resized
  obtain ⟨isStick, isNarrow⟩ := shrink.finalPstar_spec known settled found
  have unset := foldl_pass2Step (fun found listed => by
    obtain ⟨i, isPlace, right⟩ := settled.matched found listed
    rw [isPlace]
    exact shrink.resized_place right) (shrink.unset_start settled)
  cases pstar with
  | none =>
      have narrow : size.getD (hostDim stickPosition) 0 = 1 := by
        by_contra wide
        cases isStick wide
      have noTiles : matching.unmatched = [] :=
        List.eq_nil_iff_forall_not_mem.mpr fun j listed => (settled.unmatched j listed).2 narrow
      rw [if_pos narrow, noTiles] at unset
      obtain ⟨isSize, isStride⟩ := ofDeviceSize_eq_ok resized
      rw [isSize, isStride]
      exact ⟨unset.1.eq, unset.2.eq⟩
  | some p =>
      simp only at resized
      rw [bind_eq_ok_iff] at resized
      obtain ⟨final, ran, resized⟩ := resized
      obtain ⟨isSize, isStride⟩ := ofDeviceSize_eq_ok resized
      have tiles : ∀ j ∈ matching.unmatched, ceilDiv (newSize.getD p 0) elems =
            target.deviceSize.getD j 0 ∧
          resizedStride (newSize.getD p 0) (orig.strideMap.getD j 0)
            (min elems (size.getD p 0) * stride.getD p 0)
            (min elems (newSize.getD p 0) * newStride.getD p 0) = target.strideMap.getD j 0 := by
        intro j listed
        obtain ⟨rfl, wide⟩ := settled.unmatched j listed
        cases isStick wide
        exact shrink.resized_stick wide
      have unset : Unset target final [] [outer + 1] := by
        have done : Unset target final [] (if size.getD (hostDim stickPosition) 0 = 1 then []
            else [outer + 1]) := by
          refine foldlM_pass3Step tiles ?_ ran
          rw [List.append_nil]
          exact unset
        split at done
        next => exact ⟨done.1, done.2.cons _⟩
        next => exact done
      rw [isSize, isStride, shrink.pass4_eq unset]
      · exact ⟨rfl, rfl⟩
      · rw [shrink.laid_target.strideMap_last]
        by_cases narrow : size.getD (hostDim stickPosition) 0 = 1
        · obtain ⟨inside, single⟩ := isNarrow narrow p rfl
          rw [shrink.newSize_eq_one inside single,
            shrink.newSize_eq_one (shrink.hostDim_lt _) narrow]
          rfl
        · cases isStick narrow
          rw [shrink.laid.strideMap_last, if_neg narrow, resizedStride, if_pos rfl]

end Passes

end Shrink

end TorchSpyre.TensorLayout
