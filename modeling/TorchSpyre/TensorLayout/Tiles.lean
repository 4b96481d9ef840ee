import TorchSpyre.TensorLayout.Arrangement

/-!
# The strides give the arrangement back

In an arrangement the scans find for every device dimension the host dimension it was
made from, and the walk over the tiles gives the sizes of the full tiles and at most
one remainder.
-/

namespace TorchSpyre.TensorLayout

open Lib

/-! ## The scan of a device dimension -/

section Scan

variable {hostRank deviceRank : ℕ} {sizes strides : Fin hostRank → ℤ}
  {deviceSizes strideMap : Fin deviceRank → ℤ} {j : Fin deviceRank}

/-- A host dimension the scan may choose. -/
def Candidate (sizes strides : Fin hostRank → ℤ) (deviceSizes strideMap : Fin deviceRank → ℤ)
    (j : Fin deviceRank) (i : Fin hostRank) : Prop :=
  sizes i ≠ 1 ∧ deviceSizes j ≠ 1 ∧ 0 < strides i ∧ strides i ≤ strideMap j

/-- The scan chose a candidate with the largest stride, if there is one. -/
inductive Chosen (sizes strides : Fin hostRank → ℤ) (deviceSizes strideMap : Fin deviceRank → ℤ)
    (j : Fin deviceRank) (dims : List (Fin hostRank)) : ℤ × Option (Fin hostRank) → Prop where
  | none (noDim : ∀ i ∈ dims, ¬ Candidate sizes strides deviceSizes strideMap j i) :
      Chosen sizes strides deviceSizes strideMap j dims (0, none)
  | some (dim : Fin hostRank) (candidate : Candidate sizes strides deviceSizes strideMap j dim)
      (largest : ∀ i ∈ dims, Candidate sizes strides deviceSizes strideMap j i →
        strides i ≤ strides dim) :
      Chosen sizes strides deviceSizes strideMap j dims (strides dim, some dim)

/-- A dimension that does not replace the choice is no better candidate. -/
theorem scanDim_cases (state : ℤ × Option (Fin hostRank)) (nonneg : 0 ≤ state.1)
    (i : Fin hostRank) :
    (scanDim sizes strides deviceSizes strideMap j state i = (strides i, some i) ∧
        Candidate sizes strides deviceSizes strideMap j i ∧ state.1 < strides i) ∨
      (scanDim sizes strides deviceSizes strideMap j state i = state ∧
        (Candidate sizes strides deviceSizes strideMap j i → strides i ≤ state.1)) := by
  unfold scanDim Candidate
  split
  next narrow => exact .inr ⟨rfl, fun candidate => absurd narrow candidate.1⟩
  next wide =>
  split
  next expanded => exact .inr ⟨rfl, fun candidate => absurd expanded (ne_of_gt candidate.2.2.1)⟩
  next =>
  split
  next narrow => exact .inr ⟨rfl, fun candidate => absurd narrow candidate.2.1⟩
  next wideDevice =>
  split
  next better => exact .inl ⟨rfl, ⟨wide, wideDevice, by omega, better.2⟩, better.1⟩
  next notBetter => exact .inr ⟨rfl, fun candidate => by omega⟩

theorem chosen_foldl (dims : List (Fin hostRank)) :
    Chosen sizes strides deviceSizes strideMap j dims
      (dims.foldl (scanDim sizes strides deviceSizes strideMap j) (0, none)) := by
  induction dims using List.reverseRecOn with
  | nil => exact .none (by simp)
  | append_singleton dims i inductionHypothesis =>
      rw [List.foldl_concat]
      generalize dims.foldl (scanDim sizes strides deviceSizes strideMap j) (0, none) = state
        at inductionHypothesis
      have nonneg : 0 ≤ state.1 := by
        cases inductionHypothesis with
        | none => exact le_rfl
        | some dim candidate => exact le_of_lt candidate.2.2.1
      obtain ⟨replaced, candidate, larger⟩ | ⟨kept, notLarger⟩ := scanDim_cases state nonneg i
      · rw [replaced]
        refine .some i candidate fun other member isCandidate => ?_
        rcases List.mem_append.mp member with earlier | isLast
        · cases inductionHypothesis with
          | none noDim => exact absurd isCandidate (noDim other earlier)
          | some dim _ largest => exact le_trans (largest other earlier isCandidate) (le_of_lt larger)
        · rw [List.mem_singleton.mp isLast]
      · rw [kept]
        cases inductionHypothesis with
        | none noDim =>
            refine .none fun other member isCandidate => ?_
            rcases List.mem_append.mp member with earlier | isLast
            · exact noDim other earlier isCandidate
            · rw [List.mem_singleton.mp isLast] at isCandidate
              exact absurd (notLarger isCandidate) (not_le.mpr isCandidate.2.2.1)
        | some dim candidate largest =>
            refine .some dim candidate fun other member isCandidate => ?_
            rcases List.mem_append.mp member with earlier | isLast
            · exact largest other earlier isCandidate
            · rw [List.mem_singleton.mp isLast] at isCandidate ⊢
              exact notLarger isCandidate

theorem closestDim_eq_none (noDim : ∀ i, ¬ Candidate sizes strides deviceSizes strideMap j i) :
    closestDim sizes strides deviceSizes strideMap j = none := by
  have chosen := @chosen_foldl _ _ sizes strides deviceSizes strideMap j (List.finRange hostRank)
  unfold closestDim
  revert chosen
  generalize (List.finRange hostRank).foldl (scanDim sizes strides deviceSizes strideMap j)
    (0, none) = state
  intro chosen
  cases chosen with
  | none => rfl
  | some dim candidate => exact absurd candidate (noDim dim)

theorem exists_closestDim {i : Fin hostRank}
    (candidate : Candidate sizes strides deviceSizes strideMap j i) :
    ∃ dim, closestDim sizes strides deviceSizes strideMap j = some dim ∧
      Candidate sizes strides deviceSizes strideMap j dim ∧ strides i ≤ strides dim := by
  have chosen := @chosen_foldl _ _ sizes strides deviceSizes strideMap j (List.finRange hostRank)
  unfold closestDim
  revert chosen
  generalize (List.finRange hostRank).foldl (scanDim sizes strides deviceSizes strideMap j)
    (0, none) = state
  intro chosen
  cases chosen with
  | none noDim => exact absurd candidate (noDim i (List.mem_finRange i))
  | some dim isCandidate largest =>
      exact ⟨dim, rfl, isCandidate, largest i (List.mem_finRange i) candidate⟩

end Scan

namespace Arranged

variable {hostRank outer : ℕ} {sizes strides : Fin hostRank → ℤ}
  {order : Fin (outer + 1) → Option (Fin hostRank)} {elems : ℤ}
  {deviceSize strideMap : Fin (outer + 2) → ℤ}
  (arranged : Arranged sizes strides order elems deviceSize strideMap)

include arranged

/-! ## The host dimension of a device dimension -/

theorem strides_injective {dim dim' : Fin hostRank} (wide : sizes dim ≠ 1) (wide' : sizes dim' ≠ 1)
    (same : strides dim = strides dim') : dim = dim' := by
  rw [arranged.contiguous dim wide, arranged.contiguous dim' wide'] at same
  rcases lt_trichotomy dim dim' with before | isSame | after
  · exact absurd same (ne_of_gt (stride_lt_stride arranged.sizes_pos before wide'))
  · exact isSame
  · exact absurd same (ne_of_lt (stride_lt_stride arranged.sizes_pos after wide))

theorem closestDim_eq {j : Fin (outer + 2)} {dim : Fin hostRank} (wide : sizes dim ≠ 1)
    (wideDevice : deviceSize j ≠ 1) (exactStride : strideMap j = strides dim) :
    closestDim sizes strides deviceSize strideMap j = some dim := by
  have candidate : Candidate sizes strides deviceSize strideMap j dim :=
    ⟨wide, wideDevice, arranged.strides_pos wide, le_of_eq exactStride.symm⟩
  obtain ⟨found, isFound, foundCandidate, atLeast⟩ := exists_closestDim candidate
  have same : strides found = strides dim :=
    le_antisymm (foundCandidate.2.2.2.trans (le_of_eq exactStride)) atLeast
  rw [isFound, arranged.strides_injective foundCandidate.1 wide same]

theorem closestDim_of_negative {j : Fin (outer + 2)} (unused : strideMap j = -1) :
    closestDim sizes strides deviceSize strideMap j = none := by
  apply closestDim_eq_none
  rintro i ⟨-, -, positive, bound⟩
  omega

omit arranged in
theorem closestDim_of_narrow {j : Fin (outer + 2)} (narrow : deviceSize j = 1) :
    closestDim sizes strides deviceSize strideMap j = none :=
  closestDim_eq_none fun _ candidate => candidate.2.1 narrow

theorem closestDim_last : closestDim sizes strides deviceSize strideMap (Fin.last _) =
    if sizeAt sizes order stickPosition = 1 then none else order stickPosition := by
  have isStride := arranged.strideMap_last
  split
  next narrow =>
    rw [if_pos narrow] at isStride
    exact arranged.closestDim_of_negative isStride
  next wide =>
    rw [if_neg wide] at isStride
    obtain ⟨dim, isDim, wideDim, -, dimStride⟩ := arranged.exists_dim wide
    have elemsPos := arranged.elems_gt_one
    rw [isDim]
    apply arranged.closestDim_eq wideDim
    · rw [arranged.deviceSize_last]
      omega
    · rw [isStride, dimStride]

theorem getDimMap_last : getDimMap sizes strides deviceSize strideMap (Fin.last _) =
    if sizeAt sizes order stickPosition = 1 then none else order stickPosition := by
  have isLast : lastDim (Fin.last (outer + 1)) = Fin.last (outer + 1) := rfl
  unfold getDimMap
  simp only [isLast, ite_self]
  exact arranged.closestDim_last

/-- The tile dimension is found only where there is more than one tile. -/
theorem getDimMap_stick : getDimMap sizes strides deviceSize strideMap (place stickPosition) =
    if sizeAt sizes order stickPosition ≤ elems then none else order stickPosition := by
  have atStick := (place_val_eq_stickDimIndex (@stickPosition outer)).mpr rfl
  have isLast : lastDim (place (@stickPosition outer)) = Fin.last (outer + 1) := rfl
  unfold getDimMap
  simp only [isLast]
  split_ifs with replaced short short
  · exact absurd (closestDim_of_narrow (arranged.deviceSize_stick_eq_one.mpr short)) replaced.2
  · have elemsPos := arranged.elems_gt_one
    rw [arranged.closestDim_last, if_neg (by omega)]
  · exact closestDim_of_narrow (arranged.deviceSize_stick_eq_one.mpr short)
  · have elemsPos := arranged.elems_gt_one
    have wide : sizeAt sizes order stickPosition ≠ 1 := by omega
    obtain ⟨dim, isDim, wideDim, dimSize, dimStride⟩ := arranged.exists_dim wide
    have positive := arranged.strides_pos wideDim
    have candidate : Candidate sizes strides deviceSize strideMap (place stickPosition) dim := by
      refine ⟨wideDim, arranged.deviceSize_stick_eq_one.not.mpr short, positive, ?_⟩
      rw [arranged.strideMap_stick, if_neg wide, dimStride]
      have inStick : strides dim * 1 ≤ strides dim * elems :=
        mul_le_mul_of_nonneg_left (by omega) (le_of_lt positive)
      have inSize : strides dim * 1 ≤ strides dim * sizeAt sizes order stickPosition :=
        mul_le_mul_of_nonneg_left (by omega) (le_of_lt positive)
      rw [mul_one] at inStick inSize
      exact le_min inStick inSize
    obtain ⟨found, isFound, -⟩ := exists_closestDim candidate
    exact absurd ⟨atStick, by rw [isFound]; exact Option.some_ne_none found⟩ replaced

theorem getDimMap_place {i : Fin (outer + 1)} (other : i ≠ stickPosition) :
    getDimMap sizes strides deviceSize strideMap (place i) =
      if sizeAt sizes order i = 1 then none else order i := by
  unfold getDimMap
  simp only [place_val_eq_stickDimIndex, other, false_and, if_false]
  have isStride := arranged.strideMap_place i other
  split
  next narrow =>
    rw [if_pos narrow] at isStride
    exact arranged.closestDim_of_negative isStride
  next wide =>
    rw [if_neg wide] at isStride
    obtain ⟨dim, isDim, wideDim, dimSize, dimStride⟩ := arranged.exists_dim wide
    rw [isDim]
    apply arranged.closestDim_eq wideDim
    · rw [arranged.deviceSize_place i other, dimSize]
      exact wideDim
    · rw [isStride, dimStride]

/-! ## The device dimensions of a host dimension -/

omit arranged in
theorem filter_eq_singleton {α : Type*} {items : List α} {accepts : α → Bool} {item : α}
    (distinct : items.Nodup) (member : item ∈ items)
    (unique : ∀ other, accepts other = true ↔ other = item) : items.filter accepts = [item] := by
  have same : (items.filter accepts).Perm [item] := by
    refine (List.perm_ext_iff_of_nodup (distinct.filter _) (List.nodup_singleton item)).mpr ?_
    intro other
    rw [List.mem_filter, unique, List.mem_singleton]
    constructor
    · exact And.right
    · rintro rfl
      exact ⟨member, rfl⟩
  exact List.perm_singleton.mp same

/-- Only the device dimensions of its position belong to a host dimension. -/
theorem getDimMap_owner {j : Fin (outer + 2)} {i : Fin (outer + 1)} {dim : Fin hostRank}
    (isDim : order i = some dim)
    (found : getDimMap sizes strides deviceSize strideMap j = some dim) :
    j = place i ∨ (j = Fin.last _ ∧ i = stickPosition) := by
  rcases eq_last_or_place j with rfl | ⟨i', rfl⟩
  · rw [arranged.getDimMap_last] at found
    split at found
    next => cases found
    next => exact .inr ⟨rfl, arranged.order_injective isDim found⟩
  · left
    by_cases atStick : i' = stickPosition
    · rw [atStick, arranged.getDimMap_stick] at found
      split at found
      next => cases found
      next => rw [atStick, arranged.order_injective isDim found]
    · rw [arranged.getDimMap_place atStick] at found
      split at found
      next => cases found
      next => rw [arranged.order_injective isDim found]

/-- The outer device dimensions of a host dimension: the one of its position, if used. -/
theorem outer_dims {i : Fin (outer + 1)} {dim : Fin hostRank} (isDim : order i = some dim) :
    ((List.finRange (outer + 2)).reverse.filter fun j => j.val + 1 ≠ outer + 2 ∧
        getDimMap sizes strides deviceSize strideMap j = some dim) =
      if getDimMap sizes strides deviceSize strideMap (place i) = some dim then [place i]
      else [] := by
  have notLast : ∀ j : Fin (outer + 2), j.val + 1 ≠ outer + 2 ↔ j ≠ Fin.last _ := by
    intro j
    rw [ne_eq, ne_eq, Fin.ext_iff, Fin.val_last]
    omega
  split
  next found =>
    refine filter_eq_singleton (List.nodup_reverse.mpr (List.nodup_finRange _))
      (List.mem_reverse.mpr (List.mem_finRange _)) fun j => ?_
    rw [decide_eq_true_iff, notLast]
    constructor
    · rintro ⟨inner, isOwner⟩
      rcases arranged.getDimMap_owner isDim isOwner with isPlace | ⟨isLast, -⟩
      · exact isPlace
      · exact absurd isLast inner
    · rintro rfl
      exact ⟨place_ne_last i, found⟩
  next missing =>
    rw [List.filter_eq_nil_iff]
    intro j _ accepted
    rw [decide_eq_true_iff, notLast] at accepted
    rcases arranged.getDimMap_owner isDim accepted.2 with isPlace | ⟨isLast, -⟩
    · rw [isPlace] at accepted
      exact missing accepted.2
    · exact accepted.1 isLast

/-- The stick belongs to the host dimension of the last position. -/
theorem stick_dims {i : Fin (outer + 1)} {dim : Fin hostRank} (isDim : order i = some dim) :
    ((List.finRange (outer + 2)).filter fun j => j.val + 1 = outer + 2 ∧
        getDimMap sizes strides deviceSize strideMap j = some dim) =
      if i = stickPosition ∧ sizes dim ≠ 1 then [Fin.last _] else [] := by
  have isLast : ∀ j : Fin (outer + 2), j.val + 1 = outer + 2 ↔ j = Fin.last _ := by
    intro j
    rw [Fin.ext_iff, Fin.val_last]
    omega
  split
  next used =>
    refine filter_eq_singleton (List.nodup_finRange _) (List.mem_finRange _) fun j => ?_
    rw [decide_eq_true_iff, isLast]
    constructor
    · exact And.left
    · rintro rfl
      refine ⟨rfl, ?_⟩
      rw [used.1] at isDim
      rw [arranged.getDimMap_last, if_neg, isDim]
      unfold sizeAt
      rw [isDim]
      exact used.2
  next unused =>
    rw [List.filter_eq_nil_iff]
    intro j _ accepted
    rw [decide_eq_true_iff, isLast] at accepted
    obtain ⟨rfl, found⟩ := accepted
    rw [arranged.getDimMap_last] at found
    split at found
    next => cases found
    next wide =>
      have atStick := arranged.order_injective isDim found
      refine unused ⟨atStick, fun narrow => wide ?_⟩
      unfold sizeAt
      rw [found]
      exact narrow

omit arranged in
theorem sizeAt_of_order {i : Fin (outer + 1)} {dim : Fin hostRank} (isDim : order i = some dim) :
    sizeAt sizes order i = sizes dim := by
  unfold sizeAt
  rw [isDim]
  rfl

omit arranged in
theorem strideAt_of_order {i : Fin (outer + 1)} {dim : Fin hostRank} (isDim : order i = some dim) :
    strideAt strides order i = strides dim := by
  unfold strideAt
  rw [isDim]
  rfl

theorem getTileMap_place {i : Fin (outer + 1)} {dim : Fin hostRank} (isDim : order i = some dim)
    (other : i ≠ stickPosition) : getTileMap sizes strides deviceSize strideMap dim =
      if sizes dim = 1 then [] else [place i] := by
  unfold getTileMap tilePairs
  simp only [arranged.outer_dims isDim, arranged.stick_dims isDim, other, false_and, if_false,
    arranged.getDimMap_place other, sizeAt_of_order isDim]
  by_cases narrow : sizes dim = 1
  · simp [narrow]
  · simp [narrow, isDim, insertPair]

theorem getTileMap_stick {dim : Fin hostRank} (isDim : order stickPosition = some dim) :
    getTileMap sizes strides deviceSize strideMap dim =
      if sizes dim = 1 then [] else if sizes dim ≤ elems then [Fin.last _]
      else [Fin.last _, place stickPosition] := by
  have elemsPos := arranged.elems_gt_one
  unfold getTileMap tilePairs
  simp only [arranged.outer_dims isDim, arranged.stick_dims isDim, true_and,
    arranged.getDimMap_stick, sizeAt_of_order isDim]
  by_cases narrow : sizes dim = 1
  · have short : (1 : ℤ) ≤ elems := by omega
    simp [narrow, short]
  · by_cases short : sizes dim ≤ elems
    · simp [narrow, short, insertPair]
    · have long : elems < sizeAt sizes order stickPosition := by
        rw [sizeAt_of_order isDim]
        omega
      obtain ⟨-, positive⟩ := arranged.strideMap_long long
      have differs : ¬ -1 = strideMap (place stickPosition) := by omega
      have after : ¬ strideMap (place stickPosition) ≤ -1 := by omega
      simp [narrow, short, insertPair, isDim, differs, after]

end Arranged

end TorchSpyre.TensorLayout
