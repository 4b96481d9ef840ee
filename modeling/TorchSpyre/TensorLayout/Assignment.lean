import Mathlib
import TorchSpyre.TensorLayout.Arrangement

/-!
# Accepted layouts are arrangements

The stride assignment visits every host dimension once, and the stick dimension once
more before the others, so each device dimension gets the stride of its own position.
-/

namespace TorchSpyre.TensorLayout

open Lib

/-- A permutation of the host dimensions, or one followed by the synthetic stick. -/
def AcceptedOrder (hostRank : ℕ) (dimOrder : List ℤ) : Prop :=
  dimOrder.Perm (genericStickDimOrder hostRank) ∨
    ∃ front, dimOrder = front ++ [-1] ∧ front.Perm (genericStickDimOrder hostRank)

/-! ## The stride assignment -/

section Strides

variable {hostSize hostStrides deviceSize : List ℤ}

theorem getD_set_self {values : List ℤ} {i : ℕ} (inside : i < values.length) (value : ℤ) :
    (values.set i value).getD i 0 = value := by
  rw [List.getD_eq_getElem?_getD, List.getElem?_set_self inside]
  rfl

theorem getD_set_ne {values : List ℤ} {i j : ℕ} (other : i ≠ j) (value : ℤ) :
    (values.set i value).getD j 0 = values.getD j 0 := by
  rw [List.getD_eq_getElem?_getD, List.getElem?_set_ne other, ← List.getD_eq_getElem?_getD]

/-- The step does not assign a stride. -/
def Skips (hostSize : List ℤ) (hostDim : ℤ) : Prop := hostDim = -1 ∨ entry hostSize hostDim = 1

instance (hostDim : ℤ) : Decidable (Skips hostSize hostDim) := inferInstanceAs (Decidable (_ ∨ _))

/-- The stride a step assigns. -/
def assigned (hostStrides : List ℤ) (strides : Strides) (hostDim : ℤ) : ℤ :=
  if entry strides.lastStride hostDim = -1 then entry hostStrides hostDim
  else entry strides.lastStride hostDim

theorem updateStride_skip {strides : Strides} {step : ℤ × ℕ} (skips : Skips hostSize step.1) :
    updateStride hostSize hostStrides deviceSize strides step = strides :=
  if_pos skips

theorem updateStride_assign {strides : Strides} {step : ℤ × ℕ} (assigns : ¬ Skips hostSize step.1) :
    updateStride hostSize hostStrides deviceSize strides step =
      { strideMap := strides.strideMap.set step.2 (assigned hostStrides strides step.1)
        lastStride := strides.lastStride.set step.1.toNat
          (min (assigned hostStrides strides step.1 * deviceSize.getD step.2 0)
            (entry hostStrides step.1 * entry hostSize step.1)) } :=
  if_neg assigns

theorem updateStride_lengths (strides : Strides) (step : ℤ × ℕ) :
    (updateStride hostSize hostStrides deviceSize strides step).strideMap.length =
        strides.strideMap.length ∧
      (updateStride hostSize hostStrides deviceSize strides step).lastStride.length =
        strides.lastStride.length := by
  by_cases skips : Skips hostSize step.1
  · rw [updateStride_skip skips]
    exact ⟨rfl, rfl⟩
  · rw [updateStride_assign skips]
    exact ⟨List.length_set, List.length_set⟩

theorem updateStride_other_stride {strides : Strides} {step : ℤ × ℕ} {devIdx : ℕ}
    (other : step.2 ≠ devIdx) :
    (updateStride hostSize hostStrides deviceSize strides step).strideMap.getD devIdx 0 =
      strides.strideMap.getD devIdx 0 := by
  by_cases skips : Skips hostSize step.1
  · rw [updateStride_skip skips]
  · rw [updateStride_assign skips]
    exact getD_set_ne other _

/-- Host dimensions are different entries of `last_stride`. -/
theorem updateStride_other_last {strides : Strides} {step : ℤ × ℕ} {hostDim : ℤ}
    (known : step.1 = -1 ∨ 0 ≤ step.1) (known' : 0 ≤ hostDim) (other : step.1 ≠ hostDim) :
    entry (updateStride hostSize hostStrides deviceSize strides step).lastStride hostDim =
      entry strides.lastStride hostDim := by
  by_cases skips : Skips hostSize step.1
  · rw [updateStride_skip skips]
  · rw [updateStride_assign skips]
    have notSynthetic : step.1 ≠ -1 := fun isSynthetic => skips (.inl isSynthetic)
    exact getD_set_ne (by omega) _

/-- Every step of a run over different dimensions assigns its own stride. -/
theorem foldl_updateStride {steps : List (ℤ × ℕ)} (distinctDims : (steps.map Prod.fst).Nodup)
    (distinctIndices : (steps.map Prod.snd).Nodup) {strides : Strides}
    (known : ∀ step ∈ steps, step.1 = -1 ∨ 0 ≤ step.1)
    (inside : ∀ step ∈ steps, step.2 < strides.strideMap.length) :
    (∀ step ∈ steps, (steps.foldl (updateStride hostSize hostStrides deviceSize)
        strides).strideMap.getD step.2 0 =
      if Skips hostSize step.1 then strides.strideMap.getD step.2 0
      else assigned hostStrides strides step.1) ∧
    ∀ devIdx, devIdx ∉ steps.map Prod.snd → (steps.foldl
      (updateStride hostSize hostStrides deviceSize) strides).strideMap.getD devIdx 0 =
        strides.strideMap.getD devIdx 0 := by
  induction steps generalizing strides with
  | nil => simp
  | cons first rest inductionHypothesis =>
      rw [List.map_cons, List.nodup_cons] at distinctDims distinctIndices
      have restKnown : ∀ step ∈ rest, step.1 = -1 ∨ 0 ≤ step.1 := fun step member =>
        known step (List.mem_cons_of_mem _ member)
      have restInside : ∀ step ∈ rest, step.2 <
          (updateStride hostSize hostStrides deviceSize strides first).strideMap.length := by
        intro step member
        rw [(updateStride_lengths strides first).1]
        exact inside step (List.mem_cons_of_mem _ member)
      obtain ⟨assign, keep⟩ := inductionHypothesis distinctDims.2 distinctIndices.2 restKnown
        restInside
      rw [List.foldl_cons]
      constructor
      · intro step member
        rcases List.mem_cons.mp member with rfl | later
        · rw [keep step.2 distinctIndices.1]
          by_cases skips : Skips hostSize step.1
          · rw [if_pos skips, updateStride_skip skips]
          · rw [if_neg skips, updateStride_assign skips]
            exact getD_set_self (inside step List.mem_cons_self) _
        · have otherIndex : first.2 ≠ step.2 := fun same =>
            distinctIndices.1 (same ▸ List.mem_map_of_mem later)
          have otherDim : first.1 ≠ step.1 := fun same =>
            distinctDims.1 (same ▸ List.mem_map_of_mem later)
          rw [assign step later, updateStride_other_stride otherIndex]
          by_cases skips : Skips hostSize step.1
          · rw [if_pos skips, if_pos skips]
          · have nonneg : 0 ≤ step.1 :=
              (restKnown step later).resolve_left fun isSynthetic => skips (.inl isSynthetic)
            unfold assigned
            rw [if_neg skips, if_neg skips,
              updateStride_other_last (known first List.mem_cons_self) nonneg otherDim]
      · intro devIdx outside
        rw [List.map_cons, List.mem_cons, not_or] at outside
        rw [keep devIdx outside.2, updateStride_other_stride (Ne.symm outside.1)]

end Strides

/-! ## Accepted orders -/

namespace AcceptedOrder

variable {hostRank : ℕ} {dimOrder : List ℤ}

theorem mem_generic {dim : ℤ} : dim ∈ genericStickDimOrder hostRank ↔ 0 ≤ dim ∧ dim < hostRank := by
  unfold genericStickDimOrder
  rw [List.mem_map]
  constructor
  · rintro ⟨index, member, rfl⟩
    have bound := List.mem_range.mp member
    omega
  · rintro ⟨nonneg, bound⟩
    exact ⟨dim.toNat, List.mem_range.mpr (by omega), Int.toNat_of_nonneg nonneg⟩

theorem nodup_generic : (genericStickDimOrder hostRank).Nodup :=
  List.nodup_range.map Nat.cast_injective

theorem known (accepted : AcceptedOrder hostRank dimOrder) {dim : ℤ} (member : dim ∈ dimOrder) :
    dim = -1 ∨ (0 ≤ dim ∧ dim < hostRank) := by
  rcases accepted with perm | ⟨front, rfl, perm⟩
  · exact .inr (mem_generic.1 (perm.mem_iff.mp member))
  · rcases List.mem_append.mp member with inFront | isLast
    · exact .inr (mem_generic.1 (perm.mem_iff.mp inFront))
    · exact .inl (List.mem_singleton.mp isLast)

theorem nodup (accepted : AcceptedOrder hostRank dimOrder) : dimOrder.Nodup := by
  rcases accepted with perm | ⟨front, rfl, perm⟩
  · exact perm.nodup_iff.mpr nodup_generic
  · rw [List.nodup_append]
    refine ⟨perm.nodup_iff.mpr nodup_generic, List.nodup_singleton _, fun dim inFront other isLast => ?_⟩
    have bounds := mem_generic.1 (perm.mem_iff.mp inFront)
    rw [List.mem_singleton.mp isLast]
    omega

theorem complete (accepted : AcceptedOrder hostRank dimOrder) {dim : ℤ} (nonneg : 0 ≤ dim)
    (bound : dim < hostRank) : dim ∈ dimOrder := by
  rcases accepted with perm | ⟨front, rfl, perm⟩
  · exact perm.mem_iff.mpr (mem_generic.2 ⟨nonneg, bound⟩)
  · exact List.mem_append_left _ (perm.mem_iff.mpr (mem_generic.2 ⟨nonneg, bound⟩))

end AcceptedOrder

/-- The host dimension of a position. -/
def orderOf (hostRank outer : ℕ) (dimOrder : List ℤ) (i : Fin (outer + 1)) :
    Option (Fin hostRank) :=
  if inside : 0 ≤ dimOrder.getD i 0 ∧ (dimOrder.getD i 0).toNat < hostRank then
    some ⟨(dimOrder.getD i 0).toNat, inside.2⟩
  else none

section Order

variable {hostSize hostStrides dimOrder : List ℤ} {outer : ℕ}
  (accepted : AcceptedOrder hostSize.length dimOrder) (isRank : dimOrder.length = outer + 1)

theorem getD_mem (isRank : dimOrder.length = outer + 1) (i : Fin (outer + 1)) :
    dimOrder.getD i 0 ∈ dimOrder := by
  have bound : i.val < dimOrder.length := by
    rw [isRank]
    exact i.isLt
  rw [List.getD_eq_getElem _ _ bound]
  exact List.getElem_mem bound

theorem orderOf_eq_some {i : Fin (outer + 1)} {dim : Fin hostSize.length} :
    orderOf hostSize.length outer dimOrder i = some dim ↔ dimOrder.getD i 0 = (dim.val : ℤ) := by
  unfold orderOf
  split
  next inside =>
    rw [Option.some_inj, Fin.ext_iff]
    simp only
    omega
  next outside =>
    have bound := dim.isLt
    constructor
    · intro impossible
      cases impossible
    · intro isDim
      exact absurd ⟨by omega, by omega⟩ outside

include accepted isRank

theorem sizeAt_orderOf (i : Fin (outer + 1)) :
    sizeAt (vector hostSize.length hostSize) (orderOf hostSize.length outer dimOrder) i =
      if dimOrder.getD i 0 = -1 then 1 else entry hostSize (dimOrder.getD i 0) := by
  unfold sizeAt orderOf
  rcases accepted.known (getD_mem isRank i) with isSynthetic | ⟨nonneg, bound⟩
  · rw [dif_neg (by omega), if_pos isSynthetic]
    rfl
  · rw [dif_pos ⟨nonneg, by omega⟩, if_neg (by omega)]
    rfl

theorem strideAt_orderOf {i : Fin (outer + 1)} (real : dimOrder.getD i 0 ≠ -1) :
    strideAt (vector hostSize.length hostStrides) (orderOf hostSize.length outer dimOrder) i =
      entry hostStrides (dimOrder.getD i 0) := by
  unfold strideAt orderOf
  obtain ⟨nonneg, bound⟩ := (accepted.known (getD_mem isRank i)).resolve_left real
  rw [dif_pos ⟨nonneg, by omega⟩]
  rfl

theorem skips_iff (i : Fin (outer + 1)) : Skips hostSize (dimOrder.getD i 0) ↔
    sizeAt (vector hostSize.length hostSize) (orderOf hostSize.length outer dimOrder) i = 1 := by
  rw [sizeAt_orderOf accepted isRank]
  unfold Skips
  split
  next isSynthetic => exact iff_of_true (.inl isSynthetic) rfl
  next real => exact or_iff_right real

omit accepted in
theorem getLastD_eq : dimOrder.getLastD 0 = dimOrder.getD (stickPosition : Fin (outer + 1)) 0 := by
  have nonempty : dimOrder ≠ [] := by
    intro isEmpty
    rw [isEmpty] at isRank
    cases isRank
  rw [List.getLastD_eq_getLast?, List.getLast?_eq_getElem?, isRank, List.getD_eq_getElem?_getD]
  rfl

theorem orderOf_injective {i i' : Fin (outer + 1)} {dim : Fin hostSize.length}
    (isDim : orderOf hostSize.length outer dimOrder i = some dim)
    (isDim' : orderOf hostSize.length outer dimOrder i' = some dim) : i = i' := by
  have same := (orderOf_eq_some.1 isDim).trans (orderOf_eq_some.1 isDim').symm
  have bound : i.val < dimOrder.length := by omega
  have bound' : i'.val < dimOrder.length := by omega
  rw [List.getD_eq_getElem _ _ bound, List.getD_eq_getElem _ _ bound'] at same
  exact Fin.ext ((accepted.nodup.getElem_inj_iff).mp same)

theorem orderOf_surjective (dim : Fin hostSize.length) :
    ∃ i, orderOf hostSize.length outer dimOrder i = some dim := by
  have member := accepted.complete (Int.natCast_nonneg dim.val) (Int.ofNat_lt.mpr dim.isLt)
  obtain ⟨index, bound, isDim⟩ := List.mem_iff_getElem.mp member
  refine ⟨⟨index, by omega⟩, orderOf_eq_some.2 ?_⟩
  rw [← isDim]
  exact List.getD_eq_getElem _ _ bound

/-! ## The layout of an accepted order -/

theorem getD_injective {i i' : ℕ} (bound : i < outer + 1) (bound' : i' < outer + 1)
    (same : dimOrder.getD i 0 = dimOrder.getD i' 0) : i = i' := by
  rw [List.getD_eq_getElem _ _ (isRank ▸ bound), List.getD_eq_getElem _ _ (isRank ▸ bound')] at same
  exact (accepted.nodup.getElem_inj_iff).mp same

omit accepted in
theorem deviceSizeOf_place (elems : ℤ) (i : Fin (outer + 1)) :
    vector (outer + 2) (deviceSizeOf hostSize elems dimOrder) (place i) =
      computeExtent hostSize (dimOrder.getLastD 0) (if dimOrder.getLastD 0 = -1 then 1 else elems)
        (dimOrder.getLastD 0 = -1) (dimOrder.getD i 0) := by
  have bound := i.isLt
  unfold vector deviceSizeOf place deviceIndex
  simp only [decide_eq_true_eq]
  generalize computeExtent hostSize (dimOrder.getLastD 0)
    (if dimOrder.getLastD 0 = -1 then 1 else elems) (decide (dimOrder.getLastD 0 = -1)) = extent
  cases dimOrder with
  | nil => cases isRank
  | cons head tail =>
      have tailLength : tail.length = outer := Nat.succ.inj isRank
      rw [List.tail_cons]
      split
      next first =>
        rw [List.getD_append_right _ _ _ _ (by simp [tailLength]), first]
        simp [tailLength]
      next later =>
        obtain ⟨index, isIndex⟩ : ∃ index, i.val = index + 1 := ⟨i.val - 1, by omega⟩
        have inTail : index < tail.length := by omega
        rw [isIndex, Nat.add_sub_cancel, List.getD_append _ _ _ _ (by simpa using inTail),
          List.getD_cons_succ, List.getD_eq_getElem _ _ (by simpa using inTail),
          List.getElem_map, List.getD_eq_getElem _ _ inTail]

omit accepted in
theorem deviceSizeOf_last (elems : ℤ) :
    vector (outer + 2) (deviceSizeOf hostSize elems dimOrder) (Fin.last _) = elems := by
  unfold vector deviceSizeOf
  rw [List.getD_append_right _ _ _ _ (by simp [isRank])]
  simp [isRank]

theorem stride_steps :
    ∃ steps, assignments dimOrder = (dimOrder.getLastD 0, outer + 1) :: steps ∧
      (steps.map Prod.fst).Nodup ∧ (steps.map Prod.snd).Nodup ∧
      (∀ i : Fin (outer + 1), (dimOrder.getD i 0, (place i).val) ∈ steps) ∧
      (∀ step ∈ steps, step.1 ∈ dimOrder) ∧ ∀ step ∈ steps, step.2 < outer + 1 := by
  refine ⟨((List.range dimOrder.length).map fun i =>
    (dimOrder.getD i 0, deviceIndex dimOrder.length i)).reverse, ?_, ?_, ?_, ?_, ?_, ?_⟩
  · unfold assignments
    rw [isRank]
  · rw [List.map_reverse, List.nodup_reverse, List.map_map]
    refine List.Nodup.map_on (fun i inside i' inside' same => ?_) List.nodup_range
    rw [List.mem_range, isRank] at inside inside'
    exact getD_injective accepted isRank inside inside' same
  · rw [List.map_reverse, List.nodup_reverse, List.map_map]
    refine List.Nodup.map_on (fun i inside i' inside' same => ?_) List.nodup_range
    rw [List.mem_range] at inside inside'
    simp only [Function.comp_apply, deviceIndex] at same
    split at same <;> split at same <;> omega
  · intro i
    rw [List.mem_reverse, List.mem_map, isRank]
    exact ⟨i.val, List.mem_range.mpr i.isLt, rfl⟩
  · intro step member
    obtain ⟨i, inside, rfl⟩ := List.mem_map.mp (List.mem_reverse.mp member)
    rw [List.mem_range, isRank] at inside
    exact getD_mem isRank ⟨i, inside⟩
  · intro step member
    obtain ⟨i, inside, rfl⟩ := List.mem_map.mp (List.mem_reverse.mp member)
    rw [List.mem_range, isRank] at inside
    simp only [isRank, deviceIndex]
    split <;> omega

omit isRank in
theorem entry_replicate {dim : ℤ} (member : dim ∈ dimOrder) (real : dim ≠ -1) :
    entry (List.replicate hostSize.length (-1)) dim = -1 := by
  obtain ⟨nonneg, bound⟩ := (accepted.known member).resolve_left real
  unfold entry
  rw [List.getD_eq_getElem _ _ (by rw [List.length_replicate]; omega), List.getElem_replicate]

/-- The stride map by position. -/
theorem strideMapOf_values {deviceSize : List ℤ}
    (strides_pos : ∀ dim ∈ dimOrder, ¬ Skips hostSize dim → 0 < entry hostStrides dim)
    (sizes_pos : ∀ dim ∈ dimOrder, dim ≠ -1 → 0 < entry hostSize dim)
    (stickPos : 0 < deviceSize.getD (outer + 1) 0) :
    (strideMapOf hostSize hostStrides deviceSize dimOrder).getD (outer + 1) 0 =
        (if Skips hostSize (dimOrder.getLastD 0) then -1
        else entry hostStrides (dimOrder.getLastD 0)) ∧
      ∀ i : Fin (outer + 1),
        (strideMapOf hostSize hostStrides deviceSize dimOrder).getD (place i) 0 =
          if Skips hostSize (dimOrder.getD i 0) then -1
          else if i = stickPosition then
            min (entry hostStrides (dimOrder.getD i 0) * deviceSize.getD (outer + 1) 0)
              (entry hostStrides (dimOrder.getD i 0) * entry hostSize (dimOrder.getD i 0))
          else entry hostStrides (dimOrder.getD i 0) := by
  obtain ⟨steps, areSteps, distinctDims, distinctIndices, hasStep, stepDims, stepIndices⟩ :=
    stride_steps accepted isRank
  have stickMember : dimOrder.getLastD 0 ∈ dimOrder := by
    rw [getLastD_eq isRank]
    exact getD_mem isRank _
  have initialMap : ∀ j < outer + 2, (List.replicate (dimOrder.length + 1) (-1 : ℤ)).getD j 0 = -1 := by
    intro j bound
    rw [List.getD_eq_getElem _ _ (by rw [List.length_replicate]; omega), List.getElem_replicate]
  unfold strideMapOf
  rw [areSteps, List.foldl_cons]
  set initial : Strides :=
    ⟨List.replicate (dimOrder.length + 1) (-1), List.replicate hostSize.length (-1)⟩ with isInitial
  have initialLength : initial.strideMap.length = outer + 2 := by
    rw [isInitial, List.length_replicate, isRank]
  set strides := updateStride hostSize hostStrides deviceSize initial
    (dimOrder.getLastD 0, outer + 1) with isStrides
  have mapLength : strides.strideMap.length = outer + 2 :=
    (updateStride_lengths _ _).1.trans initialLength
  obtain ⟨assign, keep⟩ := @foldl_updateStride hostSize hostStrides deviceSize steps distinctDims
    distinctIndices strides
    (fun step member => (accepted.known (stepDims step member)).imp_right And.left)
    (fun step member => by
      have bound := stepIndices step member
      omega)
  constructor
  · have notStep : outer + 1 ∉ steps.map Prod.snd := by
      intro isStep
      obtain ⟨step, member, isLast⟩ := List.mem_map.mp isStep
      have bound := stepIndices step member
      omega
    rw [keep _ notStep, isStrides]
    by_cases skips : Skips hostSize (dimOrder.getLastD 0)
    · rw [if_pos skips, updateStride_skip skips]
      exact initialMap _ (by omega)
    · have real : dimOrder.getLastD 0 ≠ -1 := fun isSynthetic => skips (.inl isSynthetic)
      rw [if_neg skips, updateStride_assign skips]
      simp only
      rw [getD_set_self (by omega)]
      unfold assigned
      rw [entry_replicate accepted stickMember real, if_pos rfl]
  · intro i
    have atPlace : strides.strideMap.getD (place i) 0 = -1 := by
      have bound := (place i).isLt
      have notLast : (outer + 1) ≠ (place i).val := fun same =>
        place_ne_last i (Fin.ext same.symm)
      rw [isStrides, updateStride_other_stride notLast]
      exact initialMap _ bound
    rw [assign _ (hasStep i), atPlace]
    by_cases skips : Skips hostSize (dimOrder.getD i 0)
    · rw [if_pos skips, if_pos skips]
    · rw [if_neg skips, if_neg skips]
      have member := getD_mem isRank i
      have real : dimOrder.getD i 0 ≠ -1 := fun isSynthetic => skips (.inl isSynthetic)
      obtain ⟨nonneg, bound⟩ := (accepted.known member).resolve_left real
      unfold assigned
      by_cases atStick : i = stickPosition
      · have isStick : dimOrder.getLastD 0 = dimOrder.getD i 0 := by
          rw [getLastD_eq isRank, atStick]
        have first : assigned hostStrides initial (dimOrder.getD i 0) =
            entry hostStrides (dimOrder.getD i 0) := by
          unfold assigned
          rw [isInitial, entry_replicate accepted member real, if_pos rfl]
        have last : entry strides.lastStride (dimOrder.getD i 0) =
            min (entry hostStrides (dimOrder.getD i 0) * deviceSize.getD (outer + 1) 0)
              (entry hostStrides (dimOrder.getD i 0) * entry hostSize (dimOrder.getD i 0)) := by
          rw [isStrides, isStick, updateStride_assign skips]
          simp only [first]
          apply getD_set_self
          rw [isInitial, List.length_replicate]
          omega
        have stridePos := strides_pos _ member skips
        have lastPos := lt_min (mul_pos stridePos stickPos)
          (mul_pos stridePos (sizes_pos _ member real))
        rw [last, if_neg (by omega), if_pos atStick]
      · have otherDim : dimOrder.getLastD 0 ≠ dimOrder.getD i 0 := by
          rw [getLastD_eq isRank]
          intro same
          exact atStick (Fin.ext (getD_injective accepted isRank (Fin.isLt _) i.isLt same)).symm
        rw [isStrides, updateStride_other_last ((accepted.known stickMember).imp_right And.left)
          nonneg otherDim, isInitial, entry_replicate accepted member real, if_pos rfl,
          if_neg atStick]

omit accepted isRank in
theorem strideMapOf_length {deviceSize : List ℤ} :
    (strideMapOf hostSize hostStrides deviceSize dimOrder).length = dimOrder.length + 1 := by
  have keeps : ∀ (steps : List (ℤ × ℕ)) (strides : Strides),
      (steps.foldl (updateStride hostSize hostStrides deviceSize) strides).strideMap.length =
        strides.strideMap.length := by
    intro steps
    induction steps with
    | nil => exact fun _ => rfl
    | cons step steps inductionHypothesis =>
        intro strides
        rw [List.foldl_cons, inductionHypothesis, (updateStride_lengths strides step).1]
  unfold strideMapOf
  rw [keeps, List.length_replicate]

/-- An accepted order is arranged by position. -/
theorem arranged_of_order {elems : ℤ} (elemsPos : 1 < elems)
    (sizes_pos : ∀ dim, 0 < vector hostSize.length hostSize dim)
    (contiguous : Contiguous (vector hostSize.length hostSize) (vector hostSize.length hostStrides)) :
    Arranged (vector hostSize.length hostSize) (vector hostSize.length hostStrides)
      (orderOf hostSize.length outer dimOrder) elems
      (vector (outer + 2) (deviceSizeOf hostSize elems dimOrder))
      (vector (outer + 2) (strideMapOf hostSize hostStrides (deviceSizeOf hostSize elems dimOrder)
        dimOrder)) := by
  have sizesPos : ∀ dim ∈ dimOrder, dim ≠ -1 → 0 < entry hostSize dim := by
    intro dim member real
    obtain ⟨nonneg, bound⟩ := (accepted.known member).resolve_left real
    exact sizes_pos ⟨dim.toNat, by omega⟩
  have stridesPos : ∀ dim ∈ dimOrder, ¬ Skips hostSize dim → 0 < entry hostStrides dim := by
    intro dim member skips
    obtain ⟨nonneg, bound⟩ := (accepted.known member).resolve_left fun isSynthetic =>
      skips (.inl isSynthetic)
    have isStride := contiguous ⟨dim.toNat, by omega⟩ fun narrow => skips (.inr narrow)
    exact lt_of_lt_of_eq (stride_pos sizes_pos _) isStride.symm
  have stickSize : (deviceSizeOf hostSize elems dimOrder).getD (outer + 1) 0 = elems :=
    deviceSizeOf_last isRank elems
  obtain ⟨lastStride, placeStride⟩ := strideMapOf_values accepted isRank stridesPos sizesPos
    (lt_of_lt_of_eq (by omega) stickSize.symm)
  have skips := skips_iff accepted isRank
  have sizeAt_eq := sizeAt_orderOf accepted isRank
  refine
    { order_injective := orderOf_injective accepted isRank
      order_surjective := orderOf_surjective accepted isRank
      sizes_pos, contiguous
      elems_gt_one := elemsPos
      deviceSize_last := deviceSizeOf_last isRank elems
      deviceSize_stick := ?_
      deviceSize_place := fun i other => ?_
      strideMap_last := ?_
      strideMap_stick := ?_
      strideMap_place := fun i other => ?_ }
  · rw [deviceSizeOf_place isRank, sizeAt_eq, getLastD_eq isRank]
    unfold computeExtent
    split
    next isSynthetic =>
      rw [show (1 + elems - 1 : ℤ) = elems by omega, Int.ediv_self (by omega)]
    next real => simp only [real, if_true, decide_false, Bool.false_eq_true, if_false]
  · have otherDim : dimOrder.getD i 0 ≠ dimOrder.getD (stickPosition : Fin (outer + 1)) 0 :=
      fun same => other (Fin.ext (getD_injective accepted isRank i.isLt (Fin.isLt _) same))
    rw [deviceSizeOf_place isRank, sizeAt_eq, getLastD_eq isRank]
    unfold computeExtent
    rw [if_neg otherDim]
  · have isStride : vector (outer + 2) (strideMapOf hostSize hostStrides
        (deviceSizeOf hostSize elems dimOrder) dimOrder) (Fin.last _) = _ := lastStride
    rw [isStride, getLastD_eq isRank]
    simp only [skips]
    split
    next => rfl
    next wide =>
      rw [strideAt_orderOf accepted isRank fun isSynthetic => wide ((skips _).mp (.inl isSynthetic))]
  · have isStride : vector (outer + 2) (strideMapOf hostSize hostStrides
        (deviceSizeOf hostSize elems dimOrder) dimOrder) (place stickPosition) = _ := placeStride _
    rw [isStride]
    simp only [skips, if_true]
    split
    next => rfl
    next wide =>
      have real : dimOrder.getD (stickPosition : Fin (outer + 1)) 0 ≠ -1 := fun isSynthetic =>
        wide ((skips _).mp (.inl isSynthetic))
      rw [strideAt_orderOf accepted isRank real, stickSize, sizeAt_eq, if_neg real]
  · have isStride : vector (outer + 2) (strideMapOf hostSize hostStrides
        (deviceSizeOf hostSize elems dimOrder) dimOrder) (place i) = _ := placeStride i
    rw [isStride]
    simp only [skips, other, if_false]
    split
    next => rfl
    next wide =>
      rw [strideAt_orderOf accepted isRank fun isSynthetic => wide ((skips _).mp (.inl isSynthetic))]

end Order

end TorchSpyre.TensorLayout
