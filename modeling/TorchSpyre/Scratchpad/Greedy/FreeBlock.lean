import TorchSpyre.Lib.Order
import TorchSpyre.Scratchpad.Greedy.Solver

/-!
# Free blocks are free

The greedy solver rounds a candidate address up through a float quotient.  As
long as that rounding does not fall short (`RoundsUp`), a block it returns is
aligned, inside the limit and clear of everything in use.
-/

namespace TorchSpyre.Scratchpad.Greedy

open Lib

/-- No address up to the limit is rounded to a value below itself. -/
def RoundsUp (limit alignment : ℤ) : Prop :=
  ∀ value address, 0 ≤ value → value ≤ limit → ceilAlign alignment value = .ok address →
    value ≤ address

theorem ceilAlign_eq_ok {alignment value address : ℤ}
    (rounded : ceilAlign alignment value = .ok address) :
    alignment ≠ 0 ∧ address = ⌈Binary64.nearest (value / alignment)⌉ * alignment := by
  unfold ceilAlign Binary64.trueDivide at rounded
  by_cases zero : alignment = 0
  · simp [zero] at rounded
  · rw [if_neg zero] at rounded
    split_ifs at rounded
    exact ⟨zero, by simpa using rounded.symm⟩

theorem ceilAlign_dvd {alignment value address : ℤ}
    (rounded : ceilAlign alignment value = .ok address) : alignment ∣ address := by
  rw [(ceilAlign_eq_ok rounded).2]
  exact Dvd.intro_left _ rfl

/-- The quotient has the sign of the alignment, so the product is not negative. -/
theorem ceilAlign_nonneg {alignment value address : ℤ} (nonnegative : 0 ≤ value)
    (rounded : ceilAlign alignment value = .ok address) : 0 ≤ address := by
  have valueNonneg : (0 : ℚ) ≤ value := by exact_mod_cast nonnegative
  obtain ⟨nonzero, rfl⟩ := ceilAlign_eq_ok rounded
  rcases lt_or_gt_of_ne nonzero with negative | positive
  · have alignmentNeg : (alignment : ℚ) < 0 := by exact_mod_cast negative
    have quotient : Binary64.nearest (value / alignment) ≤ 0 :=
      Binary64.nearest_nonpos (div_nonpos_of_nonneg_of_nonpos valueNonneg (le_of_lt alignmentNeg))
    have ceiling : ⌈Binary64.nearest (value / alignment)⌉ ≤ 0 :=
      Int.ceil_le.mpr (by exact_mod_cast quotient)
    exact mul_nonneg_of_nonpos_of_nonpos ceiling (le_of_lt negative)
  · have alignmentPos : (0 : ℚ) < alignment := by exact_mod_cast positive
    have quotient : 0 ≤ Binary64.nearest (value / alignment) :=
      Binary64.nearest_nonneg (div_nonneg valueNonneg (le_of_lt alignmentPos))
    exact mul_nonneg (Int.ceil_nonneg quotient) (le_of_lt positive)

/-! ## Spans -/

/-- Between neighbouring merged spans nothing is in use. -/
def Separates (spans : List (ℤ × ℤ)) : List (ℤ × ℤ) → Prop
  | [] => True
  | [_] => True
  | first :: second :: rest =>
      (∀ span ∈ spans, span.2 ≤ first.2 ∨ second.1 ≤ span.1) ∧ Separates spans (second :: rest)

theorem mergeInto_head (current : ℤ × ℤ) (rest : List (ℤ × ℤ)) :
    ∃ last tail, mergeInto current rest = (current.1, last) :: tail := by
  induction rest generalizing current with
  | nil => exact ⟨current.2, [], rfl⟩
  | cons head tail inductionHypothesis =>
      unfold mergeInto
      split
      · exact inductionHypothesis _
      · exact ⟨current.2, _, rfl⟩

theorem mergeInto_separates {seen rest : List (ℤ × ℤ)} {current : ℤ × ℤ}
    (sorted : rest.Pairwise SpanLE) (ordered : ∀ span ∈ rest, span.1 ≤ span.2)
    (reached : ∀ span ∈ seen, span.2 ≤ current.2) :
    Separates (seen ++ rest) (mergeInto current rest) := by
  induction rest generalizing seen current with
  | nil => trivial
  | cons head tail inductionHypothesis =>
      obtain ⟨headBelow, tailSorted⟩ := List.pairwise_cons.mp sorted
      have tailOrdered := fun span membership => ordered span (List.mem_cons_of_mem _ membership)
      have headOrdered := ordered head List.mem_cons_self
      have regrouped : seen ++ head :: tail = (seen ++ [head]) ++ tail := by simp
      unfold mergeInto
      split
      next touching =>
        rw [regrouped]
        apply inductionHypothesis tailSorted tailOrdered
        intro span membership
        rcases List.mem_append.mp membership with inSeen | isHead
        · exact le_trans (reached span inSeen) (le_max_left _ _)
        · rw [List.mem_singleton.mp isHead]
          exact le_max_right _ _
      next apart =>
        have tailSeparates : Separates (seen ++ head :: tail) (mergeInto head tail) := by
          rw [regrouped]
          apply inductionHypothesis tailSorted tailOrdered
          intro span membership
          rcases List.mem_append.mp membership with inSeen | isHead
          · have := reached span inSeen
            omega
          · rw [List.mem_singleton.mp isHead]
        obtain ⟨last, next, merged⟩ := mergeInto_head head tail
        rw [merged] at tailSeparates ⊢
        refine ⟨?_, tailSeparates⟩
        intro span membership
        rcases List.mem_append.mp membership with inSeen | inRest
        · exact .inl (reached span inSeen)
        · rcases List.mem_cons.mp inRest with rfl | inTail
          · exact .inr (le_refl _)
          · have below := headBelow span inTail
            unfold SpanLE at below
            exact .inr (by omega)

/-- Merged spans start and end where some span does. -/
theorem mem_mergeInto {current span : ℤ × ℤ} {rest : List (ℤ × ℤ)}
    (membership : span ∈ mergeInto current rest) :
    (∃ origin ∈ current :: rest, span.1 = origin.1) ∧
      ∃ origin ∈ current :: rest, span.2 = origin.2 := by
  induction rest generalizing current with
  | nil =>
      rw [List.mem_singleton.mp membership]
      exact ⟨⟨current, List.mem_cons_self, rfl⟩, current, List.mem_cons_self, rfl⟩
  | cons head tail inductionHypothesis =>
      unfold mergeInto at membership
      split at membership
      next touching =>
        obtain ⟨⟨first, firstIn, firstEq⟩, second, secondIn, secondEq⟩ :=
          inductionHypothesis membership
        constructor
        · rcases List.mem_cons.mp firstIn with rfl | inTail
          · exact ⟨current, List.mem_cons_self, firstEq⟩
          · exact ⟨first, by simp [inTail], firstEq⟩
        · rcases List.mem_cons.mp secondIn with rfl | inTail
          · rcases max_choice current.2 head.2 with isCurrent | isHead
            · exact ⟨current, List.mem_cons_self, secondEq.trans isCurrent⟩
            · exact ⟨head, by simp, secondEq.trans isHead⟩
          · exact ⟨second, by simp [inTail], secondEq⟩
      next apart =>
        rcases List.mem_cons.mp membership with rfl | inRest
        · exact ⟨⟨span, List.mem_cons_self, rfl⟩, span, List.mem_cons_self, rfl⟩
        · obtain ⟨⟨first, firstIn, firstEq⟩, second, secondIn, secondEq⟩ :=
            inductionHypothesis inRest
          exact ⟨⟨first, List.mem_cons_of_mem _ firstIn, firstEq⟩, second,
            List.mem_cons_of_mem _ secondIn, secondEq⟩

/-! ## Soundness of the search -/

/-- The block is aligned, inside the limit and clear of everything in use. -/
structure Free (limit alignment : ℤ) (usage : List Placement) (block : Extent) : Prop where
  nonneg : 0 ≤ block.offset
  aligned : alignment ∣ block.offset
  fits : block.stop ≤ limit
  clear : ∀ placement ∈ usage, block.Disjoint placement.extent

theorem findGap_eq_some {alignment sizeNeeded address : ℤ} {spans merged : List (ℤ × ℤ)}
    (separates : Separates spans merged)
    (found : findGap alignment sizeNeeded merged = .ok (some address)) :
    ∃ first ∈ merged, ∃ second ∈ merged, ceilAlign alignment first.2 = .ok address ∧
      address + sizeNeeded ≤ second.1 ∧
      ∀ span ∈ spans, span.2 ≤ first.2 ∨ second.1 ≤ span.1 := by
  induction merged with
  | nil => simp [findGap] at found
  | cons first tail inductionHypothesis =>
      cases tail with
      | nil => simp [findGap] at found
      | cons second rest =>
          simp only [findGap] at found
          split at found
          · simp at found
          next fragStart rounded =>
            split at found
            next wide =>
              cases found
              exact ⟨first, by simp, second, by simp, rounded, by omega, separates.1⟩
            next =>
              obtain ⟨left, leftIn, right, rightIn, facts⟩ :=
                inductionHypothesis separates.2 found
              exact ⟨left, List.mem_cons_of_mem _ leftIn, right,
                List.mem_cons_of_mem _ rightIn, facts⟩

section Search

variable {limit alignment sizeNeeded address : ℤ} {usage : List Placement}
  (rounds : RoundsUp limit alignment)
  (bounded : ∀ placement ∈ usage, 0 ≤ placement.address ∧ placement.extent.stop ≤ limit)

include bounded

theorem stop_nonneg {placement : Placement} (membership : placement ∈ usage) :
    0 ≤ placement.extent.stop := by
  have lower := (bounded placement membership).1
  unfold Placement.extent Extent.stop
  simp only
  omega

theorem highestAddrInUse_bounds (nonempty : usage ≠ []) :
    0 ≤ highestAddrInUse usage ∧ highestAddrInUse usage ≤ limit ∧
      ∀ placement ∈ usage, placement.extent.stop ≤ highestAddrInUse usage := by
  cases usage with
  | nil => exact absurd rfl nonempty
  | cons first rest =>
      have tops : ∀ placement ∈ first :: rest,
          placement.extent.stop ≤ highestAddrInUse (first :: rest) := by
        intro placement membership
        rcases List.mem_cons.mp membership with rfl | inRest
        · exact le_foldl_max_initial _ _
        · exact le_foldl_max _ (List.mem_map_of_mem (f := fun other => other.extent.stop) inRest)
      refine ⟨le_trans (stop_nonneg bounded List.mem_cons_self) (tops first List.mem_cons_self),
        ?_, tops⟩
      refine foldl_max_le_iff.mpr ⟨(bounded first List.mem_cons_self).2, ?_⟩
      intro value membership
      obtain ⟨placement, inRest, rfl⟩ := List.mem_map.mp membership
      exact (bounded placement (List.mem_cons_of_mem _ inRest)).2

omit bounded in
theorem lowestAddrInUse_le (low : sizeNeeded ≤ lowestAddrInUse usage) :
    ∀ placement ∈ usage, sizeNeeded ≤ placement.address := by
  cases usage with
  | nil => simp
  | cons first rest =>
      obtain ⟨firstAbove, restAbove⟩ := le_foldl_min_iff.mp low
      intro placement membership
      rcases List.mem_cons.mp membership with rfl | inRest
      · exact firstAbove
      · exact restAbove _ (List.mem_map_of_mem inRest)

theorem occupiedSpans_separates : Separates (usage.map spanOf) (occupiedSpans usage) := by
  have permuted := List.perm_insertionSort SpanLE (usage.map spanOf)
  have sorted : ((usage.map spanOf).insertionSort SpanLE).Pairwise SpanLE :=
    List.pairwise_insertionSort _ _
  have ordered : ∀ span ∈ (usage.map spanOf).insertionSort SpanLE, span.1 ≤ span.2 := by
    intro span membership
    obtain ⟨placement, inUsage, rfl⟩ := List.mem_map.mp (permuted.mem_iff.mp membership)
    have := stop_nonneg bounded inUsage
    unfold spanOf Placement.extent Extent.stop
    simp only
    omega
  have separates : Separates ((usage.map spanOf).insertionSort SpanLE) (occupiedSpans usage) := by
    unfold occupiedSpans
    generalize (usage.map spanOf).insertionSort SpanLE = spans at sorted ordered
    cases spans with
    | nil => trivial
    | cons head tail =>
        have reached : ∀ span ∈ [head], span.2 ≤ head.2 := by simp
        exact mergeInto_separates (List.pairwise_cons.mp sorted).2
          (fun span membership => ordered span (List.mem_cons_of_mem _ membership)) reached
  have transfer : ∀ merged, Separates ((usage.map spanOf).insertionSort SpanLE) merged →
      Separates (usage.map spanOf) merged := by
    intro merged
    induction merged with
    | nil => exact fun _ => trivial
    | cons first tail inductionHypothesis =>
        cases tail with
        | nil => exact fun _ => trivial
        | cons second rest =>
            rintro ⟨between, restSeparates⟩
            exact ⟨fun span membership => between span (permuted.mem_iff.mpr membership),
              inductionHypothesis restSeparates⟩
  exact transfer _ separates

omit bounded in
theorem mem_occupiedSpans {span : ℤ × ℤ} (membership : span ∈ occupiedSpans usage) :
    (∃ placement ∈ usage, span.1 = placement.address) ∧
      ∃ placement ∈ usage, span.2 = placement.extent.stop := by
  have permuted := List.perm_insertionSort SpanLE (usage.map spanOf)
  unfold occupiedSpans at membership
  have origins : (∃ origin ∈ (usage.map spanOf).insertionSort SpanLE, span.1 = origin.1) ∧
      ∃ origin ∈ (usage.map spanOf).insertionSort SpanLE, span.2 = origin.2 := by
    cases spans : (usage.map spanOf).insertionSort SpanLE with
    | nil =>
        rw [spans] at membership
        exact absurd membership List.not_mem_nil
    | cons head tail =>
        rw [spans] at membership
        exact mem_mergeInto membership
  obtain ⟨⟨first, firstIn, firstEq⟩, second, secondIn, secondEq⟩ := origins
  obtain ⟨firstPlacement, firstUsed, rfl⟩ := List.mem_map.mp (permuted.mem_iff.mp firstIn)
  obtain ⟨secondPlacement, secondUsed, rfl⟩ := List.mem_map.mp (permuted.mem_iff.mp secondIn)
  exact ⟨⟨firstPlacement, firstUsed, firstEq⟩, secondPlacement, secondUsed, secondEq⟩

include rounds

theorem findFreeBlock_free
    (found : findFreeBlock limit alignment usage sizeNeeded = .ok (some address)) :
    Free limit alignment usage ⟨address, sizeNeeded⟩ := by
  unfold findFreeBlock at found
  split at found
  · simp at found
  next room =>
    split at found
    next atBottom =>
      cases found
      refine ⟨le_refl 0, dvd_zero _, by simpa [Extent.stop] using room, ?_⟩
      intro placement membership
      apply Extent.disjoint_of_stop_le
      rcases atBottom with empty | low
      · rw [empty] at membership
        exact absurd membership List.not_mem_nil
      · simpa [Extent.stop, Placement.extent] using lowestAddrInUse_le low placement membership
    next inUse =>
      rw [not_or] at inUse
      split at found
      · simp at found
      next onTop rounded =>
        split at found
        next fits =>
          cases found
          obtain ⟨nonneg, inside, tops⟩ := highestAddrInUse_bounds bounded inUse.1
          refine ⟨ceilAlign_nonneg nonneg rounded, ceilAlign_dvd rounded, fits, ?_⟩
          intro placement membership
          apply Extent.Disjoint.symm
          apply Extent.disjoint_of_stop_le
          exact le_trans (tops placement membership) (rounds _ _ nonneg inside rounded)
        next =>
          obtain ⟨first, firstIn, second, secondIn, roundedGap, gapFits, between⟩ :=
            findGap_eq_some (occupiedSpans_separates bounded) found
          obtain ⟨-, lower, lowerUsed, lowerEq⟩ := mem_occupiedSpans firstIn
          obtain ⟨⟨upper, upperUsed, upperEq⟩, -⟩ := mem_occupiedSpans secondIn
          have endNonneg : 0 ≤ first.2 := lowerEq ▸ stop_nonneg bounded lowerUsed
          have endInside : first.2 ≤ limit := lowerEq ▸ (bounded lower lowerUsed).2
          have above := rounds _ _ endNonneg endInside roundedGap
          refine ⟨ceilAlign_nonneg endNonneg roundedGap, ceilAlign_dvd roundedGap, ?_, ?_⟩
          · have upperTop := (bounded upper upperUsed).2
            unfold Placement.extent Extent.stop at upperTop
            unfold Extent.stop
            simp only at upperTop ⊢
            omega
          · intro placement membership
            rcases between _ (List.mem_map_of_mem (f := spanOf) membership) with below | beyond
            · exact (Extent.disjoint_of_stop_le (le_trans below above)).symm
            · exact Extent.disjoint_of_stop_le (le_trans gapFits beyond)

end Search

end TorchSpyre.Scratchpad.Greedy
