import Mathlib
import TorchSpyre.Scratchpad.PermLayout.Checked

/-!
# When nothing overflows

A buffer is tried on top of others, so its address is bounded by the capacity and by the height of
all that is stacked before it. With room above that bound no sum of the packer overflows.
-/

namespace TorchSpyre.Scratchpad.PermLayout

open Lib

namespace Config

variable (config : Config)

/-- The aligned sizes of the eligible buffers. -/
def stackHeight (earlier : List ℕ) : ℤ :=
  ((earlier.filter fun buffer => config.eligible buffer).map fun buffer =>
    roundUp config.static.alignment (config.sizes buffer)).sum

/-- A bound for the tops that a buffer behind others can rest on. -/
def reach (earlier : List ℕ) (buffer : ℕ) : ℤ :=
  if config.candidates earlier buffer = [] then 0
  else min (max config.static.capacity 0) (config.stackHeight earlier)

/-- The sums for a buffer at the highest address it can be tried at fit. -/
structure HasRoom (earlier : List ℕ) (buffer : ℕ) : Prop where
  aligns : config.reach earlier buffer + config.static.alignment ≤ int64Max
  fits : roundUp config.static.alignment (config.reach earlier buffer) + config.sizes buffer ≤ int64Max

instance (earlier : List ℕ) (buffer : ℕ) : Decidable (config.HasRoom earlier buffer) :=
  decidable_of_iff (config.reach earlier buffer + config.static.alignment ≤ int64Max ∧
      roundUp config.static.alignment (config.reach earlier buffer) + config.sizes buffer ≤ int64Max)
    ⟨fun both => ⟨both.1, both.2⟩, fun room => ⟨room.aligns, room.fits⟩⟩

def Headroom (order : List ℕ) : Prop :=
  ∀ buffer ∈ order, config.eligible buffer = true → config.HasRoom (before order buffer) buffer

instance (order : List ℕ) : Decidable (config.Headroom order) :=
  inferInstanceAs (Decidable (∀ buffer ∈ order, config.eligible buffer = true →
    config.HasRoom (before order buffer) buffer))

end Config

/-! ## Sums within range -/

theorem checked_eq {value : ℤ} (nonnegative : 0 ≤ value) (bounded : value ≤ int64Max) :
    checked value = some value := by
  have low : -int64Max - 1 ≤ value := le_trans (by decide) nonnegative
  simp [checked, fitsInt64, low, bounded]

theorem mapM_checked {buffers : List ℕ} {value : ℕ → ℤ}
    (bounds : ∀ buffer ∈ buffers, 0 ≤ value buffer ∧ value buffer ≤ int64Max) :
    (buffers.mapM fun buffer => checked (value buffer)) = some (buffers.map value) := by
  induction buffers with
  | nil => rfl
  | cons head tail inductionHypothesis =>
      obtain ⟨headBounds, tailBounds⟩ := List.forall_mem_cons.mp bounds
      simp [List.mapM_cons, checked_eq headBounds.1 headBounds.2, inductionHypothesis tailBounds]

theorem alignUpChecked_eq {alignment addr : ℤ} (positive : 0 < alignment) (nonnegative : 0 ≤ addr)
    (bounded : addr + alignment ≤ int64Max) :
    alignUpChecked alignment addr = some (alignUp alignment addr) := by
  have rounded := alignUp_eq_roundUp positive nonnegative
  have above := roundUp_nonneg positive nonnegative
  have below := roundUp_lt positive addr
  rw [← rounded] at above below
  have last : checked (addr + alignment - 1) = some (addr + alignment - 1) :=
    checked_eq (by omega) (by omega)
  unfold alignUpChecked
  simp only [checked_eq (add_nonneg nonnegative positive.le) bounded, Option.bind_eq_bind,
    Option.bind_some, last]
  unfold alignUp at above below
  exact checked_eq above (by omega)

namespace Config

variable {config : Config}

theorem fitChecked_eq {address : ℤ} {buffer : ℕ} (nonnegative : 0 ≤ address)
    (size : 0 ≤ config.sizes buffer) (bounded : address + config.sizes buffer ≤ int64Max) :
    config.fitChecked address buffer =
      some (if address + config.sizes buffer > config.static.capacity then none else some address) := by
  unfold fitChecked
  rw [checked_eq (add_nonneg nonnegative size) bounded, Option.map_some]

/-! ## How high a buffer can lie -/

section Height

variable (positive : 0 < config.static.alignment)

theorem dvd_stackHeight (earlier : List ℕ) : config.static.alignment ∣ config.stackHeight earlier := by
  induction earlier with
  | nil => exact dvd_zero _
  | cons head tail inductionHypothesis =>
      cases eligible : config.eligible head with
      | false => simpa [stackHeight, eligible] using inductionHypothesis
      | true =>
          simpa [stackHeight, eligible] using Int.dvd_add (dvd_roundUp _ _) inductionHypothesis

theorem stackHeight_append (earlier later : List ℕ) :
    config.stackHeight (earlier ++ later) = config.stackHeight earlier + config.stackHeight later := by
  simp [stackHeight]

include positive

theorem stackHeight_nonneg {earlier : List ℕ} (nonnegative : ∀ buffer ∈ earlier, 0 ≤ config.sizes buffer) :
    0 ≤ config.stackHeight earlier := by
  apply List.sum_nonneg
  intro height inside
  obtain ⟨buffer, isEarlier, rfl⟩ := List.mem_map.mp inside
  exact roundUp_nonneg positive (nonnegative buffer (List.mem_filter.mp isEarlier).1)

variable {order : List ℕ} {layout : Layout} (isLayout : config.IsLayout order layout)
  (nonnegative : ∀ buffer ∈ order, 0 ≤ config.sizes buffer)

include isLayout nonnegative

/-- An allocated buffer ends no higher than the stack with it on top. -/
theorem top_le_stackHeight : ∀ buffer ∈ order, layout.allocated buffer = true →
    config.top layout buffer ≤ config.stackHeight (before order buffer ++ [buffer]) := by
  apply before_induction
  intro buffer inOrder earlierBelow allocated
  have eligible := isLayout.eligible_of_allocated inOrder allocated
  have own : config.stackHeight (before order buffer ++ [buffer]) =
      config.stackHeight (before order buffer) + roundUp config.static.alignment (config.sizes buffer) := by
    rw [stackHeight_append]
    simp [stackHeight, eligible]
  have beforeNonneg : ∀ earlier ∈ before order buffer, 0 ≤ config.sizes earlier :=
    fun earlier isEarlier => nonnegative earlier (before_subset _ _ isEarlier)
  have size := le_roundUp positive (config.sizes buffer)
  have below : ∀ earlier ∈ before order buffer, layout.allocated earlier = true →
      config.top layout earlier ≤ config.stackHeight (before order buffer) := by
    intro earlier isEarlier earlierAllocated
    obtain ⟨rest, split⟩ := before_extends isEarlier
    apply le_trans (earlierBelow earlier isEarlier earlierAllocated)
    rw [← split, stackHeight_append (before order earlier ++ [earlier]) rest]
    apply le_add_of_nonneg_right
    apply stackHeight_nonneg positive
    intro other isOther
    exact beforeNonneg other (split ▸ List.mem_append_right _ isOther)
  obtain ⟨-, allAllocated, ⟨-, atZero⟩ | ⟨partner, -, fits, atPartner⟩ | ⟨nonempty, stacked⟩⟩ :=
    config.placeDecision_eq_some (isLayout.placed inOrder allocated)
  · have stack := stackHeight_nonneg positive beforeNonneg
    rw [own, top, atZero]
    omega
  · have inside := ((config.slotFits_iff).mp fits).1
    have isEarlier := ((config.mem_candidates).mp inside).1
    have partnerBelow := below partner isEarlier (allAllocated partner inside)
    have partnerSize := beforeNonneg partner isEarlier
    rw [own, top, atPartner]
    rw [top] at partnerBelow
    omega
  · have tops : ((config.candidates (before order buffer) buffer).map (config.top layout)).foldl
        max (-int64Max - 1) ≤ config.stackHeight (before order buffer) := by
      rw [foldl_max_le_iff]
      refine ⟨le_trans (by decide) (stackHeight_nonneg positive beforeNonneg), ?_⟩
      intro height isTop
      obtain ⟨candidate, inside, rfl⟩ := List.mem_map.mp isTop
      exact below candidate ((config.mem_candidates).mp inside).1 (allAllocated candidate inside)
    obtain ⟨candidate, inside⟩ := List.exists_mem_of_ne_nil _ nonempty
    have above := le_foldl_max (-int64Max - 1) (List.mem_map_of_mem (f := config.top layout) inside)
    have candidateIn := before_subset _ _ ((config.mem_candidates).mp inside).1
    have topNonneg : 0 ≤ config.top layout candidate :=
      add_nonneg (isLayout.address_nonneg positive nonnegative candidate candidateIn _
        (Layout.address_eq_some.mpr ⟨allAllocated candidate inside, rfl⟩))
        (nonnegative candidate candidateIn)
    rw [own, top, stacked, alignUp_eq_roundUp positive (le_trans topNonneg above)]
    exact add_le_add (roundUp_le positive (dvd_stackHeight _) tops) size

/-- The tops that a buffer can rest on are within reach. -/
theorem top_le_reach {buffer : ℕ}
    (allAllocated : ∀ candidate ∈ config.candidates (before order buffer) buffer,
      layout.allocated candidate = true)
    {candidate : ℕ} (inside : candidate ∈ config.candidates (before order buffer) buffer) :
    config.top layout candidate ≤ config.reach (before order buffer) buffer := by
  have isEarlier := ((config.mem_candidates).mp inside).1
  have inOrder := before_subset _ _ isEarlier
  have allocated := allAllocated candidate inside
  have capacity := (config.placeDecision_eq_some (isLayout.placed inOrder allocated)).1
  obtain ⟨rest, split⟩ := before_extends isEarlier
  rw [reach, if_neg (List.ne_nil_of_mem inside), le_min_iff]
  refine ⟨le_trans capacity (le_max_left _ _), ?_⟩
  apply le_trans (top_le_stackHeight positive isLayout nonnegative candidate inOrder allocated)
  rw [← split, stackHeight_append (before order candidate ++ [candidate]) rest]
  apply le_add_of_nonneg_right
  apply stackHeight_nonneg positive
  intro other isOther
  exact nonnegative other (before_subset _ _ (split ▸ List.mem_append_right _ isOther))

omit isLayout in
theorem reach_nonneg (buffer : ℕ) : 0 ≤ config.reach (before order buffer) buffer := by
  unfold reach
  split
  · exact le_refl 0
  · exact le_min (le_max_right _ _)
      (stackHeight_nonneg positive fun earlier isEarlier => nonnegative earlier (before_subset _ _ isEarlier))

/-- No buffer lies above what is within its reach, rounded up. -/
theorem addr_le_reach {buffer : ℕ} (inOrder : buffer ∈ order) (allocated : layout.allocated buffer = true) :
    layout.addr buffer ≤ roundUp config.static.alignment (config.reach (before order buffer) buffer) := by
  have within : 0 ≤ config.reach (before order buffer) buffer := reach_nonneg positive nonnegative buffer
  obtain ⟨-, allAllocated, ⟨-, atZero⟩ | ⟨partner, -, fits, atPartner⟩ | ⟨nonempty, stacked⟩⟩ :=
    config.placeDecision_eq_some (isLayout.placed inOrder allocated)
  · rw [atZero]
    exact roundUp_nonneg positive within
  · have inside := ((config.slotFits_iff).mp fits).1
    have size := nonnegative partner (before_subset _ _ ((config.mem_candidates).mp inside).1)
    have below := top_le_reach positive isLayout nonnegative allAllocated inside
    rw [atPartner]
    calc layout.addr partner ≤ config.top layout partner := le_add_of_nonneg_right size
      _ ≤ config.reach (before order buffer) buffer := below
      _ ≤ _ := le_roundUp positive _
  · obtain ⟨candidate, inside⟩ := List.exists_mem_of_ne_nil _ nonempty
    have candidateIn := before_subset _ _ ((config.mem_candidates).mp inside).1
    have above := le_foldl_max (-int64Max - 1) (List.mem_map_of_mem (f := config.top layout) inside)
    have topNonneg : 0 ≤ config.top layout candidate :=
      add_nonneg (isLayout.address_nonneg positive nonnegative candidate candidateIn _
        (Layout.address_eq_some.mpr ⟨allAllocated candidate inside, rfl⟩))
        (nonnegative candidate candidateIn)
    rw [stacked, alignUp_eq_roundUp positive (le_trans topNonneg above)]
    apply roundUp_mono positive
    rw [foldl_max_le_iff]
    refine ⟨le_trans (by decide) within, ?_⟩
    intro height isTop
    obtain ⟨other, otherInside, rfl⟩ := List.mem_map.mp isTop
    exact top_le_reach positive isLayout nonnegative allAllocated otherInside

end Height

/-! ## Decisions -/

/-- A scan whose tops stay under a bound with room above it overflows nowhere. -/
theorem placeDecisionChecked_eq {layout : Layout} {partners candidates : List ℕ} {buffer : ℕ} {bound : ℤ}
    (positive : 0 < config.static.alignment) (size : 0 ≤ config.sizes buffer) (within : 0 ≤ bound)
    (tops : (∀ candidate ∈ candidates, layout.allocated candidate = true) → ∀ candidate ∈ candidates,
      0 ≤ layout.addr candidate ∧ 0 ≤ config.sizes candidate ∧ config.top layout candidate ≤ bound)
    (aligns : bound + config.static.alignment ≤ int64Max)
    (fits : roundUp config.static.alignment bound + config.sizes buffer ≤ int64Max) :
    config.placeDecisionChecked layout partners buffer candidates =
      some (config.placeDecision layout partners buffer candidates) := by
  have rounded := le_roundUp positive bound
  unfold placeDecisionChecked placeDecision
  by_cases empty : candidates = []
  · simp [empty]
  · cases blocked : candidates.any fun candidate => !layout.allocated candidate with
    | true => simp [empty]
    | false =>
        have allAllocated : ∀ candidate ∈ candidates, layout.allocated candidate = true := by
          simpa using blocked
        have bounds := tops allAllocated
        have checkedTops : (candidates.mapM fun candidate => checked (config.top layout candidate)) =
            some (candidates.map (config.top layout)) := by
          apply mapM_checked
          intro candidate inside
          obtain ⟨low, candidateSize, high⟩ := bounds candidate inside
          exact ⟨add_nonneg low candidateSize, by omega⟩
        simp only [empty, if_false, Bool.false_eq_true, checkedTops, Option.bind_some]
        cases found : partners.find? (config.slotFits layout buffer candidates) with
        | some partner =>
            obtain ⟨low, partnerSize, high⟩ :=
              bounds partner ((config.slotFits_iff).mp (List.find?_some found)).1
            rw [top] at high
            exact fitChecked_eq low size (by omega)
        | none =>
            obtain ⟨candidate, inside⟩ := List.exists_mem_of_ne_nil _ empty
            obtain ⟨low, candidateSize, -⟩ := bounds candidate inside
            have floor : 0 ≤ (candidates.map (config.top layout)).foldl max (-int64Max - 1) :=
              le_trans (add_nonneg low candidateSize) (le_foldl_max _ (List.mem_map_of_mem inside))
            have ceiling : (candidates.map (config.top layout)).foldl max (-int64Max - 1) ≤ bound := by
              rw [foldl_max_le_iff]
              refine ⟨le_trans (by decide) within, ?_⟩
              intro height isTop
              obtain ⟨other, otherInside, rfl⟩ := List.mem_map.mp isTop
              exact (bounds other otherInside).2.2
            have roundedTop := roundUp_mono positive ceiling
            rw [alignUpChecked_eq positive floor (by omega), Option.bind_some]
            refine fitChecked_eq ?_ size ?_
            · rw [alignUp_eq_roundUp positive floor]
              exact roundUp_nonneg positive floor
            · rw [alignUp_eq_roundUp positive floor]
              omega

end Config

end TorchSpyre.Scratchpad.PermLayout
