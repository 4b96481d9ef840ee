import TorchSpyre.Scratchpad.PermLayout.Solver

/-!
# Packing safety of the native permutation packer

A layout is safe when allocated buffers are eligible, aligned and inside the
capacity, when time-overlapping ones do not share bytes unless an in-place pair
shares one address, and when an evicted buffer takes every later overlapping one
with it.  Every layout of an order is safe, hence so is every reachable solver.
-/

namespace TorchSpyre.Scratchpad.PermLayout

open Lib

namespace Config

variable {config : Config} {order : List ℕ} {layout : Layout}

/-- The bytes a buffer occupies. -/
def extent (config : Config) (layout : Layout) (buffer : ℕ) : Extent :=
  ⟨layout.addr buffer, config.sizes buffer⟩

/-- The two buffers are a declared pair at one address and the child fits. -/
def SharesSlot (config : Config) (layout : Layout) (first second : ℕ) : Prop :=
  layout.addr first = layout.addr second ∧
    ((first ∈ config.static.declaredParents second ∧
        config.sizes second ≤ config.sizes first) ∨
      (second ∈ config.static.declaredParents first ∧
        config.sizes first ≤ config.sizes second))

theorem SharesSlot.symm {first second : ℕ} (shares : config.SharesSlot layout first second) :
    config.SharesSlot layout second first :=
  ⟨shares.1.symm, shares.2.symm⟩

structure Safe (config : Config) (order : List ℕ) (layout : Layout) : Prop where
  eligible : ∀ buffer ∈ order, layout.allocated buffer = true → config.eligible buffer = true
  nonneg : ∀ buffer ∈ order, layout.allocated buffer = true → 0 ≤ layout.addr buffer
  aligned : ∀ buffer ∈ order, layout.allocated buffer = true →
    config.static.alignment ∣ layout.addr buffer
  fits : ∀ buffer ∈ order, layout.allocated buffer = true →
    layout.addr buffer + config.sizes buffer ≤ config.static.capacity
  separate : ∀ first ∈ order, ∀ second ∈ order, first ≠ second →
    layout.allocated first = true → layout.allocated second = true →
    config.static.overlaps first second = true →
      (config.extent layout first).Disjoint (config.extent layout second) ∨
        config.SharesSlot layout first second
  dominates : ∀ later ∈ order, ∀ earlier ∈ before order later,
    config.eligible earlier = true → layout.allocated earlier = false →
    config.static.overlaps later earlier = true → layout.allocated later = false

namespace IsLayout

variable (isLayout : config.IsLayout order layout)

include isLayout

/-- An allocated buffer has an address that `placeDecision` gave it. -/
theorem placed {buffer : ℕ} (membership : buffer ∈ order)
    (allocated : layout.allocated buffer = true) :
    config.placeDecision layout (config.referencePartners buffer) buffer
      (config.candidates (before order buffer) buffer) = some (layout.addr buffer) := by
  have located := Layout.address_eq_some.mpr ⟨allocated, rfl⟩
  rw [isLayout buffer membership] at located
  exact (config.decision_eq_some located).2

theorem aligned :
    ∀ buffer ∈ order, layout.allocated buffer = true →
      config.static.alignment ∣ layout.addr buffer := by
  apply before_induction
  intro buffer membership earlierAligned allocated
  obtain ⟨-, allAllocated, ⟨-, atZero⟩ | ⟨partner, -, fits, atPartner⟩ | ⟨nonempty, stacked⟩⟩ :=
    config.placeDecision_eq_some (isLayout.placed membership allocated)
  · rw [atZero]
    exact dvd_zero _
  · have inside := ((config.slotFits_iff).mp fits).1
    rw [atPartner]
    exact earlierAligned partner ((config.mem_candidates).mp inside).1
      (allAllocated partner inside)
  · rw [stacked]
    exact Dvd.intro_left _ rfl

/-- A buffer is clear of every earlier overlapping one, or sits in the slot of a
declared partner. -/
theorem clear_of_earlier (positive : 0 < config.static.alignment)
    (nonnegative : ∀ buffer ∈ order, 0 ≤ config.sizes buffer) {buffer earlier : ℕ}
    (membership : buffer ∈ order) (isEarlier : earlier ∈ before order buffer)
    (allocated : layout.allocated buffer = true)
    (earlierAllocated : layout.allocated earlier = true)
    (overlap : config.static.overlaps buffer earlier = true) :
    (config.extent layout earlier).Disjoint (config.extent layout buffer) ∨
      config.SharesSlot layout buffer earlier := by
  have earlierIn := before_subset _ _ isEarlier
  have candidate : earlier ∈ config.candidates (before order buffer) buffer :=
    (config.mem_candidates).mpr
      ⟨isEarlier, isLayout.eligible_of_allocated earlierIn earlierAllocated, overlap⟩
  obtain ⟨-, -, ⟨empty, -⟩ | ⟨partner, isPartner, fits, atPartner⟩ | ⟨-, stacked⟩⟩ :=
    config.placeDecision_eq_some (isLayout.placed membership allocated)
  · rw [empty] at candidate
    exact absurd candidate List.not_mem_nil
  · obtain ⟨-, childFits, othersBelow⟩ := (config.slotFits_iff).mp fits
    by_cases same : earlier = partner
    · subst same
      refine .inr ⟨atPartner, ?_⟩
      have partners : config.static.Partners buffer earlier :=
        of_decide_eq_true (List.mem_filter.mp isPartner).2
      unfold inPlacePair at childFits
      by_cases declares : earlier ∈ config.static.declaredParents buffer
      · rw [if_pos declares] at childFits
        exact .inr ⟨declares, childFits⟩
      · rw [if_neg declares] at childFits
        exact .inl ⟨partners.resolve_left declares, childFits⟩
    · refine .inl (Extent.disjoint_of_stop_le ?_)
      have below := config.top_le_othersTop layout candidate same
      change config.top layout earlier ≤ layout.addr buffer
      rw [atPartner]
      exact le_trans below othersBelow
  · refine .inl (Extent.disjoint_of_stop_le ?_)
    have below := le_foldl_max (-int64Max - 1) (List.mem_map_of_mem (f := config.top layout) candidate)
    have addrNonneg := isLayout.address_nonneg positive nonnegative earlier earlierIn _
      (Layout.address_eq_some.mpr ⟨earlierAllocated, rfl⟩)
    have topNonneg : 0 ≤ config.top layout earlier :=
      add_nonneg addrNonneg (nonnegative earlier earlierIn)
    change config.top layout earlier ≤ layout.addr buffer
    rw [stacked, alignUp_eq_roundUp positive (le_trans topNonneg below)]
    exact le_trans below (le_roundUp positive _)

theorem safe (positive : 0 < config.static.alignment)
    (nonnegative : ∀ buffer ∈ order, 0 ≤ config.sizes buffer) : config.Safe order layout := by
  constructor
  · exact fun buffer membership allocated => isLayout.eligible_of_allocated membership allocated
  · exact fun buffer membership allocated => isLayout.address_nonneg positive nonnegative buffer
      membership _ (Layout.address_eq_some.mpr ⟨allocated, rfl⟩)
  · exact isLayout.aligned
  · exact fun buffer membership allocated =>
      (config.placeDecision_eq_some (isLayout.placed membership allocated)).1
  · intro first firstIn second secondIn distinct firstAllocated secondAllocated overlap
    rcases mem_before_or_mem_before firstIn secondIn distinct with isEarlier | isLater
    · rcases isLayout.clear_of_earlier positive nonnegative secondIn isEarlier secondAllocated
        firstAllocated (by rwa [StaticData.overlaps_comm]) with disjoint | shares
      · exact .inl disjoint
      · exact .inr shares.symm
    · rcases isLayout.clear_of_earlier positive nonnegative firstIn isLater firstAllocated
        secondAllocated overlap with disjoint | shares
      · exact .inl disjoint.symm
      · exact .inr shares
  · intro later membership earlier isEarlier eligible evicted overlap
    by_contra stays
    have decided := isLayout.placed membership (by simpa using stays)
    have candidate : earlier ∈ config.candidates (before order later) later :=
      (config.mem_candidates).mpr ⟨isEarlier, eligible, overlap⟩
    rw [config.placeDecision_of_unallocated candidate evicted] at decided
    cases decided

end IsLayout

/-- Safety looks at allocated flags and at the addresses of allocated buffers only. -/
theorem Safe.congr {other : Layout} (safe : config.Safe order layout)
    (same : ∀ buffer ∈ order, other.address buffer = layout.address buffer) :
    config.Safe order other := by
  have flags : ∀ buffer ∈ order, other.allocated buffer = layout.allocated buffer :=
    fun buffer membership => Solver.allocated_congr (same buffer membership)
  have addresses : ∀ buffer ∈ order, other.allocated buffer = true →
      other.addr buffer = layout.addr buffer := by
    intro buffer membership allocated
    have located := same buffer membership
    rw [Layout.address_eq_some.mpr ⟨allocated, rfl⟩] at located
    exact (Layout.address_eq_some.mp located.symm).2.symm
  constructor
  · intro buffer membership allocated
    exact safe.eligible buffer membership (flags buffer membership ▸ allocated)
  · intro buffer membership allocated
    rw [addresses buffer membership allocated]
    exact safe.nonneg buffer membership (flags buffer membership ▸ allocated)
  · intro buffer membership allocated
    rw [addresses buffer membership allocated]
    exact safe.aligned buffer membership (flags buffer membership ▸ allocated)
  · intro buffer membership allocated
    rw [addresses buffer membership allocated]
    exact safe.fits buffer membership (flags buffer membership ▸ allocated)
  · intro first firstIn second secondIn distinct firstAllocated secondAllocated overlap
    unfold extent SharesSlot
    rw [addresses first firstIn firstAllocated, addresses second secondIn secondAllocated]
    exact safe.separate first firstIn second secondIn distinct
      (flags first firstIn ▸ firstAllocated) (flags second secondIn ▸ secondAllocated) overlap
  · intro later membership earlier isEarlier eligible evicted overlap
    rw [flags earlier (before_subset _ _ isEarlier)] at evicted
    rw [flags later membership]
    exact safe.dominates later membership earlier isEarlier eligible evicted overlap

end Config

end TorchSpyre.Scratchpad.PermLayout
