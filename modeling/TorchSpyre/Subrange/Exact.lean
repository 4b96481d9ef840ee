import TorchSpyre.Subrange.Partition

/-!
# Certificates are exact

The fragments of a destination core cut its rectangle along the source slices.  Their
offsets are stick aligned and inside the local reservations, so after validation only
the fan-in limit can reject a transfer.
-/

namespace TorchSpyre.Subrange

open Lib

variable {rank : ℕ}

/-! ## Offsets of a part of a slice -/

section Offsets

variable {elementBytes : ℤ} {shape corner start widths : Tuple rank}

theorem localOffset_eq (elementBytes : ℤ) (shape corner start : Tuple rank) :
    localOffset elementBytes shape corner start = offset shape (corner - start) * elementBytes := by
  unfold localOffset offset byteStrides
  rw [Finset.sum_mul]
  apply Finset.sum_congr rfl
  intro axis _
  rw [Pi.sub_apply]
  ring

/-- The offset of a point of the part is the corner's offset and the strides to it. -/
theorem localOffset_add (point : Tuple rank) :
    localOffset elementBytes shape corner start +
        ∑ axis, (point axis - corner axis) * byteStrides elementBytes shape axis =
      localOffset elementBytes shape point start := by
  unfold localOffset
  rw [← Finset.sum_add_distrib]
  apply Finset.sum_congr rfl
  intro axis _
  ring

/-- A point of the slice is inside the slice's reservation. -/
theorem localOffset_bounds (positive : 0 < elementBytes) {point : Tuple rank}
    (inside : point ∈ box start shape) :
    0 ≤ localOffset elementBytes shape point start ∧
      localOffset elementBytes shape point start + elementBytes ≤ byteSpan elementBytes shape := by
  have relative := sub_mem_box inside
  have shapePos : ∀ axis, 0 < shape axis := by
    intro axis
    have bounds := mem_box.mp inside axis
    omega
  have lower := offset_nonneg shapePos fun axis => (mem_box.mp relative axis).1
  have upper := offset_lt relative
  rw [localOffset_eq]
  refine ⟨mul_nonneg lower (le_of_lt positive), ?_⟩
  unfold byteSpan
  have step : (offset shape (point - start) + 1) * elementBytes ≤
      (∏ axis, shape axis) * elementBytes :=
    mul_le_mul_of_nonneg_right upper (le_of_lt positive)
  linarith

theorem dvd_localOffset {last : Fin rank} (isLast : last.val + 1 = rank)
    (stick : shape last * elementBytes = 128) (atStart : corner last = start last) :
    128 ∣ localOffset elementBytes shape corner start := by
  rw [localOffset_eq, ← stick]
  apply mul_dvd_mul_right
  apply dvd_offset isLast
  rw [Pi.sub_apply, atStart, sub_self]

/-- A nonempty part of a slice that starts at a stick is never rejected. -/
theorem not_exceeds (positive : 0 < elementBytes) {last : Fin rank}
    (isLast : last.val + 1 = rank) (stick : shape last * elementBytes = 128)
    (atStart : corner last = start last) (nonempty : ∀ axis, 0 < widths axis)
    (inside : box corner widths ⊆ box start shape) :
    exceeds elementBytes shape widths (localOffset elementBytes shape corner start) = false := by
  have first := @corner_mem_box _ corner widths nonempty
  have final : corner + widths - 1 ∈ box corner widths := by
    refine mem_box.mpr fun axis => ?_
    have wide := nonempty axis
    simp only [Pi.sub_apply, Pi.add_apply, Pi.one_apply]
    omega
  obtain ⟨lower, -⟩ := localOffset_bounds positive (inside first)
  obtain ⟨-, upper⟩ := localOffset_bounds positive (inside final)
  have aligned := dvd_localOffset isLast stick atStart
  have reaches := @localOffset_add _ elementBytes shape corner start (corner + widths - 1)
  have sameSum : ∑ axis, ((corner + widths - 1) axis - corner axis) *
      byteStrides elementBytes shape axis =
        ∑ axis, (widths axis - 1) * byteStrides elementBytes shape axis := by
    apply Finset.sum_congr rfl
    intro axis _
    simp only [Pi.sub_apply, Pi.add_apply, Pi.one_apply]
    ring
  rw [sameSum] at reaches
  unfold exceeds
  rw [decide_eq_false_iff_not]
  rintro (negative | unaligned | beyond)
  · omega
  · exact unaligned (Int.emod_eq_zero_of_dvd aligned)
  · rw [reaches] at beyond
    omega

end Offsets

/-! ## The fragments of a destination core -/

/-- What has been validated when the fragments are computed. -/
structure Validated (parentShape origin extent : Tuple rank) (elementBytes : ℤ)
    (sourceSplits destinationSplits : Mapping ℤ) (sourceMap destinationMap : Mapping (Mapping ℤ))
    (source destination : Partition rank) : Prop where
  last : ∃ last : Fin rank, last.val + 1 = rank ∧ parentShape last * elementBytes = 128 ∧
    origin last = 0 ∧ extent last = parentShape last
  elementBytes_pos : 0 < elementBytes
  shape_pos : ∀ axis, 0 < parentShape axis
  origin_nonneg : ∀ axis, 0 ≤ origin axis
  extent_pos : ∀ axis, 0 < extent axis
  inside : ∀ axis, origin axis + extent axis ≤ parentShape axis
  sourceParts : Partitions parentShape sourceSplits sourceMap source
  source_nodup : source.owners.Nodup
  destinationParts : Partitions extent destinationSplits destinationMap destination

/-- The part of the parent that a source core holds. -/
def sourceSlice (source : Partition rank) (slots : Tuple rank) : Finset (Tuple rank) :=
  box (sourceStart source slots) source.localShape

/-- The part of the parent that a destination core is to hold. -/
def destinationRectangle (destination : Partition rank) (origin slots : Tuple rank) :
    Finset (Tuple rank) :=
  box (destinationStart destination origin slots) destination.localShape

section Fragments

variable {parentShape origin extent : Tuple rank} {elementBytes : ℤ}
  {sourceSplits destinationSplits : Mapping ℤ} {sourceMap destinationMap : Mapping (Mapping ℤ)}
  {source destination : Partition rank}

theorem fragment_box (sourceCore destinationCore : ℕ) (srcSlots dstSlots : Tuple rank) :
    box (fragment source destination origin elementBytes sourceCore destinationCore srcSlots
        dstSlots).parentOrigin
      (fragment source destination origin elementBytes sourceCore destinationCore srcSlots
        dstSlots).extent =
      sourceSlice source srcSlots ∩ destinationRectangle destination origin dstSlots := by
  unfold sourceSlice destinationRectangle
  rw [box_inter]
  rfl

/-- The source slice meets the rectangle. -/
def Meets (source destination : Partition rank) (origin srcSlots dstSlots : Tuple rank) : Prop :=
  Overlaps (sourceStart source srcSlots) source.localShape
    (destinationStart destination origin dstSlots) destination.localShape

instance (srcSlots dstSlots : Tuple rank) :
    Decidable (Meets source destination origin srcSlots dstSlots) :=
  inferInstanceAs (Decidable (∀ _, _ ∧ _))

/-- The fragments a destination core receives. -/
def pieces (source destination : Partition rank) (origin : Tuple rank) (elementBytes : ℤ)
    (destinationOwner : Tuple rank × ℕ) : List (SubrangeTransferFragment rank) :=
  source.owners.zipIdx.filterMap fun sourceOwner =>
    if Meets source destination origin sourceOwner.1 destinationOwner.1 then
      some (fragment source destination origin elementBytes sourceOwner.2 destinationOwner.2
        sourceOwner.1 destinationOwner.1)
    else none

theorem mem_pieces {destinationOwner : Tuple rank × ℕ} {piece : SubrangeTransferFragment rank} :
    piece ∈ pieces source destination origin elementBytes destinationOwner ↔
      ∃ srcSlots sourceCore, source.owners[sourceCore]? = some srcSlots ∧
        Meets source destination origin srcSlots destinationOwner.1 ∧
        piece = fragment source destination origin elementBytes sourceCore destinationOwner.2
          srcSlots destinationOwner.1 := by
  unfold pieces
  rw [List.mem_filterMap]
  constructor
  · rintro ⟨⟨srcSlots, sourceCore⟩, listed, isPiece⟩
    split at isPiece
    next meets =>
      cases isPiece
      exact ⟨srcSlots, sourceCore, List.mem_zipIdx_iff_getElem?.mp listed, meets, rfl⟩
    next => cases isPiece
  · rintro ⟨srcSlots, sourceCore, located, meets, rfl⟩
    exact ⟨(srcSlots, sourceCore), List.mem_zipIdx_iff_getElem?.mpr located, if_pos meets⟩

variable (validated : Validated parentShape origin extent elementBytes sourceSplits
  destinationSplits sourceMap destinationMap source destination)

include validated

theorem fragment_extent_pos {srcSlots dstSlots : Tuple rank} (sourceCore destinationCore : ℕ)
    (meets : Meets source destination origin srcSlots dstSlots) (axis : Fin rank) :
    0 < (fragment source destination origin elementBytes sourceCore destinationCore srcSlots
      dstSlots).extent axis := by
  have overlap := meets axis
  have sourcePos := validated.sourceParts.localShape_pos validated.shape_pos axis
  have destinationPos := validated.destinationParts.localShape_pos validated.extent_pos axis
  simp only [fragment]
  omega

/-- Along the last axis every slice starts at the start of the parent. -/
theorem starts_last {last : Fin rank} (isLast : last.val + 1 = rank) (atOrigin : origin last = 0)
    {srcSlots dstSlots : Tuple rank} (sourceOwned : srcSlots ∈ source.owners)
    (destinationOwned : dstSlots ∈ destination.owners) :
    sourceStart source srcSlots last = 0 ∧
      destinationStart destination origin dstSlots last = 0 := by
  have sourceSlot := mem_box.mp ((validated.sourceParts.mem_owners _).mp sourceOwned) last
  have destinationSlot :=
    mem_box.mp ((validated.destinationParts.mem_owners _).mp destinationOwned) last
  rw [validated.sourceParts.last last isLast] at sourceSlot
  rw [validated.destinationParts.last last isLast] at destinationSlot
  simp only [Pi.zero_apply, zero_add] at sourceSlot destinationSlot
  have sourceZero : srcSlots last = 0 := by omega
  have destinationZero : dstSlots last = 0 := by omega
  unfold sourceStart destinationStart
  rw [sourceZero, destinationZero, atOrigin, zero_mul, zero_mul, add_zero]
  exact ⟨rfl, rfl⟩

/-- No fragment of two slices that meet is rejected. -/
theorem incomingFrom_eq {dstSlots srcSlots : Tuple rank} (destinationCore sourceCore : ℕ)
    (sourceOwned : srcSlots ∈ source.owners) (destinationOwned : dstSlots ∈ destination.owners) :
    incomingFrom source destination origin elementBytes destinationCore dstSlots
        (srcSlots, sourceCore) =
      .ok (if Meets source destination origin srcSlots dstSlots then
        some (fragment source destination origin elementBytes sourceCore destinationCore srcSlots
          dstSlots) else none) := by
  have overlapIff : (∀ axis, intervalsOverlap (sourceStart source srcSlots axis)
      (sourceStart source srcSlots axis + source.localShape axis)
      (destinationStart destination origin dstSlots axis)
      (destinationStart destination origin dstSlots axis + destination.localShape axis) = true) ↔
        Meets source destination origin srcSlots dstSlots :=
    forall_congr' fun axis => decide_eq_true_iff
  unfold incomingFrom
  simp only [overlapIff]
  by_cases meets : Meets source destination origin srcSlots dstSlots
  · rw [if_neg (not_not.mpr meets), if_pos meets, if_neg]
    have inBoth := @fragment_box _ origin elementBytes source destination sourceCore
      destinationCore srcSlots dstSlots
    have nonempty := fragment_extent_pos validated sourceCore destinationCore meets
    obtain ⟨last, isLast, stick, atOrigin, wholeStick⟩ := validated.last
    obtain ⟨sourceZero, destinationZero⟩ :=
      starts_last validated isLast atOrigin sourceOwned destinationOwned
    have atStart : (fragment source destination origin elementBytes sourceCore destinationCore
        srcSlots dstSlots).parentOrigin last = 0 := by
      simp only [fragment]
      rw [sourceZero, destinationZero, max_self]
    have sourceStick : source.localShape last * elementBytes = 128 := by
      rwa [validated.sourceParts.localShape_last isLast]
    have destinationStick : destination.localShape last * elementBytes = 128 := by
      rwa [validated.destinationParts.localShape_last isLast, wholeStick]
    have sourceFits := not_exceeds validated.elementBytes_pos isLast sourceStick
      (atStart.trans sourceZero.symm) nonempty (inBoth ▸ Finset.inter_subset_left)
    have destinationFits := not_exceeds validated.elementBytes_pos isLast destinationStick
      (atStart.trans destinationZero.symm) nonempty (inBoth ▸ Finset.inter_subset_right)
    rintro (exceeded | exceeded)
    · exact Bool.false_ne_true (sourceFits.symm.trans exceeded)
    · exact Bool.false_ne_true (destinationFits.symm.trans exceeded)
  · rw [if_pos meets, if_neg meets]

theorem rectangle_subset {dstSlots : Tuple rank} (owned : dstSlots ∈ destination.owners) :
    destinationRectangle destination origin dstSlots ⊆ box 0 parentShape := by
  have slot := (validated.destinationParts.mem_owners _).mp owned
  intro point inside
  refine mem_box.mpr fun axis => ?_
  have bounds := mem_box.mp inside axis
  have slotBounds := mem_box.mp slot axis
  have sizePos := validated.destinationParts.localShape_pos validated.extent_pos axis
  have whole := validated.destinationParts.whole axis
  have fits := validated.inside axis
  have start := validated.origin_nonneg axis
  have upper : (dstSlots axis + 1) * destination.localShape axis ≤
      destination.splits axis * destination.localShape axis :=
    mul_le_mul_of_nonneg_right (by simp only [Pi.zero_apply] at slotBounds; omega) (le_of_lt sizePos)
  have lower : 0 ≤ dstSlots axis * destination.localShape axis :=
    mul_nonneg slotBounds.1 (le_of_lt sizePos)
  have expanded : (dstSlots axis + 1) * destination.localShape axis =
      dstSlots axis * destination.localShape axis + destination.localShape axis := by ring
  unfold destinationStart at bounds
  simp only [Pi.zero_apply, zero_add]
  constructor
  · linarith
  · linarith

theorem sourceParts_whole :
    (fun axis => source.splits axis * source.localShape axis) = parentShape :=
  funext validated.sourceParts.whole

/-- The fragments of a destination core fill its rectangle. -/
theorem pieces_volume {destinationOwner : Tuple rank × ℕ}
    (owned : destinationOwner.1 ∈ destination.owners) :
    ((pieces source destination origin elementBytes destinationOwner).map fun piece =>
      ∏ axis, piece.extent axis).sum = ∏ axis, destination.localShape axis := by
  have sourcePos := validated.sourceParts.localShape_pos validated.shape_pos
  have destinationPos := validated.destinationParts.localShape_pos validated.extent_pos
  set rectangle := destinationRectangle destination origin destinationOwner.1 with isRectangle
  have parts : ∀ owners : List (Tuple rank × ℕ),
      ((owners.filterMap fun sourceOwner =>
        if Meets source destination origin sourceOwner.1 destinationOwner.1 then
          some (fragment source destination origin elementBytes sourceOwner.2 destinationOwner.2
            sourceOwner.1 destinationOwner.1)
        else none).map fun piece => ∏ axis, piece.extent axis).sum =
        ((owners.map Prod.fst).map fun slots =>
          ((slotBox source.localShape slots ∩ rectangle).card : ℤ)).sum := by
    intro owners
    induction owners with
    | nil => rfl
    | cons sourceOwner rest inductionHypothesis =>
        rw [List.filterMap_cons, List.map_cons, List.map_cons, List.sum_cons, ← inductionHypothesis]
        have inBoth := @fragment_box _ origin elementBytes source destination sourceOwner.2
          destinationOwner.2 sourceOwner.1 destinationOwner.1
        by_cases meets : Meets source destination origin sourceOwner.1 destinationOwner.1
        · rw [if_pos meets, List.map_cons, List.sum_cons]
          congr 1
          rw [← card_box fun axis => le_of_lt (fragment_extent_pos validated sourceOwner.2
            destinationOwner.2 meets axis), inBoth]
          rfl
        · rw [if_neg meets]
          have apart : slotBox source.localShape sourceOwner.1 ∩ rectangle = ∅ := by
            refine Finset.eq_empty_of_forall_notMem fun point inside => meets ?_
            obtain ⟨inSource, inRectangle⟩ := Finset.mem_inter.mp inside
            exact overlaps_of_mem inSource inRectangle
          rw [apart, Finset.card_empty, Nat.cast_zero, zero_add]
  have inside : rectangle ⊆ box 0 fun axis => source.splits axis * source.localShape axis := by
    rw [sourceParts_whole validated]
    exact rectangle_subset validated owned
  have grid : source.owners.toFinset = box 0 source.splits := by
    ext slots
    rw [List.mem_toFinset, validated.sourceParts.mem_owners]
  calc ((pieces source destination origin elementBytes destinationOwner).map fun piece =>
        ∏ axis, piece.extent axis).sum
      = ((source.owners.zipIdx.map Prod.fst).map fun slots =>
          ((slotBox source.localShape slots ∩ rectangle).card : ℤ)).sum := parts _
    _ = ∑ slots ∈ box 0 source.splits,
          ((slotBox source.localShape slots ∩ rectangle).card : ℤ) := by
        rw [List.zipIdx_map_fst, ← List.sum_toFinset _ validated.source_nodup, grid]
    _ = (rectangle.card : ℤ) := by
        rw [card_eq_sum_slots sourcePos inside, Nat.cast_sum]
    _ = ∏ axis, destination.localShape axis := card_box fun axis => le_of_lt (destinationPos axis)

/-- After validation a destination core is rejected only for its fan-in. -/
theorem incoming_eq {destinationOwner : Tuple rank × ℕ}
    (owned : destinationOwner.1 ∈ destination.owners) :
    incoming source destination origin elementBytes destinationOwner =
      if maxShuffleFanin < (pieces source destination origin elementBytes destinationOwner).length
      then .error .fanIn
      else .ok (pieces source destination origin elementBytes destinationOwner) := by
  have found : source.owners.zipIdx.mapM (incomingFrom source destination origin elementBytes
      destinationOwner.2 destinationOwner.1) = .ok (source.owners.zipIdx.map fun sourceOwner =>
        if Meets source destination origin sourceOwner.1 destinationOwner.1 then
          some (fragment source destination origin elementBytes sourceOwner.2 destinationOwner.2
            sourceOwner.1 destinationOwner.1)
        else none) := by
    apply mapM_eq_map
    intro sourceOwner listed
    exact incomingFrom_eq validated destinationOwner.2 sourceOwner.2
      (List.mem_of_getElem? (List.mem_zipIdx_iff_getElem?.mp listed)) owned
  have volume := pieces_volume validated owned
  have nonempty : pieces source destination origin elementBytes destinationOwner ≠ [] := by
    intro isEmpty
    have positive : 0 < ∏ axis, destination.localShape axis := Finset.prod_pos fun axis _ =>
      validated.destinationParts.localShape_pos validated.extent_pos axis
    rw [← volume, isEmpty] at positive
    exact absurd positive (lt_irrefl _)
  have same : (source.owners.zipIdx.map fun sourceOwner =>
      if Meets source destination origin sourceOwner.1 destinationOwner.1 then
        some (fragment source destination origin elementBytes sourceOwner.2 destinationOwner.2
          sourceOwner.1 destinationOwner.1)
      else none).reduceOption =
        pieces source destination origin elementBytes destinationOwner := by
    unfold List.reduceOption pieces
    rw [List.filterMap_map]
    rfl
  unfold incoming
  rw [found]
  change (if List.reduceOption _ = [] ∨ _ then _ else if _ then _ else _) = _
  rw [same, volume]
  simp only [nonempty, false_or, ne_eq, not_true_eq_false, if_false]

/-- The fragments of a destination core cut its rectangle along disjoint source slices. -/
theorem pieces_cover {destinationOwner : Tuple rank × ℕ}
    (owned : destinationOwner.1 ∈ destination.owners) {point : Tuple rank} :
    point ∈ destinationRectangle destination origin destinationOwner.1 ↔
      ∃ piece ∈ pieces source destination origin elementBytes destinationOwner,
        point ∈ box piece.parentOrigin piece.extent := by
  have sourcePos := validated.sourceParts.localShape_pos validated.shape_pos
  constructor
  · intro inRectangle
    have inParent := rectangle_subset validated owned inRectangle
    rw [← sourceParts_whole validated] at inParent
    have slot := slot_mem_box sourcePos inParent
    obtain ⟨sourceCore, located⟩ := List.mem_iff_getElem?.mp
      ((validated.sourceParts.mem_owners _).mpr slot)
    have inSlice : point ∈ sourceSlice source fun axis => point axis / source.localShape axis :=
      (mem_slotBox sourcePos).mpr rfl
    refine ⟨_, mem_pieces.mpr ⟨_, sourceCore, located, overlaps_of_mem inSlice inRectangle, rfl⟩, ?_⟩
    rw [fragment_box]
    exact Finset.mem_inter.mpr ⟨inSlice, inRectangle⟩
  · rintro ⟨piece, isPiece, inside⟩
    obtain ⟨srcSlots, sourceCore, -, -, rfl⟩ := mem_pieces.mp isPiece
    rw [fragment_box] at inside
    exact (Finset.mem_inter.mp inside).2

theorem pieces_disjoint (destinationOwner : Tuple rank × ℕ) :
    (pieces source destination origin elementBytes destinationOwner).Pairwise fun piece other =>
      Disjoint (box piece.parentOrigin piece.extent) (box other.parentOrigin other.extent) := by
  have sourcePos := validated.sourceParts.localShape_pos validated.shape_pos
  have distinct : source.owners.zipIdx.Pairwise fun owner other => owner.1 ≠ other.1 := by
    rw [← List.pairwise_map, List.zipIdx_map_fst]
    exact validated.source_nodup
  unfold pieces
  refine List.Pairwise.filterMap _ (fun owner other differs piece isPiece otherPiece isOther => ?_)
    distinct
  split at isPiece
  next =>
    split at isOther
    next =>
      cases isPiece
      cases isOther
      rw [fragment_box, fragment_box, Finset.disjoint_left]
      intro point inPiece inOther
      have isSlot := (mem_slotBox sourcePos).mp (Finset.mem_inter.mp inPiece).1
      have isOtherSlot := (mem_slotBox sourcePos).mp (Finset.mem_inter.mp inOther).1
      exact differs (isSlot.trans isOtherSlot.symm)
    next => cases isOther
  next => cases isPiece

end Fragments

end TorchSpyre.Subrange
