import TorchSpyre.Subrange.Exact

/-!
# What a certificate says

A certificate is read against the owner maps it was made from: every destination core
receives its rectangle once, from where the source cores hold it to where it is to hold
it itself.
-/

namespace TorchSpyre.Subrange

open Lib

variable {rank : ℕ}

/-! ## Slices of the owner maps -/

/-- The shape of a core's slice. -/
def share (shape : Tuple rank) (splits : Mapping ℤ) : Tuple rank :=
  fun axis => shape axis / splitOf splits axis

/-- Where a core's slice starts in the parent. -/
def sliceStart (origin shape : Tuple rank) (splits : Mapping ℤ) (owners : Mapping (Mapping ℤ))
    (core : ℕ) : Tuple rank :=
  fun axis => origin axis + slotOf owners core axis * share shape splits axis

def slice (origin shape : Tuple rank) (splits : Mapping ℤ) (owners : Mapping (Mapping ℤ))
    (core : ℕ) : Finset (Tuple rank) :=
  box (sliceStart origin shape splits owners core) (share shape splits)

/-- The dense local storage of a slice holds an element of the parent at an address. -/
def HeldAt (elementBytes : ℤ) (start shape : Tuple rank) (address : ℤ) (point : Tuple rank) : Prop :=
  point ∈ box start shape ∧ offset shape (point - start) * elementBytes = address

namespace SubrangeTransferFragment

def region (piece : SubrangeTransferFragment rank) : Finset (Tuple rank) :=
  box piece.parentOrigin piece.extent

/-- The address of an element of the fragment in the storage of its source core. -/
def sourceAddress (piece : SubrangeTransferFragment rank) (point : Tuple rank) : ℤ :=
  piece.sourceOffsetBytes +
    ∑ axis, (point axis - piece.parentOrigin axis) * piece.sourceStridesBytes axis

def destinationAddress (piece : SubrangeTransferFragment rank) (point : Tuple rank) : ℤ :=
  piece.destinationOffsetBytes +
    ∑ axis, (point axis - piece.parentOrigin axis) * piece.destinationStridesBytes axis

end SubrangeTransferFragment

def DenseSubrangeTransfer.received (certificate : DenseSubrangeTransfer rank) (core : ℕ) :
    List (SubrangeTransferFragment rank) :=
  certificate.fragments.filter fun piece => piece.destinationCore = core

section Spec

variable (parentShape origin extent : Tuple rank) (elementBytes : ℤ)
  (sourceSplits destinationSplits : Mapping ℤ) (sourceMap destinationMap : Mapping (Mapping ℤ))

/-- One fragment is inside its two slices and addresses the same elements in both. -/
structure FragmentExact (certificate : DenseSubrangeTransfer rank)
    (piece : SubrangeTransferFragment rank) : Prop where
  destinationCore : piece.destinationCore < destinationMap.entries.length
  sourceCore : piece.sourceCore < sourceMap.entries.length
  inside : piece.region ⊆ slice 0 parentShape sourceSplits sourceMap piece.sourceCore
  source : ∀ point ∈ piece.region, ∀ held,
    HeldAt elementBytes (sliceStart 0 parentShape sourceSplits sourceMap piece.sourceCore)
      (share parentShape sourceSplits) (piece.sourceAddress point) held ↔ held = point
  destination : ∀ point ∈ piece.region, ∀ held,
    HeldAt elementBytes
      (sliceStart origin extent destinationSplits destinationMap piece.destinationCore)
      (share extent destinationSplits) (piece.destinationAddress point) held ↔ held = point
  sourceAligned : 128 ∣ piece.sourceOffsetBytes
  destinationAligned : 128 ∣ piece.destinationOffsetBytes
  sourceReserved : ∀ point ∈ piece.region, 0 ≤ piece.sourceAddress point ∧
    piece.sourceAddress point + elementBytes ≤ certificate.sourceReservationBytes
  destinationReserved : ∀ point ∈ piece.region, 0 ≤ piece.destinationAddress point ∧
    piece.destinationAddress point + elementBytes ≤ certificate.destinationReservationBytes

/-- Every destination core receives its rectangle exactly once. -/
structure Exact (certificate : DenseSubrangeTransfer rank) : Prop where
  fragments : ∀ piece ∈ certificate.fragments, FragmentExact parentShape origin extent elementBytes
    sourceSplits destinationSplits sourceMap destinationMap certificate piece
  disjoint : ∀ core, (certificate.received core).Pairwise fun piece other =>
    Disjoint piece.region other.region
  union : ∀ core < destinationMap.entries.length, ∀ point,
    point ∈ slice origin extent destinationSplits destinationMap core ↔
      ∃ piece ∈ certificate.received core, point ∈ piece.region
  fanIn : ∀ core, (certificate.received core).length ≤ maxShuffleFanin
  sourceReservation : certificate.sourceReservationBytes =
    (∏ axis, share parentShape sourceSplits axis) * elementBytes
  destinationReservation : certificate.destinationReservationBytes =
    (∏ axis, share extent destinationSplits axis) * elementBytes

/-- The source cores that hold something of a destination core's rectangle. -/
def sourcesOf (core : ℕ) : List ℕ :=
  (List.range sourceMap.entries.length).filter fun sourceCore =>
    slice 0 parentShape sourceSplits sourceMap sourceCore ∩
      slice origin extent destinationSplits destinationMap core ≠ ∅

/-- The extents are positive and inside the parent. -/
def StaticExtents : Prop :=
  2 ≤ rank ∧ (elementBytes = 1 ∨ elementBytes = 2 ∨ elementBytes = 4) ∧
    ∀ axis, 0 < parentShape axis ∧ 0 ≤ origin axis ∧ 0 < extent axis ∧
      origin axis + extent axis ≤ parentShape axis

/-- The last axis is one stick, and all of it is taken. -/
def CompleteSticks : Prop :=
  ∀ axis : Fin rank, axis.val + 1 = rank → parentShape axis * elementBytes = 128 ∧
    origin axis = 0 ∧ extent axis = parentShape axis

/-- What a rejection says about the input. -/
inductive Rejected : TransferError → Prop where
  | extents (unmet : ¬ StaticExtents parentShape origin extent elementBytes) : Rejected .extents
  | incompleteSticks (unmet : ¬ CompleteSticks parentShape origin extent elementBytes) :
      Rejected .incompleteSticks
  | source (cause : PartitionError)
      (invalid : denseSubrangePartition parentShape sourceSplits sourceMap false = .error cause) :
      Rejected (.partition cause)
  | destination (cause : PartitionError)
      (invalid : denseSubrangePartition extent destinationSplits destinationMap true = .error cause) :
      Rejected (.partition cause)
  | fanIn (core : ℕ) (owned : core < destinationMap.entries.length)
      (many : maxShuffleFanin < (sourcesOf parentShape origin extent sourceSplits destinationSplits
        sourceMap destinationMap core).length) :
      Rejected .fanIn

/-- What is known of a transfer, whether it is certified or rejected. -/
def Outcome : Except TransferError (DenseSubrangeTransfer rank) → Prop
  | .ok certificate => Exact parentShape origin extent elementBytes sourceSplits destinationSplits
      sourceMap destinationMap certificate
  | .error error => Rejected parentShape origin extent elementBytes sourceSplits destinationSplits
      sourceMap destinationMap error

end Spec

/-! ## Fragments of the whole transfer -/

/-- The results labelled with an index are those of the item at that index. -/
theorem filter_flatMap_zipIdx {α β : Type*} {parts : α × ℕ → List β} {label : β → ℕ}
    (labelled : ∀ item, ∀ part ∈ parts item, label part = item.2) (items : List α)
    (first core : ℕ) :
    ((items.zipIdx first).flatMap parts).filter (fun part => label part = core) =
      if first ≤ core then (items[core - first]?.map fun item => parts (item, core)).getD []
      else [] := by
  induction items generalizing first with
  | nil => simp
  | cons item items inductionHypothesis =>
      rw [List.zipIdx_cons, List.flatMap_cons, List.filter_append, inductionHypothesis]
      by_cases here : first = core
      · subst here
        have all : (parts (item, first)).filter (fun part => label part = first) =
            parts (item, first) :=
          List.filter_eq_self.mpr fun part member => decide_eq_true (labelled _ part member)
        rw [all, if_neg (by omega), if_pos le_rfl, Nat.sub_self]
        simp
      · have none : (parts (item, first)).filter (fun part => label part = core) = [] := by
          rw [List.filter_eq_nil_iff]
          intro part member isCore
          rw [decide_eq_true_iff] at isCore
          exact here ((labelled _ part member).symm.trans isCore)
        rw [none, List.nil_append]
        by_cases later : first + 1 ≤ core
        · rw [if_pos later, if_pos (by omega)]
          obtain ⟨distance, gap⟩ : ∃ distance, core - first = distance + 1 := ⟨core - first - 1, by omega⟩
          rw [gap, List.getElem?_cons_succ, show core - (first + 1) = distance by omega]
        · rw [if_neg later, if_neg (by omega)]

/-- An address inside a dense slice holds one element. -/
theorem heldAt_iff {elementBytes : ℤ} (positive : 0 < elementBytes) {start shape point : Tuple rank}
    (inside : point ∈ box start shape) (held : Tuple rank) :
    HeldAt elementBytes start shape (localOffset elementBytes shape point start) held ↔
      held = point := by
  rw [localOffset_eq]
  constructor
  · rintro ⟨heldInside, same⟩
    have sameOffset := mul_right_cancel₀ (ne_of_gt positive) same
    exact sub_left_injective (offset_injective (sub_mem_box heldInside) (sub_mem_box inside) sameOffset)
  · rintro rfl
    exact ⟨inside, rfl⟩

section Transfer

variable {parentShape origin extent : Tuple rank} {elementBytes : ℤ}
  {sourceSplits destinationSplits : Mapping ℤ} {sourceMap destinationMap : Mapping (Mapping ℤ)}
  {source destination : Partition rank}

theorem pieces_destinationCore {destinationOwner : Tuple rank × ℕ} :
    ∀ piece ∈ pieces source destination origin elementBytes destinationOwner,
      piece.destinationCore = destinationOwner.2 := by
  intro piece isPiece
  obtain ⟨srcSlots, sourceCore, -, -, rfl⟩ := mem_pieces.mp isPiece
  rfl

theorem Partitions.getElem?_owners {shape : Tuple rank} {splits : Mapping ℤ}
    {owners : Mapping (Mapping ℤ)} {partition : Partition rank}
    (partitions : Partitions shape splits owners partition) {core : ℕ} {slots : Tuple rank} :
    partition.owners[core]? = some slots ↔
      core < owners.entries.length ∧ slots = slotOf owners core := by
  rw [partitions.owners_eq, List.getElem?_map]
  by_cases inRange : core < owners.entries.length
  · rw [List.getElem?_range inRange]
    simp [inRange, eq_comm]
  · rw [List.getElem?_eq_none (by simpa using inRange)]
    simp [inRange]

variable (validated : Validated parentShape origin extent elementBytes sourceSplits
  destinationSplits sourceMap destinationMap source destination)

include validated

theorem sourceStart_eq (core : ℕ) :
    sourceStart source (slotOf sourceMap core) =
      sliceStart 0 parentShape sourceSplits sourceMap core := by
  unfold sourceStart sliceStart share
  rw [validated.sourceParts.localShape_eq]
  funext axis
  rw [Pi.zero_apply, zero_add]

theorem destinationStart_eq (core : ℕ) :
    destinationStart destination origin (slotOf destinationMap core) =
      sliceStart origin extent destinationSplits destinationMap core := by
  unfold destinationStart sliceStart share
  rw [validated.destinationParts.localShape_eq]

theorem sourceSlice_eq (core : ℕ) :
    sourceSlice source (slotOf sourceMap core) =
      slice 0 parentShape sourceSplits sourceMap core := by
  unfold sourceSlice slice
  rw [sourceStart_eq validated, validated.sourceParts.localShape_eq]
  rfl

theorem destinationRectangle_eq (core : ℕ) :
    destinationRectangle destination origin (slotOf destinationMap core) =
      slice origin extent destinationSplits destinationMap core := by
  unfold destinationRectangle slice
  rw [destinationStart_eq validated, validated.destinationParts.localShape_eq]
  rfl

/-- A fragment of the transfer is exact. -/
theorem fragment_exact {certificate : DenseSubrangeTransfer rank}
    (sourceSpan : certificate.sourceReservationBytes = byteSpan elementBytes source.localShape)
    (destinationSpan : certificate.destinationReservationBytes =
      byteSpan elementBytes destination.localShape) {sourceCore destinationCore : ℕ}
    (sourceOwned : sourceCore < sourceMap.entries.length)
    (destinationOwned : destinationCore < destinationMap.entries.length) :
    FragmentExact parentShape origin extent elementBytes sourceSplits destinationSplits sourceMap
      destinationMap certificate (fragment source destination origin elementBytes sourceCore
        destinationCore (slotOf sourceMap sourceCore) (slotOf destinationMap destinationCore)) := by
  have inBoth := @fragment_box _ origin elementBytes source destination sourceCore destinationCore
    (slotOf sourceMap sourceCore) (slotOf destinationMap destinationCore)
  set piece := fragment source destination origin elementBytes sourceCore destinationCore
    (slotOf sourceMap sourceCore) (slotOf destinationMap destinationCore) with isPiece
  have inSource : piece.region ⊆ sourceSlice source (slotOf sourceMap sourceCore) :=
    inBoth.subset.trans Finset.inter_subset_left
  have inDestination : piece.region ⊆
      destinationRectangle destination origin (slotOf destinationMap destinationCore) :=
    inBoth.subset.trans Finset.inter_subset_right
  have sourceAddress : ∀ point, piece.sourceAddress point = localOffset elementBytes
      source.localShape point (sourceStart source (slotOf sourceMap sourceCore)) :=
    fun point => localOffset_add point
  have destinationAddress : ∀ point, piece.destinationAddress point = localOffset elementBytes
      destination.localShape point
        (destinationStart destination origin (slotOf destinationMap destinationCore)) :=
    fun point => localOffset_add point
  obtain ⟨last, isLast, stick, atOrigin, wholeStick⟩ := validated.last
  obtain ⟨sourceZero, destinationZero⟩ := starts_last validated isLast atOrigin
    (validated.sourceParts.owner_mem_iff.mpr ⟨sourceCore, sourceOwned, rfl⟩)
    (validated.destinationParts.owner_mem_iff.mpr ⟨destinationCore, destinationOwned, rfl⟩)
  have atStart : piece.parentOrigin last = 0 := by
    simp only [isPiece, fragment]
    rw [sourceZero, destinationZero, max_self]
  have positive := validated.elementBytes_pos
  have sourceShare : source.localShape = share parentShape sourceSplits :=
    validated.sourceParts.localShape_eq
  have destinationShare : destination.localShape = share extent destinationSplits :=
    validated.destinationParts.localShape_eq
  refine ⟨destinationOwned, sourceOwned, ?_, ?_, ?_, ?_, ?_, ?_, ?_⟩
  · rw [← sourceSlice_eq validated]
    exact inSource
  · intro point inside held
    rw [sourceAddress]
    change HeldAt _ (sliceStart 0 parentShape sourceSplits sourceMap sourceCore) _ _ _ ↔ _
    rw [← sourceStart_eq validated, ← sourceShare]
    exact heldAt_iff positive (inSource inside) held
  · intro point inside held
    rw [destinationAddress]
    change HeldAt _ (sliceStart origin extent destinationSplits destinationMap destinationCore) _ _ _ ↔ _
    rw [← destinationStart_eq validated, ← destinationShare]
    exact heldAt_iff positive (inDestination inside) held
  · exact dvd_localOffset isLast
      (by rwa [validated.sourceParts.localShape_last isLast]) (atStart.trans sourceZero.symm)
  · exact dvd_localOffset isLast
      (by rwa [validated.destinationParts.localShape_last isLast, wholeStick])
      (atStart.trans destinationZero.symm)
  · intro point inside
    rw [sourceAddress, sourceSpan]
    exact localOffset_bounds positive (inSource inside)
  · intro point inside
    rw [destinationAddress, destinationSpan]
    exact localOffset_bounds positive (inDestination inside)

/-- The certificate made of the fragments of all destination cores. -/
def certificateOf (parentShape origin extent : Tuple rank) (elementBytes : ℤ)
    (source destination : Partition rank) : DenseSubrangeTransfer rank :=
  { parentShape, origin, extent, elementBytes, source, destination
    sourceReservationBytes := byteSpan elementBytes source.localShape
    destinationReservationBytes := byteSpan elementBytes destination.localShape
    fragments := destination.owners.zipIdx.flatMap (pieces source destination origin elementBytes) }

omit validated in
theorem received_eq (core : ℕ) :
    (certificateOf parentShape origin extent elementBytes source destination).received core =
      (destination.owners[core]?.map fun slots =>
        pieces source destination origin elementBytes (slots, core)).getD [] := by
  have labelled := @filter_flatMap_zipIdx _ _ (pieces source destination origin elementBytes)
    SubrangeTransferFragment.destinationCore (fun _ => pieces_destinationCore) destination.owners 0
    core
  rw [if_pos (Nat.zero_le core), Nat.sub_zero] at labelled
  exact labelled

theorem certificateOf_exact
    (few : ∀ owner ∈ destination.owners.zipIdx,
      (pieces source destination origin elementBytes owner).length ≤ maxShuffleFanin) :
    Exact parentShape origin extent elementBytes sourceSplits destinationSplits sourceMap
      destinationMap (certificateOf parentShape origin extent elementBytes source destination) := by
  refine ⟨?_, ?_, ?_, ?_, ?_, ?_⟩
  · intro piece listed
    obtain ⟨⟨dstSlots, destinationCore⟩, owner, isPiece⟩ := List.mem_flatMap.mp listed
    obtain ⟨srcSlots, sourceCore, sourceLocated, -, rfl⟩ := mem_pieces.mp isPiece
    have destinationLocated : destination.owners[destinationCore]? = some dstSlots :=
      List.mem_zipIdx_iff_getElem?.mp owner
    obtain ⟨destinationOwned, rfl⟩ :=
      validated.destinationParts.getElem?_owners.mp destinationLocated
    obtain ⟨sourceOwned, rfl⟩ := validated.sourceParts.getElem?_owners.mp sourceLocated
    exact fragment_exact validated rfl rfl sourceOwned destinationOwned
  · intro core
    rw [received_eq]
    cases destination.owners[core]? with
    | none => exact List.Pairwise.nil
    | some slots => exact pieces_disjoint validated (slots, core)
  · intro core owned point
    have here : destination.owners[core]? = some (slotOf destinationMap core) :=
      validated.destinationParts.getElem?_owners.mpr ⟨owned, rfl⟩
    rw [received_eq, here, ← destinationRectangle_eq validated]
    have member : (slotOf destinationMap core, core).1 ∈ destination.owners :=
      List.mem_of_getElem? here
    exact pieces_cover validated member
  · intro core
    rw [received_eq]
    cases here : destination.owners[core]? with
    | none => exact Nat.zero_le _
    | some slots => exact few _ (List.mem_zipIdx_iff_getElem?.mpr here)
  · unfold certificateOf byteSpan share
    rw [validated.sourceParts.localShape_eq]
  · unfold certificateOf byteSpan share
    rw [validated.destinationParts.localShape_eq]

/-- The fragments of a destination core come from the source cores that hold something of
its rectangle. -/
theorem pieces_length (core : ℕ) :
    (pieces source destination origin elementBytes (slotOf destinationMap core, core)).length =
      (sourcesOf parentShape origin extent sourceSplits destinationSplits sourceMap destinationMap
        core).length := by
  have indexed : source.owners.zipIdx =
      (List.range sourceMap.entries.length).map fun core => (slotOf sourceMap core, core) := by
    rw [validated.sourceParts.owners_eq]
    apply List.ext_getElem?
    intro index
    by_cases inRange : index < sourceMap.entries.length
    · simp [List.getElem?_zipIdx, List.getElem?_range inRange]
    · simp [Nat.le_of_not_lt inRange]
  unfold pieces sourcesOf
  rw [indexed, List.filterMap_map, List.length_filterMap_eq_countP, List.countP_eq_length_filter]
  congr 2
  funext sourceCore
  have inBoth := @fragment_box _ origin elementBytes source destination sourceCore core
    (slotOf sourceMap sourceCore) (slotOf destinationMap core)
  rw [sourceSlice_eq validated, destinationRectangle_eq validated] at inBoth
  rw [← inBoth]
  by_cases meets : Meets source destination origin (slotOf sourceMap sourceCore)
      (slotOf destinationMap core)
  · have wide := fragment_extent_pos validated sourceCore core meets
    have nonempty := Finset.ne_empty_of_mem (@corner_mem_box _ (fragment source destination origin
      elementBytes sourceCore core (slotOf sourceMap sourceCore)
      (slotOf destinationMap core)).parentOrigin _ wide)
    simp [meets, nonempty]
  · have empty : slice 0 parentShape sourceSplits sourceMap sourceCore ∩
        slice origin extent destinationSplits destinationMap core = ∅ := by
      refine Finset.eq_empty_of_forall_notMem fun point inside => meets ?_
      rw [← sourceSlice_eq validated, ← destinationRectangle_eq validated] at inside
      exact overlaps_of_mem (Finset.mem_inter.mp inside).1 (Finset.mem_inter.mp inside).2
    rw [inBoth, empty]
    simp [meets]

/-- After validation the transfer is certified, or a destination core has too many sources. -/
theorem fragments_outcome :
    Outcome parentShape origin extent elementBytes sourceSplits destinationSplits sourceMap
      destinationMap ((destination.owners.zipIdx.mapM
        (incoming source destination origin elementBytes)).map fun fragments =>
          { certificateOf parentShape origin extent elementBytes source destination with
            fragments := fragments.flatten }) := by
  have each : ∀ owner ∈ destination.owners.zipIdx,
      owner.2 < destinationMap.entries.length ∧ owner = (slotOf destinationMap owner.2, owner.2) ∧
        owner.1 ∈ destination.owners := by
    intro owner listed
    have located := List.mem_zipIdx_iff_getElem?.mp listed
    obtain ⟨owned, slots⟩ := validated.destinationParts.getElem?_owners.mp located
    exact ⟨owned, Prod.ext slots rfl, List.mem_of_getElem? located⟩
  cases found : destination.owners.zipIdx.mapM (incoming source destination origin elementBytes) with
  | error error =>
      obtain ⟨owner, listed, rejected⟩ := exists_of_mapM_error found
      obtain ⟨owned, isOwner, member⟩ := each owner listed
      rw [incoming_eq validated member] at rejected
      split at rejected
      next many =>
        cases rejected
        rw [isOwner, pieces_length validated] at many
        exact Rejected.fanIn owner.2 owned many
      next => cases rejected
  | ok fragments =>
      have few : ∀ owner ∈ destination.owners.zipIdx,
          (pieces source destination origin elementBytes owner).length ≤ maxShuffleFanin := by
        intro owner listed
        obtain ⟨-, -, member⟩ := each owner listed
        obtain ⟨result, -, accepted⟩ := exists_right_of_forall₂ (forall₂_of_mapM found) listed
        rw [incoming_eq validated member] at accepted
        obtain ⟨few, -⟩ := of_guard accepted
        exact Nat.le_of_not_lt few
      have all : destination.owners.zipIdx.mapM (incoming source destination origin elementBytes) =
          .ok (destination.owners.zipIdx.map
            (pieces source destination origin elementBytes)) := by
        apply mapM_eq_map
        intro owner listed
        obtain ⟨-, -, member⟩ := each owner listed
        rw [incoming_eq validated member, if_neg (Nat.not_lt.mpr (few owner listed))]
      have sameFragments : fragments.flatten =
          destination.owners.zipIdx.flatMap (pieces source destination origin elementBytes) := by
        rw [found] at all
        cases all
        rw [List.flatMap_def]
      change Exact _ _ _ _ _ _ _ _ { certificateOf parentShape origin extent elementBytes source
        destination with fragments := fragments.flatten }
      rw [sameFragments]
      exact certificateOf_exact validated few

end Transfer

/-! ## Every outcome -/

section Outcome

variable (parentShape origin extent : Tuple rank) (elementBytes : ℤ)
  (sourceSplits destinationSplits : Mapping ℤ) (sourceMap destinationMap : Mapping (Mapping ℤ))

theorem validated_of_checks {source destination : Partition rank}
    (static : StaticExtents parentShape origin extent elementBytes)
    (sticks : CompleteSticks parentShape origin extent elementBytes)
    (sourceValid : denseSubrangePartition parentShape sourceSplits sourceMap false = .ok source)
    (destinationValid :
      denseSubrangePartition extent destinationSplits destinationMap true = .ok destination) :
    Validated parentShape origin extent elementBytes sourceSplits destinationSplits sourceMap
      destinationMap source destination := by
  obtain ⟨ranks, bytes, bounds⟩ := static
  obtain ⟨sourceParts, unique⟩ := denseSubrangePartition_ok sourceValid
  obtain ⟨destinationParts, -⟩ := denseSubrangePartition_ok destinationValid
  have isLast : (⟨rank - 1, by omega⟩ : Fin rank).val + 1 = rank := by
    simp only
    omega
  exact {
    last := ⟨⟨rank - 1, by omega⟩, isLast, sticks _ isLast⟩
    elementBytes_pos := by omega
    shape_pos := fun axis => (bounds axis).1
    origin_nonneg := fun axis => (bounds axis).2.1
    extent_pos := fun axis => (bounds axis).2.2.1
    inside := fun axis => (bounds axis).2.2.2
    sourceParts
    source_nodup := unique rfl
    destinationParts }

theorem certifyTuples_outcome :
    Outcome parentShape origin extent elementBytes sourceSplits destinationSplits sourceMap
      destinationMap (certifyTuples origin elementBytes parentShape extent sourceSplits
        destinationSplits sourceMap destinationMap) := by
  unfold certifyTuples
  split
  next unmet =>
    refine Rejected.extents fun ⟨ranks, bytes, bounds⟩ => ?_
    rcases unmet with few | other | ⟨axis, outside⟩
    · omega
    · omega
    · have bound := bounds axis
      omega
  next static =>
  split
  next unmet =>
    obtain ⟨axis, isLast, incomplete⟩ := unmet
    refine Rejected.incompleteSticks fun sticks => ?_
    have whole := sticks axis isLast
    omega
  next sticks =>
  have isStatic : StaticExtents parentShape origin extent elementBytes := by
    simp only [not_or, not_exists, not_and, not_not, not_le, not_lt] at static
    refine ⟨static.1, by omega, fun axis => ?_⟩
    have bounds := static.2.2 axis
    exact bounds
  have isSticks : CompleteSticks parentShape origin extent elementBytes := by
    intro axis isLast
    simp only [not_exists, not_and, not_or, not_not] at sticks
    exact sticks axis isLast
  cases sourceValid : denseSubrangePartition parentShape sourceSplits sourceMap false with
  | error cause => exact Rejected.source cause sourceValid
  | ok source =>
  cases destinationValid : denseSubrangePartition extent destinationSplits destinationMap true with
  | error cause => exact Rejected.destination cause destinationValid
  | ok destination =>
  have validated := validated_of_checks _ _ _ _ _ _ _ _ isStatic isSticks sourceValid
    destinationValid
  exact fragments_outcome validated

end Outcome

theorem exact_of_certified {parentShape origin extent : List ℤ}
    {sourceSplits destinationSplits : Mapping ℤ} {sourceMap destinationMap : Mapping (Mapping ℤ)}
    {elementBytes : ℤ} {certificate : DenseSubrangeTransfer parentShape.length}
    (certified : certifyDenseSubrangeTransfer parentShape origin extent sourceSplits
      destinationSplits sourceMap destinationMap elementBytes = .ok certificate) :
    Exact (tupleOf _ parentShape) (tupleOf _ origin) (tupleOf _ extent) elementBytes sourceSplits
      destinationSplits sourceMap destinationMap certificate := by
  obtain ⟨-, certified⟩ := of_guard certified
  have outcome := certifyTuples_outcome (tupleOf parentShape.length parentShape)
    (tupleOf _ origin) (tupleOf _ extent) elementBytes sourceSplits destinationSplits sourceMap
    destinationMap
  rw [certified] at outcome
  exact outcome

/-- A certificate hands every destination core its rectangle once and exactly.  A rejected
transfer is outside the parent, has incomplete sticks or an invalid partition, or some
destination core would receive from more than eight sources. -/
theorem certifyDenseSubrangeTransfer_exact (parentShape origin extent : List ℤ)
    (sourceSplits destinationSplits : Mapping ℤ) (sourceMap destinationMap : Mapping (Mapping ℤ))
    (elementBytes : ℤ) :
    match certifyDenseSubrangeTransfer parentShape origin extent sourceSplits destinationSplits
      sourceMap destinationMap elementBytes with
    | .ok certificate =>
        Exact (tupleOf _ parentShape) (tupleOf _ origin) (tupleOf _ extent) elementBytes
          sourceSplits destinationSplits sourceMap destinationMap certificate
    | .error error =>
        (error = .extents ∧
          (origin.length ≠ parentShape.length ∨ extent.length ≠ parentShape.length)) ∨
        Rejected (tupleOf parentShape.length parentShape) (tupleOf _ origin) (tupleOf _ extent)
          elementBytes sourceSplits destinationSplits sourceMap destinationMap error := by
  unfold certifyDenseSubrangeTransfer
  by_cases lengths : origin.length ≠ parentShape.length ∨ extent.length ≠ parentShape.length
  · rw [if_pos lengths]
    exact .inl ⟨rfl, lengths⟩
  · rw [if_neg lengths]
    have outcome := certifyTuples_outcome (tupleOf parentShape.length parentShape)
      (tupleOf _ origin) (tupleOf _ extent) elementBytes sourceSplits destinationSplits sourceMap
      destinationMap
    revert outcome
    cases certifyTuples (tupleOf parentShape.length origin) elementBytes (tupleOf _ parentShape)
      (tupleOf _ extent) sourceSplits destinationSplits sourceMap destinationMap with
    | ok certificate => exact id
    | error error => exact .inr

def middleRows : Except TransferError (DenseSubrangeTransfer 2) :=
  certifyDenseSubrangeTransfer [4, 32] [1, 0] [2, 32]
    (AList.insert 0 2 ∅) ∅
    (AList.insert 0 (AList.insert 0 0 ∅) (AList.insert 1 (AList.insert 0 1 ∅) ∅))
    (AList.insert 0 ∅ ∅) 4

/-- The two middle rows of a parent that two cores hold come in two fragments. -/
theorem middleRows_exact : ∃ certificate, middleRows = .ok certificate ∧
    certificate.fragments.length = 2 ∧
    Exact (tupleOf 2 [4, 32]) (tupleOf 2 [1, 0]) (tupleOf 2 [2, 32]) 4
      (AList.insert 0 2 ∅) ∅
      (AList.insert 0 (AList.insert 0 0 ∅) (AList.insert 1 (AList.insert 0 1 ∅) ∅))
      (AList.insert 0 ∅ ∅) certificate := by
  have two : (middleRows.map fun certificate => certificate.fragments.length).toOption = some 2 := by
    decide +kernel
  have outcome := certifyDenseSubrangeTransfer_exact [4, 32] [1, 0] [2, 32]
    (AList.insert 0 2 ∅) ∅
    (AList.insert 0 (AList.insert 0 0 ∅) (AList.insert 1 (AList.insert 0 1 ∅) ∅))
    (AList.insert 0 ∅ ∅) 4
  unfold middleRows at two ⊢
  split at outcome
  next certificate certified =>
    rw [certified] at two
    exact ⟨certificate, certified, Option.some.inj two, outcome⟩
  next error rejected =>
    rw [rejected] at two
    cases two

end TorchSpyre.Subrange
