import Mathlib
import TorchSpyre.Lib.Dict
import TorchSpyre.Lib.Slice

/-!
# Transfer edges

Two partitions of one coordinate domain are compared slot by slot: a source core has an edge to a
destination core when their slots, as fractions of the axis, overlap on every split axis. Over
concrete extents these are the cores whose slices share an element.
-/

namespace TorchSpyre.Ownership.Transfers

open Lib

variable {Dim : Type} [DecidableEq Dim]

/-- `_overlap` -/
def overlap (a an b bn : ℤ) : Bool := a * bn < (b + 1) * an ∧ b * an < (a + 1) * bn

/-- `slice.get(dim, 0)` -/
def slotOf (slice : Dict Dim ℤ) (dim : Dim) : ℤ := (slice.lookup dim).getD 0

/-- `splits.get(dim, 1)` -/
def splitOf (splits : Dict Dim ℕ) (dim : Dim) : ℕ := (splits.lookup dim).getD 1

def slicesOverlap (sourceSplits destinationSplits : Dict Dim ℕ)
    (sourceSlice destinationSlice : Dict Dim ℤ) : Bool :=
  (sourceSplits.keys ++ destinationSplits.keys).all fun dim =>
    overlap (slotOf sourceSlice dim) (splitOf sourceSplits dim) (slotOf destinationSlice dim)
      (splitOf destinationSplits dim)

def transferEdges (sourceSplits destinationSplits : Dict Dim ℕ)
    (sourceMap destinationMap : Dict ℤ (Dict Dim ℤ)) : Finset (ℤ × ℤ) :=
  (sourceMap.entries.flatMap fun source =>
    (destinationMap.entries.filter fun destination =>
      slicesOverlap sourceSplits destinationSplits source.2 destination.2).map fun destination =>
        (source.1, destination.1)).toFinset

/-! ## Slices of a domain -/

/-- The points of the common coordinate domain. -/
def domain (extents : Dim → ℤ) : Set (Dim → ℤ) := {point | ∀ dim, 0 ≤ point dim ∧ point dim < extents dim}

/-- The points that a core with these slots owns. -/
def ownedSlice (extents : Dim → ℤ) (splits : Dict Dim ℕ) (slots : Dict Dim ℤ) : Set (Dim → ℤ) :=
  {point | ∀ dim, InSlice (extents dim / splitOf splits dim) (slotOf slots dim) (point dim)}

/-- The slots of every core are inside the splits. -/
def SlotsInRange (splits : Dict Dim ℕ) (coreMap : Dict ℤ (Dict Dim ℤ)) : Prop :=
  ∀ entry ∈ coreMap.entries, ∀ dim, 0 ≤ slotOf entry.2 dim ∧ slotOf entry.2 dim < splitOf splits dim

def Divides (splits : Dict Dim ℕ) (extents : Dim → ℤ) : Prop := ∀ dim, (splitOf splits dim : ℤ) ∣ extents dim

instance [Fintype Dim] (splits : Dict Dim ℕ) (coreMap : Dict ℤ (Dict Dim ℤ)) :
    Decidable (SlotsInRange splits coreMap) :=
  inferInstanceAs (Decidable (∀ entry ∈ coreMap.entries, ∀ dim,
    0 ≤ slotOf entry.2 dim ∧ slotOf entry.2 dim < splitOf splits dim))

instance [Fintype Dim] (splits : Dict Dim ℕ) (extents : Dim → ℤ) : Decidable (Divides splits extents) :=
  inferInstanceAs (Decidable (∀ dim, (splitOf splits dim : ℤ) ∣ extents dim))

/-- Every choice of slots inside the splits is the slots of some core. -/
def CoversProduct (splits : Dict Dim ℕ) (coreMap : Dict ℤ (Dict Dim ℤ)) : Prop :=
  ∀ chosen : Dim → ℤ, (∀ dim, 0 ≤ chosen dim ∧ chosen dim < splitOf splits dim) →
    ∃ core slots, coreMap.lookup core = some slots ∧ slotOf slots = chosen

section Slices

variable {sourceSplits destinationSplits : Dict Dim ℕ} {sourceSlice destinationSlice : Dict Dim ℤ}

theorem mem_transferEdges {sourceMap destinationMap : Dict ℤ (Dict Dim ℤ)} {source destination : ℤ} :
    (source, destination) ∈ transferEdges sourceSplits destinationSplits sourceMap destinationMap ↔
      ∃ sourceSlice destinationSlice, sourceMap.lookup source = some sourceSlice ∧
        destinationMap.lookup destination = some destinationSlice ∧
        slicesOverlap sourceSplits destinationSplits sourceSlice destinationSlice = true := by
  simp only [transferEdges, List.mem_toFinset, List.mem_flatMap, List.mem_map, List.mem_filter,
    Dict.lookup_eq_some_iff]
  constructor
  · rintro ⟨⟨core, slots⟩, listed, ⟨other, otherSlots⟩, ⟨otherListed, overlaps⟩, same⟩
    cases same
    exact ⟨slots, otherSlots, listed, otherListed, overlaps⟩
  · rintro ⟨slots, otherSlots, listed, otherListed, overlaps⟩
    exact ⟨(source, slots), listed, (destination, otherSlots), ⟨otherListed, overlaps⟩, rfl⟩

theorem mem_keys_of_lookup {splits : Dict Dim ℕ} {dim : Dim} (split : splitOf splits dim ≠ 1) :
    dim ∈ splits.keys := by
  rw [← Dict.lookup_isSome_iff]
  cases found : splits.lookup dim with
  | none => simp [splitOf, found] at split
  | some count => rfl

/-- The unsplit axes, which the code does not compare, overlap as well. -/
theorem slicesOverlap_iff
    (sourceInRange : ∀ dim, 0 ≤ slotOf sourceSlice dim ∧ slotOf sourceSlice dim < splitOf sourceSplits dim)
    (destinationInRange : ∀ dim, 0 ≤ slotOf destinationSlice dim ∧
      slotOf destinationSlice dim < splitOf destinationSplits dim) :
    slicesOverlap sourceSplits destinationSplits sourceSlice destinationSlice = true ↔
      ∀ dim, slotOf sourceSlice dim * splitOf destinationSplits dim <
          (slotOf destinationSlice dim + 1) * splitOf sourceSplits dim ∧
        slotOf destinationSlice dim * splitOf sourceSplits dim <
          (slotOf sourceSlice dim + 1) * splitOf destinationSplits dim := by
  simp only [slicesOverlap, overlap, List.all_eq_true, decide_eq_true_eq]
  refine ⟨fun overlaps dim => ?_, fun overlaps dim _ => overlaps dim⟩
  by_cases sourceUnsplit : splitOf sourceSplits dim = 1
  · by_cases destinationUnsplit : splitOf destinationSplits dim = 1
    · have sourceSlot := sourceInRange dim
      have destinationSlot := destinationInRange dim
      rw [sourceUnsplit] at sourceSlot ⊢
      rw [destinationUnsplit] at destinationSlot ⊢
      omega
    · exact overlaps dim (List.mem_append_right _ (mem_keys_of_lookup destinationUnsplit))
  · exact overlaps dim (List.mem_append_left _ (mem_keys_of_lookup sourceUnsplit))

variable {extents : Dim → ℤ}

theorem ownedSlice_subset {splits : Dict Dim ℕ} {slots : Dict Dim ℤ} (divides : Divides splits extents)
    (inRange : ∀ dim, 0 ≤ slotOf slots dim ∧ slotOf slots dim < splitOf splits dim) :
    ownedSlice extents splits slots ⊆ domain extents := by
  intro point inside dim
  have onAxis := (inside dim).mem_axis (inRange dim).1 (inRange dim).2
  rwa [Int.mul_ediv_cancel' (divides dim)] at onAxis

/-- Slices share an element exactly when the slots overlap and the domain has an element. -/
theorem exists_shared_iff (sourceDivides : Divides sourceSplits extents)
    (destinationDivides : Divides destinationSplits extents)
    (sourceInRange : ∀ dim, 0 ≤ slotOf sourceSlice dim ∧ slotOf sourceSlice dim < splitOf sourceSplits dim)
    (destinationInRange : ∀ dim, 0 ≤ slotOf destinationSlice dim ∧
      slotOf destinationSlice dim < splitOf destinationSplits dim) :
    (∃ point, point ∈ domain extents ∧ point ∈ ownedSlice extents sourceSplits sourceSlice ∧
        point ∈ ownedSlice extents destinationSplits destinationSlice) ↔
      slicesOverlap sourceSplits destinationSplits sourceSlice destinationSlice = true ∧
        ∀ dim, 0 < extents dim := by
  have fractions : ∀ dim, 0 < extents dim →
      ((∃ value, InSlice (extents dim / (splitOf sourceSplits dim : ℤ)) (slotOf sourceSlice dim) value ∧
          InSlice (extents dim / splitOf destinationSplits dim) (slotOf destinationSlice dim) value) ↔
        slotOf sourceSlice dim * splitOf destinationSplits dim <
            (slotOf destinationSlice dim + 1) * splitOf sourceSplits dim ∧
          slotOf destinationSlice dim * splitOf sourceSplits dim <
            (slotOf sourceSlice dim + 1) * splitOf destinationSplits dim) :=
    fun dim positive => InSlice.exists_shared_iff_fractions positive
      (lt_of_le_of_lt (sourceInRange dim).1 (sourceInRange dim).2)
      (lt_of_le_of_lt (destinationInRange dim).1 (destinationInRange dim).2)
      (sourceDivides dim) (destinationDivides dim)
  rw [slicesOverlap_iff sourceInRange destinationInRange]
  constructor
  · rintro ⟨point, inDomain, inSource, inDestination⟩
    have positive : ∀ dim, 0 < extents dim := fun dim =>
      lt_of_le_of_lt (inDomain dim).1 (inDomain dim).2
    exact ⟨fun dim => (fractions dim (positive dim)).mp ⟨point dim, inSource dim, inDestination dim⟩, positive⟩
  · rintro ⟨overlaps, positive⟩
    choose point shared using fun dim => (fractions dim (positive dim)).mpr (overlaps dim)
    have inSource : point ∈ ownedSlice extents sourceSplits sourceSlice := fun dim => (shared dim).1
    exact ⟨point, ownedSlice_subset sourceDivides sourceInRange inSource, inSource,
      fun dim => (shared dim).2⟩

end Slices

theorem SlotsInRange.of_lookup {splits : Dict Dim ℕ} {coreMap : Dict ℤ (Dict Dim ℤ)}
    (inRange : SlotsInRange splits coreMap) {core : ℤ} {slots : Dict Dim ℤ}
    (found : coreMap.lookup core = some slots) (dim : Dim) :
    0 ≤ slotOf slots dim ∧ slotOf slots dim < splitOf splits dim :=
  inRange (core, slots) (Dict.lookup_eq_some_iff.mp found) dim

section Edges

variable {sourceSplits destinationSplits : Dict Dim ℕ} {sourceMap destinationMap : Dict ℤ (Dict Dim ℤ)}
  {extents : Dim → ℤ} (sourceInRange : SlotsInRange sourceSplits sourceMap)
  (destinationInRange : SlotsInRange destinationSplits destinationMap)
  (sourceDivides : Divides sourceSplits extents) (destinationDivides : Divides destinationSplits extents)

include sourceInRange destinationInRange sourceDivides destinationDivides

theorem shares_iff_edge (source destination : ℤ) :
    (∃ sourceSlice destinationSlice, sourceMap.lookup source = some sourceSlice ∧
      destinationMap.lookup destination = some destinationSlice ∧
      ∃ point, point ∈ domain extents ∧ point ∈ ownedSlice extents sourceSplits sourceSlice ∧
        point ∈ ownedSlice extents destinationSplits destinationSlice) ↔
      (source, destination) ∈ transferEdges sourceSplits destinationSplits sourceMap destinationMap ∧
        ∀ dim, 0 < extents dim := by
  rw [mem_transferEdges]
  constructor
  · rintro ⟨sourceSlice, destinationSlice, isSource, isDestination, shared⟩
    obtain ⟨overlaps, positive⟩ := (exists_shared_iff sourceDivides destinationDivides
      (sourceInRange.of_lookup isSource) (destinationInRange.of_lookup isDestination)).mp shared
    exact ⟨⟨sourceSlice, destinationSlice, isSource, isDestination, overlaps⟩, positive⟩
  · rintro ⟨⟨sourceSlice, destinationSlice, isSource, isDestination, overlaps⟩, positive⟩
    exact ⟨sourceSlice, destinationSlice, isSource, isDestination,
      (exists_shared_iff sourceDivides destinationDivides (sourceInRange.of_lookup isSource)
        (destinationInRange.of_lookup isDestination)).mpr ⟨overlaps, positive⟩⟩

/-- Every point of a destination slice is in the slice of a source with an edge to it. -/
theorem exists_edge_of_mem (covers : CoversProduct sourceSplits sourceMap) {destination : ℤ}
    {destinationSlice : Dict Dim ℤ} (isDestination : destinationMap.lookup destination = some destinationSlice)
    {point : Dim → ℤ} (inside : point ∈ ownedSlice extents destinationSplits destinationSlice) :
    ∃ source sourceSlice, sourceMap.lookup source = some sourceSlice ∧
      (source, destination) ∈ transferEdges sourceSplits destinationSplits sourceMap destinationMap ∧
      point ∈ ownedSlice extents sourceSplits sourceSlice := by
  have inDomain := ownedSlice_subset destinationDivides (destinationInRange.of_lookup isDestination) inside
  have widths : ∀ dim, 0 < extents dim / splitOf sourceSplits dim := fun dim =>
    Int.ediv_pos_of_pos_of_dvd (lt_of_le_of_lt (inDomain dim).1 (inDomain dim).2)
      (Int.natCast_nonneg _) (sourceDivides dim)
  have located : ∀ dim, 0 ≤ point dim / (extents dim / splitOf sourceSplits dim) ∧
      point dim / (extents dim / splitOf sourceSplits dim) < splitOf sourceSplits dim := by
    intro dim
    refine ⟨Int.ediv_nonneg (inDomain dim).1 (widths dim).le, Int.ediv_lt_of_lt_mul (widths dim) ?_⟩
    rw [Int.mul_ediv_cancel' (sourceDivides dim)]
    exact (inDomain dim).2
  obtain ⟨source, sourceSlice, isSource, sameSlots⟩ := covers _ located
  have inSource : point ∈ ownedSlice extents sourceSplits sourceSlice := by
    intro dim
    rw [InSlice.iff_ediv_eq (widths dim), sameSlots]
  refine ⟨source, sourceSlice, isSource, ?_, inSource⟩
  exact ((shares_iff_edge sourceInRange destinationInRange sourceDivides destinationDivides source
    destination).mp ⟨sourceSlice, destinationSlice, isSource, isDestination, point, inDomain, inSource,
      inside⟩).1

/-- Edges join the cores whose slices share an element, as soon as the domain has elements at all;
sources of all slots reach every element of a destination. -/
theorem transferEdges_exact :
    (∀ source destination,
      (∃ sourceSlice destinationSlice, sourceMap.lookup source = some sourceSlice ∧
        destinationMap.lookup destination = some destinationSlice ∧
        ∃ point, point ∈ domain extents ∧ point ∈ ownedSlice extents sourceSplits sourceSlice ∧
          point ∈ ownedSlice extents destinationSplits destinationSlice) ↔
        (source, destination) ∈ transferEdges sourceSplits destinationSplits sourceMap destinationMap ∧
          ∀ dim, 0 < extents dim) ∧
    (CoversProduct sourceSplits sourceMap → ∀ destination destinationSlice,
      destinationMap.lookup destination = some destinationSlice →
      ∀ point ∈ ownedSlice extents destinationSplits destinationSlice,
        ∃ source sourceSlice, sourceMap.lookup source = some sourceSlice ∧
          (source, destination) ∈ transferEdges sourceSplits destinationSplits sourceMap destinationMap ∧
          point ∈ ownedSlice extents sourceSplits sourceSlice) := by
  constructor
  · exact shares_iff_edge sourceInRange destinationInRange sourceDivides destinationDivides
  · intro covers destination destinationSlice isDestination point inside
    exact exists_edge_of_mem sourceInRange destinationInRange sourceDivides destinationDivides covers
      isDestination inside

end Edges

/-- One core for each part of the `true` axis. -/
def halfOwners : Dict ℤ (Dict Bool ℤ) :=
  ⟨[(0, ⟨[(true, 0)], by simp⟩), (1, ⟨[(true, 1)], by simp⟩)], by simp⟩

def thirdOwners : Dict ℤ (Dict Bool ℤ) :=
  ⟨[(0, ⟨[(true, 0)], by simp⟩), (1, ⟨[(true, 1)], by simp⟩), (2, ⟨[(true, 2)], by simp⟩)], by simp⟩

def splitInto (count : ℕ) : Dict Bool ℕ := ⟨[(true, count)], by simp⟩

theorem thirdOwners_cover : CoversProduct (splitInto 3) thirdOwners := by
  intro chosen inside
  have unsplit : chosen false = 0 := by
    have bounds : 0 ≤ chosen false ∧ chosen false < 1 := inside false
    omega
  have parts : chosen true = 0 ∨ chosen true = 1 ∨ chosen true = 2 := by
    have bounds : 0 ≤ chosen true ∧ chosen true < 3 := inside true
    omega
  refine ⟨chosen true, ⟨[(true, chosen true)], by simp⟩, ?_, funext fun dim => ?_⟩
  · rcases parts with part | part | part <;> rw [part] <;> rfl
  · cases dim with
    | false => exact unsplit.symm
    | true => rfl

/-- Element 7 of 12 is in the second half, which a third reaches. -/
theorem transferEdges_exact_thirds :
    ∃ source sourceSlice, thirdOwners.lookup source = some sourceSlice ∧
      (source, 1) ∈ transferEdges (splitInto 3) (splitInto 2) thirdOwners halfOwners ∧
      (fun _ => 7) ∈ ownedSlice (fun _ => 12) (splitInto 3) sourceSlice :=
  (transferEdges_exact (by decide) (by decide) (by decide) (by decide)).2 thirdOwners_cover 1
    ⟨[(true, 1)], by simp⟩ rfl (fun _ => 7) fun dim => by cases dim <;> decide

/-- On an axis without elements equal slots have an edge and share nothing. -/
theorem transferEdges_empty_axis :
    SlotsInRange (splitInto 2) halfOwners ∧ Divides (splitInto 2) (fun _ => 0) ∧
      (0, 0) ∈ transferEdges (splitInto 2) (splitInto 2) halfOwners halfOwners ∧
      ¬ ∃ point : Bool → ℤ, point ∈ domain fun _ => 0 := by
  refine ⟨by decide, by decide, by decide, ?_⟩
  rintro ⟨point, inside⟩
  exact absurd (lt_of_le_of_lt (inside true).1 (inside true).2) (lt_irrefl 0)

end TorchSpyre.Ownership.Transfers
