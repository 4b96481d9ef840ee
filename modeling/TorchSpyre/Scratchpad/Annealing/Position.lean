import TorchSpyre.Scratchpad.Annealing.SwapStep
import TorchSpyre.Scratchpad.PermLayout.Safety

/-!
# Positions and addresses

A buffer that is moved to a later position rests on more buffers.  Its address does not decrease by
that, whichever slots of in-place partners become available, and an evicted buffer stays evicted.
-/

namespace TorchSpyre.Scratchpad.PermLayout

open Lib

namespace Config

variable {config : Config}

/-! ## More candidates -/

section Candidates

/-- The candidates of a decision in a layout. -/
structure Seated (config : Config) (layout : Layout) (candidates : List ℕ) : Prop where
  allocated : ∀ candidate ∈ candidates, layout.allocated candidate = true
  nonneg : ∀ candidate ∈ candidates, 0 ≤ layout.addr candidate
  aligned : ∀ candidate ∈ candidates, config.static.alignment ∣ layout.addr candidate
  sizes : ∀ candidate ∈ candidates, 0 ≤ config.sizes candidate

/-- The address that a decision tests against the capacity. -/
def Tentative (config : Config) (layout : Layout) (partners : List ℕ) (buffer : ℕ)
    (candidates : List ℕ) (address : ℤ) : Prop :=
  (candidates = [] ∧ address = 0) ∨
  (∃ partner ∈ partners, config.slotFits layout buffer candidates partner = true ∧
    address = layout.addr partner) ∨
  (candidates ≠ [] ∧
    (∀ partner ∈ partners, config.slotFits layout buffer candidates partner = false) ∧
    address = alignUp config.static.alignment
      ((candidates.map (config.top layout)).foldl max (-int64Max - 1)))

variable {layout other : Layout} {partners candidates others : List ℕ} {buffer : ℕ}

theorem placeDecision_eq_of_tentative (allocated : ∀ candidate ∈ candidates,
    layout.allocated candidate = true) :
    ∃ address, config.Tentative layout partners buffer candidates address ∧
      config.placeDecision layout partners buffer candidates =
        if address + config.sizes buffer > config.static.capacity then none else some address := by
  have noneUnallocated : ¬(candidates.any fun candidate => !layout.allocated candidate) = true := by
    rw [List.any_eq_true]
    rintro ⟨candidate, inside, missing⟩
    rw [allocated candidate inside] at missing
    cases missing
  unfold placeDecision
  by_cases empty : candidates = []
  · refine ⟨0, .inl ⟨empty, rfl⟩, ?_⟩
    simp only [empty, if_true, zero_add]
  · rw [if_neg empty, if_neg noneUnallocated]
    cases found : partners.find? (config.slotFits layout buffer candidates) with
    | some partner =>
        exact ⟨layout.addr partner, .inr (.inl ⟨partner, List.mem_of_find?_eq_some found,
          List.find?_some found, rfl⟩), rfl⟩
    | none =>
        have noneFits : ∀ partner ∈ partners,
            config.slotFits layout buffer candidates partner = false := by
          intro partner isPartner
          exact Bool.eq_false_iff.mpr (List.find?_eq_none.mp found partner isPartner)
        exact ⟨_, .inr (.inr ⟨empty, noneFits, rfl⟩), rfl⟩

variable (positive : 0 < config.static.alignment)

theorem Seated.top_nonneg (seated : config.Seated layout candidates) {candidate : ℕ}
    (inside : candidate ∈ candidates) : 0 ≤ config.top layout candidate :=
  add_nonneg (seated.nonneg candidate inside) (seated.sizes candidate inside)

include positive in
theorem Seated.alignUp_eq (seated : config.Seated layout candidates) (nonempty : candidates ≠ []) :
    alignUp config.static.alignment
        ((candidates.map (config.top layout)).foldl max (-int64Max - 1)) =
      roundUp config.static.alignment
        ((candidates.map (config.top layout)).foldl max (-int64Max - 1)) := by
  obtain ⟨candidate, inside⟩ := List.exists_mem_of_ne_nil _ nonempty
  apply alignUp_eq_roundUp positive
  exact (seated.top_nonneg inside).trans (le_foldl_max _ (List.mem_map_of_mem inside))

include positive in
/-- A tentative address is not below the candidates, the partner of the slot apart. -/
theorem Tentative.above (seated : config.Seated layout candidates) {address : ℤ}
    (tentative : config.Tentative layout partners buffer candidates address) :
    0 ≤ address ∧ config.static.alignment ∣ address ∧
      ∀ candidate ∈ candidates, layout.addr candidate ≤ address := by
  rcases tentative with ⟨empty, rfl⟩ | ⟨partner, -, fits, rfl⟩ | ⟨nonempty, -, rfl⟩
  · refine ⟨le_rfl, dvd_zero _, ?_⟩
    rw [empty]
    exact List.forall_mem_nil _
  · obtain ⟨inside, -, below⟩ := config.slotFits_iff.mp fits
    refine ⟨seated.nonneg partner inside, seated.aligned partner inside, ?_⟩
    intro candidate isCandidate
    by_cases same : candidate = partner
    · rw [same]
    · have topBelow := (config.top_le_othersTop layout isCandidate same).trans below
      have size := seated.sizes candidate isCandidate
      unfold top at topBelow
      omega
  · rw [seated.alignUp_eq positive nonempty]
    refine ⟨?_, dvd_roundUp _ _, ?_⟩
    · obtain ⟨candidate, inside⟩ := List.exists_mem_of_ne_nil _ nonempty
      apply roundUp_nonneg positive
      exact (seated.top_nonneg inside).trans (le_foldl_max _ (List.mem_map_of_mem inside))
    · intro candidate inside
      have topBelow : layout.addr candidate + config.sizes candidate ≤
          (candidates.map (config.top layout)).foldl max (-int64Max - 1) :=
        le_foldl_max (-int64Max - 1) (List.mem_map_of_mem (f := config.top layout) inside)
      have size := seated.sizes candidate inside
      exact (by omega : layout.addr candidate ≤ _).trans (le_roundUp positive _)

variable (subset : candidates ⊆ others)
  (agree : ∀ candidate ∈ candidates, layout.addr candidate = other.addr candidate)

include subset agree in
/-- A slot that fits among more candidates fits among fewer of them. -/
theorem slotFits_of_subset {partner : ℕ} (inside : partner ∈ candidates)
    (fits : config.slotFits other buffer others partner = true) :
    config.slotFits layout buffer candidates partner = true := by
  obtain ⟨-, childFits, below⟩ := config.slotFits_iff.mp fits
  refine config.slotFits_iff.mpr ⟨inside, childFits, ?_⟩
  rw [othersTop, foldl_max_le_iff] at below ⊢
  rw [agree partner inside]
  refine ⟨below.1, ?_⟩
  intro value isTop
  obtain ⟨candidate, kept, rfl⟩ := List.mem_map.mp isTop
  obtain ⟨isCandidate, different⟩ := List.mem_filter.mp kept
  rw [top, agree candidate isCandidate]
  exact below.2 _ (List.mem_map_of_mem (f := config.top other)
    (List.mem_filter.mpr ⟨subset isCandidate, different⟩))

include positive subset agree in
/-- More candidates do not lower the tentative address. -/
theorem Tentative.mono (seated : config.Seated layout candidates)
    (otherSeated : config.Seated other others) {address otherAddress : ℤ}
    (tentative : config.Tentative layout partners buffer candidates address)
    (otherTentative : config.Tentative other partners buffer others otherAddress) :
    address ≤ otherAddress := by
  obtain ⟨nonneg, divides, above⟩ := otherTentative.above positive otherSeated
  rcases tentative with ⟨-, rfl⟩ | ⟨partner, -, fits, rfl⟩ | ⟨nonempty, noneFits, rfl⟩
  · exact nonneg
  · obtain ⟨inside, -, -⟩ := config.slotFits_iff.mp fits
    rw [agree partner inside]
    exact above partner (subset inside)
  · -- Without a slot the buffer rests on the tops, and no slot of the larger list is below them.
    rw [seated.alignUp_eq positive nonempty]
    apply roundUp_le positive divides
    have topsBelow : ∀ candidate ∈ candidates, config.top layout candidate ≤ otherAddress := by
      intro candidate inside
      have sameTop : config.top layout candidate = config.top other candidate := by
        rw [top, agree candidate inside, top]
      rw [sameTop]
      rcases otherTentative with ⟨empty, -⟩ | ⟨partner, isPartner, fits, rfl⟩ | ⟨full, -, rfl⟩
      · have listed := subset inside
        rw [empty] at listed
        cases listed
      · by_cases same : candidate = partner
        · subst same
          have fitted := slotFits_of_subset subset agree inside fits
          rw [noneFits candidate isPartner] at fitted
          cases fitted
        · obtain ⟨-, -, below⟩ := config.slotFits_iff.mp fits
          exact (config.top_le_othersTop other (subset inside) same).trans below
      · rw [otherSeated.alignUp_eq positive full]
        exact (le_foldl_max _ (List.mem_map_of_mem (subset inside))).trans (le_roundUp positive _)
    rw [foldl_max_le_iff]
    refine ⟨by unfold int64Max; omega, ?_⟩
    intro value isTop
    obtain ⟨candidate, inside, rfl⟩ := List.mem_map.mp isTop
    exact topsBelow candidate inside

end Candidates

/-! ## Later positions -/

section Later

variable {order otherOrder : List ℕ} {layout other : Layout}

/-- A layout of an order is a layout of its beginning. -/
theorem IsLayout.of_append {front back : List ℕ} (isLayout : config.IsLayout (front ++ back) layout) :
    config.IsLayout front layout := by
  intro buffer inside
  rw [isLayout buffer (List.mem_append_left _ inside), before_of_mem_left inside]

variable (positive : 0 < config.static.alignment)
  (nonnegative : ∀ buffer, 0 ≤ config.sizes buffer)

include positive nonnegative in
/-- The buffers that an allocated buffer rests on are seated. -/
theorem IsLayout.seated (isLayout : config.IsLayout order layout) {candidates : List ℕ}
    (inside : candidates ⊆ order)
    (allocated : ∀ candidate ∈ candidates, layout.allocated candidate = true) :
    config.Seated layout candidates where
  allocated := allocated
  nonneg candidate isCandidate :=
    isLayout.address_nonneg positive (fun buffer _ => nonnegative buffer) candidate
      (inside isCandidate) _ (Layout.address_eq_some.mpr ⟨allocated candidate isCandidate, rfl⟩)
  aligned candidate isCandidate :=
    isLayout.aligned candidate (inside isCandidate) (allocated candidate isCandidate)
  sizes candidate _ := nonnegative candidate

include positive nonnegative in
/-- A buffer that rests on more buffers, the old ones at their old addresses, is not lower. -/
theorem IsLayout.address_mono (isLayout : config.IsLayout order layout)
    (otherLayout : config.IsLayout otherOrder other) {buffer : ℕ} (inOrder : buffer ∈ order)
    (inOther : buffer ∈ otherOrder) (subset : before order buffer ⊆ before otherOrder buffer)
    (agree : ∀ earlier ∈ before order buffer, layout.address earlier = other.address earlier)
    {otherAddress : ℤ} (located : other.address buffer = some otherAddress) :
    ∃ address ≤ otherAddress, layout.address buffer = some address := by
  have otherAllocated := (Layout.address_eq_some.mp located).1
  have eligible := otherLayout.eligible_of_allocated inOther otherAllocated
  rw [otherLayout buffer inOther, decision, if_pos eligible] at located
  have allocated := (config.placeDecision_eq_some located).2.1
  have candidateSubset : config.candidates (before order buffer) buffer ⊆
      config.candidates (before otherOrder buffer) buffer := by
    intro candidate isCandidate
    obtain ⟨isEarlier, rest⟩ := config.mem_candidates.mp isCandidate
    exact config.mem_candidates.mpr ⟨subset isEarlier, rest⟩
  have sameAddress : ∀ candidate ∈ config.candidates (before order buffer) buffer,
      layout.address candidate = other.address candidate :=
    fun candidate isCandidate => agree candidate (config.mem_candidates.mp isCandidate).1
  have oldAllocated : ∀ candidate ∈ config.candidates (before order buffer) buffer,
      layout.allocated candidate = true := by
    intro candidate isCandidate
    rw [Solver.allocated_congr (sameAddress candidate isCandidate)]
    exact allocated candidate (candidateSubset isCandidate)
  have seated : config.Seated layout (config.candidates (before order buffer) buffer) :=
    isLayout.seated positive nonnegative
      (fun candidate isCandidate => before_subset _ _ (config.mem_candidates.mp isCandidate).1)
      oldAllocated
  have otherSeated : config.Seated other (config.candidates (before otherOrder buffer) buffer) :=
    otherLayout.seated positive nonnegative
      (fun candidate isCandidate => before_subset _ _ (config.mem_candidates.mp isCandidate).1)
      allocated
  obtain ⟨address, tentative, decided⟩ := @placeDecision_eq_of_tentative config layout
    (config.referencePartners buffer) (config.candidates (before order buffer) buffer) buffer
    oldAllocated
  obtain ⟨tested, otherTentative, otherDecided⟩ := @placeDecision_eq_of_tentative config other
    (config.referencePartners buffer) (config.candidates (before otherOrder buffer) buffer) buffer
    allocated
  rw [otherDecided] at located
  split at located
  next => cases located
  next fits =>
    obtain rfl := Option.some.inj located
    have below : address ≤ tested :=
      tentative.mono positive candidateSubset
        (fun candidate isCandidate => addr_congr sameAddress oldAllocated isCandidate)
        seated otherSeated otherTentative
    refine ⟨address, below, ?_⟩
    rw [isLayout buffer inOrder, decision, if_pos eligible, decided, if_neg (by omega)]

/-- Moving a buffer behind a block does not lower it. -/
theorem IsLayout.address_le_of_later {front block back : List ℕ} {buffer : ℕ}
    (positive : 0 < config.static.alignment) (nonnegative : ∀ buffer, 0 ≤ config.sizes buffer)
    (nodup : (front ++ buffer :: (block ++ back)).Nodup)
    (isLayout : config.IsLayout (front ++ buffer :: (block ++ back)) layout)
    (otherLayout : config.IsLayout (front ++ (block ++ buffer :: back)) other) {otherAddress : ℤ}
    (located : other.address buffer = some otherAddress) :
    ∃ address ≤ otherAddress, layout.address buffer = some address := by
  have absent : buffer ∉ front := by
    intro inside
    exact (List.nodup_append.mp nodup).2.2 buffer inside buffer List.mem_cons_self rfl
  have apart : buffer ∉ block := by
    have rest := (List.nodup_cons.mp (List.nodup_append.mp nodup).2.1).1
    exact fun inside => rest (List.mem_append_left _ inside)
  have beforeOld : before (front ++ buffer :: (block ++ back)) buffer = front := before_append absent
  have beforeNew : before (front ++ (block ++ buffer :: back)) buffer = front ++ block := by
    rw [← List.append_assoc]
    exact before_append (by simp [absent, apart])
  refine isLayout.address_mono positive nonnegative otherLayout (by simp) (by simp) ?_ ?_ located
  · rw [beforeOld, beforeNew]
    exact List.subset_append_left _ _
  · rw [beforeOld]
    exact config.isLayout_unique (fun buffer _ => nonnegative buffer) isLayout.of_append
      otherLayout.of_append

end Later

end Config

/-! ## Moving a buffer of a plan -/

/-- The address, above everything when the buffer is evicted. -/
def Layout.extended (layout : Layout) (buffer : ℕ) : WithTop ℤ :=
  match layout.address buffer with
  | some address => (address : WithTop ℤ)
  | none => ⊤

theorem Layout.extended_le {layout other : Layout} {buffer : ℕ}
    (lower : ∀ otherAddress, other.address buffer = some otherAddress →
      ∃ address ≤ otherAddress, layout.address buffer = some address) :
    layout.extended buffer ≤ other.extended buffer := by
  unfold extended
  cases located : other.address buffer with
  | none => exact le_top
  | some otherAddress =>
      obtain ⟨address, below, found⟩ := lower otherAddress located
      rw [found]
      exact WithTop.coe_le_coe.mpr below

namespace Solver

end Solver

end TorchSpyre.Scratchpad.PermLayout
