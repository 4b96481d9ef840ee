import TorchSpyre.Lib.Order
import TorchSpyre.Scratchpad.PermLayout.Static

/-!
# Placement decisions and the plain from-scratch layout

`placeDecision` is the candidate scan of the packer: rest on the highest earlier
time-overlapping buffer, or drop into the slot of an in-place partner when the
other candidates end below it.  `fromScratch` is the packer without any
shortcut: it visits the buffers in permutation order and asks `placeDecision`
about all earlier eligible time-overlapping buffers.

A layout is determined by the order alone: `IsLayout` says that every buffer's
address is the decision taken against the buffers before it, and two layouts
with that property agree.  So a change of the order that keeps every eligible
buffer's set of candidates keeps the layout.
-/

namespace TorchSpyre.Scratchpad.PermLayout

open Lib

/-- The data a placement depends on besides the order. -/
structure Config where
  static : StaticData
  sizes : ℕ → ℤ
  eligible : ℕ → Bool

/-- Per-buffer results; `addr` is meaningful only where `allocated` is set. -/
structure Layout where
  addr : ℕ → ℤ
  allocated : ℕ → Bool

def Layout.address (layout : Layout) (buffer : ℕ) : Option ℤ :=
  if layout.allocated buffer then some (layout.addr buffer) else none

def Layout.set (layout : Layout) (buffer : ℕ) : Option ℤ → Layout
  | some address =>
      { addr := Function.update layout.addr buffer address
        allocated := Function.update layout.allocated buffer true }
  | none =>
      { addr := Function.update layout.addr buffer 0
        allocated := Function.update layout.allocated buffer false }

@[simp]
theorem Layout.address_set_self (layout : Layout) (buffer : ℕ) (decision : Option ℤ) :
    (layout.set buffer decision).address buffer = decision := by
  cases decision <;> simp [Layout.set, Layout.address]

@[simp]
theorem Layout.address_set_of_ne (layout : Layout) {buffer other : ℕ} (distinct : other ≠ buffer)
    (decision : Option ℤ) :
    (layout.set buffer decision).address other = layout.address other := by
  cases decision <;> simp [Layout.set, Layout.address, Function.update_of_ne distinct]

theorem Layout.address_eq_some {layout : Layout} {buffer : ℕ} {address : ℤ} :
    layout.address buffer = some address ↔
      layout.allocated buffer = true ∧ layout.addr buffer = address := by
  unfold Layout.address
  split <;> simp_all

theorem Layout.address_eq_none {layout : Layout} {buffer : ℕ} :
    layout.address buffer = none ↔ layout.allocated buffer = false := by
  unfold Layout.address
  split <;> simp_all

/-- `AlignUp` with C++'s truncating division. -/
def alignUp (alignment addr : ℤ) : ℤ := (addr + alignment - 1).tdiv alignment * alignment

theorem alignUp_eq_roundUp {alignment addr : ℤ} (positive : 0 < alignment)
    (nonnegative : 0 ≤ addr) : alignUp alignment addr = roundUp alignment addr := by
  unfold alignUp roundUp
  rw [Int.tdiv_eq_ediv_of_nonneg (by omega)]

namespace Config

variable (config : Config)

def top (layout : Layout) (buffer : ℕ) : ℤ := layout.addr buffer + config.sizes buffer

/-- `(parent, child)` of a pair in which one declares the other. -/
def inPlacePair (first second : ℕ) : ℕ × ℕ :=
  if second ∈ config.static.declaredParents first then (second, first) else (first, second)

/-- Highest top among the candidates other than the partner. -/
def othersTop (layout : Layout) (candidates : List ℕ) (partner : ℕ) : ℤ :=
  ((candidates.filter (· ≠ partner)).map (config.top layout)).foldl max 0

/-- The buffer can take the partner's slot: the partner is a candidate, the
child of the pair fits its parent, and every other candidate ends below it. -/
def slotFits (layout : Layout) (buffer : ℕ) (candidates : List ℕ) (partner : ℕ) : Bool :=
  decide (partner ∈ candidates) &&
    !decide (config.sizes (config.inPlacePair buffer partner).2 >
      config.sizes (config.inPlacePair buffer partner).1) &&
    decide (config.othersTop layout candidates partner ≤ layout.addr partner)

/-- `PlaceDecision`: the address, or `none` when the buffer is evicted. -/
def placeDecision (layout : Layout) (partners : List ℕ) (buffer : ℕ) (candidates : List ℕ) :
    Option ℤ :=
  let capacity := config.static.capacity
  if candidates = [] then
    if config.sizes buffer > capacity then none else some 0
  else if candidates.any fun candidate => !layout.allocated candidate then none
  else
    match partners.find? (config.slotFits layout buffer candidates) with
    | some partner =>
        if layout.addr partner + config.sizes buffer > capacity then none
        else some (layout.addr partner)
    | none =>
        let maxTop := (candidates.map (config.top layout)).foldl max (-int64Max - 1)
        let aligned := alignUp config.static.alignment maxTop
        if aligned + config.sizes buffer > capacity then none else some aligned

/-- Earlier buffers the placement of `buffer` depends on. -/
def candidates (earlier : List ℕ) (buffer : ℕ) : List ℕ :=
  earlier.filter fun other => config.eligible other && config.static.overlaps buffer other

/-- The in-place partners in index order. -/
def referencePartners (buffer : ℕ) : List ℕ :=
  (List.range config.static.n).filter fun other => config.static.Partners buffer other

/-- What the packer decides about `buffer` when `earlier` are before it. -/
def decision (layout : Layout) (earlier : List ℕ) (buffer : ℕ) : Option ℤ :=
  if config.eligible buffer then
    config.placeDecision layout (config.referencePartners buffer) buffer
      (config.candidates earlier buffer)
  else none

def fromScratchAfter (earlier : List ℕ) (layout : Layout) : List ℕ → Layout
  | [] => layout
  | buffer :: rest =>
      fromScratchAfter (earlier ++ [buffer])
        (layout.set buffer (config.decision layout earlier buffer)) rest

/-- The plain placement of every buffer in the given order. -/
def fromScratch (order : List ℕ) : Layout :=
  config.fromScratchAfter [] ⟨fun _ => 0, fun _ => false⟩ order

/-- Total weight of the allocated buffers, in exact arithmetic. -/
def qualityOf (layout : Layout) (order : List ℕ) : ℚ :=
  ((order.filter layout.allocated).map fun buffer =>
    config.static.weight buffer * config.sizes buffer).sum

def countAllocatedIn (layout : Layout) (order : List ℕ) : ℕ :=
  (order.filter layout.allocated).length

/-- Every address is the decision taken against the buffers before it. -/
def IsLayout (order : List ℕ) (layout : Layout) : Prop :=
  ∀ buffer ∈ order, layout.address buffer = config.decision layout (before order buffer) buffer

/-! ## What a decision depends on -/

theorem top_le_othersTop (layout : Layout) {candidates : List ℕ} {partner other : ℕ}
    (membership : other ∈ candidates) (distinct : other ≠ partner) :
    config.top layout other ≤ config.othersTop layout candidates partner :=
  le_foldl_max _ (List.mem_map_of_mem (List.mem_filter.mpr ⟨membership, by simpa using distinct⟩))

theorem slotFits_iff {layout : Layout} {buffer partner : ℕ} {candidates : List ℕ} :
    config.slotFits layout buffer candidates partner = true ↔
      partner ∈ candidates ∧
      config.sizes (config.inPlacePair buffer partner).2 ≤
        config.sizes (config.inPlacePair buffer partner).1 ∧
      config.othersTop layout candidates partner ≤ layout.addr partner := by
  simp [slotFits, and_assoc]

/-- Two partners whose slots both fit have the same address, so it does not
matter which one the scan meets first. -/
theorem slotFits_addr_eq {layout : Layout} {buffer first second : ℕ} {candidates : List ℕ}
    (nonnegative : ∀ candidate ∈ candidates, 0 ≤ config.sizes candidate)
    (firstFits : config.slotFits layout buffer candidates first = true)
    (secondFits : config.slotFits layout buffer candidates second = true) :
    layout.addr first = layout.addr second := by
  obtain ⟨firstMembership, -, firstAbove⟩ := (config.slotFits_iff).mp firstFits
  obtain ⟨secondMembership, -, secondAbove⟩ := (config.slotFits_iff).mp secondFits
  by_cases same : first = second
  · rw [same]
  · have secondBelow := config.top_le_othersTop layout secondMembership (Ne.symm same)
    have firstBelow := config.top_le_othersTop layout firstMembership same
    have firstSize := nonnegative first firstMembership
    have secondSize := nonnegative second secondMembership
    unfold top at firstBelow secondBelow
    omega

section Congruence

variable {first second : Layout} {candidates others : List ℕ}
  (sameMembers : ∀ candidate, candidate ∈ candidates ↔ candidate ∈ others)
  (agree : ∀ candidate ∈ candidates, first.address candidate = second.address candidate)

include sameMembers agree

theorem any_unallocated_congr :
    (candidates.any fun candidate => !first.allocated candidate) =
      others.any fun candidate => !second.allocated candidate := by
  rw [Bool.eq_iff_iff, List.any_eq_true, List.any_eq_true]
  have allocated : ∀ candidate ∈ candidates,
      first.allocated candidate = second.allocated candidate := by
    intro candidate membership
    have same := agree candidate membership
    unfold Layout.address at same
    cases firstFlag : first.allocated candidate <;>
      cases secondFlag : second.allocated candidate <;> simp_all
  constructor
  · rintro ⟨candidate, membership, flag⟩
    exact ⟨candidate, (sameMembers candidate).mp membership, by
      rwa [← allocated candidate membership]⟩
  · rintro ⟨candidate, membership, flag⟩
    have inside := (sameMembers candidate).mpr membership
    exact ⟨candidate, inside, by rwa [allocated candidate inside]⟩

variable (allAllocated : ∀ candidate ∈ candidates, first.allocated candidate = true)

include allAllocated

omit sameMembers in
theorem addr_congr {candidate : ℕ} (membership : candidate ∈ candidates) :
    first.addr candidate = second.addr candidate := by
  have same := agree candidate membership
  rw [Layout.address_eq_some.mpr ⟨allAllocated candidate membership, rfl⟩] at same
  exact (Layout.address_eq_some.mp same.symm).2.symm

theorem foldl_top_congr (initial : ℤ) (keep : ℕ → Bool) :
    ((candidates.filter keep).map (config.top first)).foldl max initial =
      ((others.filter keep).map (config.top second)).foldl max initial := by
  apply foldl_max_congr
  intro value
  simp only [List.mem_map, List.mem_filter]
  constructor
  · rintro ⟨candidate, ⟨membership, kept⟩, rfl⟩
    refine ⟨candidate, ⟨(sameMembers candidate).mp membership, kept⟩, ?_⟩
    unfold top
    rw [addr_congr agree allAllocated membership]
  · rintro ⟨candidate, ⟨membership, kept⟩, rfl⟩
    have inside := (sameMembers candidate).mpr membership
    refine ⟨candidate, ⟨inside, kept⟩, ?_⟩
    unfold top
    rw [addr_congr agree allAllocated inside]

theorem slotFits_congr (buffer partner : ℕ) :
    config.slotFits first buffer candidates partner =
      config.slotFits second buffer others partner := by
  rw [Bool.eq_iff_iff, slotFits_iff, slotFits_iff, sameMembers partner]
  refine and_congr_right fun membership => and_congr_right fun _ => ?_
  unfold othersTop
  rw [config.foldl_top_congr sameMembers agree allAllocated,
    addr_congr agree allAllocated ((sameMembers partner).mpr membership)]

end Congruence

/-- A decision depends only on which buffers are candidates, which are partners,
and on the candidates' addresses; orders and stale entries do not matter. -/
theorem placeDecision_congr {first second : Layout} {partners otherPartners : List ℕ}
    {buffer : ℕ} {candidates others : List ℕ}
    (sameMembers : ∀ candidate, candidate ∈ candidates ↔ candidate ∈ others)
    (samePartners : ∀ partner, partner ∈ partners ↔ partner ∈ otherPartners)
    (agree : ∀ candidate ∈ candidates, first.address candidate = second.address candidate)
    (nonnegative : ∀ candidate ∈ candidates, 0 ≤ config.sizes candidate) :
    config.placeDecision first partners buffer candidates =
      config.placeDecision second otherPartners buffer others := by
  have emptyIff : candidates = [] ↔ others = [] := by
    simp only [List.eq_nil_iff_forall_not_mem, sameMembers]
  unfold placeDecision
  simp only [emptyIff, any_unallocated_congr sameMembers agree]
  split
  · rfl
  split
  · rfl
  rename_i noneUnallocated
  rw [← any_unallocated_congr sameMembers agree] at noneUnallocated
  have allAllocated : ∀ candidate ∈ candidates, first.allocated candidate = true := by
    simpa using noneUnallocated
  have sameFits := config.slotFits_congr sameMembers agree allAllocated buffer
  have sameTop := config.foldl_top_congr sameMembers agree allAllocated (-int64Max - 1)
    fun _ => true
  simp only [List.filter_true] at sameTop
  cases firstFound : partners.find? (config.slotFits first buffer candidates) with
  | none =>
      have secondNone : otherPartners.find? (config.slotFits second buffer others) = none := by
        rw [List.find?_eq_none] at firstFound ⊢
        intro partner membership
        rw [← sameFits]
        exact firstFound partner ((samePartners partner).mpr membership)
      rw [secondNone, sameTop]
  | some partner =>
      have fits := List.find?_some firstFound
      obtain ⟨other, secondFound⟩ : ∃ other,
          otherPartners.find? (config.slotFits second buffer others) = some other := by
        refine Option.ne_none_iff_exists'.mp fun missing => ?_
        rw [List.find?_eq_none] at missing
        apply missing partner ((samePartners partner).mp (List.mem_of_find?_eq_some firstFound))
        rwa [← sameFits]
      have otherFits : config.slotFits first buffer candidates other = true := by
        rw [sameFits]
        exact List.find?_some secondFound
      have sameAddr : first.addr partner = second.addr other :=
        (config.slotFits_addr_eq nonnegative fits otherFits).trans
          (addr_congr agree allAllocated ((config.slotFits_iff).mp otherFits).1)
      rw [secondFound]
      simp only [sameAddr]

theorem mem_candidates {earlier : List ℕ} {buffer other : ℕ} :
    other ∈ config.candidates earlier buffer ↔
      other ∈ earlier ∧ config.eligible other = true ∧
        config.static.overlaps buffer other = true := by
  simp [candidates, List.mem_filter]

theorem decision_congr {first second : Layout} {earlier others : List ℕ} {buffer : ℕ}
    (sameMembers : config.eligible buffer = true → ∀ other, config.eligible other = true →
      config.static.overlaps buffer other = true → (other ∈ earlier ↔ other ∈ others))
    (agree : ∀ other ∈ earlier, first.address other = second.address other)
    (nonnegative : ∀ other ∈ earlier, 0 ≤ config.sizes other) :
    config.decision first earlier buffer = config.decision second others buffer := by
  unfold decision
  split
  next eligible =>
    apply config.placeDecision_congr
    · intro other
      rw [mem_candidates, mem_candidates]
      constructor
      · rintro ⟨membership, otherEligible, overlap⟩
        exact ⟨(sameMembers eligible other otherEligible overlap).mp membership,
          otherEligible, overlap⟩
      · rintro ⟨membership, otherEligible, overlap⟩
        exact ⟨(sameMembers eligible other otherEligible overlap).mpr membership,
          otherEligible, overlap⟩
    · exact fun _ => Iff.rfl
    · exact fun other membership => agree other ((config.mem_candidates).mp membership).1
    · exact fun other membership => nonnegative other ((config.mem_candidates).mp membership).1
  next => rfl

/-! ## The from-scratch layout is the only layout of an order -/

theorem fromScratchAfter_address_of_not_mem (earlier : List ℕ) (layout : Layout)
    (rest : List ℕ) {buffer : ℕ} (absent : buffer ∉ rest) :
    (config.fromScratchAfter earlier layout rest).address buffer = layout.address buffer := by
  induction rest generalizing earlier layout with
  | nil => rfl
  | cons head tail inductionHypothesis =>
      rw [List.mem_cons, not_or] at absent
      unfold fromScratchAfter
      rw [inductionHypothesis _ _ absent.2, Layout.address_set_of_ne _ absent.1]

theorem fromScratchAfter_decided {order earlier rest : List ℕ} (layout : Layout)
    (nonnegative : ∀ buffer ∈ order, 0 ≤ config.sizes buffer)
    (split : order = earlier ++ rest) (nodup : order.Nodup) :
    ∀ buffer ∈ rest, (config.fromScratchAfter earlier layout rest).address buffer =
      config.decision (config.fromScratchAfter earlier layout rest)
        (before order buffer) buffer := by
  induction rest generalizing earlier layout with
  | nil => simp
  | cons head tail inductionHypothesis =>
      have regrouped : order = (earlier ++ [head]) ++ tail := by simp [split]
      intro buffer membership
      unfold fromScratchAfter
      rcases List.mem_cons.mp membership with rfl | inTail
      · have distinct := nodup
        rw [split, List.nodup_append] at distinct
        have notInTail : buffer ∉ tail := (List.nodup_cons.mp distinct.2.1).1
        have notEarlier : buffer ∉ earlier := fun inEarlier =>
          distinct.2.2 buffer inEarlier buffer List.mem_cons_self rfl
        have beforeEq : before order buffer = earlier := by
          rw [split, before_append notEarlier]
        rw [config.fromScratchAfter_address_of_not_mem _ _ _ notInTail,
          Layout.address_set_self, beforeEq]
        -- Buffers before this one keep the address they had when it was decided.
        apply config.decision_congr (fun _ _ _ _ => Iff.rfl)
        · intro other inEarlier
          have otherNotInTail : other ∉ tail := fun inside =>
            distinct.2.2 other inEarlier other (List.mem_cons_of_mem _ inside) rfl
          rw [config.fromScratchAfter_address_of_not_mem _ _ _ otherNotInTail,
            Layout.address_set_of_ne]
          rintro rfl
          exact notEarlier inEarlier
        · exact fun other inEarlier =>
            nonnegative other (split ▸ List.mem_append_left _ inEarlier)
      · exact inductionHypothesis _ regrouped buffer inTail

theorem fromScratch_isLayout {order : List ℕ}
    (nonnegative : ∀ buffer ∈ order, 0 ≤ config.sizes buffer) (nodup : order.Nodup) :
    config.IsLayout order (config.fromScratch order) :=
  config.fromScratchAfter_decided _ nonnegative rfl nodup

theorem isLayout_unique {order : List ℕ} {first second : Layout}
    (nonnegative : ∀ buffer ∈ order, 0 ≤ config.sizes buffer)
    (firstLayout : config.IsLayout order first) (secondLayout : config.IsLayout order second) :
    ∀ buffer ∈ order, first.address buffer = second.address buffer := by
  apply before_induction
  intro buffer membership agree
  rw [firstLayout buffer membership, secondLayout buffer membership]
  exact config.decision_congr (fun _ _ _ _ => Iff.rfl) agree
    fun earlier inside => nonnegative earlier (before_subset _ _ inside)

/-! ## Inverting a decision -/

theorem placeDecision_of_unallocated {layout : Layout} {partners : List ℕ} {buffer : ℕ}
    {candidates : List ℕ} {candidate : ℕ} (membership : candidate ∈ candidates)
    (unallocated : layout.allocated candidate = false) :
    config.placeDecision layout partners buffer candidates = none := by
  have nonempty : candidates ≠ [] := List.ne_nil_of_mem membership
  have someUnallocated : (candidates.any fun other => !layout.allocated other) = true :=
    List.any_eq_true.mpr ⟨candidate, membership, by simp [unallocated]⟩
  unfold placeDecision
  simp [nonempty, someUnallocated]

/-- The three ways a buffer gets an address. -/
theorem placeDecision_eq_some {layout : Layout} {partners : List ℕ} {buffer : ℕ}
    {candidates : List ℕ} {address : ℤ}
    (decided : config.placeDecision layout partners buffer candidates = some address) :
    address + config.sizes buffer ≤ config.static.capacity ∧
    (∀ candidate ∈ candidates, layout.allocated candidate = true) ∧
    ((candidates = [] ∧ address = 0) ∨
      (∃ partner ∈ partners, config.slotFits layout buffer candidates partner = true ∧
        address = layout.addr partner) ∨
      (candidates ≠ [] ∧ address = alignUp config.static.alignment
        ((candidates.map (config.top layout)).foldl max (-int64Max - 1)))) := by
  unfold placeDecision at decided
  simp only at decided
  split at decided
  next empty =>
    split at decided
    · simp at decided
    · next fits =>
        cases decided
        exact ⟨by omega, by simp [empty], .inl ⟨empty, rfl⟩⟩
  next nonempty =>
    split at decided
    · simp at decided
    · next noneUnallocated =>
        have allAllocated : ∀ candidate ∈ candidates, layout.allocated candidate = true := by
          simpa using noneUnallocated
        split at decided
        · next partner found =>
            split at decided
            · simp at decided
            · next fits =>
                cases decided
                exact ⟨by omega, allAllocated, .inr (.inl ⟨partner,
                  List.mem_of_find?_eq_some found, List.find?_some found, rfl⟩)⟩
        · next =>
            split at decided
            · simp at decided
            · next fits =>
                cases decided
                exact ⟨by omega, allAllocated, .inr (.inr ⟨nonempty, rfl⟩)⟩

theorem decision_eq_some {layout : Layout} {earlier : List ℕ} {buffer : ℕ} {address : ℤ}
    (decided : config.decision layout earlier buffer = some address) :
    config.eligible buffer = true ∧
    config.placeDecision layout (config.referencePartners buffer) buffer
      (config.candidates earlier buffer) = some address := by
  unfold decision at decided
  split at decided
  · next eligible => exact ⟨eligible, decided⟩
  · simp at decided

theorem IsLayout.eligible_of_allocated {config : Config} {order : List ℕ} {layout : Layout}
    (isLayout : config.IsLayout order layout) {buffer : ℕ} (membership : buffer ∈ order)
    (allocated : layout.allocated buffer = true) : config.eligible buffer = true := by
  have located := Layout.address_eq_some.mpr ⟨allocated, rfl⟩
  rw [isLayout buffer membership] at located
  exact (config.decision_eq_some located).1

/-- Addresses of a layout are never negative. -/
theorem IsLayout.address_nonneg {config : Config} {order : List ℕ} {layout : Layout}
    (isLayout : config.IsLayout order layout) (positive : 0 < config.static.alignment)
    (nonnegative : ∀ buffer ∈ order, 0 ≤ config.sizes buffer) :
    ∀ buffer ∈ order, ∀ address, layout.address buffer = some address → 0 ≤ address := by
  apply before_induction
  intro buffer membership earlierNonneg address located
  rw [isLayout buffer membership] at located
  obtain ⟨-, decided⟩ := config.decision_eq_some located
  obtain ⟨-, allAllocated, empty | ⟨partner, -, fits, isPartner⟩ | ⟨nonempty, stacked⟩⟩ :=
    config.placeDecision_eq_some decided
  · omega
  · have inside := ((config.slotFits_iff).mp fits).1
    rw [isPartner]
    exact earlierNonneg partner ((config.mem_candidates).mp inside).1 _
      (Layout.address_eq_some.mpr ⟨allAllocated partner inside, rfl⟩)
  · obtain ⟨candidate, inside⟩ := List.exists_mem_of_ne_nil _ nonempty
    have isEarlier := ((config.mem_candidates).mp inside).1
    have addrNonneg := earlierNonneg candidate isEarlier _
      (Layout.address_eq_some.mpr ⟨allAllocated candidate inside, rfl⟩)
    have sizeNonneg := nonnegative candidate (before_subset _ _ isEarlier)
    have topBelow := le_foldl_max (-int64Max - 1) (List.mem_map_of_mem (f := config.top layout) inside)
    have topNonneg : 0 ≤ config.top layout candidate := add_nonneg addrNonneg sizeNonneg
    rw [stacked, alignUp_eq_roundUp positive (le_trans topNonneg topBelow)]
    exact roundUp_nonneg positive (le_trans topNonneg topBelow)

end Config

section Agreement

variable {first second : Config} (sameStatic : first.static = second.static)

include sameStatic

/-- A decision reads the sizes of the buffer and of its candidates only. -/
theorem placeDecision_sizes {layout : Layout} {partners : List ℕ} {buffer : ℕ}
    {candidates : List ℕ} (sameSize : first.sizes buffer = second.sizes buffer)
    (sameSizes : ∀ candidate ∈ candidates, first.sizes candidate = second.sizes candidate) :
    first.placeDecision layout partners buffer candidates =
      second.placeDecision layout partners buffer candidates := by
  have sameTops : ∀ kept ⊆ candidates,
      kept.map (first.top layout) = kept.map (second.top layout) := by
    intro kept inside
    apply List.map_congr_left
    intro candidate membership
    unfold Config.top
    rw [sameSizes candidate (inside membership)]
  have samePairs : first.inPlacePair = second.inPlacePair := by
    unfold Config.inPlacePair
    rw [sameStatic]
  have sameFits : first.slotFits layout buffer candidates =
      second.slotFits layout buffer candidates := by
    funext partner
    rw [Bool.eq_iff_iff, Config.slotFits_iff, Config.slotFits_iff]
    refine and_congr_right fun membership => ?_
    have pairSizes : first.sizes (first.inPlacePair buffer partner).1 =
          second.sizes (second.inPlacePair buffer partner).1 ∧
        first.sizes (first.inPlacePair buffer partner).2 =
          second.sizes (second.inPlacePair buffer partner).2 := by
      rw [samePairs]
      unfold Config.inPlacePair
      split
      · exact ⟨sameSizes partner membership, sameSize⟩
      · exact ⟨sameSize, sameSizes partner membership⟩
    unfold Config.othersTop
    rw [pairSizes.1, pairSizes.2, sameTops _ List.filter_sublist.subset]
  unfold Config.placeDecision
  simp only [sameStatic, sameSize, sameFits, sameTops candidates (List.Subset.refl _)]

/-- Orders that give every eligible buffer the same candidates have the same
layout; sizes of ineligible buffers play no role. -/
theorem fromScratch_congr {order other : List ℕ}
    (sameEligible : first.eligible = second.eligible)
    (sameSizes : ∀ buffer, first.eligible buffer = true →
      first.sizes buffer = second.sizes buffer)
    (nonnegative : ∀ buffer ∈ order, 0 ≤ first.sizes buffer)
    (otherNonnegative : ∀ buffer ∈ other, 0 ≤ second.sizes buffer)
    (nodup : order.Nodup) (permuted : order.Perm other)
    (sameBefore : ∀ buffer ∈ order, first.eligible buffer = true →
      ∀ earlier, first.eligible earlier = true → first.static.overlaps buffer earlier = true →
        (earlier ∈ before order buffer ↔ earlier ∈ before other buffer)) :
    ∀ buffer ∈ order,
      (first.fromScratch order).address buffer = (second.fromScratch other).address buffer := by
  have firstLayout := first.fromScratch_isLayout nonnegative nodup
  -- The layout of the first order already satisfies the equations of the second.
  have transported : second.IsLayout other (first.fromScratch order) := by
    intro buffer membership
    have inOrder := permuted.mem_iff.mpr membership
    have sameDecision : first.decision (first.fromScratch order) (before order buffer) buffer =
        first.decision (first.fromScratch order) (before other buffer) buffer :=
      first.decision_congr (sameBefore buffer inOrder) (fun _ _ => rfl)
        fun earlier inside => nonnegative earlier (before_subset _ _ inside)
    rw [firstLayout buffer inOrder, sameDecision]
    unfold Config.decision
    rw [← sameEligible]
    split
    next eligible =>
      have samePartners : first.referencePartners buffer = second.referencePartners buffer := by
        unfold Config.referencePartners
        rw [sameStatic]
      have sameCandidates : first.candidates (before other buffer) buffer =
          second.candidates (before other buffer) buffer := by
        unfold Config.candidates
        rw [sameStatic, sameEligible]
      rw [samePartners, ← sameCandidates]
      apply placeDecision_sizes sameStatic (sameSizes buffer eligible)
      exact fun candidate inside => sameSizes candidate ((first.mem_candidates).mp inside).2.1
    next => rfl
  intro buffer membership
  exact second.isLayout_unique otherNonnegative transported
    (second.fromScratch_isLayout otherNonnegative (permuted.nodup_iff.mp nodup))
    buffer (permuted.mem_iff.mp membership)

end Agreement

end TorchSpyre.Scratchpad.PermLayout
