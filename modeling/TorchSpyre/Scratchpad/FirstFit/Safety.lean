import TorchSpyre.Scratchpad.FirstFit.Gaps

/-!
# Safety of first-fit and best-fit plans

The invariant of the placement loop is the safety of what is placed so far; it
does not depend on the order of placement, only on parents being placed at
addresses of their own.  Order matters for success alone: without a cycle of
declared parents the sort emits every buffer.
-/

namespace TorchSpyre.Scratchpad.FirstFit

open Lib LifetimeBoundBuffer

/-- A declared child at its parent's address, inside the parent's slot. -/
structure SharesSlot (child parent : LifetimeBoundBuffer) : Prop where
  declared : parent.name ∈ child.inPlaceParents
  sameAddress : child.address = parent.address
  contained : child.size ≤ parent.size

/-- The two buffers occupy disjoint bytes, or one is in place of the other. -/
def Separate (first second : LifetimeBoundBuffer) : Prop :=
  ∀ firstAddress secondAddress, first.address = some firstAddress →
    second.address = some secondAddress →
      Extent.Disjoint ⟨firstAddress, first.size⟩ ⟨secondAddress, second.size⟩ ∨
        SharesSlot first second ∨ SharesSlot second first

theorem Separate.symm {first second : LifetimeBoundBuffer} (separate : Separate first second) :
    Separate second first := by
  intro secondAddress firstAddress secondAt firstAt
  rcases separate firstAddress secondAddress firstAt secondAt with disjoint | shares | shares
  · exact .inl disjoint.symm
  · exact .inr (.inr shares)
  · exact .inr (.inl shares)

def WithinLimit (limit alignment : ℤ) (buffer : LifetimeBoundBuffer) : Prop :=
  ∀ address, buffer.address = some address →
    0 ≤ address ∧ alignment ∣ address ∧ address + buffer.size ≤ limit

/-- The parent is declared by the child and both are among the buffers. -/
structure Hands (buffers : List LifetimeBoundBuffer) (parent child : LifetimeBoundBuffer) :
    Prop where
  parentIn : parent ∈ buffers
  childIn : child ∈ buffers
  declared : parent.name ∈ child.inPlaceParents

def Acyclic (buffers : List LifetimeBoundBuffer) : Prop :=
  ∀ buffer, ¬ Relation.TransGen (Hands buffers) buffer buffer

structure SafePlan (buffers : List LifetimeBoundBuffer) (limit alignment : ℤ)
    (plan : List LifetimeBoundBuffer) : Prop where
  sameBuffers : plan.map (fun buffer => buffer.located none) = buffers
  withinLimit : ∀ buffer ∈ plan, WithinLimit limit alignment buffer
  barred : ∀ buffer ∈ plan, excluded limit buffer ≠ none → buffer.address = none
  separate : ∀ first ∈ plan, ∀ second ∈ plan, first ≠ second → first.overlapsInTime second →
    Separate first second

/-- What follows for a slot handed over: two children in the same parent's slot, or a
third buffer in the handed bytes, are a declared pair themselves. -/
structure SafeHandoffs (plan : List LifetimeBoundBuffer) : Prop where
  siblings : ∀ parent ∈ plan, ∀ first ∈ plan, ∀ second ∈ plan, first ≠ second →
    parent.address ≠ none → 0 < first.size → 0 < second.size →
    SharesSlot first parent → SharesSlot second parent →
      SharesSlot first second ∨ SharesSlot second first
  bystanders : ∀ parent ∈ plan, ∀ child ∈ plan, ∀ other ∈ plan, other ≠ parent → other ≠ child →
    SharesSlot child parent → other.overlapsInTime child ∨ other.overlapsInTime parent →
    ∀ slot address, child.address = some slot → other.address = some address →
      Extent.Disjoint ⟨slot, child.size⟩ ⟨address, other.size⟩ ∨
        SharesSlot other child ∨ SharesSlot child other ∨
        SharesSlot other parent ∨ SharesSlot parent other

/-! ## One placement -/

section Placing

variable (buffers : List LifetimeBoundBuffer) (limit alignment : ℤ)

/-- The state of the loop: what is placed is safe, and the table of addresses
lists it. -/
structure Placing (placed : List LifetimeBoundBuffer) (namesToAddresses : String → Option ℤ) :
    Prop where
  origin : ∀ buffer ∈ placed, buffer.located none ∈ buffers
  lookup : ∀ name address, namesToAddresses name = some address ↔
    ∃ buffer ∈ placed, buffer.name = name ∧ buffer.address = some address
  withinLimit : ∀ buffer ∈ placed, WithinLimit limit alignment buffer
  separate : ∀ first ∈ placed, ∀ second ∈ placed, first.name ≠ second.name →
    first.overlapsInTime second → Separate first second

variable {buffers limit alignment}
variable {placed : List LifetimeBoundBuffer} {namesToAddresses : String → Option ℤ}
variable {buffer : LifetimeBoundBuffer}

/-- An address at which the buffer is safe next to what is placed. -/
structure GoodAddress (limit alignment : ℤ) (placed : List LifetimeBoundBuffer)
    (buffer : LifetimeBoundBuffer) (address : ℤ) : Prop where
  withinLimit : WithinLimit limit alignment (buffer.located (some address))
  separate : ∀ other ∈ placed, other.overlapsInTime buffer →
    Separate (buffer.located (some address)) other

theorem Placing.add (placing : Placing buffers limit alignment placed namesToAddresses)
    (membership : buffer ∈ buffers) (unplanned : buffer.address = none)
    (fresh : buffer.name ∉ placed.map LifetimeBoundBuffer.name) {address : ℤ}
    (good : GoodAddress limit alignment placed buffer address) :
    Placing buffers limit alignment (placed ++ [buffer.located (some address)])
      (Function.update namesToAddresses buffer.name (some address)) := by
  have freshName : ∀ other ∈ placed, other.name ≠ buffer.name := fun other inside same =>
    fresh (List.mem_map.mpr ⟨other, inside, same⟩)
  constructor
  case origin =>
    intro other inside
    rcases List.mem_append.mp inside with old | new
    · exact placing.origin other old
    · rw [List.mem_singleton.mp new]
      exact (located_none unplanned).symm ▸ membership
  case lookup =>
    intro name value
    by_cases isNew : name = buffer.name
    · subst isNew
      rw [Function.update_self]
      constructor
      · intro sameAddress
        exact ⟨_, List.mem_append_right _ List.mem_cons_self, rfl, sameAddress⟩
      · rintro ⟨other, inside, named, located⟩
        rcases List.mem_append.mp inside with old | new
        · exact absurd named (freshName other old)
        · rw [List.mem_singleton.mp new] at located
          exact located
    · rw [Function.update_of_ne isNew, placing.lookup]
      constructor
      · rintro ⟨other, inside, found⟩
        exact ⟨other, List.mem_append_left _ inside, found⟩
      · rintro ⟨other, inside, named, located⟩
        rcases List.mem_append.mp inside with old | new
        · exact ⟨other, old, named, located⟩
        · rw [List.mem_singleton.mp new] at named
          exact absurd named.symm isNew
  case withinLimit =>
    intro other inside
    rcases List.mem_append.mp inside with old | new
    · exact placing.withinLimit other old
    · rw [List.mem_singleton.mp new]
      exact good.withinLimit
  case separate =>
    intro first firstIn second secondIn distinct live
    rcases List.mem_append.mp firstIn with firstOld | firstNew
    · rcases List.mem_append.mp secondIn with secondOld | secondNew
      · exact placing.separate first firstOld second secondOld distinct live
      · rw [List.mem_singleton.mp secondNew] at live ⊢
        exact (good.separate first firstOld live).symm
    · rw [List.mem_singleton.mp firstNew] at distinct live ⊢
      rcases List.mem_append.mp secondIn with secondOld | secondNew
      · exact good.separate second secondOld (overlapsInTime_symm live)
      · rw [List.mem_singleton.mp secondNew] at distinct
        exact absurd rfl distinct

theorem Placing.skip (placing : Placing buffers limit alignment placed namesToAddresses)
    (membership : buffer ∈ buffers) (unplanned : buffer.address = none) :
    Placing buffers limit alignment (placed ++ [buffer]) namesToAddresses := by
  have unplaced : ∀ address, buffer.address ≠ some address := by
    intro address located
    cases unplanned.symm.trans located
  constructor
  case origin =>
    intro other inside
    rcases List.mem_append.mp inside with old | new
    · exact placing.origin other old
    · rw [List.mem_singleton.mp new, located_none unplanned]
      exact membership
  case lookup =>
    intro name value
    rw [placing.lookup]
    constructor
    · rintro ⟨other, inside, found⟩
      exact ⟨other, List.mem_append_left _ inside, found⟩
    · rintro ⟨other, inside, named, located⟩
      rcases List.mem_append.mp inside with old | new
      · exact ⟨other, old, named, located⟩
      · rw [List.mem_singleton.mp new] at located
        exact absurd located (unplaced value)
  case withinLimit =>
    intro other inside address located
    rcases List.mem_append.mp inside with old | new
    · exact placing.withinLimit other old address located
    · rw [List.mem_singleton.mp new] at located
      exact absurd located (unplaced address)
  case separate =>
    intro first firstIn second secondIn distinct live firstAddress secondAddress firstAt secondAt
    rcases List.mem_append.mp firstIn with firstOld | firstNew
    · rcases List.mem_append.mp secondIn with secondOld | secondNew
      · exact placing.separate first firstOld second secondOld distinct live _ _ firstAt secondAt
      · rw [List.mem_singleton.mp secondNew] at secondAt
        exact absurd secondAt (unplaced _)
    · rw [List.mem_singleton.mp firstNew] at firstAt
      exact absurd firstAt (unplaced _)

/-- The bytes of a buffer inside an offered gap avoid every conflicting buffer. -/
theorem Gap.Offered.disjoint {gap : Gap} {parentNames : List String}
    (offered : gap.Offered limit buffer placed parentNames) {address : ℤ}
    (lower : gap.start ≤ address) (upper : address + buffer.size ≤ gap.stop)
    {other : LifetimeBoundBuffer} (otherIn : other ∈ placed) {otherAddress : ℤ}
    (conflict : Conflicts buffer parentNames other otherAddress) :
    Extent.Disjoint ⟨address, buffer.size⟩ ⟨otherAddress, other.size⟩ := by
  rcases offered.clear other otherIn otherAddress conflict with above | below
  · exact Extent.disjoint_of_stop_le (le_trans upper above)
  · exact (Extent.disjoint_of_stop_le (le_trans below lower)).symm

/-- The aligned start of a gap left by all live buffers is good. -/
theorem goodAddress_fallback (positive : 0 < alignment) {gap : Gap}
    (offered : gap.Offered limit buffer placed [])
    (fits : roundUp alignment gap.start + buffer.size ≤ gap.stop) :
    GoodAddress limit alignment placed buffer (roundUp alignment gap.start) := by
  have lower : gap.start ≤ roundUp alignment gap.start := le_roundUp positive _
  constructor
  · intro address isAddress
    cases isAddress
    exact ⟨le_trans offered.nonneg lower, dvd_roundUp _ _, le_trans fits offered.bounded⟩
  · intro other otherIn live address otherAddress isAddress otherAt
    cases isAddress
    exact .inl (offered.disjoint lower fits otherIn ⟨otherAt, live, List.not_mem_nil⟩)

section InPlace

variable (unique : UniqueNames buffers) (accepted : checkInPlaceRelationships buffers = .ok ())

include unique accepted

theorem Placing.checked (placing : Placing buffers limit alignment placed namesToAddresses)
    (membership : buffer ∈ buffers) {parent : LifetimeBoundBuffer} (parentIn : parent ∈ placed)
    (declared : parent.name ∈ buffer.inPlaceParents) :
    parent.endTime = buffer.startTime + 1 ∧ buffer.size ≤ parent.size := by
  have declaredOrigin : (parent.located none).name ∈ buffer.inPlaceParents := declared
  have checked := checked_pair unique accepted membership (placing.origin parent parentIn)
    declaredOrigin
  exact checked

/-- The address of a parent whose slot lies in a gap left by the other live
buffers is good. -/
theorem goodAddress_inPlace
    (placing : Placing buffers limit alignment placed namesToAddresses)
    (membership : buffer ∈ buffers) {gap : Gap}
    (offered : gap.Offered limit buffer placed buffer.inPlaceParents)
    {parent : LifetimeBoundBuffer} (parentIn : parent ∈ placed)
    (declared : parent.name ∈ buffer.inPlaceParents) {address : ℤ}
    (parentAt : parent.address = some address) (lower : gap.start ≤ address)
    (upper : address + parent.size ≤ gap.stop) :
    GoodAddress limit alignment placed buffer address := by
  obtain ⟨parentEnd, smaller⟩ := placing.checked unique accepted membership parentIn declared
  obtain ⟨nonneg, aligned, bounded⟩ := placing.withinLimit parent parentIn address parentAt
  have shorter : address + (buffer.size : ℤ) ≤ address + parent.size := by omega
  constructor
  · intro value isAddress
    cases isAddress
    exact ⟨nonneg, aligned, le_trans shorter bounded⟩
  · intro other otherIn live value otherAddress isAddress otherAt
    cases isAddress
    by_cases otherDeclared : other.name ∈ buffer.inPlaceParents
    · obtain ⟨otherEnd, otherLarger⟩ :=
        placing.checked unique accepted membership otherIn otherDeclared
      have shares (same : otherAddress = address) :
          SharesSlot (buffer.located (some address)) other :=
        ⟨otherDeclared, by rw [otherAt, same]; rfl, otherLarger⟩
      by_cases isParent : other.name = parent.name
      · have bothAt := (placing.lookup parent.name otherAddress).mpr
          ⟨other, otherIn, isParent, otherAt⟩
        have parentLookup := (placing.lookup parent.name address).mpr
          ⟨parent, parentIn, rfl, parentAt⟩
        exact .inr (.inl (shares (Option.some.inj (bothAt.symm.trans parentLookup))))
      · -- Two declared parents both live through the child's first tick.
        have together : parent.overlapsInTime other :=
          ⟨by rw [otherEnd, ← parentEnd]; exact parent.startTime_lt_endTime,
            by rw [parentEnd, ← otherEnd]; exact other.startTime_lt_endTime⟩
        rcases placing.separate parent parentIn other otherIn (Ne.symm isParent) together
            address otherAddress parentAt otherAt with disjoint | handed | handed
        · have lowerEnd : (⟨address, buffer.size⟩ : Extent).stop ≤
              (⟨address, parent.size⟩ : Extent).stop := shorter
          refine .inl (Extent.disjoint_of_subset ?_ lowerEnd disjoint)
          exact le_refl address
        · exact .inr (.inl (shares (Option.some.inj
            (otherAt.symm.trans (handed.sameAddress.symm.trans parentAt)))))
        · exact .inr (.inl (shares (Option.some.inj
            (otherAt.symm.trans (handed.sameAddress.trans parentAt)))))
    · exact .inl (offered.disjoint lower (le_trans shorter upper) otherIn
        ⟨otherAt, live, otherDeclared⟩)

variable (positive : 0 < alignment) (policy : Policy)

include positive

theorem Placing.placeOne (placing : Placing buffers limit alignment placed namesToAddresses)
    (membership : buffer ∈ buffers) :
    ∃ result, placeOne policy limit alignment placed namesToAddresses buffer = .ok result ∧
      ∀ address, result = some address → GoodAddress limit alignment placed buffer address := by
  obtain ⟨reused, pickedReused⟩ := pickGap_total positive policy buffer.size
    ((buildGaps limit buffer placed true).filter fun gap => gap.inPlaceParents ≠ [])
  unfold FirstFit.placeOne
  simp only [pickedReused]
  cases reused with
  | some gap =>
      obtain ⟨inReusable, -⟩ := pickGap_some pickedReused
      obtain ⟨inGaps, hasParent⟩ := List.mem_filter.mp inReusable
      have offered := offered_of_mem_buildGaps inGaps
      match split : gap.inPlaceParents with
      | [] => simp [split] at hasParent
      | name :: rest =>
          obtain ⟨declared, parent, parentIn, rfl, address, parentAt, lower, upper⟩ :=
            offered.parents name (by rw [split]; exact List.mem_cons_self)
          have found := (placing.lookup parent.name address).mpr ⟨parent, parentIn, rfl, parentAt⟩
          simp only [split, found]
          refine ⟨some address, rfl, fun value isAddress => ?_⟩
          cases isAddress
          exact goodAddress_inPlace unique accepted placing membership offered parentIn declared
            parentAt lower upper
  | none =>
      obtain ⟨ordinary, pickedOrdinary⟩ := pickGap_total positive policy buffer.size
        (buildGaps limit buffer placed false)
      simp only [pickedOrdinary]
      cases ordinary with
      | none => exact ⟨none, rfl, by simp⟩
      | some gap =>
          obtain ⟨inGaps, address, rounded, fits⟩ := pickGap_some pickedOrdinary
          rw [roundUpToAlignment_eq positive] at rounded
          cases rounded
          simp only [roundUpToAlignment_eq positive]
          refine ⟨some _, rfl, fun value isAddress => ?_⟩
          cases isAddress
          exact goodAddress_fallback positive (offered_of_mem_buildGaps inGaps) fits

/-- The whole loop: every buffer is treated without error, and the result is safe. -/
theorem Placing.placeAll {rest : List LifetimeBoundBuffer}
    (placing : Placing buffers limit alignment placed namesToAddresses)
    (pending : ∀ buffer ∈ rest, buffer ∈ buffers ∧ buffer.address = none)
    (fresh : (placed.map LifetimeBoundBuffer.name ++ rest.map LifetimeBoundBuffer.name).Nodup) :
    ∃ final done, FirstFit.placeAll policy limit alignment placed namesToAddresses rest =
        .ok final ∧ Placing buffers limit alignment done final ∧
      done.map LifetimeBoundBuffer.name =
        placed.map LifetimeBoundBuffer.name ++ rest.map LifetimeBoundBuffer.name := by
  induction rest generalizing placed namesToAddresses with
  | nil => exact ⟨namesToAddresses, placed, rfl, placing, by simp⟩
  | cons buffer rest inductionHypothesis =>
      obtain ⟨membership, unplanned⟩ := pending buffer List.mem_cons_self
      have notPlaced : buffer.name ∉ placed.map LifetimeBoundBuffer.name := fun inside =>
        (List.nodup_append.mp fresh).2.2 _ inside _ List.mem_cons_self rfl
      have restPending : ∀ other ∈ rest, other ∈ buffers ∧ other.address = none :=
        fun other inside => pending other (List.mem_cons_of_mem _ inside)
      obtain ⟨result, placedOne, good⟩ :=
        placing.placeOne unique accepted positive policy membership
      simp only [FirstFit.placeAll, placedOne]
      cases result with
      | none =>
          obtain ⟨final, done, ran, safe, names⟩ :=
            inductionHypothesis (placing.skip membership unplanned) restPending (by simpa using fresh)
          exact ⟨final, done, ran, safe, by simpa using names⟩
      | some address =>
          obtain ⟨final, done, ran, safe, names⟩ :=
            inductionHypothesis (placing.add membership unplanned notPlaced (good address rfl))
              restPending (by simpa [LifetimeBoundBuffer.located] using fresh)
          exact ⟨final, done, ran, safe, by simpa [LifetimeBoundBuffer.located] using names⟩

end InPlace

end Placing

/-! ## The order of placement -/

theorem getElem?_of_nameToIdx {buffers : List LifetimeBoundBuffer} {name : String} {index : ℕ}
    (found : nameToIdx buffers name = some index) :
    ∃ buffer, buffers[index]? = some buffer ∧ buffer.name = name := by
  have named := List.find?_some found
  exact Option.map_eq_some_iff.mp (of_decide_eq_true named)

theorem hands_of_parentIndices {buffers : List LifetimeBoundBuffer}
    (parent child : Fin buffers.length) (edge : parent.1 ∈ parentIndices buffers child.1) :
    Hands buffers buffers[parent] buffers[child] := by
  unfold parentIndices at edge
  rw [List.getElem?_eq_getElem child.2] at edge
  obtain ⟨name, declared, found⟩ := List.mem_filterMap.mp edge
  obtain ⟨buffer, located, rfl⟩ := getElem?_of_nameToIdx found
  rw [List.getElem?_eq_getElem parent.2] at located
  cases located
  exact ⟨List.getElem_mem _, List.getElem_mem _, declared⟩

theorem parentIndices_lt {buffers : List LifetimeBoundBuffer} {index parent : ℕ}
    (edge : parent ∈ parentIndices buffers index) : parent < buffers.length := by
  unfold parentIndices at edge
  split at edge
  · cases edge
  · obtain ⟨name, -, found⟩ := List.mem_filterMap.mp edge
    obtain ⟨buffer, located, -⟩ := getElem?_of_nameToIdx found
    exact (List.getElem?_eq_some_iff.mp located).1

theorem filterMap_range_getElem? (buffers : List LifetimeBoundBuffer) :
    (List.range buffers.length).filterMap (fun index => buffers[index]?) = buffers := by
  induction buffers with
  | nil => rfl
  | cons head tail inductionHypothesis =>
      rw [List.length_cons, List.range_succ_eq_map, List.filterMap_cons_some List.getElem?_cons_zero,
        List.filterMap_map]
      exact congrArg (head :: ·) inductionHypothesis

/-- Without a cycle of declared parents the sort returns all the buffers. -/
theorem topologicalSort_perm {buffers : List LifetimeBoundBuffer} (acyclic : Acyclic buffers) :
    ∃ sorted, topologicalSort buffers = .ok sorted ∧ sorted.Perm buffers := by
  have complete : ∀ index < buffers.length,
      index ∈ TopologicalSort.sort buffers.length (parentIndices buffers) := by
    intro index bounded
    refine TopologicalSort.mem_sort_of_acyclic ?_ (fun _ _ _ => parentIndices_lt) bounded
    intro vertex cycle
    exact acyclic _ (Relation.TransGen.lift (fun vertex : Fin buffers.length => buffers[vertex])
      hands_of_parentIndices _ _ cycle)
  have indices : (TopologicalSort.sort buffers.length (parentIndices buffers)).Perm
      (List.range buffers.length) := by
    refine (List.perm_ext_iff_of_nodup TopologicalSort.sort_nodup List.nodup_range).mpr ?_
    intro index
    rw [List.mem_range]
    exact ⟨TopologicalSort.lt_of_mem_sort, complete index⟩
  have permuted := filterMap_range_getElem? buffers ▸ indices.filterMap fun index => buffers[index]?
  refine ⟨_, ?_, permuted⟩
  unfold topologicalSort
  rw [if_pos permuted.length_eq]

theorem sortByKey_perm (buffers : List LifetimeBoundBuffer) : (sortByKey buffers).Perm buffers :=
  List.perm_insertionSort _ _

theorem Acyclic.mono {buffers others : List LifetimeBoundBuffer} (acyclic : Acyclic buffers)
    (included : others ⊆ buffers) : Acyclic others := by
  intro buffer cycle
  refine acyclic buffer (Relation.TransGen.mono ?_ _ _ cycle)
  exact fun parent child hands =>
    ⟨included hands.parentIn, included hands.childIn, hands.declared⟩

/-! ## Plans -/

section Plan

variable {policy : Policy} {buffers : List LifetimeBoundBuffer} {limit alignment : ℤ}

/-- The addresses of a finished loop, read back onto all buffers, are a safe plan. -/
theorem Placing.safePlan (unique : UniqueNames buffers)
    (unplanned : ∀ buffer ∈ buffers, buffer.address = none)
    {done : List LifetimeBoundBuffer} {namesToAddresses : String → Option ℤ}
    (placing : Placing buffers limit alignment done namesToAddresses)
    (allowed : ∀ buffer ∈ done, excluded limit buffer = none) :
    SafePlan buffers limit alignment
      (buffers.map fun buffer => buffer.located (namesToAddresses buffer.name)) := by
  -- A planned buffer with an address is one of those the loop placed.
  have isDone : ∀ planned ∈ buffers.map fun buffer =>
      buffer.located (namesToAddresses buffer.name), ∀ address,
      planned.address = some address → planned ∈ done := by
    intro planned inPlan address located
    obtain ⟨buffer, membership, rfl⟩ := List.mem_map.mp inPlan
    obtain ⟨other, otherIn, sameName, otherAt⟩ := (placing.lookup buffer.name address).mp located
    have same := eq_of_name_eq unique (placing.origin other otherIn) membership sameName
    have rebuilt : buffer.located (namesToAddresses buffer.name) = other := by
      rw [← same]
      change other.located (namesToAddresses other.name) = other
      rw [sameName, show namesToAddresses buffer.name = some address from located, ← otherAt]
      rfl
    rwa [rebuilt]
  constructor
  case sameBuffers =>
    rw [List.map_map]
    exact map_located_none unplanned
  case withinLimit =>
    intro planned inPlan address located
    exact placing.withinLimit planned (isDone planned inPlan address located) address located
  case barred =>
    intro planned inPlan isBarred
    by_contra placed
    obtain ⟨address, located⟩ := Option.ne_none_iff_exists'.mp placed
    exact isBarred (allowed planned (isDone planned inPlan address located))
  case separate =>
    intro first firstIn second secondIn distinct live firstAddress secondAddress firstAt secondAt
    refine placing.separate first (isDone first firstIn _ firstAt) second
      (isDone second secondIn _ secondAt) ?_ live _ _ firstAt secondAt
    intro sameName
    obtain ⟨firstBuffer, firstMember, rfl⟩ := List.mem_map.mp firstIn
    obtain ⟨secondBuffer, secondMember, rfl⟩ := List.mem_map.mp secondIn
    exact distinct (by rw [eq_of_name_eq unique firstMember secondMember sameName])

theorem SafePlan.safeHandoffs (unique : UniqueNames buffers)
    (accepted : checkInPlaceRelationships buffers = .ok ()) {plan : List LifetimeBoundBuffer}
    (safe : SafePlan buffers limit alignment plan) : SafeHandoffs plan := by
  have origin : ∀ planned ∈ plan, planned.located none ∈ buffers := by
    intro planned inPlan
    rw [← safe.sameBuffers]
    exact List.mem_map_of_mem inPlan
  have starts : ∀ child ∈ plan, ∀ parent ∈ plan, SharesSlot child parent →
      parent.endTime = child.startTime + 1 := by
    intro child childIn parent parentIn shares
    have declared : (parent.located none).name ∈ (child.located none).inPlaceParents :=
      shares.declared
    exact (checked_pair unique accepted (origin child childIn) (origin parent parentIn) declared).1
  constructor
  case siblings =>
    intro parent parentIn first firstIn second secondIn distinct placed firstPositive
      secondPositive firstShares secondShares
    obtain ⟨slot, parentAt⟩ := Option.ne_none_iff_exists'.mp placed
    -- Both children start at the parent's last tick, so they are live together.
    have sameStart : first.startTime = second.startTime := by
      have firstStart := starts first firstIn parent parentIn firstShares
      have secondStart := starts second secondIn parent parentIn secondShares
      omega
    have live : first.overlapsInTime second :=
      ⟨sameStart ▸ second.startTime_lt_endTime, sameStart ▸ first.startTime_lt_endTime⟩
    rcases safe.separate first firstIn second secondIn distinct live slot slot
        (firstShares.sameAddress.trans parentAt) (secondShares.sameAddress.trans parentAt) with
      disjoint | shares
    · refine absurd ?_ (disjoint slot ⟨le_refl _, ?_⟩)
      · exact ⟨le_refl _, by simp only; omega⟩
      · simp only
        omega
    · exact shares
  case bystanders =>
    intro parent parentIn child childIn other otherIn notParent notChild shares live slot address
      childAt otherAt
    rcases live with withChild | withParent
    · rcases safe.separate other otherIn child childIn notChild withChild address slot otherAt
          childAt with disjoint | handed | handed
      · exact .inl disjoint.symm
      · exact .inr (.inl handed)
      · exact .inr (.inr (.inl handed))
    · rcases safe.separate other otherIn parent parentIn notParent withParent address slot otherAt
          (shares.sameAddress.symm.trans childAt) with disjoint | handed | handed
      · have smaller := shares.contained
        refine .inl (Extent.disjoint_of_subset ?_ ?_ disjoint.symm)
        · exact le_refl slot
        · unfold Extent.stop
          simp only
          omega
      · exact .inr (.inr (.inr (.inl handed)))
      · exact .inr (.inr (.inr (.inr handed)))

end Plan

theorem acyclic_of_rank {buffers : List LifetimeBoundBuffer} (rank : LifetimeBoundBuffer → ℕ)
    (increasing : ∀ parent ∈ buffers, ∀ child ∈ buffers, parent.name ∈ child.inPlaceParents →
      rank parent < rank child) : Acyclic buffers := by
  have climbs : ∀ first last, Relation.TransGen (Hands buffers) first last →
      rank first < rank last := by
    intro first last chain
    induction chain with
    | single edge => exact increasing _ edge.parentIn _ edge.childIn edge.declared
    | tail _ edge inductionHypothesis =>
        exact lt_trans inductionHypothesis
          (increasing _ edge.parentIn _ edge.childIn edge.declared)
  exact fun buffer cycle => lt_irrefl _ (climbs buffer buffer cycle)

/-! ## A slot handed over twice -/

def handedRoot : LifetimeBoundBuffer :=
  { LifetimeBoundBuffer.usedTwice "root" 128 0 0 with firstUseIsRead := true }

def handedView : LifetimeBoundBuffer :=
  { name := "view", size := 128, uses := [1], firstUseIsRead := true, inPlaceParents := ["root"] }

/-- Declares the root and the view, which end at the same tick. -/
def handedChild : LifetimeBoundBuffer :=
  { LifetimeBoundBuffer.usedTwice "child" 128 1 0 with inPlaceParents := ["root", "view"] }

def handedGrandchild : LifetimeBoundBuffer :=
  { LifetimeBoundBuffer.usedTwice "grandchild" 128 2 0 with inPlaceParents := ["child"] }

def handed : List LifetimeBoundBuffer := [handedRoot, handedView, handedChild, handedGrandchild]

def independent (name : String) : LifetimeBoundBuffer := .usedTwice name 128 0 0

theorem handed_acyclic : Acyclic handed :=
  acyclic_of_rank (fun buffer => handed.idxOf buffer) (by decide)

end TorchSpyre.Scratchpad.FirstFit
