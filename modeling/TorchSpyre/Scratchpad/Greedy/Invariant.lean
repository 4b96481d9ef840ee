import Mathlib
import TorchSpyre.Scratchpad.Greedy.FreeBlock

/-!
# The invariant of the time walk

The ledger records every placement made so far and every slot handed from a
parent to a child.  Two entries of `usage` either lie apart or are linked by a
chain of handed slots; an entry that left `usage` has expired.  Both facts
together keep all placements with intersecting lifetimes apart, or linked.
-/

namespace TorchSpyre.Scratchpad.Greedy

open Lib

structure Ledger where
  placed : List Placement
  taken : List (Placement × Placement)

namespace Ledger

variable (ledger : Ledger)

/-- Slots handed on from the first placement to the second. -/
def Chain : Placement → Placement → Prop :=
  Relation.TransGen fun parent child => (parent, child) ∈ ledger.taken

def Apart (first second : Placement) : Prop :=
  first.extent.Disjoint second.extent ∨ ledger.Chain first second ∨ ledger.Chain second first

variable {ledger}

theorem Apart.symm {first second : Placement} (apart : ledger.Apart first second) :
    ledger.Apart second first := by
  rcases apart with disjoint | forward | backward
  · exact .inl disjoint.symm
  · exact .inr (.inr forward)
  · exact .inr (.inl backward)

theorem Apart.mono {other : Ledger} (included : ledger.taken ⊆ other.taken)
    {first second : Placement} (apart : ledger.Apart first second) :
    other.Apart first second := by
  have lift : ∀ {left right}, ledger.Chain left right → other.Chain left right :=
    fun chain => Relation.TransGen.mono (fun _ _ edge => included edge) _ _ chain
  rcases apart with disjoint | forward | backward
  · exact .inl disjoint
  · exact .inr (.inl (lift forward))
  · exact .inr (.inr (lift backward))

/-- The first link of a chain. -/
theorem Chain.exists_taken {first second : Placement} (chain : ledger.Chain first second) :
    ∃ child, (first, child) ∈ ledger.taken := by
  obtain ⟨child, edge, -⟩ := Relation.TransGen.head'_iff.mp chain
  exact ⟨child, edge⟩

end Ledger

section Invariant

variable (buffers : List LifetimeBoundBuffer) (limit alignment : ℤ)

structure Holds (now : ℤ) (state : State) (ledger : Ledger) : Prop where
  addresses : ∀ name address, state.addresses name = some address ↔
    ∃ placement ∈ ledger.placed, placement.buffer.name = name ∧ placement.address = address
  known : ∀ placement ∈ ledger.placed,
    placement.buffer ∈ buffers ∧ excluded limit placement.buffer = none
  bounds : ∀ placement ∈ ledger.placed,
    0 ≤ placement.address ∧ alignment ∣ placement.address ∧ placement.extent.stop ≤ limit
  used : ∀ placement ∈ state.usage, placement ∈ ledger.placed
  expired : ∀ placement ∈ ledger.placed, placement ∉ state.usage → placement.buffer.endTime ≤ now
  reused : state.reusedParents = ledger.taken.map fun slot => slot.1.buffer.name
  parents : (ledger.taken.map fun slot => slot.1.buffer.name).Nodup
  children : (ledger.taken.map fun slot => slot.2.buffer.name).Nodup
  handed : ∀ slot ∈ ledger.taken, slot.1 ∈ ledger.placed ∧ slot.2 ∈ ledger.placed ∧
    slot.1.buffer.name ∈ slot.2.buffer.inPlaceParents ∧ slot.1.address = slot.2.address
  clear : ∀ first ∈ state.usage, ∀ second ∈ state.usage, first ≠ second →
    ledger.Apart first second
  separate : ∀ first ∈ ledger.placed, ∀ second ∈ ledger.placed, first ≠ second →
    first.buffer.overlapsInTime second.buffer → ledger.Apart first second

variable {buffers limit alignment} {now : ℤ} {state : State} {ledger : Ledger}

theorem Holds.later (holds : Holds buffers limit alignment now state ledger) {next : ℤ}
    (passed : now ≤ next) : Holds buffers limit alignment next state ledger :=
  { holds with
    expired := fun placement membership gone =>
      le_trans (holds.expired placement membership gone) passed }

/-- Removing an expired buffer from `usage` keeps the invariant. -/
theorem Holds.deallocate (holds : Holds buffers limit alignment now state ledger)
    {buffer : LifetimeBoundBuffer} (ended : buffer.endTime = now) :
    Holds buffers limit alignment now (tryDeallocate state buffer) ledger := by
  have kept : (tryDeallocate state buffer).usage ⊆ state.usage := List.eraseP_subset
  refine { holds with used := ?_, expired := ?_, clear := ?_ }
  · exact fun placement membership => holds.used placement (kept membership)
  · intro placement membership gone
    by_cases wasUsed : placement ∈ state.usage
    · by_cases isBuffer : placement.buffer = buffer
      · rw [isBuffer, ended]
      · exact absurd ((List.mem_eraseP_of_neg (by simpa using isBuffer)).mpr wasUsed) gone
    · exact holds.expired placement membership wasUsed
  · exact fun first firstIn second secondIn =>
      holds.clear first (kept firstIn) second (kept secondIn)

theorem Holds.deallocateAt (holds : Holds buffers limit alignment now state ledger)
    (placeable : List LifetimeBoundBuffer) :
    Holds buffers limit alignment now (deallocateAt now state placeable) ledger := by
  unfold Greedy.deallocateAt
  induction placeable generalizing state with
  | nil => exact holds
  | cons head tail inductionHypothesis =>
      rw [List.foldl_cons]
      split
      next ended => exact inductionHypothesis (holds.deallocate ended.symm)
      next => exact inductionHypothesis holds

/-- What is needed of a buffer that is about to be placed. -/
structure Ready (buffers : List LifetimeBoundBuffer) (limit now : ℤ) (state : State)
    (buffer : LifetimeBoundBuffer) : Prop where
  membership : buffer ∈ buffers
  allowed : excluded limit buffer = none
  unplaced : state.addresses buffer.name = none
  ahead : now ≤ buffer.startTime

section Place

variable (holds : Holds buffers limit alignment now state ledger) {buffer : LifetimeBoundBuffer}
  (ready : Ready buffers limit now state buffer)

include holds ready

theorem Holds.name_ne {placement : Placement} (membership : placement ∈ ledger.placed) :
    placement.buffer.name ≠ buffer.name := by
  intro sameName
  have located := (holds.addresses buffer.name placement.address).mpr
    ⟨placement, membership, sameName, rfl⟩
  rw [ready.unplaced] at located
  cases located

/-- Adding a placement that lies apart from everything in use. -/
theorem Holds.place {address : ℤ} {taken : List (Placement × Placement)} {reused : List String}
    (bounds : 0 ≤ address ∧ alignment ∣ address ∧ address + buffer.size ≤ limit)
    (included : ledger.taken ⊆ taken)
    (reusedEq : reused = taken.map fun slot => slot.1.buffer.name)
    (parents : (taken.map fun slot => slot.1.buffer.name).Nodup)
    (children : (taken.map fun slot => slot.2.buffer.name).Nodup)
    (handed : ∀ slot ∈ taken, slot ∈ ledger.taken ∨
      slot.1 ∈ ledger.placed ∧ slot.2 = ⟨buffer, address⟩ ∧
        slot.1.buffer.name ∈ buffer.inPlaceParents ∧ slot.1.address = address)
    (clear : ∀ other ∈ state.usage,
      Ledger.Apart ⟨ledger.placed ++ [⟨buffer, address⟩], taken⟩ other ⟨buffer, address⟩) :
    Holds buffers limit alignment now
      { state.place buffer address with reusedParents := reused }
      ⟨ledger.placed ++ [⟨buffer, address⟩], taken⟩ := by
  have grown : ∀ {first second}, ledger.Apart first second →
      Ledger.Apart ⟨ledger.placed ++ [⟨buffer, address⟩], taken⟩ first second :=
    fun apart => apart.mono included
  have newApart : ∀ other ∈ ledger.placed, other.buffer.overlapsInTime buffer →
      Ledger.Apart ⟨ledger.placed ++ [⟨buffer, address⟩], taken⟩ other ⟨buffer, address⟩ := by
    intro other membership overlap
    by_cases wasUsed : other ∈ state.usage
    · exact clear other wasUsed
    · have gone := holds.expired other membership wasUsed
      have ahead := ready.ahead
      have starts := overlap.2
      omega
  constructor
  · intro name value
    simp only [State.place, Function.update_apply, List.mem_append, List.mem_singleton]
    by_cases isNew : name = buffer.name
    · subst isNew
      simp only [if_true, Option.some.injEq]
      constructor
      · rintro rfl
        exact ⟨⟨buffer, address⟩, .inr rfl, rfl, rfl⟩
      · rintro ⟨placement, old | rfl, sameName, sameAddress⟩
        · exact absurd sameName (holds.name_ne ready old)
        · exact sameAddress
    · simp only [if_neg isNew, holds.addresses]
      constructor
      · rintro ⟨placement, membership, facts⟩
        exact ⟨placement, .inl membership, facts⟩
      · rintro ⟨placement, old | rfl, sameName, sameAddress⟩
        · exact ⟨placement, old, sameName, sameAddress⟩
        · exact absurd sameName.symm isNew
  · intro placement membership
    rcases List.mem_append.mp membership with old | isNew
    · exact holds.known placement old
    · rw [List.mem_singleton.mp isNew]
      exact ⟨ready.membership, ready.allowed⟩
  · intro placement membership
    rcases List.mem_append.mp membership with old | isNew
    · exact holds.bounds placement old
    · rw [List.mem_singleton.mp isNew]
      exact bounds
  · intro placement membership
    rcases List.mem_append.mp membership with old | isNew
    · exact List.mem_append_left _ (holds.used placement old)
    · exact List.mem_append_right _ isNew
  · intro placement membership gone
    rcases List.mem_append.mp membership with old | isNew
    · exact holds.expired placement old fun wasUsed => gone (List.mem_append_left _ wasUsed)
    · exact absurd (List.mem_append_right _ isNew) gone
  · exact reusedEq
  · exact parents
  · exact children
  · intro slot membership
    rcases handed slot membership with old | ⟨parentPlaced, isChild, declared, sameAddress⟩
    · obtain ⟨parentPlaced, childPlaced, facts⟩ := holds.handed slot old
      exact ⟨List.mem_append_left _ parentPlaced, List.mem_append_left _ childPlaced, facts⟩
    · refine ⟨List.mem_append_left _ parentPlaced, ?_, ?_, ?_⟩
      · rw [isChild]
        exact List.mem_append_right _ (List.mem_singleton_self _)
      · rw [isChild]
        exact declared
      · rw [isChild]
        exact sameAddress
  · intro first firstIn second secondIn distinct
    rcases List.mem_append.mp firstIn with firstOld | firstNew
    · rcases List.mem_append.mp secondIn with secondOld | secondNew
      · exact grown (holds.clear first firstOld second secondOld distinct)
      · rw [List.mem_singleton.mp secondNew]
        exact clear first firstOld
    · rcases List.mem_append.mp secondIn with secondOld | secondNew
      · rw [List.mem_singleton.mp firstNew]
        exact (clear second secondOld).symm
      · rw [List.mem_singleton.mp firstNew, List.mem_singleton.mp secondNew] at distinct
        exact absurd rfl distinct
  · intro first firstIn second secondIn distinct overlap
    rcases List.mem_append.mp firstIn with firstOld | firstNew
    · rcases List.mem_append.mp secondIn with secondOld | secondNew
      · exact grown (holds.separate first firstOld second secondOld distinct overlap)
      · rw [List.mem_singleton.mp secondNew] at overlap ⊢
        exact newApart first firstOld overlap
    · rcases List.mem_append.mp secondIn with secondOld | secondNew
      · rw [List.mem_singleton.mp firstNew] at overlap ⊢
        exact (newApart second secondOld (LifetimeBoundBuffer.overlapsInTime_symm overlap)).symm
      · rw [List.mem_singleton.mp firstNew, List.mem_singleton.mp secondNew] at distinct
        exact absurd rfl distinct

omit holds ready in
theorem inPlaceSlot_eq_some {parent : Placement} (found : inPlaceSlot state buffer = some parent) :
    parent ∈ state.usage ∧ parent.buffer.name ∈ buffer.inPlaceParents ∧
      parent.buffer.name ∉ state.reusedParents ∧ buffer.size ≤ parent.buffer.size := by
  obtain ⟨parentName, declared, selected⟩ := List.exists_of_findSome?_eq_some found
  split_ifs at selected with reused
  split at selected
  · simp at selected
  next candidate matched =>
    split_ifs at selected with fits
    cases selected
    have named : parent.buffer.name = parentName := by simpa using List.find?_some matched
    rw [named]
    exact ⟨List.mem_of_find?_eq_some matched, declared, reused, fits⟩

/-- Taking over the slot of a parent that still owns it. -/
theorem Holds.takeSlot {parent : Placement} (found : inPlaceSlot state buffer = some parent) :
    Holds buffers limit alignment now
      { state.place buffer parent.address with
        reusedParents := parent.buffer.name :: state.reusedParents }
      ⟨ledger.placed ++ [⟨buffer, parent.address⟩],
        (parent, ⟨buffer, parent.address⟩) :: ledger.taken⟩ := by
  obtain ⟨parentUsed, declared, notReused, fits⟩ := inPlaceSlot_eq_some found
  have parentPlaced := holds.used parent parentUsed
  obtain ⟨nonneg, aligned, inside⟩ := holds.bounds parent parentPlaced
  apply holds.place ready
  · unfold Placement.extent Extent.stop at inside
    simp only at inside
    exact ⟨nonneg, aligned, by omega⟩
  · exact List.subset_cons_self _ _
  · rw [List.map_cons, holds.reused]
  · rw [List.map_cons, List.nodup_cons]
    exact ⟨holds.reused ▸ notReused, holds.parents⟩
  · rw [List.map_cons, List.nodup_cons]
    refine ⟨?_, holds.children⟩
    intro membership
    obtain ⟨slot, isTaken, sameName⟩ := List.mem_map.mp membership
    exact holds.name_ne ready (holds.handed slot isTaken).2.1 sameName
  · intro slot membership
    rcases List.mem_cons.mp membership with rfl | old
    · exact .inr ⟨parentPlaced, rfl, declared, rfl⟩
    · exact .inl old
  · intro other otherUsed
    have lastLink : Relation.TransGen (fun left right =>
        (left, right) ∈ (parent, (⟨buffer, parent.address⟩ : Placement)) :: ledger.taken)
          parent ⟨buffer, parent.address⟩ := .single List.mem_cons_self
    by_cases isParent : other = parent
    · rw [isParent]
      exact .inr (.inl lastLink)
    · rcases holds.clear other otherUsed parent parentUsed isParent with disjoint | before | after
      · have sameOffset : parent.extent.offset ≤
            (⟨buffer, parent.address⟩ : Placement).extent.offset := le_refl _
        have shorter : (⟨buffer, parent.address⟩ : Placement).extent.stop ≤ parent.extent.stop := by
          unfold Placement.extent Extent.stop
          simp only
          omega
        exact .inl (Extent.disjoint_of_subset sameOffset shorter disjoint.symm).symm
      · refine .inr (.inl (Relation.TransGen.trans ?_ lastLink))
        exact Relation.TransGen.mono (fun _ _ edge => List.mem_cons_of_mem _ edge) _ _ before
      · -- A parent at the head of a chain has given its slot away already.
        obtain ⟨child, isTaken⟩ := Ledger.Chain.exists_taken after
        refine absurd ?_ notReused
        rw [holds.reused]
        exact List.mem_map_of_mem (f := fun slot => slot.1.buffer.name) isTaken

/-- A single allocation places the buffer or changes nothing. -/
theorem Holds.tryAllocateOne (rounds : RoundsUp limit alignment) {next : State}
    (allocated : tryAllocateOne limit alignment state buffer = .ok next) :
    (∃ address nextLedger, Holds buffers limit alignment now next nextLedger ∧
      next.addresses = Function.update state.addresses buffer.name (some address) ∧
      next.rejected = state.rejected) ∨ next = state := by
  unfold Greedy.tryAllocateOne at allocated
  split at allocated
  next parent found =>
    cases allocated
    exact .inl ⟨parent.address, _, holds.takeSlot ready found, rfl, rfl⟩
  next =>
    split at allocated
    · simp at allocated
    next address found =>
      cases allocated
      have free := findFreeBlock_free rounds
        (fun placement used => ⟨(holds.bounds placement (holds.used placement used)).1,
          (holds.bounds placement (holds.used placement used)).2.2⟩) found
      refine .inl ⟨address, ⟨ledger.placed ++ [⟨buffer, address⟩], ledger.taken⟩, ?_, rfl, rfl⟩
      apply holds.place ready ⟨free.nonneg, free.aligned, free.fits⟩ (List.Subset.refl _)
        holds.reused holds.parents holds.children
      · exact fun slot membership => .inl membership
      · exact fun other otherUsed => .inl (free.clear other otherUsed).symm
    next =>
      cases allocated
      refine .inr ?_
      have same : Function.update state.addresses buffer.name none = state.addresses := by
        rw [← ready.unplaced, Function.update_eq_self]
      rw [same]

end Place

/-! ## Groups -/

theorem Holds.withRejected (holds : Holds buffers limit alignment now state ledger)
    (rejected : List String) :
    Holds buffers limit alignment now { state with rejected := rejected } ledger :=
  ⟨holds.addresses, holds.known, holds.bounds, holds.used, holds.expired, holds.reused,
    holds.parents, holds.children, holds.handed, holds.clear, holds.separate⟩

/-- A group is placed completely, or the state before it comes back with the
members rejected. -/
theorem Holds.allocateGroup (rounds : RoundsUp limit alignment)
    {previous next : State} {group members : List LifetimeBoundBuffer}
    (holds : Holds buffers limit alignment now state ledger)
    (distinct : (members.map LifetimeBoundBuffer.name).Nodup)
    (ready : ∀ member ∈ members, Ready buffers limit now state member)
    (included : members ⊆ group)
    (placedBefore : ∀ member ∈ group, member ∉ members →
      (state.addresses member.name).isSome = true)
    (unplaced : ∀ member ∈ group, previous.addresses member.name = none)
    (outside : ∀ name, name ∉ group.map LifetimeBoundBuffer.name →
      state.addresses name = previous.addresses name)
    (sameRejected : state.rejected = previous.rejected)
    (allocated : allocateGroup limit alignment previous group state members = .ok next) :
    ((∃ nextLedger, Holds buffers limit alignment now next nextLedger) ∧
      (∀ member ∈ group, (next.addresses member.name).isSome = true) ∧
      (∀ name, name ∉ group.map LifetimeBoundBuffer.name →
        next.addresses name = previous.addresses name) ∧
      next.rejected = previous.rejected) ∨
    next = { previous with
      rejected := group.map LifetimeBoundBuffer.name ++ previous.rejected } := by
  induction members generalizing state ledger with
  | nil =>
      cases allocated
      exact .inl ⟨⟨ledger, holds⟩, fun member membership =>
        placedBefore member membership List.not_mem_nil, outside, sameRejected⟩
  | cons head tail inductionHypothesis =>
      have headReady := ready head List.mem_cons_self
      have headIn : head.name ∈ group.map LifetimeBoundBuffer.name :=
        List.mem_map_of_mem (included List.mem_cons_self)
      obtain ⟨headFresh, tailDistinct⟩ := List.nodup_cons.mp distinct
      simp only [Greedy.allocateGroup] at allocated
      split at allocated
      · simp at allocated
      next middle attempted =>
        rcases holds.tryAllocateOne headReady rounds attempted with
          ⟨address, middleLedger, middleHolds, updated, keptRejected⟩ | rfl
        · have placedHead : (middle.addresses head.name).isSome = true := by simp [updated]
          rw [if_pos placedHead] at allocated
          refine inductionHypothesis middleHolds tailDistinct ?_
            (fun member membership => included (List.mem_cons_of_mem _ membership)) ?_ ?_
            (keptRejected.trans sameRejected) allocated
          · intro member membership
            have old := ready member (List.mem_cons_of_mem _ membership)
            have otherName : member.name ≠ head.name := fun same =>
              headFresh (same ▸ List.mem_map_of_mem membership)
            refine ⟨old.membership, old.allowed, ?_, old.ahead⟩
            rw [updated, Function.update_of_ne otherName, old.unplaced]
          · intro member inGroup notInTail
            by_cases isHead : member.name = head.name
            · simp [updated, isHead]
            · rw [updated, Function.update_of_ne isHead]
              refine placedBefore member inGroup ?_
              rw [List.mem_cons, not_or]
              exact ⟨fun same => isHead (same ▸ rfl), notInTail⟩
          · intro name notInGroup
            have otherName : name ≠ head.name := fun same => notInGroup (same ▸ headIn)
            rw [updated, Function.update_of_ne otherName, outside name notInGroup]
        · have unplacedHead : ¬ (middle.addresses head.name).isSome = true := by
            simp [headReady.unplaced]
          rw [if_neg unplacedHead] at allocated
          cases allocated
          refine .inr ?_
          have restored : (fun name => if name ∈ group.map LifetimeBoundBuffer.name then none
              else middle.addresses name) = previous.addresses := by
            funext name
            split_ifs with inGroup
            · obtain ⟨member, membership, rfl⟩ := List.mem_map.mp inGroup
              exact (unplaced member membership).symm
            · exact outside name inGroup
          simp only [restored, sameRejected]

end Invariant

end TorchSpyre.Scratchpad.Greedy
