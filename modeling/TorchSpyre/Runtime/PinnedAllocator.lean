import Mathlib
import TorchSpyre.Lib.Extent
import TorchSpyre.Runtime.Launch

/-!
# The pinned host allocator

`SpyrePinnedAllocator` hands out host buffers of a staging cache and finds the allocation a pointer
lies in.  A transfer takes a reference to the allocation it reads or writes, since its tensor may be
freed while it is in flight.  Threads interleave between the locked sections: a buffer is acquired
before it is listed, and goes back to the cache with the last reference to it.
-/

namespace TorchSpyre.Runtime

open Lib

/-- `flex::PinnedBuffer` -/
structure PinnedBuffer where
  hmva : ℕ
  capacity : ℕ
deriving DecidableEq, Repr

def PinnedBuffer.extent (buffer : PinnedBuffer) : Extent := ⟨buffer.hmva, buffer.capacity⟩

structure PinnedAllocationState where
  buffer : PinnedBuffer
  cache : ℕ
deriving DecidableEq, Repr

structure PinnedAllocation where
  buffer : PinnedBuffer
  offset : ℕ
  capacity : ℕ
  owner : PinnedAllocationState
deriving DecidableEq, Repr

structure SpyrePinnedAllocator where
  allocations : List (ℕ × PinnedAllocationState)
  caches : List ℕ

namespace SpyrePinnedAllocator

/-- The part of `allocate` before the lock is taken. -/
def acquireState (runtime : Option (Option ℕ)) (acquire : ℕ → ℕ → Except String (Option PinnedBuffer))
    (size : ℕ) : Except String (Option PinnedAllocationState) :=
  if size = 0 then .ok none
  else match runtime with
    | none => .error "SpyrePinnedAllocator: RuntimeContext is not initialized"
    | some none => .error "SpyrePinnedAllocator: pinned staging cache is unavailable"
    | some (some cache) =>
        match acquire cache size with
        | .error error => .error s!"SpyrePinnedAllocator: failed to allocate {size} pinned bytes: {error}"
        | .ok none => .error "SpyrePinnedAllocator: pinned staging cache returned null"
        | .ok (some buffer) => .ok (some ⟨buffer, cache⟩)

/-- The locked part of `allocate`. -/
def emplace (allocator : SpyrePinnedAllocator) (state : PinnedAllocationState) :
    Except String (ℕ × SpyrePinnedAllocator) :=
  let pointer := state.buffer.hmva
  if pointer ∈ allocator.allocations.map Prod.fst then
    .error "SpyrePinnedAllocator: cache returned an active allocation"
  else
    .ok (pointer,
      { allocations := allocator.allocations.orderedInsert (fun first second => first.1 ≤ second.1)
          (pointer, state)
        caches := allocator.caches.insert state.cache })

/-- `deallocate`, with the reference it drops after the lock. -/
def deallocate (allocator : SpyrePinnedAllocator) (context : Option ℕ) :
    Option PinnedAllocationState × SpyrePinnedAllocator :=
  match context with
  | none => (none, allocator)
  | some pointer =>
      match allocator.allocations.find? fun entry => entry.1 = pointer with
      | none => (none, allocator)
      | some entry => (some entry.2, { allocator with allocations := allocator.allocations.erase entry })

/-- `findContaining` -/
def findContaining (allocator : SpyrePinnedAllocator) (address : ℕ) : Option (ℕ × PinnedAllocationState) :=
  match (allocator.allocations.takeWhile fun entry => entry.1 ≤ address).getLast? with
  | none => none
  | some entry => if address - entry.1 ≥ entry.2.buffer.capacity then none else some entry

/-- `isPinnedPtr` -/
def isPinnedPtr (allocator : SpyrePinnedAllocator) (address : ℕ) : Bool :=
  (allocator.findContaining address).isSome

/-- `retain` -/
def retain (allocator : SpyrePinnedAllocator) (address : ℕ) : Option PinnedAllocation :=
  match allocator.findContaining address with
  | none => none
  | some entry =>
      let offset := address - entry.1
      some ⟨entry.2.buffer, offset, entry.2.buffer.capacity - offset, entry.2⟩

end SpyrePinnedAllocator

/-! ## Transfers -/

/-- The host side of a transfer, by the factory that makes its parameters. -/
inductive HostMemory where
  | withPinnedBuffer (buffer : PinnedBuffer) (offset : ℕ) (hostLifetime : PinnedAllocationState)
  | withHostCapacity (cpuPtr : ℕ)
  | unbounded (cpuPtr : ℕ)
deriving DecidableEq, Repr

/-- `flex::DmaParams` -/
structure DmaParams where
  hostMemory : HostMemory
  hostCapacity : ℕ
  dmaSize : ℕ
  host2device : Bool
  deviceAddress : CompositeAddress
deriving DecidableEq, Repr

/-- `copyAsyncImpl`, up to the launch -/
def copyAsyncImpl (pinnedAllocation : Option PinnedAllocation) (cpuPtr hostCapacity : ℕ)
    (deviceAddress : CompositeAddress) (host2device : Bool) : Except String DmaParams :=
  match pinnedAllocation with
  | some pinned =>
      if ¬ hostCapacity ≤ pinned.capacity then
        .error ((if host2device then "H2D" else "D2H") ++ " host storage exceeds pinned allocation " ++
          s!"capacity: {hostCapacity} vs {pinned.capacity} bytes")
      else .ok ⟨.withPinnedBuffer pinned.buffer pinned.offset pinned.owner, hostCapacity,
        totalSize deviceAddress, host2device, deviceAddress⟩
  | none =>
      if host2device ∧ ¬ 0 < hostCapacity then
        .ok ⟨.unbounded cpuPtr, 0, totalSize deviceAddress, host2device, deviceAddress⟩
      else .ok ⟨.withHostCapacity cpuPtr, hostCapacity, totalSize deviceAddress, host2device, deviceAddress⟩

/-- The host bytes of a transfer. -/
def DmaParams.window (params : DmaParams) : Extent :=
  match params.hostMemory with
  | .withPinnedBuffer buffer offset _ => ⟨buffer.hmva + offset, params.hostCapacity⟩
  | .withHostCapacity cpuPtr => ⟨cpuPtr, params.hostCapacity⟩
  | .unbounded cpuPtr => ⟨cpuPtr, params.dmaSize⟩

def DmaParams.hostLifetime (params : DmaParams) : Option PinnedAllocationState :=
  match params.hostMemory with
  | .withPinnedBuffer _ _ owner => some owner
  | .withHostCapacity _ => none
  | .unbounded _ => none

/-! ## The process -/

/-- The allocator and whoever holds a reference to an allocation: `acquired` ones are not listed yet,
`held` are those of local variables, and `idle` the buffers of the caches. -/
structure PinnedSystem where
  allocator : SpyrePinnedAllocator
  states : List PinnedAllocationState
  idle : List PinnedAllocationState
  acquired : List PinnedAllocationState
  held : List PinnedAllocationState
  retained : List PinnedAllocation
  transfers : List DmaParams

namespace PinnedSystem

open SpyrePinnedAllocator

def empty : PinnedSystem := ⟨⟨[], []⟩, [], [], [], [], [], []⟩

/-- Someone holds a reference to the allocation. -/
inductive References (system : PinnedSystem) (state : PinnedAllocationState) : Prop where
  | listed (pointer : ℕ) (isListed : (pointer, state) ∈ system.allocator.allocations)
  | acquired (isAcquired : state ∈ system.acquired)
  | held (isHeld : state ∈ system.held)
  | retained (allocation : PinnedAllocation) (isRetained : allocation ∈ system.retained)
      (owns : allocation.owner = state)
  | transfer (params : DmaParams) (inFlight : params ∈ system.transfers)
      (owns : params.hostLifetime = some state)

def Apart (first second : PinnedAllocationState) : Prop :=
  first.buffer.extent.Disjoint second.buffer.extent

inductive Advances : PinnedSystem → PinnedSystem → Prop where
  | acquiresIdle {system : PinnedSystem} {runtime : Option (Option ℕ)}
      {acquire : ℕ → ℕ → Except String (Option PinnedBuffer)} {size : ℕ} {state : PinnedAllocationState}
      (acquired : acquireState runtime acquire size = .ok (some state))
      (fits : size ≤ state.buffer.capacity) (isIdle : state ∈ system.idle) :
      Advances system { system with
        states := state :: system.states
        idle := system.idle.erase state
        acquired := state :: system.acquired }
  -- A fresh mapping overlaps none that exists.
  | acquiresFresh {system : PinnedSystem} {runtime : Option (Option ℕ)}
      {acquire : ℕ → ℕ → Except String (Option PinnedBuffer)} {size : ℕ} {state : PinnedAllocationState}
      (acquired : acquireState runtime acquire size = .ok (some state))
      (fits : size ≤ state.buffer.capacity)
      (fresh : ∀ other ∈ system.states ++ system.idle, Apart state other) :
      Advances system { system with
        states := state :: system.states
        acquired := state :: system.acquired }
  | emplaces {system : PinnedSystem} {state : PinnedAllocationState} {pointer : ℕ}
      {allocator : SpyrePinnedAllocator} (isAcquired : state ∈ system.acquired)
      (emplaced : system.allocator.emplace state = .ok (pointer, allocator)) :
      Advances system { system with
        allocator := allocator
        acquired := system.acquired.erase state
        held := state :: system.held }
  | refuses {system : PinnedSystem} {state : PinnedAllocationState} {error : String}
      (isAcquired : state ∈ system.acquired) (refused : system.allocator.emplace state = .error error) :
      Advances system { system with
        acquired := system.acquired.erase state
        held := state :: system.held }
  | deallocates {system : PinnedSystem} {context : Option ℕ} {state : PinnedAllocationState}
      {allocator : SpyrePinnedAllocator}
      (deallocated : system.allocator.deallocate context = (some state, allocator)) :
      Advances system { system with
        allocator := allocator
        held := state :: system.held }
  | drops {system : PinnedSystem} (state : PinnedAllocationState) :
      Advances system { system with held := system.held.erase state }
  | retains {system : PinnedSystem} {address : ℕ} {allocation : PinnedAllocation}
      (retained : system.allocator.retain address = some allocation) :
      Advances system { system with retained := allocation :: system.retained }
  | launches {system : PinnedSystem} {allocation : PinnedAllocation} {cpuPtr hostCapacity : ℕ}
      {deviceAddress : CompositeAddress} {host2device : Bool} {params : DmaParams}
      (isRetained : allocation ∈ system.retained)
      (copied : copyAsyncImpl (some allocation) cpuPtr hostCapacity deviceAddress host2device = .ok params) :
      Advances system { system with transfers := params :: system.transfers }
  | launchesUnpinned {system : PinnedSystem} {cpuPtr hostCapacity : ℕ} {deviceAddress : CompositeAddress}
      {host2device : Bool} {params : DmaParams} (unpinned : system.allocator.retain cpuPtr = none)
      (copied : copyAsyncImpl none cpuPtr hostCapacity deviceAddress host2device = .ok params) :
      Advances system { system with transfers := params :: system.transfers }
  | forgets {system : PinnedSystem} (allocation : PinnedAllocation) :
      Advances system { system with retained := system.retained.erase allocation }
  | completes {system : PinnedSystem} (params : DmaParams) :
      Advances system { system with transfers := system.transfers.erase params }
  -- The destructor returns the buffer to its cache, or the buffer is freed.
  | destroys {system : PinnedSystem} {state : PinnedAllocationState} (isKept : Bool)
      (isState : state ∈ system.states) (unreferenced : ¬ system.References state) :
      Advances system { system with
        states := system.states.erase state
        idle := if isKept then state :: system.idle else system.idle }
  -- `empty_cache` drops the caches that are gone and clears the others.
  | expires {system : PinnedSystem} (expired : List ℕ)
      (isGone : ∀ state ∈ system.states, state.cache ∉ expired) :
      Advances system { system with
        allocator := { system.allocator with
          caches := system.allocator.caches.filter (· ∉ expired) } }
  | clears {system : PinnedSystem} {idle : List PinnedAllocationState} (cleared : idle.Sublist system.idle) :
      Advances system { system with idle := idle }

def Reaches (system : PinnedSystem) : Prop :=
  Relation.ReflTransGen Advances empty system

/-! ## The invariant -/

/-- Buffers that hold memory of their own. -/
structure Carved (buffers : List PinnedAllocationState) : Prop where
  positive : ∀ state ∈ buffers, 0 < state.buffer.capacity
  apart : buffers.Pairwise Apart

structure Sound (system : PinnedSystem) : Prop where
  carved : Carved (system.states ++ system.idle)
  sorted : system.allocator.allocations.Pairwise fun lower upper => lower.1 < upper.1
  keyed : ∀ entry ∈ system.allocator.allocations, entry.1 = entry.2.buffer.hmva
  registered : ∀ entry ∈ system.allocator.allocations, entry.2.cache ∈ system.allocator.caches
  listed : ∀ entry ∈ system.allocator.allocations, entry.2 ∈ system.states
  acquired : system.acquired ⊆ system.states
  acquiredOnce : system.acquired.Nodup
  unlisted : ∀ state ∈ system.acquired, ∀ entry ∈ system.allocator.allocations, entry.2 ≠ state
  held : system.held ⊆ system.states
  windows : ∀ allocation ∈ system.retained, allocation.owner ∈ system.states ∧
    allocation.buffer = allocation.owner.buffer ∧
    allocation.offset + allocation.capacity = allocation.buffer.capacity
  within : ∀ params ∈ system.transfers, ∀ owner, params.hostLifetime = some owner →
    owner ∈ system.states ∧ (owner.buffer.hmva : ℤ) ≤ params.window.offset ∧
      params.window.stop ≤ owner.buffer.extent.stop

/-! ## Memory -/

theorem Apart.symm {first second : PinnedAllocationState} (apart : Apart first second) : Apart second first :=
  Extent.Disjoint.symm apart

instance : Std.Symm Apart := ⟨fun _ _ => Apart.symm⟩

theorem contains_hmva {state : PinnedAllocationState} (positive : 0 < state.buffer.capacity) :
    state.buffer.extent.Contains state.buffer.hmva := by
  unfold PinnedBuffer.extent Extent.Contains
  dsimp only
  omega

theorem Carved.perm {first second : List PinnedAllocationState} (carved : Carved first)
    (permuted : first.Perm second) : Carved second :=
  ⟨fun state inside => carved.positive state (permuted.mem_iff.mpr inside),
    (permuted.pairwise_iff Apart.symm).mp carved.apart⟩

theorem Carved.sublist {first second : List PinnedAllocationState} (carved : Carved second)
    (sublist : first.Sublist second) : Carved first :=
  ⟨fun state inside => carved.positive state (sublist.subset inside), carved.apart.sublist sublist⟩

theorem Carved.cons {buffers : List PinnedAllocationState} {state : PinnedAllocationState}
    (carved : Carved buffers) (positive : 0 < state.buffer.capacity)
    (fresh : ∀ other ∈ buffers, Apart state other) : Carved (state :: buffers) :=
  ⟨List.forall_mem_cons.mpr ⟨positive, carved.positive⟩, List.pairwise_cons.mpr ⟨fresh, carved.apart⟩⟩

theorem Carved.nodup {buffers : List PinnedAllocationState} (carved : Carved buffers) : buffers.Nodup := by
  refine carved.apart.imp_of_mem ?_
  rintro first second firstIn - apart rfl
  have base := contains_hmva (carved.positive first firstIn)
  exact apart _ base base

/-- Memory names the allocation it belongs to. -/
theorem Carved.eq_of_contains {buffers : List PinnedAllocationState} (carved : Carved buffers)
    {first second : PinnedAllocationState} (firstIn : first ∈ buffers) (secondIn : second ∈ buffers)
    {point : ℤ} (inFirst : first.buffer.extent.Contains point)
    (inSecond : second.buffer.extent.Contains point) : first = second := by
  by_contra different
  exact carved.apart.forall firstIn secondIn different point inFirst inSecond

theorem Carved.eq_of_hmva {buffers : List PinnedAllocationState} (carved : Carved buffers)
    {first second : PinnedAllocationState} (firstIn : first ∈ buffers) (secondIn : second ∈ buffers)
    (sameBase : first.buffer.hmva = second.buffer.hmva) : first = second := by
  refine carved.eq_of_contains firstIn secondIn (contains_hmva (carved.positive first firstIn)) ?_
  rw [sameBase]
  exact contains_hmva (carved.positive second secondIn)

theorem pos_of_acquireState {runtime : Option (Option ℕ)}
    {acquire : ℕ → ℕ → Except String (Option PinnedBuffer)} {size : ℕ} {state : PinnedAllocationState}
    (acquired : acquireState runtime acquire size = .ok (some state)) : 0 < size := by
  unfold acquireState at acquired
  split at acquired
  · cases acquired
  · omega

/-! ## The map of allocations -/

theorem emplace_eq_ok {allocator after : SpyrePinnedAllocator} {state : PinnedAllocationState} {pointer : ℕ}
    (emplaced : allocator.emplace state = .ok (pointer, after)) :
    pointer = state.buffer.hmva ∧ state.buffer.hmva ∉ allocator.allocations.map Prod.fst ∧
      after.allocations = allocator.allocations.orderedInsert (fun first second => first.1 ≤ second.1)
        (state.buffer.hmva, state) ∧
      after.caches = allocator.caches.insert state.cache := by
  unfold emplace at emplaced
  dsimp only at emplaced
  split at emplaced
  · cases emplaced
  next absent =>
    cases emplaced
    exact ⟨rfl, absent, rfl, rfl⟩

theorem deallocate_eq_some {allocator after : SpyrePinnedAllocator} {context : Option ℕ}
    {state : PinnedAllocationState} (deallocated : allocator.deallocate context = (some state, after)) :
    ∃ pointer, (pointer, state) ∈ allocator.allocations ∧
      after = { allocator with allocations := allocator.allocations.erase (pointer, state) } := by
  unfold deallocate at deallocated
  split at deallocated
  · cases deallocated
  · split at deallocated
    · cases deallocated
    next entry found =>
      cases deallocated
      exact ⟨entry.1, List.mem_of_find?_eq_some found, rfl⟩

theorem pairwise_orderedInsert {allocations : List (ℕ × PinnedAllocationState)}
    {entry : ℕ × PinnedAllocationState} (sorted : allocations.Pairwise fun lower upper => lower.1 < upper.1)
    (absent : entry.1 ∉ allocations.map Prod.fst) :
    (allocations.orderedInsert (fun first second => first.1 ≤ second.1) entry).Pairwise
      fun lower upper => lower.1 < upper.1 := by
  induction allocations with
  | nil => exact List.pairwise_singleton _ _
  | cons head tail inductionHypothesis =>
      obtain ⟨below, tailSorted⟩ := List.pairwise_cons.mp sorted
      rw [List.map_cons, List.mem_cons, not_or] at absent
      rw [List.orderedInsert]
      split
      next before =>
        have first : entry.1 < head.1 := lt_of_le_of_ne before absent.1
        refine List.pairwise_cons.mpr ⟨?_, sorted⟩
        exact List.forall_mem_cons.mpr ⟨first, fun other inTail => first.trans (below other inTail)⟩
      next after =>
        refine List.pairwise_cons.mpr ⟨fun other inside => ?_, inductionHypothesis tailSorted absent.2⟩
        rcases (List.mem_orderedInsert _).mp inside with rfl | inTail
        · exact not_le.mp after
        · exact below other inTail

/-- The addresses an entry of the map stands for. -/
def entryExtent (entry : ℕ × PinnedAllocationState) : Extent := ⟨entry.1, entry.2.buffer.capacity⟩

theorem findContaining_eq_lookup (allocator : SpyrePinnedAllocator) (address : ℕ) :
    allocator.findContaining address = Extent.lookup entryExtent allocator.allocations address := by
  unfold findContaining Extent.lookup
  have samePrefix : (fun entry : ℕ × PinnedAllocationState => decide (entry.1 ≤ address)) =
      fun entry => decide ((entryExtent entry).offset ≤ (address : ℤ)) := by
    funext entry
    exact decide_eq_decide.mpr Nat.cast_le.symm
  rw [← samePrefix]
  split
  next isLast => rw [isLast, Option.filter_none]
  next entry isLast =>
    have starts : entry.1 ≤ address := by
      simpa using List.mem_takeWhile_imp (List.mem_of_getLast? isLast)
    rw [isLast, Option.filter_some]
    have sameTest : address - entry.1 ≥ entry.2.buffer.capacity ↔
        ¬ (address : ℤ) - (entryExtent entry).offset < (entryExtent entry).size := by
      show _ ↔ ¬ (address : ℤ) - (entry.1 : ℤ) < (entry.2.buffer.capacity : ℤ)
      omega
    simp only [sameTest, ite_not, decide_eq_true_eq]

section Sound

variable {system : PinnedSystem} {state : PinnedAllocationState}

theorem Sound.entryExtent_eq (sound : system.Sound) {entry : ℕ × PinnedAllocationState}
    (isListed : entry ∈ system.allocator.allocations) : entryExtent entry = entry.2.buffer.extent := by
  unfold entryExtent PinnedBuffer.extent
  rw [sound.keyed entry isListed]

/-- A pointer is looked up to the listed allocation it lies in. -/
theorem Sound.findContaining_iff (sound : system.Sound) {address : ℕ} {entry : ℕ × PinnedAllocationState} :
    system.allocator.findContaining address = some entry ↔
      entry ∈ system.allocator.allocations ∧ entry.2.buffer.extent.Contains address := by
  have positive : ∀ entry ∈ system.allocator.allocations, 0 < (entryExtent entry).size := by
    intro entry isListed
    have := sound.carved.positive _ (List.mem_append_left _ (sound.listed entry isListed))
    exact Int.natCast_pos.mpr this
  have disjoint : system.allocator.allocations.Pairwise fun first second =>
      (entryExtent first).Disjoint (entryExtent second) := by
    refine sound.sorted.imp_of_mem ?_
    intro first second firstListed secondListed below
    rw [sound.entryExtent_eq firstListed, sound.entryExtent_eq secondListed]
    refine sound.carved.apart.forall (List.mem_append_left _ (sound.listed first firstListed))
      (List.mem_append_left _ (sound.listed second secondListed)) ?_
    intro same
    rw [sound.keyed first firstListed, sound.keyed second secondListed, same] at below
    exact lt_irrefl _ below
  have sorted : system.allocator.allocations.Pairwise fun lower upper =>
      (entryExtent lower).offset < (entryExtent upper).offset :=
    sound.sorted.imp fun below => Nat.cast_lt.mpr below
  rw [findContaining_eq_lookup, Extent.lookup_eq_some_iff positive
    (Extent.ordered_of_disjoint positive sorted disjoint)]
  refine and_congr_right fun isListed => ?_
  rw [sound.entryExtent_eq isListed]

theorem Sound.mem_states (sound : system.Sound) (references : system.References state) :
    state ∈ system.states := by
  cases references with
  | listed pointer isListed => exact sound.listed _ isListed
  | acquired isAcquired => exact sound.acquired isAcquired
  | held isHeld => exact sound.held isHeld
  | retained allocation isRetained owns => exact owns ▸ (sound.windows allocation isRetained).1
  | transfer params inFlight owns => exact (sound.within params inFlight state owns).1

/-- The base of an acquired buffer is not in the map. -/
theorem Sound.hmva_notMem (sound : system.Sound) (isAcquired : state ∈ system.acquired) :
    state.buffer.hmva ∉ system.allocator.allocations.map Prod.fst := by
  intro isKey
  obtain ⟨entry, isListed, sameBase⟩ := List.mem_map.mp isKey
  refine sound.unlisted state isAcquired entry isListed ?_
  refine sound.carved.eq_of_hmva (List.mem_append_left _ (sound.listed entry isListed))
    (List.mem_append_left _ (sound.acquired isAcquired)) ?_
  rw [← sound.keyed entry isListed, sameBase]

/-! ## What each step keeps -/

theorem Sound.acquires (sound : system.Sound) {idle : List PinnedAllocationState}
    (carved : Carved (state :: system.states ++ idle)) :
    Sound { system with
      states := state :: system.states
      idle := idle
      acquired := state :: system.acquired } := by
  have isNew : state ∉ system.states := fun isState =>
    (List.nodup_cons.mp carved.nodup).1 (List.mem_append_left _ isState)
  refine { sound with
    carved := carved
    listed := fun entry isListed => List.mem_cons_of_mem _ (sound.listed entry isListed)
    acquired := List.cons_subset_cons _ sound.acquired
    acquiredOnce :=
      List.nodup_cons.mpr ⟨fun isAcquired => isNew (sound.acquired isAcquired), sound.acquiredOnce⟩
    unlisted := ?_
    held := List.subset_cons_of_subset _ sound.held
    windows := fun allocation isRetained =>
      (sound.windows allocation isRetained).imp_left (List.mem_cons_of_mem _)
    within := fun params inFlight owner retains =>
      (sound.within params inFlight owner retains).imp_left (List.mem_cons_of_mem _) }
  refine List.forall_mem_cons.mpr ⟨?_, sound.unlisted⟩
  rintro entry isListed rfl
  exact isNew (sound.listed entry isListed)

theorem Sound.emplaces (sound : system.Sound) {pointer : ℕ} {allocator : SpyrePinnedAllocator}
    (isAcquired : state ∈ system.acquired)
    (emplaced : system.allocator.emplace state = .ok (pointer, allocator)) :
    Sound { system with
      allocator := allocator
      acquired := system.acquired.erase state
      held := state :: system.held } := by
  obtain ⟨-, absent, allocationsEq, cachesEq⟩ := emplace_eq_ok emplaced
  have isEntry : ∀ {entry}, entry ∈ allocator.allocations →
      entry = (state.buffer.hmva, state) ∨ entry ∈ system.allocator.allocations := by
    intro entry isListed
    rwa [allocationsEq, List.mem_orderedInsert] at isListed
  refine { sound with
    sorted := ?_
    keyed := fun entry isListed => ?_
    registered := fun entry isListed => ?_
    listed := fun entry isListed => ?_
    acquired := fun _ inAcquired => sound.acquired (List.mem_of_mem_erase inAcquired)
    acquiredOnce := sound.acquiredOnce.erase state
    unlisted := fun other inAcquired entry isListed => ?_
    held := List.cons_subset.mpr ⟨sound.acquired isAcquired, sound.held⟩ }
  · show allocator.allocations.Pairwise _
    rw [allocationsEq]
    exact pairwise_orderedInsert sound.sorted absent
  · rcases isEntry isListed with rfl | before
    · rfl
    · exact sound.keyed entry before
  · show entry.2.cache ∈ allocator.caches
    rw [cachesEq]
    rcases isEntry isListed with rfl | before
    · exact List.mem_insert_self
    · exact List.mem_insert_of_mem (sound.registered entry before)
  · rcases isEntry isListed with rfl | before
    · exact sound.acquired isAcquired
    · exact sound.listed entry before
  · rcases isEntry isListed with rfl | before
    · rintro rfl
      exact sound.acquiredOnce.not_mem_erase inAcquired
    · exact sound.unlisted other (List.mem_of_mem_erase inAcquired) entry before

theorem Sound.refuses (sound : system.Sound) (isAcquired : state ∈ system.acquired) :
    Sound { system with
      acquired := system.acquired.erase state
      held := state :: system.held } :=
  { sound with
    acquired := fun _ inAcquired => sound.acquired (List.mem_of_mem_erase inAcquired)
    acquiredOnce := sound.acquiredOnce.erase state
    unlisted := fun other inAcquired => sound.unlisted other (List.mem_of_mem_erase inAcquired)
    held := List.cons_subset.mpr ⟨sound.acquired isAcquired, sound.held⟩ }

theorem Sound.deallocates (sound : system.Sound) {context : Option ℕ} {allocator : SpyrePinnedAllocator}
    (deallocated : system.allocator.deallocate context = (some state, allocator)) :
    Sound { system with
      allocator := allocator
      held := state :: system.held } := by
  obtain ⟨pointer, wasListed, rfl⟩ := deallocate_eq_some deallocated
  have kept : ∀ {entry}, entry ∈ system.allocator.allocations.erase (pointer, state) →
      entry ∈ system.allocator.allocations := List.mem_of_mem_erase
  exact { sound with
    sorted := sound.sorted.sublist List.erase_sublist
    keyed := fun entry isListed => sound.keyed entry (kept isListed)
    registered := fun entry isListed => sound.registered entry (kept isListed)
    listed := fun entry isListed => sound.listed entry (kept isListed)
    unlisted := fun other inAcquired entry isListed => sound.unlisted other inAcquired entry (kept isListed)
    held := List.cons_subset.mpr ⟨sound.listed _ wasListed, sound.held⟩ }

theorem Sound.retains (sound : system.Sound) {address : ℕ} {allocation : PinnedAllocation}
    (retained : system.allocator.retain address = some allocation) :
    Sound { system with retained := allocation :: system.retained } := by
  unfold retain at retained
  split at retained
  · cases retained
  next entry found =>
    cases retained
    obtain ⟨isListed, -, below⟩ := sound.findContaining_iff.mp found
    have key := sound.keyed entry isListed
    refine { sound with
      windows := List.forall_mem_cons.mpr ⟨⟨sound.listed entry isListed, rfl, ?_⟩, sound.windows⟩ }
    unfold PinnedBuffer.extent at below
    dsimp only at below ⊢
    omega

/-- The bytes of a transfer end before the buffer it retains does. -/
theorem copyAsyncImpl_within {allocation : PinnedAllocation} {cpuPtr hostCapacity : ℕ}
    {deviceAddress : CompositeAddress} {host2device : Bool} {params : DmaParams}
    (sameBuffer : allocation.buffer = allocation.owner.buffer)
    (toTheEnd : allocation.offset + allocation.capacity = allocation.buffer.capacity)
    (copied : copyAsyncImpl (some allocation) cpuPtr hostCapacity deviceAddress host2device = .ok params) :
    params.hostLifetime = some allocation.owner ∧
      (allocation.owner.buffer.hmva : ℤ) ≤ params.window.offset ∧
      params.window.stop ≤ allocation.owner.buffer.extent.stop := by
  unfold copyAsyncImpl at copied
  dsimp only at copied
  split at copied
  · cases copied
  next fits =>
    cases copied
    rw [sameBuffer] at toTheEnd
    unfold DmaParams.window DmaParams.hostLifetime PinnedBuffer.extent Extent.stop
    dsimp only
    rw [sameBuffer]
    exact ⟨rfl, by omega, by omega⟩

theorem copyAsyncImpl_unpinned {cpuPtr hostCapacity : ℕ} {deviceAddress : CompositeAddress}
    {host2device : Bool} {params : DmaParams}
    (copied : copyAsyncImpl none cpuPtr hostCapacity deviceAddress host2device = .ok params) :
    params.hostLifetime = none := by
  unfold copyAsyncImpl at copied
  dsimp only at copied
  split at copied <;>
    (cases copied
     rfl)

theorem Sound.launches (sound : system.Sound) {allocation : PinnedAllocation} {cpuPtr hostCapacity : ℕ}
    {deviceAddress : CompositeAddress} {host2device : Bool} {params : DmaParams}
    (isRetained : allocation ∈ system.retained)
    (copied : copyAsyncImpl (some allocation) cpuPtr hostCapacity deviceAddress host2device = .ok params) :
    Sound { system with transfers := params :: system.transfers } := by
  obtain ⟨isState, sameBuffer, toTheEnd⟩ := sound.windows allocation isRetained
  obtain ⟨retains, inside⟩ := copyAsyncImpl_within sameBuffer toTheEnd copied
  refine { sound with within := List.forall_mem_cons.mpr ⟨fun owner owns => ?_, sound.within⟩ }
  cases retains.symm.trans owns
  exact ⟨isState, inside⟩

theorem Sound.launchesUnpinned (sound : system.Sound) {cpuPtr hostCapacity : ℕ}
    {deviceAddress : CompositeAddress} {host2device : Bool} {params : DmaParams}
    (copied : copyAsyncImpl none cpuPtr hostCapacity deviceAddress host2device = .ok params) :
    Sound { system with transfers := params :: system.transfers } := by
  refine { sound with within := List.forall_mem_cons.mpr ⟨fun owner owns => ?_, sound.within⟩ }
  cases (copyAsyncImpl_unpinned copied).symm.trans owns

/-- Dropping references of local variables and of transfers. -/
theorem Sound.drops (sound : system.Sound) {held : List PinnedAllocationState}
    {retained : List PinnedAllocation} {transfers : List DmaParams} (heldKept : held ⊆ system.held)
    (retainedKept : retained ⊆ system.retained) (transfersKept : transfers ⊆ system.transfers) :
    Sound { system with
      held := held
      retained := retained
      transfers := transfers } :=
  { sound with
    held := fun _ isHeld => sound.held (heldKept isHeld)
    windows := fun allocation isRetained => sound.windows allocation (retainedKept isRetained)
    within := fun params inFlight => sound.within params (transfersKept inFlight) }

theorem Sound.destroys (sound : system.Sound) (isKept : Bool) (isState : state ∈ system.states)
    (unreferenced : ¬ system.References state) :
    Sound { system with
      states := system.states.erase state
      idle := if isKept then state :: system.idle else system.idle } := by
  have remains : ∀ {other}, other ∈ system.states → system.References other →
      other ∈ system.states.erase state := by
    intro other isOther references
    refine (List.mem_erase_of_ne ?_).mpr isOther
    rintro rfl
    exact unreferenced references
  refine { sound with
    carved := ?_
    listed := fun entry isListed => remains (sound.listed entry isListed) (.listed entry.1 isListed)
    acquired := fun _ isAcquired => remains (sound.acquired isAcquired) (.acquired isAcquired)
    held := fun _ isHeld => remains (sound.held isHeld) (.held isHeld)
    windows := fun allocation isRetained => ?_
    within := fun params inFlight owner retains => ?_ }
  · cases isKept with
    | true =>
        refine sound.carved.perm ((List.Perm.append_right _ (List.perm_cons_erase isState)).trans ?_)
        exact List.perm_middle.symm
    | false => exact sound.carved.sublist (List.Sublist.append_right List.erase_sublist _)
  · obtain ⟨isOwner, window⟩ := sound.windows allocation isRetained
    exact ⟨remains isOwner (.retained allocation isRetained rfl), window⟩
  · obtain ⟨isOwner, inside⟩ := sound.within params inFlight owner retains
    exact ⟨remains isOwner (.transfer params inFlight retains), inside⟩

theorem Sound.expires (sound : system.Sound) {expired : List ℕ}
    (isGone : ∀ state ∈ system.states, state.cache ∉ expired) :
    Sound { system with
      allocator := { system.allocator with
        caches := system.allocator.caches.filter (· ∉ expired) } } :=
  { sound with
    registered := fun entry isListed => List.mem_filter.mpr
      ⟨sound.registered entry isListed, decide_eq_true (isGone entry.2 (sound.listed entry isListed))⟩ }

theorem Sound.clears (sound : system.Sound) {idle : List PinnedAllocationState}
    (cleared : idle.Sublist system.idle) : Sound { system with idle := idle } :=
  { sound with carved := sound.carved.sublist (cleared.append_left _) }

theorem Sound.advances (sound : system.Sound) {next : PinnedSystem} (step : Advances system next) :
    next.Sound := by
  cases step with
  | acquiresIdle acquired fits isIdle =>
      refine sound.acquires (sound.carved.perm ?_)
      exact (List.Perm.append_left _ (List.perm_cons_erase isIdle)).trans List.perm_middle
  | acquiresFresh acquired fits fresh =>
      exact sound.acquires (sound.carved.cons ((pos_of_acquireState acquired).trans_le fits) fresh)
  | emplaces isAcquired emplaced => exact sound.emplaces isAcquired emplaced
  | refuses isAcquired refused => exact sound.refuses isAcquired
  | deallocates deallocated => exact sound.deallocates deallocated
  | drops state => exact sound.drops List.erase_subset (List.Subset.refl _) (List.Subset.refl _)
  | retains retained => exact sound.retains retained
  | launches isRetained copied => exact sound.launches isRetained copied
  | launchesUnpinned unpinned copied => exact sound.launchesUnpinned copied
  | forgets allocation => exact sound.drops (List.Subset.refl _) List.erase_subset (List.Subset.refl _)
  | completes params => exact sound.drops (List.Subset.refl _) (List.Subset.refl _) List.erase_subset
  | destroys isKept isState unreferenced => exact sound.destroys isKept isState unreferenced
  | expires expired isGone => exact sound.expires isGone
  | clears cleared => exact sound.clears cleared

theorem empty_sound : Sound empty := by
  constructor
  case carved => exact ⟨by simp [empty], List.Pairwise.nil⟩
  all_goals simp [empty]

theorem Reaches.sound (reaches : system.Reaches) : system.Sound := by
  induction reaches with
  | refl => exact empty_sound
  | tail _ step inductionHypothesis => exact inductionHypothesis.advances step

/-- A pointer into a listed allocation is retained with the rest of its buffer. -/
theorem Sound.retain_eq_some_iff (sound : system.Sound) {address : ℕ} {allocation : PinnedAllocation} :
    system.allocator.retain address = some allocation ↔
      ∃ entry ∈ system.allocator.allocations, entry.2.buffer.extent.Contains address ∧
        allocation.owner = entry.2 ∧ allocation.buffer = entry.2.buffer ∧
        entry.1 + allocation.offset = address ∧
        allocation.offset + allocation.capacity = entry.2.buffer.capacity := by
  have within : ∀ entry ∈ system.allocator.allocations, entry.2.buffer.extent.Contains address →
      entry.1 ≤ address ∧ address < entry.1 + entry.2.buffer.capacity := by
    rintro entry isListed ⟨lower, upper⟩
    have key := sound.keyed entry isListed
    unfold PinnedBuffer.extent at lower upper
    dsimp only at lower upper
    exact ⟨by omega, by omega⟩
  unfold retain
  constructor
  · intro retained
    split at retained
    · cases retained
    next entry found =>
      cases retained
      obtain ⟨isListed, contained⟩ := sound.findContaining_iff.mp found
      obtain ⟨lower, upper⟩ := within entry isListed contained
      exact ⟨entry, isListed, contained, rfl, rfl, by dsimp only; omega, by dsimp only; omega⟩
  · rintro ⟨entry, isListed, contained, sameOwner, sameBuffer, start, toTheEnd⟩
    obtain ⟨lower, upper⟩ := within entry isListed contained
    rw [sound.findContaining_iff.mpr ⟨isListed, contained⟩]
    obtain ⟨buffer, offset, capacity, owner⟩ := allocation
    dsimp only at sameOwner sameBuffer start toTheEnd ⊢
    subst sameOwner sameBuffer
    refine congrArg some ?_
    rw [PinnedAllocation.mk.injEq]
    exact ⟨rfl, by omega, by omega, rfl⟩

/-- A buffer of 256 bytes, and a copy of 128 of them whose tensor was freed after the launch. -/
def staged : PinnedAllocationState := ⟨⟨4096, 256⟩, 0⟩

def stagedCopy : DmaParams :=
  ⟨.withPinnedBuffer staged.buffer 64 staged, 128, 128, false, [⟨0, 0, 128, 0⟩]⟩

def freedInFlight : PinnedSystem := ⟨⟨[], [0]⟩, [staged], [], [], [], [], [stagedCopy]⟩

theorem freedInFlight_reaches : freedInFlight.Reaches := by
  have acquired : acquireState (some (some 0)) (fun _ _ => .ok (some staged.buffer)) 200 =
      .ok (some staged) := rfl
  have acquires := Relation.ReflTransGen.refl.tail
    (@Advances.acquiresFresh empty _ _ _ staged acquired (by decide) (by simp [empty]))
  have emplaces := acquires.tail (@Advances.emplaces _ staged _ _ List.mem_cons_self rfl)
  have retains := emplaces.tail (@Advances.retains _ 4160 _ rfl)
  have launches := retains.tail
    (@Advances.launches _ _ 4160 128 [⟨0, 0, 128, 0⟩] false _ List.mem_cons_self rfl)
  have deallocates := launches.tail (@Advances.deallocates _ (some 4096) _ _ rfl)
  have forgets := deallocates.tail (.forgets ⟨staged.buffer, 64, 192, staged⟩)
  exact (forgets.tail (.drops staged)).tail (.drops staged)

end Sound

end PinnedSystem

end TorchSpyre.Runtime
