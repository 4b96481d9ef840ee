import TorchSpyre.Scratchpad.ExhaustiveSearch.Search

/-!
# Inner solvers

What the exhaustive search relies on in the solver it wraps, and the plainest solver that
provides it: one that stacks its buffers.
-/

namespace TorchSpyre.Scratchpad.ExhaustiveSearch

open Lib

/-- What is asked of an inner solver: it plans the buffers it was given, and none that is
barred. -/
structure PlansItsBuffers (inner : InnerSolver) : Prop where
  sameNames : ∀ buffers limit alignment allocation, inner buffers limit alignment = .ok allocation →
    (allocation.map Allocation.name).Perm (buffers.map LifetimeBoundBuffer.name)
  barred : ∀ buffers, UniqueNames buffers →
    ∀ limit alignment, 0 < alignment →
    ∀ allocation, inner buffers limit alignment = .ok allocation →
    ∀ a ∈ allocation, a.address.isSome → ∀ buffer ∈ buffers, buffer.name = a.name →
      buffer.residencyReason = none

/-- A placed buffer: when it is live, whose storage it may take, and its bytes. -/
structure Slot where
  name : String
  startTime : ℤ
  endTime : ℤ
  inPlaceParents : List String
  bytes : Extent
  deriving DecidableEq

namespace Slot

def overlapsInTime (first second : Slot) : Prop :=
  first.startTime < second.endTime ∧ second.startTime < first.endTime

/-- A declared child whose bytes are among its parent's. -/
structure InPlaceOf (child parent : Slot) : Prop where
  declared : parent.name ∈ child.inPlaceParents
  lower : parent.bytes.offset ≤ child.bytes.offset
  upper : child.bytes.stop ≤ parent.bytes.stop

end Slot

structure SafeSlots (limit alignment : ℤ) (slots : List Slot) : Prop where
  within : ∀ slot ∈ slots,
    alignment ∣ slot.bytes.offset ∧ 0 ≤ slot.bytes.offset ∧ slot.bytes.stop ≤ limit
  separate : ∀ first ∈ slots, ∀ second ∈ slots, first.name ≠ second.name →
    first.overlapsInTime second →
      first.bytes.Disjoint second.bytes ∨ first.InPlaceOf second ∨ second.InPlaceOf first

def addressOf (allocation : List Allocation) (name : String) : Option ℤ :=
  (allocation.reverse.find? fun a => a.name = name).bind Allocation.address

def plannedSlot (allocation : List Allocation) (buffer : LifetimeBoundBuffer) : Option Slot :=
  (addressOf allocation buffer.name).map fun address =>
    { name := buffer.name
      startTime := buffer.startTime
      endTime := buffer.endTime
      inPlaceParents := buffer.inPlaceParents
      bytes := ⟨address, buffer.size⟩ }

/-- The solver's plans are safe for the limit and the alignment it is built with. -/
def HonoursParameters (inner : InnerSolver) : Prop :=
  ∀ limit alignment, 0 < alignment → ∀ buffers, UniqueNames buffers →
    ∀ allocation, inner buffers limit alignment = .ok allocation →
      SafeSlots limit alignment (buffers.filterMap (plannedSlot allocation))

/-! ## Stacking -/

/-- Each unbarred buffer goes to the next aligned address above those before it, if it fits. -/
def stackFrom (limit alignment : ℤ) : ℤ → List LifetimeBoundBuffer → List Allocation
  | _, [] => []
  | top, buffer :: rest =>
      let address := ceilDiv top alignment * alignment
      if buffer.residencyReason = none ∧ address + buffer.size ≤ limit then
        ⟨buffer.name, some address, none⟩ ::
          stackFrom limit alignment (address + buffer.size) rest
      else ⟨buffer.name, none, some "does not fit"⟩ :: stackFrom limit alignment top rest

def stacking : InnerSolver := fun buffers limit alignment =>
  .ok (stackFrom limit alignment 0 buffers)

section Stacking

variable {limit alignment : ℤ}

theorem names_stackFrom (top : ℤ) (buffers : List LifetimeBoundBuffer) :
    (stackFrom limit alignment top buffers).map Allocation.name =
      buffers.map LifetimeBoundBuffer.name := by
  induction buffers generalizing top with
  | nil => rfl
  | cons buffer rest inductionHypothesis =>
      rw [stackFrom]
      split
      next => rw [List.map_cons, inductionHypothesis, List.map_cons]
      next => rw [List.map_cons, inductionHypothesis, List.map_cons]

theorem le_ceilDiv_mul (positive : 0 < alignment) (top : ℤ) :
    top ≤ ceilDiv top alignment * alignment := by
  have floor := Int.ediv_mul_le (-top) (ne_of_gt positive)
  unfold ceilDiv
  linarith

/-- What a stack from `top` places is unbarred, aligned and within the limit, above `top`. -/
theorem stackFrom_placed (positive : 0 < alignment) {top : ℤ} {buffers : List LifetimeBoundBuffer} :
    ∀ entry ∈ buffers.zip (stackFrom limit alignment top buffers), entry.2.name = entry.1.name ∧
      ∀ address, entry.2.address = some address → entry.1.residencyReason = none ∧
        top ≤ address ∧ alignment ∣ address ∧ address + entry.1.size ≤ limit := by
  induction buffers generalizing top with
  | nil => simp [stackFrom]
  | cons buffer rest inductionHypothesis =>
      have above := le_ceilDiv_mul positive top
      have grown := Int.natCast_nonneg buffer.size
      intro entry inside
      rw [stackFrom] at inside
      split at inside
      next fits =>
        rw [List.zip_cons_cons] at inside
        rcases List.mem_cons.mp inside with rfl | later
        · refine ⟨rfl, ?_⟩
          intro address isPlaced
          cases isPlaced
          exact ⟨fits.1, above, dvd_mul_left _ _, fits.2⟩
        · obtain ⟨named, placed⟩ := inductionHypothesis entry later
          refine ⟨named, ?_⟩
          intro address isPlaced
          obtain ⟨unbarred, higher, rest⟩ := placed address isPlaced
          exact ⟨unbarred, by linarith, rest⟩
      next =>
        rw [List.zip_cons_cons] at inside
        rcases List.mem_cons.mp inside with rfl | later
        · refine ⟨rfl, ?_⟩
          intro address isPlaced
          cases isPlaced
        · exact inductionHypothesis entry later

/-- Two buffers beside their allocations occupy disjoint bytes. -/
def Apart (one other : LifetimeBoundBuffer × Allocation) : Prop :=
  ∀ low high, one.2.address = some low → other.2.address = some high →
    Extent.Disjoint ⟨low, one.1.size⟩ ⟨high, other.1.size⟩

instance : Std.Symm Apart where
  symm _ _ apart low high isLow isHigh := (apart high low isHigh isLow).symm

/-- Later buffers are stacked above earlier ones. -/
theorem stackFrom_apart (positive : 0 < alignment) {top : ℤ} {buffers : List LifetimeBoundBuffer} :
    (buffers.zip (stackFrom limit alignment top buffers)).Pairwise Apart := by
  induction buffers generalizing top with
  | nil => exact List.Pairwise.nil
  | cons buffer rest inductionHypothesis =>
      rw [stackFrom]
      split
      next =>
        rw [List.zip_cons_cons]
        refine List.Pairwise.cons ?_ inductionHypothesis
        intro entry later low high isLow isHigh
        cases isLow
        apply Extent.disjoint_of_stop_le
        exact ((stackFrom_placed positive entry later).2 high isHigh).2.1
      next =>
        rw [List.zip_cons_cons]
        refine List.Pairwise.cons ?_ inductionHypothesis
        intro entry later low high isLow isHigh
        cases isLow

theorem addressOf_eq {allocation : List Allocation} (distinct : (allocation.map Allocation.name).Nodup)
    {a : Allocation} (inside : a ∈ allocation) : addressOf allocation a.name = a.address := by
  unfold addressOf
  cases found : allocation.reverse.find? fun other => other.name = a.name with
  | none =>
      have missing := List.find?_eq_none.mp found a (List.mem_reverse.mpr inside)
      simp at missing
  | some other =>
      have otherIn := List.mem_reverse.mp (List.mem_of_find?_eq_some found)
      have named : other.name = a.name := by simpa using List.find?_some found
      rw [List.inj_on_of_nodup_map distinct otherIn inside named, Option.bind_some]

/-- Each planned buffer stands beside its allocation. -/
theorem exists_zip_of_mem {buffers : List LifetimeBoundBuffer} {allocation : List Allocation}
    (count : allocation.length = buffers.length) :
    (∀ buffer ∈ buffers, ∃ a, (buffer, a) ∈ buffers.zip allocation) ∧
      ∀ a ∈ allocation, ∃ buffer, (buffer, a) ∈ buffers.zip allocation := by
  constructor
  · intro buffer inside
    rw [← List.map_fst_zip (le_of_eq count.symm)] at inside
    obtain ⟨⟨_, a⟩, paired, rfl⟩ := List.mem_map.mp inside
    exact ⟨a, paired⟩
  · intro a inside
    rw [← List.map_snd_zip (le_of_eq count)] at inside
    obtain ⟨⟨buffer, _⟩, paired, rfl⟩ := List.mem_map.mp inside
    exact ⟨buffer, paired⟩

theorem length_stackFrom (top : ℤ) (buffers : List LifetimeBoundBuffer) :
    (stackFrom limit alignment top buffers).length = buffers.length := by
  rw [← List.length_map Allocation.name, names_stackFrom, List.length_map]

theorem stacking_plansItsBuffers : PlansItsBuffers stacking := by
  constructor
  · intro buffers limit alignment allocation planned
    cases planned
    rw [names_stackFrom]
  · intro buffers unique limit alignment positive allocation planned a inside placed buffer isBuffer named
    cases planned
    obtain ⟨owner, paired⟩ := (exists_zip_of_mem (length_stackFrom 0 buffers)).2 a inside
    obtain ⟨address, isPlaced⟩ := Option.isSome_iff_exists.mp placed
    obtain ⟨sameName, allowed⟩ := stackFrom_placed positive _ paired
    rw [List.inj_on_of_nodup_map unique isBuffer (List.of_mem_zip paired).1 (named.trans sameName)]
    exact (allowed address isPlaced).1

theorem stacking_honoursParameters : HonoursParameters stacking := by
  intro limit alignment positive buffers unique allocation planned
  cases planned
  have distinct : ((stackFrom limit alignment 0 buffers).map Allocation.name).Nodup := by
    rw [names_stackFrom]
    exact unique
  -- A slot is a buffer beside its allocation.
  have slots : ∀ slot ∈ buffers.filterMap (plannedSlot (stackFrom limit alignment 0 buffers)),
      ∃ entry ∈ buffers.zip (stackFrom limit alignment 0 buffers),
        entry.1.name = slot.name ∧ slot.bytes.size = entry.1.size ∧
          entry.2.address = some slot.bytes.offset := by
    intro slot inside
    obtain ⟨buffer, isBuffer, isSlot⟩ := List.mem_filterMap.mp inside
    obtain ⟨address, addressed, rfl⟩ := Option.map_eq_some_iff.mp isSlot
    obtain ⟨a, paired⟩ := (exists_zip_of_mem (length_stackFrom 0 buffers)).1 buffer isBuffer
    refine ⟨(buffer, a), paired, rfl, rfl, ?_⟩
    rw [← addressed, ← (stackFrom_placed positive _ paired).1]
    exact (addressOf_eq distinct (List.of_mem_zip paired).2).symm
  constructor
  · intro slot inside
    obtain ⟨entry, paired, -, size, placed⟩ := slots slot inside
    obtain ⟨-, started, aligned, inLimit⟩ := (stackFrom_placed positive entry paired).2 _ placed
    refine ⟨aligned, started, ?_⟩
    rw [Extent.stop, size]
    exact inLimit
  · intro first firstIn second secondIn different _
    left
    obtain ⟨one, onePaired, oneNamed, oneSize, onePlaced⟩ := slots first firstIn
    obtain ⟨other, otherPaired, otherNamed, otherSize, otherPlaced⟩ := slots second secondIn
    have distinctEntries : one ≠ other := by
      rintro rfl
      exact different (oneNamed.symm.trans otherNamed)
    have apart := (stackFrom_apart positive).forall onePaired otherPaired distinctEntries
    have disjoint := apart _ _ onePlaced otherPlaced
    rw [← oneSize, ← otherSize] at disjoint
    exact disjoint

end Stacking

end TorchSpyre.Scratchpad.ExhaustiveSearch
