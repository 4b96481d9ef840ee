import Mathlib
import TorchSpyre.Lib.Extent

/-!
# The HBM pool allocator

`Allocator` hands out byte offsets of the intermediates segment.  Freed blocks
go to the end of a free list that is scanned first-fit and never coalesced;
when no free block is large enough the pool end is bumped.  `Session` puts a
client next to the allocator: it remembers which blocks are live, which sizes
were requested and which offsets came back.
-/

namespace TorchSpyre.HbmPool

open Lib

/-- Fields of the source's `Allocator`: free blocks in list order, the bump
pointer, the segment size, and the bytes in use now and at the peak. -/
structure Allocator where
  free : List Extent
  poolEnd : ℤ
  segmentSize : ℤ
  currentlyAllocated : ℤ
  peakUsage : ℤ
  deriving DecidableEq, Repr

namespace Allocator

def init (segmentSize : ℕ) : Allocator where
  free := []
  poolEnd := 0
  segmentSize := segmentSize
  currentlyAllocated := 0
  peakUsage := 0

/-- The `for`/`else` scan: position and contents of the first free block that
is large enough. -/
def firstFit (size : ℤ) : List Extent → ℕ → Option (ℕ × Extent)
  | [], _ => none
  | block :: rest, position =>
      if size ≤ block.size then some (position, block)
      else firstFit size rest (position + 1)

/-- The free list after the hit of `firstFit` is popped and its remainder, if
there is one, appended. -/
def takeBlock (free : List Extent) (size : ℤ) : Option (ℕ × Extent) → List Extent
  | none => free
  | some (position, block) =>
      let remainder := block.size - size
      if 0 < remainder then
        free.eraseIdx position ++ [⟨block.offset + size, remainder⟩]
      else free.eraseIdx position

def allocate (allocator : Allocator) (size : ℤ) : Option ℤ × Allocator :=
  let hit := firstFit size allocator.free 0
  let (offset, newPoolEnd) : ℤ × ℤ :=
    match hit with
    | some (_, block) => (block.offset, allocator.poolEnd)
    | none => (allocator.poolEnd, allocator.poolEnd + size)
  if newPoolEnd > allocator.segmentSize then (none, allocator)
  else
    let currentlyAllocated := allocator.currentlyAllocated + size
    (some offset,
      { free := takeBlock allocator.free size hit
        poolEnd := newPoolEnd
        segmentSize := allocator.segmentSize
        currentlyAllocated := currentlyAllocated
        peakUsage := max currentlyAllocated allocator.peakUsage })

/-- The source's `free(offset, size)`. -/
def release (allocator : Allocator) (block : Extent) : Allocator :=
  { allocator with
    free := allocator.free ++ [block]
    currentlyAllocated := allocator.currentlyAllocated - block.size }

theorem firstFit_eq_some {size : ℤ} {blocks : List Extent} {start position : ℕ} {block : Extent}
    (found : firstFit size blocks start = some (position, block)) :
    ∃ before after, blocks = before ++ block :: after ∧
      position = start + before.length ∧ size ≤ block.size := by
  induction blocks generalizing start with
  | nil => simp [firstFit] at found
  | cons head tail inductionHypothesis =>
      unfold firstFit at found
      split at found
      next fits =>
        cases found
        exact ⟨[], tail, rfl, rfl, fits⟩
      next small =>
        rcases inductionHypothesis found with ⟨before, after, split, index, fits⟩
        refine ⟨head :: before, after, by rw [split]; rfl, ?_, fits⟩
        rw [index, List.length_cons]
        omega

/-- What a successful scan does to the free list, up to order: the hit block is
replaced by its remainder. -/
theorem takeBlock_perm {size : ℤ} {free : List Extent} {position : ℕ} {block : Extent}
    (found : firstFit size free 0 = some (position, block)) :
    ∃ rest, free.Perm (block :: rest) ∧ size ≤ block.size ∧
      (takeBlock free size (some (position, block))).Perm
        (if 0 < block.size - size then ⟨block.offset + size, block.size - size⟩ :: rest
          else rest) := by
  rcases firstFit_eq_some found with ⟨before, after, split, index, fits⟩
  rw [Nat.zero_add] at index
  refine ⟨before ++ after, by rw [split]; exact List.perm_middle, fits, ?_⟩
  have erased : free.eraseIdx position = before ++ after := by
    rw [split, index, List.eraseIdx_append_of_length_le (le_refl _)]
    simp
  unfold takeBlock
  simp only [erased]
  split
  · exact List.perm_append_comm
  · exact List.Perm.refl _

/-- Everything `allocate` can do: leave the allocator alone, carve the block
out of a free one, or bump the pool end. -/
theorem allocate_cases (allocator : Allocator) (size : ℤ) :
    (allocator.allocate size = (none, allocator)) ∨
    (∃ block rest free, allocator.free.Perm (block :: rest) ∧ size ≤ block.size ∧
      free.Perm (if 0 < block.size - size then
        ⟨block.offset + size, block.size - size⟩ :: rest else rest) ∧
      allocator.allocate size = (some block.offset,
        { allocator with
          free := free
          currentlyAllocated := allocator.currentlyAllocated + size
          peakUsage := max (allocator.currentlyAllocated + size) allocator.peakUsage })) ∨
    (allocator.poolEnd + size ≤ allocator.segmentSize ∧
      allocator.allocate size = (some allocator.poolEnd,
        { allocator with
          poolEnd := allocator.poolEnd + size
          currentlyAllocated := allocator.currentlyAllocated + size
          peakUsage := max (allocator.currentlyAllocated + size) allocator.peakUsage })) := by
  unfold allocate
  cases found : firstFit size allocator.free 0 with
  | none =>
      by_cases overflow : allocator.poolEnd + size > allocator.segmentSize
      · exact .inl (by simp [overflow])
      · exact .inr (.inr ⟨not_lt.mp overflow, by simp [overflow, takeBlock]⟩)
  | some hit =>
      rcases hit with ⟨position, block⟩
      by_cases overflow : allocator.poolEnd > allocator.segmentSize
      · exact .inl (by simp [overflow])
      · rcases takeBlock_perm found with ⟨rest, freePerm, fits, takenPerm⟩
        exact .inr (.inl ⟨block, rest, _, freePerm, fits, takenPerm, by simp [overflow]⟩)

/-- Carving `size` bytes out of a free block keeps the tiling. -/
theorem tiles_carve {live free rest taken : List Extent} {block : Extent} {size stop : ℤ}
    (tiles : Extent.Tiles (live ++ free) stop)
    (freePerm : free.Perm (block :: rest)) (nonneg : 0 ≤ size) (fits : size ≤ block.size)
    (takenPerm : taken.Perm (if 0 < block.size - size then
      ⟨block.offset + size, block.size - size⟩ :: rest else rest)) :
    Extent.Tiles (⟨block.offset, size⟩ :: live ++ taken) stop := by
  rcases block with ⟨offset, blockSize⟩
  intro point
  have before := tiles point
  rw [Extent.cover_append, Extent.cover_perm freePerm] at before
  rw [List.cons_append, Extent.cover_cons, Extent.cover_append, Extent.cover_perm takenPerm,
    ← before]
  have divided := Extent.cover_split offset size blockSize nonneg fits rest point
  simp only [Extent.cover_cons] at divided ⊢
  split
  next leftover =>
    rw [Extent.cover_cons]
    omega
  next exactFit =>
    have empty : ¬ (Extent.mk (offset + size) (blockSize - size)).Contains point := by
      simp only [Extent.Contains]
      omega
    rw [if_neg empty] at divided
    omega

/-- A block handed out joins the tiling of the live and free blocks. -/
theorem allocate_tiles {allocator next : Allocator} {live : List Extent} {size offset : ℤ}
    (tiles : Extent.Tiles (live ++ allocator.free) allocator.poolEnd)
    (poolEndNonneg : 0 ≤ allocator.poolEnd) (nonneg : 0 ≤ size)
    (allocated : allocator.allocate size = (some offset, next)) :
    Extent.Tiles (⟨offset, size⟩ :: live ++ next.free) next.poolEnd ∧
      0 ≤ next.poolEnd := by
  rcases allocate_cases allocator size with
    refused | ⟨block, rest, free, freePerm, fits, takenPerm, carved⟩ | ⟨-, bumped⟩
  · cases refused.symm.trans allocated
  · cases carved.symm.trans allocated
    exact ⟨tiles_carve tiles freePerm nonneg fits takenPerm, poolEndNonneg⟩
  · cases bumped.symm.trans allocated
    exact ⟨tiles.extend size poolEndNonneg nonneg, add_nonneg poolEndNonneg nonneg⟩

end Allocator

/-- A client of one allocator: live blocks, sizes requested so far, offsets
returned so far. -/
structure Session where
  allocator : Allocator
  live : List Extent
  requested : List ℤ
  returned : List ℤ
  deriving DecidableEq, Repr

namespace Session

def start (segmentSize : ℕ) : Session := ⟨.init segmentSize, [], [], []⟩

def allocate (session : Session) (size : ℤ) : Session :=
  match session.allocator.allocate size with
  | (none, allocator) =>
      { session with allocator := allocator, requested := size :: session.requested }
  | (some offset, allocator) =>
      { allocator := allocator
        live := ⟨offset, size⟩ :: session.live
        requested := size :: session.requested
        returned := offset :: session.returned }

def release (session : Session) (block : Extent) : Session :=
  { session with
    allocator := session.allocator.release block
    live := session.live.erase block }

/-- All states of a run, newest first: `allocate` is called with positive sizes
and `free` returns a live block, which then stops being live. -/
inductive Run (segmentSize : ℕ) : List Session → Prop where
  | start : Run segmentSize [start segmentSize]
  | allocate {session past} (size : ℤ) :
      Run segmentSize (session :: past) → 0 < size →
      Run segmentSize (session.allocate size :: session :: past)
  | release {session past} (block : Extent) :
      Run segmentSize (session :: past) → block ∈ session.live →
      Run segmentSize (session.release block :: session :: past)

def liveSize (session : Session) : ℤ := (session.live.map Extent.size).sum

/-- What holds between any two calls. -/
structure Invariant (segmentSize : ℕ) (session : Session) : Prop where
  segment : session.allocator.segmentSize = segmentSize
  poolEnd_nonneg : 0 ≤ session.allocator.poolEnd
  poolEnd_le : session.allocator.poolEnd ≤ segmentSize
  live_pos : ∀ block ∈ session.live, 0 < block.size
  free_pos : ∀ block ∈ session.allocator.free, 0 < block.size
  tiles : Extent.Tiles (session.live ++ session.allocator.free) session.allocator.poolEnd
  current : session.allocator.currentlyAllocated = session.liveSize

theorem start_invariant (segmentSize : ℕ) : Invariant segmentSize (start segmentSize) where
  segment := rfl
  poolEnd_nonneg := le_refl _
  poolEnd_le := Int.natCast_nonneg _
  live_pos := by simp [start]
  free_pos := by simp [start, Allocator.init]
  tiles := by
    intro point
    have outside : ¬ (0 ≤ point ∧ point < 0) := by omega
    simp [start, Allocator.init, outside]
  current := by simp [start, Allocator.init, liveSize]

theorem allocate_invariant {segmentSize : ℕ} {session : Session} {size : ℤ}
    (invariant : Invariant segmentSize session) (positive : 0 < size) :
    Invariant segmentSize (session.allocate size) := by
  rcases Allocator.allocate_cases session.allocator size with
    refused | ⟨block, rest, free, freePerm, fits, takenPerm, carved⟩ | ⟨room, bumped⟩
  · unfold allocate
    rw [refused]
    exact { invariant with }
  · unfold allocate
    rw [carved]
    refine { invariant with live_pos := ?_, free_pos := ?_, tiles := ?_, current := ?_ }
    · simpa [positive] using invariant.live_pos
    · intro other membership
      have inTaken := takenPerm.mem_iff.mp membership
      have restPositive : ∀ kept ∈ rest, 0 < kept.size := fun kept inRest =>
        invariant.free_pos kept (freePerm.mem_iff.mpr (List.mem_cons_of_mem _ inRest))
      split at inTaken
      next leftover =>
        rcases List.mem_cons.mp inTaken with isRemainder | inRest
        · rw [isRemainder]
          exact leftover
        · exact restPositive other inRest
      next exactFit => exact restPositive other inTaken
    · exact Allocator.tiles_carve invariant.tiles freePerm (le_of_lt positive) fits takenPerm
    · have current := invariant.current
      unfold liveSize at current ⊢
      simp only [List.map_cons, List.sum_cons, current]
      omega
  · unfold allocate
    rw [bumped]
    have current := invariant.current
    refine { invariant with
      poolEnd_nonneg := ?_, poolEnd_le := ?_, live_pos := ?_, tiles := ?_, current := ?_ }
    · exact add_nonneg invariant.poolEnd_nonneg (le_of_lt positive)
    · exact invariant.segment ▸ room
    · simpa [positive] using invariant.live_pos
    · exact invariant.tiles.extend size invariant.poolEnd_nonneg (le_of_lt positive)
    · unfold liveSize at current ⊢
      simp only [List.map_cons, List.sum_cons, current]
      omega

theorem release_invariant {segmentSize : ℕ} {session : Session} {block : Extent}
    (invariant : Invariant segmentSize session) (live : block ∈ session.live) :
    Invariant segmentSize (session.release block) := by
  have livePerm := List.perm_cons_erase live
  refine { invariant with live_pos := ?_, free_pos := ?_, tiles := ?_, current := ?_ }
  · exact fun other membership => invariant.live_pos other (List.mem_of_mem_erase membership)
  · intro other membership
    rcases List.mem_append.mp membership with inFree | isBlock
    · exact invariant.free_pos other inFree
    · rw [List.mem_singleton.mp isBlock]
      exact invariant.live_pos block live
  · apply invariant.tiles.perm
    simp only [release, Allocator.release]
    -- The block moves from the live list to the end of the free list.
    refine (livePerm.append_right _).trans ?_
    rw [List.cons_append, ← List.append_assoc]
    exact (List.perm_append_singleton _ _).symm
  · have total : session.liveSize = block.size + ((session.live.erase block).map Extent.size).sum := by
      unfold liveSize
      rw [(livePerm.map Extent.size).sum_eq, List.map_cons, List.sum_cons]
    have current := invariant.current
    unfold liveSize
    simp only [release, Allocator.release]
    omega

theorem run_invariant {segmentSize : ℕ} {session : Session} {past : List Session}
    (run : Run segmentSize (session :: past)) : Invariant segmentSize session := by
  generalize traceEquality : session :: past = trace at run
  induction run generalizing session past with
  | start =>
      cases traceEquality
      exact start_invariant segmentSize
  | allocate size _ positive inductionHypothesis =>
      cases traceEquality
      exact allocate_invariant (inductionHypothesis rfl) positive
  | release block _ live inductionHypothesis =>
      cases traceEquality
      exact release_invariant (inductionHypothesis rfl) live

theorem poolEnd_le_allocate (session : Session) {size : ℤ} (positive : 0 < size) :
    session.allocator.poolEnd ≤ (session.allocate size).allocator.poolEnd := by
  unfold allocate
  rcases Allocator.allocate_cases session.allocator size with
    refused | ⟨block, rest, free, -, -, -, carved⟩ | ⟨-, bumped⟩
  · rw [refused]
  · rw [carved]
  · rw [bumped]
    exact le_add_of_nonneg_right (le_of_lt positive)

theorem run_poolEnd_mono {segmentSize : ℕ} {trace : List Session}
    (run : Run segmentSize trace) :
    trace.Pairwise fun newer older => older.allocator.poolEnd ≤ newer.allocator.poolEnd := by
  -- Each new state only has to be compared with the one before it.
  have extend : ∀ {next session : Session} {past : List Session},
      session.allocator.poolEnd ≤ next.allocator.poolEnd →
      (session :: past).Pairwise
        (fun newer older => older.allocator.poolEnd ≤ newer.allocator.poolEnd) →
      (next :: session :: past).Pairwise
        (fun newer older => older.allocator.poolEnd ≤ newer.allocator.poolEnd) := by
    intro next session past step pairwise
    refine List.Pairwise.cons ?_ pairwise
    intro older membership
    rcases List.mem_cons.mp membership with rfl | inPast
    · exact step
    · exact le_trans ((List.pairwise_cons.mp pairwise).1 older inPast) step
  induction run with
  | start => exact List.pairwise_singleton _ _
  | allocate size _ positive inductionHypothesis =>
      exact extend (poolEnd_le_allocate _ positive) inductionHypothesis
  | release block _ live inductionHypothesis =>
      exact extend (le_refl _) inductionHypothesis

/-- The recorded peak is attained by some state of the trace and bounds all of
them. -/
def PeakOf (trace : List Session) (session : Session) : Prop :=
  (∀ state ∈ trace, state.allocator.currentlyAllocated ≤ session.allocator.peakUsage) ∧
    ∃ state ∈ trace, state.allocator.currentlyAllocated = session.allocator.peakUsage

theorem peakOf_cons_of_max {trace : List Session} {session next : Session}
    (peak : PeakOf trace session)
    (updated : next.allocator.peakUsage =
      max next.allocator.currentlyAllocated session.allocator.peakUsage) :
    PeakOf (next :: trace) next := by
  rcases peak with ⟨bound, state, membership, attained⟩
  constructor
  · intro other otherMembership
    rw [updated]
    rcases List.mem_cons.mp otherMembership with rfl | inTrace
    · exact le_max_left _ _
    · exact le_trans (bound other inTrace) (le_max_right _ _)
  · rw [updated]
    rcases le_total session.allocator.peakUsage next.allocator.currentlyAllocated with
      larger | smaller
    · exact ⟨next, List.mem_cons_self, (max_eq_left larger).symm⟩
    · exact ⟨state, List.mem_cons_of_mem _ membership, by rw [attained, max_eq_right smaller]⟩

theorem run_peakOf {segmentSize : ℕ} {session : Session} {past : List Session}
    (run : Run segmentSize (session :: past)) : PeakOf (session :: past) session := by
  generalize traceEquality : session :: past = trace at run
  induction run generalizing session past with
  | start =>
      cases traceEquality
      simp [PeakOf, start, Allocator.init]
  | @allocate session past size run positive inductionHypothesis =>
      cases traceEquality
      have earlier := inductionHypothesis rfl
      apply peakOf_cons_of_max earlier
      unfold allocate
      rcases Allocator.allocate_cases session.allocator size with
        refused | ⟨block, rest, free, -, -, -, carved⟩ | ⟨-, bumped⟩
      · rw [refused]
        exact (max_eq_right (earlier.1 session List.mem_cons_self)).symm
      · rw [carved]
      · rw [bumped]
  | @release session past block run live inductionHypothesis =>
      cases traceEquality
      have earlier := inductionHypothesis rfl
      apply peakOf_cons_of_max earlier
      -- Freeing lowers the bytes in use, so the old peak stays the maximum.
      have positive := (run_invariant run).live_pos block live
      have bound := earlier.1 session List.mem_cons_self
      simp only [release, Allocator.release]
      omega

/-- Every offset the session holds or has handed out is a multiple of `unit`. -/
structure Aligned (unit : ℤ) (session : Session) : Prop where
  poolEnd : unit ∣ session.allocator.poolEnd
  live : ∀ block ∈ session.live, unit ∣ block.offset
  free : ∀ block ∈ session.allocator.free, unit ∣ block.offset
  returned : ∀ offset ∈ session.returned, unit ∣ offset

theorem allocate_aligned {unit size : ℤ} {session : Session} (aligned : Aligned unit session)
    (divides : unit ∣ size) : Aligned unit (session.allocate size) := by
  unfold allocate
  rcases Allocator.allocate_cases session.allocator size with
    refused | ⟨block, rest, free, freePerm, -, takenPerm, carved⟩ | ⟨-, bumped⟩
  · rw [refused]
    exact { aligned with }
  · rw [carved]
    have blockAligned : unit ∣ block.offset :=
      aligned.free block (freePerm.mem_iff.mpr List.mem_cons_self)
    have restAligned : ∀ kept ∈ rest, unit ∣ kept.offset := fun kept inRest =>
      aligned.free kept (freePerm.mem_iff.mpr (List.mem_cons_of_mem _ inRest))
    refine { aligned with live := ?_, free := ?_, returned := ?_ }
    · simpa [blockAligned] using aligned.live
    · intro other membership
      have inTaken := takenPerm.mem_iff.mp membership
      split at inTaken
      next leftover =>
        rcases List.mem_cons.mp inTaken with rfl | inRest
        · exact Int.dvd_add blockAligned divides
        · exact restAligned other inRest
      next exactFit => exact restAligned other inTaken
    · simpa [blockAligned] using aligned.returned
  · rw [bumped]
    refine { aligned with poolEnd := ?_, live := ?_, returned := ?_ }
    · exact Int.dvd_add aligned.poolEnd divides
    · simpa [aligned.poolEnd] using aligned.live
    · simpa [aligned.poolEnd] using aligned.returned

theorem release_aligned {unit : ℤ} {session : Session} {block : Extent}
    (aligned : Aligned unit session) (live : block ∈ session.live) :
    Aligned unit (session.release block) := by
  refine { aligned with live := ?_, free := ?_ }
  · exact fun other membership => aligned.live other (List.mem_of_mem_erase membership)
  · intro other membership
    rcases List.mem_append.mp membership with inFree | isBlock
    · exact aligned.free other inFree
    · rw [List.mem_singleton.mp isBlock]
      exact aligned.live block live

theorem requested_allocate (session : Session) (size : ℤ) :
    (session.allocate size).requested = size :: session.requested := by
  unfold allocate
  split <;> rfl

theorem run_aligned {segmentSize : ℕ} {session : Session} {past : List Session} {unit : ℤ}
    (run : Run segmentSize (session :: past))
    (divides : ∀ size ∈ session.requested, unit ∣ size) : Aligned unit session := by
  generalize traceEquality : session :: past = trace at run
  induction run generalizing session past with
  | start =>
      cases traceEquality
      constructor <;> simp [start, Allocator.init]
  | allocate size _ positive inductionHypothesis =>
      cases traceEquality
      rw [requested_allocate] at divides
      exact allocate_aligned
        (inductionHypothesis (fun other membership =>
          divides other (List.mem_cons_of_mem _ membership)) rfl)
        (divides size List.mem_cons_self)
  | release block _ live inductionHypothesis =>
      cases traceEquality
      exact release_aligned (inductionHypothesis divides rfl) live

/-- The allocator's contract in every state of every run. -/
theorem run_tiles_pool (segmentSize : ℕ) (session : Session) (past : List Session)
    (run : Run segmentSize (session :: past)) :
    (session.live ++ session.allocator.free).Pairwise Extent.Disjoint ∧
    (∀ point, (∃ block ∈ session.live ++ session.allocator.free, block.Contains point) ↔
      0 ≤ point ∧ point < session.allocator.poolEnd) ∧
    (∀ older ∈ past, older.allocator.poolEnd ≤ session.allocator.poolEnd) ∧
    session.allocator.poolEnd ≤ segmentSize ∧
    session.allocator.currentlyAllocated = (session.live.map Extent.size).sum ∧
    ((∀ state ∈ session :: past,
        state.allocator.currentlyAllocated ≤ session.allocator.peakUsage) ∧
      ∃ state ∈ session :: past,
        state.allocator.currentlyAllocated = session.allocator.peakUsage) ∧
    (∀ size, (session.allocator.allocate size).1 = none →
      (session.allocator.allocate size).2 = session.allocator) ∧
    ((∀ size ∈ session.requested, 128 ∣ size) →
      ∀ offset ∈ session.returned, 128 ∣ offset) := by
  have invariant := run_invariant run
  refine ⟨invariant.tiles.pairwise_disjoint, invariant.tiles.exists_iff,
    (List.pairwise_cons.mp (run_poolEnd_mono run)).1, invariant.poolEnd_le, invariant.current,
    run_peakOf run, ?_, fun divides => (run_aligned run divides).returned⟩
  intro size refused
  rcases Allocator.allocate_cases session.allocator size with
    unchanged | ⟨block, rest, free, -, -, -, carved⟩ | ⟨-, bumped⟩
  · rw [unchanged]
  · simp [carved] at refused
  · simp [bumped] at refused

/-- Two blocks are taken, the first is given back, and a smaller request is
carved out of it. -/
theorem run_tiles_pool_carved :
    let first := (start 1024).allocate 256
    let second := first.allocate 128
    let third := second.release ⟨0, 256⟩
    let fourth := third.allocate 128
    fourth.live = [⟨0, 128⟩, ⟨256, 128⟩] ∧ fourth.allocator.free = [⟨128, 128⟩] ∧
    (fourth.live ++ fourth.allocator.free).Pairwise Extent.Disjoint ∧
    ∀ offset ∈ fourth.returned, 128 ∣ offset := by
  intro first second third fourth
  have run : Run 1024 [fourth, third, second, first, start 1024] :=
    .allocate 128 (.release _ (.allocate 128 (.allocate 256 .start (by decide)) (by decide))
      (by decide)) (by decide)
  have contract := run_tiles_pool 1024 _ _ run
  exact ⟨by decide, by decide, contract.1, contract.2.2.2.2.2.2.2 (by decide)⟩

end Session

end TorchSpyre.HbmPool
