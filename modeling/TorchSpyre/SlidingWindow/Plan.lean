import Mathlib
import TorchSpyre.Lib.Order

/-!
# Sliding-window plans

Where each block of query rows reads its slice of the cache.  The invariant everything
rests on: the window of every query row lies inside the buffer its block reads.
-/

namespace TorchSpyre.SlidingWindow

/-- Elements per stick. -/
def stick : ℤ := 64

def defaultBufferOrigin (seqlenKv cacheCapacity : ℤ) : ℤ := max 0 (seqlenKv - cacheCapacity)

def floorStick (value : ℤ) : ℤ := value / stick * stick

def ceilStick (value : ℤ) : ℤ := -(-value / stick) * stick

/-- The arguments of `plan_sliding_window`. -/
structure Request where
  seqlenQ : ℤ
  seqlenKv : ℤ
  windowSize : ℤ
  isCausal : Bool
  qBlock : ℤ
  cacheCapacity : Option ℤ
  bufferOrigin : Option ℤ
  deriving DecidableEq, Repr

structure SlidingWindowPlan where
  seqlenQ : ℤ
  seqlenKv : ℤ
  windowSize : ℤ
  qBlock : ℤ
  numQBlocks : ℤ
  bufferWidth : ℤ
  qKvOffset : ℤ
  isCausal : Bool
  cacheCapacity : ℤ
  bufferOrigin : ℤ
  deriving DecidableEq, Repr

namespace SlidingWindowPlan

/-- Half-open range of query rows of a block. -/
def blockQRange (plan : SlidingWindowPlan) (qi : ℤ) : ℤ × ℤ :=
  let qStart := qi * plan.qBlock
  (qStart, min plan.seqlenQ (qStart + plan.qBlock))

/-- Half-open range of cache positions a query row may attend to. -/
def rowWindow (plan : SlidingWindowPlan) (qIndex : ℤ) : ℤ × ℤ :=
  let coord := plan.qKvOffset + qIndex
  (max 0 (coord - plan.windowSize + 1), min plan.seqlenKv (coord + 1))

/-- Buffer-relative offset a block reads from. -/
def readStart (plan : SlidingWindowPlan) (qi : ℤ) : ℤ :=
  let firstCoord := plan.qKvOffset + (plan.blockQRange qi).1
  let windowStartLogical := max 0 (firstCoord - plan.windowSize + 1)
  let physicalOrigin := floorStick (windowStartLogical - plan.bufferOrigin)
  min physicalOrigin (plan.cacheCapacity - plan.bufferWidth)

def readStartLogical (plan : SlidingWindowPlan) (qi : ℤ) : ℤ :=
  plan.readStart qi + plan.bufferOrigin

end SlidingWindowPlan

/-- The columns one block must cover, from where its start is floored to. -/
def blockSpan (seqlenQ windowSize qBlock qKvOffset bufferOrigin qi : ℤ) : ℤ :=
  let qStart := qi * qBlock
  let qEnd := min seqlenQ (qStart + qBlock)
  let firstCoord := qKvOffset + qStart
  let lastCoord := qKvOffset + qEnd - 1
  let windowStartLogical := max 0 (firstCoord - windowSize + 1)
  let physicalStart := floorStick (windowStartLogical - bufferOrigin)
  let physicalEnd := lastCoord - bufferOrigin + 1
  physicalEnd - physicalStart

def numQBlocks (seqlenQ qBlock : ℤ) : ℤ := -(-seqlenQ / qBlock)

/-- The widest span of any block, rounded up to a stick. -/
def requiredWidth (seqlenQ windowSize qBlock qKvOffset bufferOrigin : ℤ) : ℤ :=
  ceilStick (((List.range (numQBlocks seqlenQ qBlock).toNat).map fun (qi : ℕ) =>
    blockSpan seqlenQ windowSize qBlock qKvOffset bufferOrigin qi).foldl max 0)

/-! ## Rejections -/

inductive Rejection where
  | bidirectional
  | degenerateLengths (seqlenQ seqlenKv qBlock : ℤ)
  | unevenBlocks (seqlenQ qBlock : ℤ)
  | windowSize (windowSize : ℤ)
  | queryTooLong (seqlenQ seqlenKv : ℤ)
  | degenerateCapacity (capacity : ℤ)
  | unalignedCapacity (capacity : ℤ)
  | originTooSmall (origin smallest newest capacity : ℤ)
  | originTooLarge (origin seqlenKv : ℤ)
  | tooNarrow (capacity width : ℤ)
  | reachTooShort (capacity seqlenQ earliest origin : ℤ)
  deriving DecidableEq, Repr

def Rejection.message : Rejection → String
  | bidirectional => "bidirectional windows are not implemented, only causal ones"
  | degenerateLengths seqlenQ seqlenKv qBlock =>
      s!"degenerate lengths (seqlen_q={seqlenQ}, seqlen_kv={seqlenKv}, q_block={qBlock})"
  | unevenBlocks seqlenQ qBlock =>
      s!"seqlen_q={seqlenQ} is not a whole number of {qBlock}-row blocks"
  | windowSize size => s!"window_size={size} must be positive"
  | queryTooLong seqlenQ seqlenKv => s!"seqlen_q={seqlenQ} exceeds seqlen_kv={seqlenKv}"
  | degenerateCapacity capacity =>
      s!"degenerate cache_capacity={capacity}, must be positive"
  | unalignedCapacity capacity =>
      s!"cache_capacity={capacity} must be a multiple of {stick}; " ++
        "pad the cache allocation to a stick boundary"
  | originTooSmall origin smallest newest capacity =>
      s!"buffer_origin={origin} is too small: physical row 0 cannot hold a position " ++
        s!"earlier than {smallest}, or the newest token ({newest}) would fall past " ++
        s!"the end of the {capacity}-row buffer"
  | originTooLarge origin seqlenKv =>
      s!"buffer_origin={origin} is not before seqlen_kv={seqlenKv}, " ++
        "so the buffer holds no written row"
  | tooNarrow capacity width =>
      s!"cache_capacity={capacity} is narrower than the {width}-row buffer this window needs"
  | reachTooShort capacity seqlenQ earliest origin =>
      s!"cache_capacity={capacity} does not reach far enough back for this {seqlenQ}-row " ++
        s!"query: the earliest block needs logical column {earliest}, but the buffer's " ++
        s!"oldest resident row is {origin}"

namespace Request

def effectiveCapacity (request : Request) : ℤ := request.cacheCapacity.getD request.seqlenKv

def effectiveOrigin (request : Request) : ℤ :=
  request.bufferOrigin.getD (defaultBufferOrigin request.seqlenKv request.effectiveCapacity)

def qKvOffset (request : Request) : ℤ := request.seqlenKv - request.seqlenQ

def bufferWidth (request : Request) : ℤ :=
  requiredWidth request.seqlenQ request.windowSize request.qBlock request.qKvOffset
    request.effectiveOrigin

def earliestWindowStart (request : Request) : ℤ :=
  max 0 (request.qKvOffset - request.windowSize + 1)

end Request

/-- The checks against the allocation, once the lengths have passed. -/
def allocationReason (request : Request) : Option Rejection :=
  let capacity := request.effectiveCapacity
  let origin := request.effectiveOrigin
  let smallestOrigin := defaultBufferOrigin request.seqlenKv capacity
  if capacity ≤ 0 then some (.degenerateCapacity capacity)
  else if capacity % stick ≠ 0 then some (.unalignedCapacity capacity)
  else if origin < smallestOrigin then
    some (.originTooSmall origin smallestOrigin (request.seqlenKv - 1) capacity)
  else if request.seqlenKv ≤ origin then some (.originTooLarge origin request.seqlenKv)
  else if capacity < request.bufferWidth then some (.tooNarrow capacity request.bufferWidth)
  else if request.earliestWindowStart < origin then
    some (.reachTooShort capacity request.seqlenQ request.earliestWindowStart origin)
  else none

def rejectionReason (request : Request) : Option Rejection :=
  if ¬ request.isCausal then some .bidirectional
  else if request.seqlenQ ≤ 0 ∨ request.seqlenKv ≤ 0 ∨ request.qBlock ≤ 0 then
    some (.degenerateLengths request.seqlenQ request.seqlenKv request.qBlock)
  else if request.seqlenQ % request.qBlock ≠ 0 then
    some (.unevenBlocks request.seqlenQ request.qBlock)
  else if request.windowSize ≤ 0 then some (.windowSize request.windowSize)
  else if request.seqlenKv - request.seqlenQ < 0 then
    some (.queryTooLong request.seqlenQ request.seqlenKv)
  else allocationReason request

/-- The plan of an accepted request. -/
def planOf (request : Request) : SlidingWindowPlan where
  seqlenQ := request.seqlenQ
  seqlenKv := request.seqlenKv
  windowSize := request.windowSize
  qBlock := request.qBlock
  numQBlocks := numQBlocks request.seqlenQ request.qBlock
  bufferWidth := request.bufferWidth
  qKvOffset := request.qKvOffset
  isCausal := request.isCausal
  cacheCapacity := request.effectiveCapacity
  bufferOrigin := request.effectiveOrigin

def planSlidingWindow (request : Request) : Option SlidingWindowPlan :=
  if (rejectionReason request).isSome then none else some (planOf request)

/-! ## Rounding to sticks -/

theorem floorStick_le (value : ℤ) : floorStick value ≤ value := by
  unfold floorStick stick
  omega

theorem floorStick_nonneg {value : ℤ} (nonneg : 0 ≤ value) : 0 ≤ floorStick value := by
  unfold floorStick stick
  omega

theorem stick_dvd_floorStick (value : ℤ) : stick ∣ floorStick value := Dvd.intro_left _ rfl

theorem stick_dvd_ceilStick (value : ℤ) : stick ∣ ceilStick value := Dvd.intro_left _ rfl

theorem le_ceilStick (value : ℤ) : value ≤ ceilStick value := by
  unfold ceilStick stick
  omega

theorem ceilStick_le {value bound : ℤ} (aligned : bound % stick = 0) (below : value ≤ bound) :
    ceilStick value ≤ bound := by
  unfold ceilStick stick at *
  omega

/-! ## Accepted requests -/

/-- What a request that is not rejected has passed. -/
structure Accepted (request : Request) : Prop where
  query : 0 < request.seqlenQ
  block : 0 < request.qBlock
  window : 0 < request.windowSize
  inCache : request.seqlenQ ≤ request.seqlenKv
  aligned : request.effectiveCapacity % stick = 0
  holdsNewest : request.seqlenKv - request.effectiveCapacity ≤ request.effectiveOrigin
  width : request.bufferWidth ≤ request.effectiveCapacity
  reach : request.effectiveOrigin ≤ request.earliestWindowStart

theorem accepted_of_allocationReason {request : Request} (query : 0 < request.seqlenQ)
    (block : 0 < request.qBlock) (window : 0 < request.windowSize)
    (inCache : request.seqlenQ ≤ request.seqlenKv) (accepted : allocationReason request = none) :
    Accepted request := by
  simp only [allocationReason] at accepted
  split at accepted
  next => cases accepted
  split at accepted
  next => cases accepted
  next aligned =>
  split at accepted
  next => cases accepted
  next origin =>
  split at accepted
  next => cases accepted
  split at accepted
  next => cases accepted
  next width =>
  split at accepted
  next => cases accepted
  next reach =>
  have newest : request.seqlenKv - request.effectiveCapacity ≤
      defaultBufferOrigin request.seqlenKv request.effectiveCapacity := le_max_right _ _
  exact ⟨query, block, window, inCache, not_not.mp aligned, le_trans newest (not_lt.mp origin),
    not_lt.mp width, not_lt.mp reach⟩

theorem accepted_of_rejectionReason {request : Request}
    (accepted : rejectionReason request = none) : Accepted request := by
  unfold rejectionReason at accepted
  split at accepted
  next => cases accepted
  split at accepted
  next => cases accepted
  next lengths =>
  split at accepted
  next => cases accepted
  split at accepted
  next => cases accepted
  next window =>
  split at accepted
  next => cases accepted
  next inCache =>
  simp only [not_or, not_le] at lengths
  exact accepted_of_allocationReason lengths.1 lengths.2.2 (not_le.mp window) (by omega) accepted

/-! ## The blocks of an accepted request -/

theorem blockSpan_le_requiredWidth {seqlenQ qBlock : ℤ} (windowSize qKvOffset bufferOrigin : ℤ)
    {qi : ℤ} (nonneg : 0 ≤ qi) (isBlock : qi < numQBlocks seqlenQ qBlock) :
    blockSpan seqlenQ windowSize qBlock qKvOffset bufferOrigin qi ≤
      requiredWidth seqlenQ windowSize qBlock qKvOffset bufferOrigin := by
  refine le_trans (Lib.le_foldl_max 0 ?_) (le_ceilStick _)
  refine List.mem_map.mpr ⟨qi.toNat, List.mem_range.mpr (by omega), ?_⟩
  rw [Int.toNat_of_nonneg nonneg]

/-- A bound on the span of every block is, rounded, a bound on the width. -/
theorem requiredWidth_le {seqlenQ windowSize qBlock qKvOffset bufferOrigin bound : ℤ}
    (nonneg : 0 ≤ bound) (aligned : bound % stick = 0)
    (below : ∀ qi, 0 ≤ qi → qi < numQBlocks seqlenQ qBlock →
      blockSpan seqlenQ windowSize qBlock qKvOffset bufferOrigin qi ≤ bound) :
    requiredWidth seqlenQ windowSize qBlock qKvOffset bufferOrigin ≤ bound := by
  refine ceilStick_le aligned (Lib.foldl_max_le_iff.mpr ⟨nonneg, ?_⟩)
  intro span isSpan
  obtain ⟨qi, inRange, rfl⟩ := List.mem_map.mp isSpan
  have small := List.mem_range.mp inRange
  exact below qi (Int.natCast_nonneg qi) (by omega)

/-- Every block has a first row. -/
theorem block_start_lt {seqlenQ qBlock qi : ℤ} (positive : 0 < qBlock)
    (isBlock : qi < numQBlocks seqlenQ qBlock) : qi * qBlock < seqlenQ := by
  unfold numQBlocks at isBlock
  have below : -seqlenQ / qBlock < -qi := by omega
  have scaled := (Int.ediv_lt_iff_lt_mul positive).mp below
  linarith [neg_mul qi qBlock]

theorem zero_lt_numQBlocks {seqlenQ qBlock : ℤ} (query : 0 < seqlenQ) (block : 0 < qBlock) :
    0 < numQBlocks seqlenQ qBlock := by
  unfold numQBlocks
  have negative : -seqlenQ / qBlock < 0 :=
    (Int.ediv_lt_iff_lt_mul block).mpr (by linarith [zero_mul qBlock])
  omega

theorem planSlidingWindow_of_accepted {request : Request}
    (accepted : rejectionReason request = none) :
    planSlidingWindow request = some (planOf request) := by
  rw [planSlidingWindow, accepted]
  rfl

section Blocks

variable {request : Request} (accepted : Accepted request) {qi : ℤ} (nonneg : 0 ≤ qi)
  (isBlock : qi < numQBlocks request.seqlenQ request.qBlock)

include accepted nonneg in
/-- The reach check on the first block is enough for every block. -/
theorem origin_le_windowStart :
    request.effectiveOrigin ≤
      max 0 (request.qKvOffset + qi * request.qBlock - request.windowSize + 1) := by
  have later : 0 ≤ qi * request.qBlock := mul_nonneg nonneg (le_of_lt accepted.block)
  refine le_trans accepted.reach (max_le_max le_rfl ?_)
  linarith

include accepted nonneg isBlock in
theorem bufferWidth_pos : 0 < request.bufferWidth := by
  have covered := blockSpan_le_requiredWidth request.windowSize request.qKvOffset
    request.effectiveOrigin nonneg isBlock
  have started := block_start_lt accepted.block isBlock
  have later : 0 ≤ qi * request.qBlock := mul_nonneg nonneg (le_of_lt accepted.block)
  have floored := floorStick_le
    (max 0 (request.qKvOffset + qi * request.qBlock - request.windowSize + 1) -
      request.effectiveOrigin)
  have block := accepted.block
  have window := accepted.window
  have inCache := accepted.inCache
  unfold Request.bufferWidth
  simp only [blockSpan] at covered
  unfold Request.qKvOffset at *
  omega

theorem bufferWidth_dvd : stick ∣ request.bufferWidth := stick_dvd_ceilStick _

include accepted nonneg in
theorem readStart_nonneg : 0 ≤ (planOf request).readStart qi := by
  have reached := origin_le_windowStart accepted nonneg
  have fits := accepted.width
  refine le_min (floorStick_nonneg ?_) ?_
  · exact sub_nonneg.mpr reached
  · exact sub_nonneg.mpr fits

include accepted in
theorem readStart_dvd : stick ∣ (planOf request).readStart qi := by
  have clampAligned : stick ∣ request.effectiveCapacity - request.bufferWidth :=
    Int.dvd_sub (Int.dvd_of_emod_eq_zero accepted.aligned) bufferWidth_dvd
  change stick ∣ min (floorStick (max 0 (request.qKvOffset + qi * request.qBlock -
    request.windowSize + 1) - request.effectiveOrigin))
      (request.effectiveCapacity - request.bufferWidth)
  rcases min_choice (floorStick (max 0 (request.qKvOffset + qi * request.qBlock -
      request.windowSize + 1) - request.effectiveOrigin))
    (request.effectiveCapacity - request.bufferWidth) with isFloor | isClamp
  · rw [isFloor]
    exact stick_dvd_floorStick _
  · rw [isClamp]
    exact clampAligned

theorem readStart_le : (planOf request).readStart qi + request.bufferWidth ≤
    request.effectiveCapacity := by
  have clamped : (planOf request).readStart qi ≤
      request.effectiveCapacity - request.bufferWidth := min_le_right _ _
  linarith

variable {row : ℤ} (first : qi * request.qBlock ≤ row)
  (last : row < min request.seqlenQ (qi * request.qBlock + request.qBlock))

include first in
/-- The read starts at or before the window of every row of the block. -/
theorem readStartLogical_le_rowWindow :
    (planOf request).readStartLogical qi ≤ ((planOf request).rowWindow row).1 := by
  have floored := floorStick_le
    (max 0 (request.qKvOffset + qi * request.qBlock - request.windowSize + 1) -
      request.effectiveOrigin)
  have unclamped : (planOf request).readStart qi ≤
      floorStick (max 0 (request.qKvOffset + qi * request.qBlock - request.windowSize + 1) -
        request.effectiveOrigin) := min_le_left _ _
  have staggered : max 0 (request.qKvOffset + qi * request.qBlock - request.windowSize + 1) ≤
      max 0 (request.qKvOffset + row - request.windowSize + 1) := max_le_max le_rfl (by linarith)
  calc (planOf request).readStartLogical qi
      ≤ max 0 (request.qKvOffset + qi * request.qBlock - request.windowSize + 1) := by
        unfold SlidingWindowPlan.readStartLogical
        change _ + request.effectiveOrigin ≤ _
        linarith
    _ ≤ ((planOf request).rowWindow row).1 := staggered

include accepted nonneg isBlock last in
/-- The read ends at or after it: by its width, or, when clamped, because the buffer holds
the newest position. -/
theorem rowWindow_le_readStartLogical :
    ((planOf request).rowWindow row).2 ≤
      (planOf request).readStartLogical qi + request.bufferWidth := by
  have covered := blockSpan_le_requiredWidth request.windowSize request.qKvOffset
    request.effectiveOrigin nonneg isBlock
  have newest := accepted.holdsNewest
  simp only [blockSpan] at covered
  change min request.seqlenKv (request.qKvOffset + row + 1) ≤
    min (floorStick (max 0 (request.qKvOffset + qi * request.qBlock - request.windowSize + 1) -
      request.effectiveOrigin)) (request.effectiveCapacity - request.bufferWidth) +
        request.effectiveOrigin + request.bufferWidth
  rcases min_choice (floorStick (max 0 (request.qKvOffset + qi * request.qBlock -
      request.windowSize + 1) - request.effectiveOrigin))
    (request.effectiveCapacity - request.bufferWidth) with isFloor | isClamp
  · rw [isFloor]
    refine le_trans (min_le_right _ _) ?_
    unfold Request.bufferWidth
    linarith
  · rw [isClamp]
    refine le_trans (min_le_left _ _) ?_
    linarith

include accepted nonneg first in
theorem origin_le_rowWindow :
    request.effectiveOrigin ≤ ((planOf request).rowWindow row).1 := by
  have staggered : max 0 (request.qKvOffset + qi * request.qBlock - request.windowSize + 1) ≤
      max 0 (request.qKvOffset + row - request.windowSize + 1) := max_le_max le_rfl (by linarith)
  exact le_trans (origin_le_windowStart accepted nonneg) staggered

end Blocks

/-! ## Defaulted capacity and origin -/

theorem bufferWidth_le_of_defaults {request : Request} (noCapacity : request.cacheCapacity = none)
    (noOrigin : request.bufferOrigin = none) (query : 0 < request.seqlenQ)
    (inCache : request.seqlenQ ≤ request.seqlenKv)
    (aligned : request.effectiveCapacity % stick = 0) :
    request.bufferWidth ≤ request.effectiveCapacity := by
  have capacity : request.effectiveCapacity = request.seqlenKv := by
    rw [Request.effectiveCapacity, noCapacity]
    rfl
  have origin : request.effectiveOrigin = 0 := by
    rw [Request.effectiveOrigin, noOrigin, capacity]
    simp [defaultBufferOrigin]
  rw [capacity] at aligned ⊢
  refine requiredWidth_le (by linarith) aligned fun qi _ _ => ?_
  have started : 0 ≤ floorStick
      (max 0 (request.qKvOffset + qi * request.qBlock - request.windowSize + 1) - 0) :=
    floorStick_nonneg (by simp)
  simp only [blockSpan, origin]
  unfold Request.qKvOffset at *
  omega

theorem allocationReason_of_defaults {request : Request} (noCapacity : request.cacheCapacity = none)
    (noOrigin : request.bufferOrigin = none) (query : 0 < request.seqlenQ)
    (inCache : request.seqlenQ ≤ request.seqlenKv)
    {rejection : Rejection} (rejected : allocationReason request = some rejection) :
    (∀ capacity width, rejection ≠ .tooNarrow capacity width) ∧
      ∀ capacity seqlenQ earliest origin,
        rejection ≠ .reachTooShort capacity seqlenQ earliest origin := by
  simp only [allocationReason] at rejected
  split at rejected
  next =>
    cases rejected
    simp
  split at rejected
  next =>
    cases rejected
    simp
  next aligned =>
  have fits := bufferWidth_le_of_defaults noCapacity noOrigin query inCache
    (not_not.mp aligned)
  have reach : request.effectiveOrigin ≤ request.earliestWindowStart := by
    rw [Request.effectiveOrigin, noOrigin, Request.effectiveCapacity, noCapacity]
    simp [defaultBufferOrigin, Request.earliestWindowStart]
  split at rejected
  next =>
    cases rejected
    simp
  split at rejected
  next =>
    cases rejected
    simp
  rw [if_neg (not_lt.mpr fits), if_neg (not_lt.mpr reach)] at rejected
  cases rejected

theorem rejectionReason_of_defaults {request : Request} (noCapacity : request.cacheCapacity = none)
    (noOrigin : request.bufferOrigin = none) {rejection : Rejection}
    (rejected : rejectionReason request = some rejection) :
    (∀ capacity width, rejection ≠ .tooNarrow capacity width) ∧
      ∀ capacity seqlenQ earliest origin,
        rejection ≠ .reachTooShort capacity seqlenQ earliest origin := by
  unfold rejectionReason at rejected
  split at rejected
  next =>
    cases rejected
    simp
  split at rejected
  next =>
    cases rejected
    simp
  next lengths =>
  split at rejected
  next =>
    cases rejected
    simp
  split at rejected
  next =>
    cases rejected
    simp
  split at rejected
  next =>
    cases rejected
    simp
  next inCache =>
  simp only [not_or, not_le] at lengths
  exact allocationReason_of_defaults noCapacity noOrigin lengths.1 (by omega) rejected

/-- Two blocks over a rolled buffer whose origin is not on a stick. -/
def rolledRequest : Request :=
  ⟨128, 1000, 100, true, 64, some 320, some 701⟩

end TorchSpyre.SlidingWindow
