import Mathlib
import TorchSpyre.Scratchpad.PermLayout.Placement

/-!
# `RecomputeAll` and its shortcuts

The packer rebuilds a layout in permutation order with two shortcuts.  A buffer
without in-place partners reads its floor and its eviction off per-interval
aggregates instead of scanning candidates, and the walk stops as soon as every
interval is saturated: all its buffers are placed, or one of them is evicted and
so dominates whatever would still come.  `recomputeAll_address` says that the
result is the from-scratch layout.
-/

namespace TorchSpyre.Scratchpad.PermLayout

open Lib

/-- Aggregates per interval, and the number of intervals not yet saturated. -/
structure Intervals where
  placedAt : ℕ → ℤ
  hasNoneAt : ℕ → Bool
  doneAt : ℕ → Bool
  maxTopAt : ℕ → ℤ
  notDone : ℤ

def initIntervals (static : StaticData) : Intervals where
  placedAt := fun _ => 0
  hasNoneAt := fun _ => false
  doneAt := fun interval => static.totalAt interval = 0
  maxTopAt := fun _ => 0
  notDone := (List.range static.numIntervals).countP fun interval => !(static.totalAt interval = 0)

/-- The loop body of `CommitIntervals` up to the saturation test. -/
def countAt (setNone : Bool) (top : ℤ) (intervals : Intervals) (interval : ℕ) : Intervals :=
  { intervals with
    placedAt := Function.update intervals.placedAt interval (intervals.placedAt interval + 1)
    hasNoneAt := if setNone then Function.update intervals.hasNoneAt interval true
      else intervals.hasNoneAt
    maxTopAt := if !setNone && top > intervals.maxTopAt interval then
        Function.update intervals.maxTopAt interval top
      else intervals.maxTopAt }

/-- The condition under which an interval counts as saturated. -/
def Intervals.Saturated (static : StaticData) (intervals : Intervals) (interval : ℕ) : Prop :=
  intervals.hasNoneAt interval = true ∨
    intervals.placedAt interval = static.totalAt interval

instance (static : StaticData) (intervals : Intervals) (interval : ℕ) :
    Decidable (intervals.Saturated static interval) :=
  inferInstanceAs (Decidable (_ ∨ _))

/-- The loop body of `CommitIntervals`. -/
def commitAt (static : StaticData) (setNone : Bool) (top : ℤ) (intervals : Intervals)
    (interval : ℕ) : Intervals :=
  let counted := countAt setNone top intervals interval
  if counted.doneAt interval = false ∧ counted.Saturated static interval then
    { counted with
      doneAt := Function.update counted.doneAt interval true
      notDone := counted.notDone - 1 }
  else counted

/-- The intervals a buffer covers, in order. -/
def StaticData.liveIntervals (static : StaticData) (buffer : ℕ) : List ℕ :=
  List.range' (static.bufIntervals buffer).1
    ((static.bufIntervals buffer).2 - (static.bufIntervals buffer).1)

def commitIntervals (static : StaticData) (buffer : ℕ) (setNone : Bool) (top : ℤ)
    (intervals : Intervals) : Intervals :=
  (static.liveIntervals buffer).foldl (commitAt static setNone top) intervals

/-- The fast path's loop: `none` once an interval holds an evicted buffer,
otherwise the largest top. -/
def scanIntervals (intervals : Intervals) : List ℕ → ℤ → Option ℤ
  | [], maxTop => some maxTop
  | interval :: rest, maxTop =>
      if intervals.hasNoneAt interval then none
      else scanIntervals intervals rest (max maxTop (intervals.maxTopAt interval))

structure Pass where
  layout : Layout
  totalQuality : ℚ
  totalAllocatedCount : ℕ
  intervals : Intervals

structure Solver where
  static : StaticData
  permutation : List ℕ
  position : ℕ → ℕ
  sizes : ℕ → ℤ
  eligible : ℕ → Bool
  layout : Layout
  totalQuality : ℚ
  totalAllocatedCount : ℕ

namespace Solver

def config (solver : Solver) : Config := ⟨solver.static, solver.sizes, solver.eligible⟩

@[simp]
theorem config_static (solver : Solver) : solver.config.static = solver.static := rfl

@[simp]
theorem config_sizes (solver : Solver) : solver.config.sizes = solver.sizes := rfl

@[simp]
theorem config_eligible (solver : Solver) : solver.config.eligible = solver.eligible := rfl

def gatherCandidates (solver : Solver) (buffer position : ℕ) : List ℕ :=
  (solver.static.overlap buffer).filter fun other =>
    solver.position other < position && solver.eligible other

def fastDecision (solver : Solver) (intervals : Intervals) (buffer : ℕ) : Option ℤ :=
  match scanIntervals intervals (solver.static.liveIntervals buffer) 0 with
  | none => none
  | some maxTop =>
      let aligned := alignUp solver.static.alignment maxTop
      if aligned + solver.sizes buffer > solver.static.capacity then none else some aligned

/-- One iteration of `RecomputeAll`'s loop. -/
def visit (solver : Solver) (position : ℕ) (pass : Pass) (buffer : ℕ) : Pass :=
  if !solver.eligible buffer then
    { pass with
      layout :=
        { pass.layout with allocated := Function.update pass.layout.allocated buffer false }
      intervals := commitIntervals solver.static buffer false (-1) pass.intervals }
  else
    let decided :=
      if solver.static.inplacePartners buffer = [] then solver.fastDecision pass.intervals buffer
      else
        solver.config.placeDecision pass.layout (solver.static.inplacePartners buffer) buffer
          (solver.gatherCandidates buffer position)
    match decided with
    | some address =>
        { layout := pass.layout.set buffer (some address)
          totalQuality := pass.totalQuality + solver.static.weight buffer * solver.sizes buffer
          totalAllocatedCount := pass.totalAllocatedCount + 1
          intervals := commitIntervals solver.static buffer false (address + solver.sizes buffer)
            pass.intervals }
    | none =>
        { pass with
          layout := pass.layout.set buffer none
          intervals := commitIntervals solver.static buffer true (-1) pass.intervals }

/-- The walk over the permutation; returns the buffers it did not reach. -/
def recomputeFrom (solver : Solver) (position : ℕ) (pass : Pass) : List ℕ → Pass × List ℕ
  | [] => (pass, [])
  | buffer :: rest =>
      if pass.intervals.notDone = 0 then (pass, buffer :: rest)
      else solver.recomputeFrom (position + 1) (solver.visit position pass buffer) rest

def recomputeAll (solver : Solver) : Solver :=
  let start : Pass := ⟨solver.layout, 0, 0, initIntervals solver.static⟩
  let (pass, rest) := solver.recomputeFrom 0 start solver.permutation
  { solver with
    layout :=
      { addr := pass.layout.addr
        allocated := rest.foldl (fun allocated buffer => Function.update allocated buffer false)
          pass.layout.allocated }
    totalQuality := pass.totalQuality
    totalAllocatedCount := pass.totalAllocatedCount }

end Solver

/-! ## Committing a buffer to its intervals -/

theorem mem_liveIntervals (static : StaticData) (buffer interval : ℕ) :
    interval ∈ static.liveIntervals buffer ↔ static.Covers buffer interval := by
  simp only [StaticData.liveIntervals, StaticData.Covers, List.mem_range'_1]
  omega

theorem nodup_liveIntervals (static : StaticData) (buffer : ℕ) :
    (static.liveIntervals buffer).Nodup :=
  List.nodup_range'

/-- What committing to the listed intervals changes. -/
structure Intervals.Committed (static : StaticData) (setNone : Bool) (top : ℤ)
    (touched : List ℕ) (old new : Intervals) : Prop where
  placed : ∀ interval, new.placedAt interval =
    old.placedAt interval + if interval ∈ touched then 1 else 0
  hasNone : ∀ interval, new.hasNoneAt interval = true ↔
    old.hasNoneAt interval = true ∨ (interval ∈ touched ∧ setNone = true)
  maxTop : ∀ interval, new.maxTopAt interval =
    if interval ∈ touched ∧ setNone = false then max (old.maxTopAt interval) top
    else old.maxTopAt interval
  done : ∀ interval, new.doneAt interval = true ↔
    old.doneAt interval = true ∨ (interval ∈ touched ∧ new.Saturated static interval)

theorem commitAt_committed (static : StaticData) (setNone : Bool) (top : ℤ) (old : Intervals)
    (touched : ℕ) :
    Intervals.Committed static setNone top [touched] old
      (commitAt static setNone top old touched) := by
  have counts : (commitAt static setNone top old touched).placedAt =
        (countAt setNone top old touched).placedAt ∧
      (commitAt static setNone top old touched).hasNoneAt =
        (countAt setNone top old touched).hasNoneAt ∧
      (commitAt static setNone top old touched).maxTopAt =
        (countAt setNone top old touched).maxTopAt := by
    simp only [commitAt]
    split <;> exact ⟨rfl, rfl, rfl⟩
  obtain ⟨placedEq, hasNoneEq, maxTopEq⟩ := counts
  constructor
  · intro interval
    rw [placedEq]
    by_cases same : interval = touched <;> simp [countAt, same]
  · intro interval
    rw [hasNoneEq]
    cases setNone <;> by_cases same : interval = touched <;> simp [countAt, same]
  · intro interval
    rw [maxTopEq]
    by_cases same : interval = touched
    · subst same
      cases setNone
      · by_cases larger : top > old.maxTopAt interval
        · simp [countAt, larger, max_eq_right (le_of_lt larger)]
        · simp [countAt, larger, max_eq_left (not_lt.mp larger)]
      · simp [countAt]
    · rw [if_neg (by simp [same])]
      simp only [countAt]
      split <;> simp [Function.update_of_ne same]
  · intro interval
    have saturatedIff : (commitAt static setNone top old touched).Saturated static interval ↔
        (countAt setNone top old touched).Saturated static interval := by
      simp only [Intervals.Saturated, placedEq, hasNoneEq]
    rw [saturatedIff, List.mem_singleton]
    have doneEq : (countAt setNone top old touched).doneAt = old.doneAt := rfl
    simp only [commitAt]
    by_cases same : interval = touched
    · subst same
      cases already : old.doneAt interval
      · split <;> simp_all
      · simp [doneEq, already]
    · split <;> simp [doneEq, same]

theorem foldl_commitAt_committed (static : StaticData) (setNone : Bool) (top : ℤ)
    {touched : List ℕ} (nodup : touched.Nodup) (old : Intervals) :
    Intervals.Committed static setNone top touched old
      (touched.foldl (commitAt static setNone top) old) := by
  induction touched generalizing old with
  | nil =>
      constructor <;> simp
  | cons head tail inductionHypothesis =>
      obtain ⟨fresh, tailNodup⟩ := List.nodup_cons.mp nodup
      rw [List.foldl_cons]
      set middle := commitAt static setNone top old head
      set final := tail.foldl (commitAt static setNone top) middle
      have headStep : Intervals.Committed static setNone top [head] old middle :=
        commitAt_committed static setNone top old head
      have tailStep : Intervals.Committed static setNone top tail middle final :=
        inductionHypothesis tailNodup middle
      constructor
      · intro interval
        rw [tailStep.placed, headStep.placed]
        by_cases isHead : interval = head
        · simp [isHead, fresh]
        · simp [isHead]
      · intro interval
        rw [tailStep.hasNone, headStep.hasNone, List.mem_singleton, List.mem_cons]
        tauto
      · intro interval
        rw [tailStep.maxTop, headStep.maxTop]
        by_cases isHead : interval = head
        · simp [isHead, fresh]
        · simp [isHead]
      · intro interval
        rw [tailStep.done, headStep.done, List.mem_singleton, List.mem_cons]
        by_cases isHead : interval = head
        · -- The tail does not touch this interval, so its saturation is settled.
          have kept : final.Saturated static interval ↔ middle.Saturated static interval := by
            unfold Intervals.Saturated
            rw [tailStep.hasNone, tailStep.placed]
            simp [isHead, fresh]
          rw [kept]
          simp [isHead, fresh]
        · simp [isHead]

/-- Number of intervals below `bound` that are not marked done. -/
def remaining (doneAt : ℕ → Bool) (bound : ℕ) : ℕ :=
  ((Finset.range bound).filter fun interval => doneAt interval = false).card

theorem remaining_eq_countP (doneAt : ℕ → Bool) (bound : ℕ) :
    remaining doneAt bound = (List.range bound).countP fun interval => !doneAt interval := by
  unfold remaining
  induction bound with
  | zero => rfl
  | succ bound inductionHypothesis =>
      rw [List.range_succ, List.countP_append, ← inductionHypothesis, Finset.range_add_one,
        Finset.filter_insert]
      cases flag : doneAt bound <;> simp [flag]

theorem remaining_update {doneAt : ℕ → Bool} {touched bound : ℕ} (inside : touched < bound)
    (wasOpen : doneAt touched = false) :
    remaining (Function.update doneAt touched true) bound + 1 = remaining doneAt bound := by
  have removed : ((Finset.range bound).filter fun interval =>
      Function.update doneAt touched true interval = false) =
      ((Finset.range bound).filter fun interval => doneAt interval = false).erase touched := by
    ext interval
    by_cases same : interval = touched <;> simp [same]
  have membership : touched ∈
      (Finset.range bound).filter fun interval => doneAt interval = false := by
    simp [inside, wasOpen]
  unfold remaining
  rw [removed, Finset.card_erase_add_one membership]

theorem commitAt_notDone {static : StaticData} {setNone : Bool} {top : ℤ} {old : Intervals}
    {touched bound : ℕ} (inside : touched < bound)
    (counted : old.notDone = remaining old.doneAt bound) :
    (commitAt static setNone top old touched).notDone =
      remaining (commitAt static setNone top old touched).doneAt bound := by
  simp only [commitAt]
  split
  · next completes =>
      have decreased : remaining (Function.update old.doneAt touched true) bound + 1 =
          remaining old.doneAt bound := remaining_update inside completes.1
      change old.notDone - 1 = (remaining (Function.update old.doneAt touched true) bound : ℤ)
      omega
  · exact counted

theorem foldl_commitAt_notDone {static : StaticData} {setNone : Bool} {top : ℤ} {bound : ℕ}
    {touched : List ℕ} (inside : ∀ interval ∈ touched, interval < bound) {old : Intervals}
    (counted : old.notDone = remaining old.doneAt bound) :
    (touched.foldl (commitAt static setNone top) old).notDone =
      remaining (touched.foldl (commitAt static setNone top) old).doneAt bound := by
  induction touched generalizing old with
  | nil => exact counted
  | cons head tail inductionHypothesis =>
      exact inductionHypothesis
        (fun interval membership => inside interval (List.mem_cons_of_mem _ membership))
        (commitAt_notDone (inside head List.mem_cons_self) counted)

theorem scanIntervals_eq (intervals : Intervals) (scanned : List ℕ) (maxTop : ℤ) :
    scanIntervals intervals scanned maxTop =
      if ∃ interval ∈ scanned, intervals.hasNoneAt interval = true then none
      else some ((scanned.map intervals.maxTopAt).foldl max maxTop) := by
  induction scanned generalizing maxTop with
  | nil => simp [scanIntervals]
  | cons head tail inductionHypothesis =>
      unfold scanIntervals
      by_cases blocked : intervals.hasNoneAt head = true
      · simp [blocked]
      · simp [blocked, inductionHypothesis]

/-! ## The walk against a reference layout -/

namespace Solver

/-- What the constructor establishes and every mutator keeps besides the layout. -/
structure Consistent (solver : Solver) : Prop where
  static : solver.static.WellFormed
  alignment : 0 < solver.static.alignment
  sizes : ∀ buffer, 0 ≤ solver.sizes buffer
  permuted : solver.permutation.Perm (List.range solver.static.n)
  position : ∀ index (bounded : index < solver.permutation.length),
    solver.position solver.permutation[index] = index

/-- The interval aggregates describe the reference on the visited buffers. -/
structure Aggregates (solver : Solver) (reference : Layout) (earlier : List ℕ)
    (intervals : Intervals) : Prop where
  placed : ∀ interval, intervals.placedAt interval =
    earlier.countP fun buffer => solver.static.Covers buffer interval
  hasNone : ∀ interval, intervals.hasNoneAt interval = true ↔
    ∃ buffer ∈ earlier, solver.static.Covers buffer interval ∧
      solver.eligible buffer = true ∧ reference.allocated buffer = false
  maxTop : ∀ interval, intervals.maxTopAt interval =
    ((earlier.filter fun buffer =>
      solver.static.Covers buffer interval ∧ reference.allocated buffer = true).map
        (solver.config.top reference)).foldl max 0
  done : ∀ interval, intervals.doneAt interval = true →
    intervals.hasNoneAt interval = true ∨
      solver.static.totalAt interval ≤ intervals.placedAt interval
  notDone : intervals.notDone = remaining intervals.doneAt solver.static.numIntervals

/-- The walk has visited `earlier` and agrees there with the reference. -/
structure Tracks (solver : Solver) (reference : Layout) (earlier : List ℕ) (pass : Pass) :
    Prop where
  address : ∀ buffer ∈ earlier, pass.layout.address buffer = reference.address buffer
  quality : pass.totalQuality = solver.config.qualityOf reference earlier
  count : pass.totalAllocatedCount = Config.countAllocatedIn reference earlier
  aggregates : solver.Aggregates reference earlier pass.intervals

namespace Consistent

variable {solver : Solver} (consistent : solver.Consistent)

include consistent

theorem nodup : solver.permutation.Nodup :=
  consistent.permuted.nodup_iff.mpr List.nodup_range

theorem mem_permutation {buffer : ℕ} :
    buffer ∈ solver.permutation ↔ buffer < solver.static.n := by
  rw [consistent.permuted.mem_iff, List.mem_range]

theorem position_lt_iff {earlier rest : List ℕ} (split : solver.permutation = earlier ++ rest)
    {buffer : ℕ} (bounded : buffer < solver.static.n) :
    solver.position buffer < earlier.length ↔ buffer ∈ earlier := by
  obtain ⟨index, indexBound, found⟩ :=
    List.mem_iff_getElem.mp (consistent.mem_permutation.mpr bounded)
  have positionEq : solver.position buffer = index := by
    rw [← found, consistent.position index indexBound]
  rw [positionEq]
  constructor
  · intro early
    rw [← found]
    simp only [split, List.getElem_append_left early]
    exact List.getElem_mem early
  · intro membership
    obtain ⟨other, otherBound, otherFound⟩ := List.mem_iff_getElem.mp membership
    have otherInside : other < solver.permutation.length := by
      rw [split, List.length_append]
      omega
    have same : solver.permutation[index] = solver.permutation[other] := by
      rw [found, ← otherFound]
      simp only [split, List.getElem_append_left otherBound]
    have sameIndex := (consistent.nodup.getElem_inj_iff).mp same
    omega

theorem overlaps_iff {first second : ℕ} (firstBounded : first < solver.static.n)
    (secondBounded : second < solver.static.n) :
    solver.static.overlaps first second = true ↔
      ∃ interval, solver.static.Covers first interval ∧ solver.static.Covers second interval :=
  consistent.static.overlaps_iff_covers firstBounded secondBounded

theorem mem_gatherCandidates {earlier rest : List ℕ} {buffer : ℕ}
    (split : solver.permutation = earlier ++ buffer :: rest) (candidate : ℕ) :
    candidate ∈ solver.gatherCandidates buffer earlier.length ↔
      candidate ∈ solver.config.candidates earlier buffer := by
  have distinct := consistent.nodup
  rw [split] at distinct
  simp only [gatherCandidates, List.mem_filter, Bool.and_eq_true, decide_eq_true_eq,
    consistent.static.mem_overlap, Config.mem_candidates, config_static, config_eligible]
  constructor
  · rintro ⟨⟨bounded, -, overlap⟩, early, eligible⟩
    exact ⟨(consistent.position_lt_iff split bounded).mp early, eligible, overlap⟩
  · rintro ⟨membership, eligible, overlap⟩
    have bounded : candidate < solver.static.n := consistent.mem_permutation.mp (by
      rw [split]
      exact List.mem_append_left _ membership)
    refine ⟨⟨bounded, ?_, overlap⟩, (consistent.position_lt_iff split bounded).mpr membership,
      eligible⟩
    exact (List.nodup_append.mp distinct).2.2 candidate membership buffer List.mem_cons_self

theorem mem_referencePartners {buffer partner : ℕ} :
    partner ∈ solver.config.referencePartners buffer ↔
      partner ∈ solver.static.inplacePartners buffer := by
  rw [consistent.static.mem_partners]
  unfold Config.referencePartners
  rw [List.mem_filter, List.mem_range]
  refine ⟨fun both => of_decide_eq_true both.2, fun partners => ⟨?_, decide_eq_true partners⟩⟩
  rcases partners with declared | declared
  · exact (consistent.static.parent_bounds _ _ declared).2
  · exact (consistent.static.parent_bounds _ _ declared).1

end Consistent

section Visit

variable {solver : Solver} {reference : Layout} {earlier rest : List ℕ} {buffer : ℕ} {pass : Pass}
  (consistent : solver.Consistent)
  (isLayout : solver.config.IsLayout solver.permutation reference)
  (split : solver.permutation = earlier ++ buffer :: rest)
  (tracks : Tracks solver reference earlier pass)

include consistent split

theorem not_mem_earlier : buffer ∉ earlier := by
  have distinct := consistent.nodup
  rw [split] at distinct
  exact fun membership =>
    (List.nodup_append.mp distinct).2.2 buffer membership buffer List.mem_cons_self rfl

theorem buffer_bounded : buffer < solver.static.n :=
  consistent.mem_permutation.mp (by rw [split]; simp)

theorem earlier_bounded {other : ℕ} (membership : other ∈ earlier) : other < solver.static.n :=
  consistent.mem_permutation.mp (by rw [split]; exact List.mem_append_left _ membership)

include isLayout

theorem reference_address :
    reference.address buffer = solver.config.decision reference earlier buffer := by
  rw [isLayout buffer (by rw [split]; simp), split,
    before_append (not_mem_earlier consistent split)]

theorem reference_ineligible (ineligible : solver.eligible buffer = false) :
    reference.allocated buffer = false := by
  rw [← Layout.address_eq_none, reference_address consistent isLayout split]
  simp [Config.decision, ineligible]

include tracks

theorem partnerDecision_eq (eligible : solver.eligible buffer = true) :
    solver.config.placeDecision pass.layout (solver.static.inplacePartners buffer) buffer
      (solver.gatherCandidates buffer earlier.length) = reference.address buffer := by
  rw [reference_address consistent isLayout split]
  unfold Config.decision
  rw [config_eligible, if_pos eligible]
  apply solver.config.placeDecision_congr
  · exact consistent.mem_gatherCandidates split
  · exact fun partner => consistent.mem_referencePartners.symm
  · intro candidate membership
    exact tracks.address candidate ((solver.config.mem_candidates).mp
      ((consistent.mem_gatherCandidates split candidate).mp membership)).1
  · exact fun candidate _ => consistent.sizes candidate

omit isLayout in
/-- An interval of the buffer is blocked exactly when a candidate is evicted. -/
theorem blocked_iff :
    (∃ interval ∈ solver.static.liveIntervals buffer,
      pass.intervals.hasNoneAt interval = true) ↔
      ∃ candidate ∈ solver.config.candidates earlier buffer,
        reference.allocated candidate = false := by
  have bounded := buffer_bounded consistent split
  simp only [mem_liveIntervals, tracks.aggregates.hasNone, Config.mem_candidates]
  constructor
  · rintro ⟨interval, covered, other, membership, otherCovers, eligible, evicted⟩
    exact ⟨other, ⟨membership, eligible, (consistent.overlaps_iff bounded
      (earlier_bounded consistent split membership)).mpr ⟨interval, covered, otherCovers⟩⟩, evicted⟩
  · rintro ⟨other, ⟨membership, eligible, overlap⟩, evicted⟩
    obtain ⟨interval, covered, otherCovers⟩ := (consistent.overlaps_iff bounded
      (earlier_bounded consistent split membership)).mp overlap
    exact ⟨interval, covered, other, membership, otherCovers, eligible, evicted⟩

theorem scannedTop_eq
    (allAllocated : ∀ candidate ∈ solver.config.candidates earlier buffer,
      reference.allocated candidate = true) :
    ((solver.static.liveIntervals buffer).map pass.intervals.maxTopAt).foldl max 0 =
      ((solver.config.candidates earlier buffer).map (solver.config.top reference)).foldl max 0 := by
  have bounded := buffer_bounded consistent split
  apply le_antisymm
  · rw [foldl_max_le_iff]
    refine ⟨le_foldl_max_initial _ _, ?_⟩
    intro value membership
    obtain ⟨interval, covered, rfl⟩ := List.mem_map.mp membership
    rw [tracks.aggregates.maxTop, foldl_max_le_iff]
    refine ⟨le_foldl_max_initial _ _, ?_⟩
    intro value membership
    obtain ⟨other, inside, rfl⟩ := List.mem_map.mp membership
    simp only [List.mem_filter, decide_eq_true_eq] at inside
    obtain ⟨isEarlier, otherCovers, allocated⟩ := inside
    apply le_foldl_max
    apply List.mem_map_of_mem
    refine (solver.config.mem_candidates).mpr ⟨isEarlier, ?_, ?_⟩
    · apply isLayout.eligible_of_allocated _ allocated
      rw [split]
      exact List.mem_append_left _ isEarlier
    · exact (consistent.overlaps_iff bounded (earlier_bounded consistent split isEarlier)).mpr
        ⟨interval, (mem_liveIntervals _ _ _).mp covered, otherCovers⟩
  · rw [foldl_max_le_iff]
    refine ⟨le_foldl_max_initial _ _, ?_⟩
    intro value membership
    obtain ⟨candidate, inside, rfl⟩ := List.mem_map.mp membership
    obtain ⟨isEarlier, -, overlap⟩ := (solver.config.mem_candidates).mp inside
    obtain ⟨interval, covered, otherCovers⟩ := (consistent.overlaps_iff bounded
      (earlier_bounded consistent split isEarlier)).mp overlap
    refine le_trans ?_ (le_foldl_max _ (List.mem_map_of_mem
      ((mem_liveIntervals _ _ _).mpr covered)))
    rw [tracks.aggregates.maxTop]
    apply le_foldl_max
    apply List.mem_map_of_mem
    simp only [List.mem_filter, decide_eq_true_eq]
    exact ⟨isEarlier, otherCovers, allAllocated candidate inside⟩

/-- Without in-place partners the interval aggregates decide like the scan. -/
theorem fastDecision_eq (eligible : solver.eligible buffer = true)
    (noPartners : solver.static.inplacePartners buffer = []) :
    solver.fastDecision pass.intervals buffer = reference.address buffer := by
  have noReferencePartners : solver.config.referencePartners buffer = [] := by
    rw [List.eq_nil_iff_forall_not_mem]
    intro partner
    simp [consistent.mem_referencePartners, noPartners]
  rw [reference_address consistent isLayout split]
  unfold fastDecision Config.decision
  rw [config_eligible, if_pos eligible, noReferencePartners, scanIntervals_eq]
  by_cases blocked : ∃ interval ∈ solver.static.liveIntervals buffer,
      pass.intervals.hasNoneAt interval = true
  · obtain ⟨candidate, membership, evicted⟩ := (blocked_iff consistent split tracks).mp blocked
    rw [if_pos blocked, solver.config.placeDecision_of_unallocated membership evicted]
  · have allAllocated : ∀ candidate ∈ solver.config.candidates earlier buffer,
        reference.allocated candidate = true := by
      intro candidate membership
      by_contra evicted
      exact blocked ((blocked_iff consistent split tracks).mpr
        ⟨candidate, membership, by simpa using evicted⟩)
    rw [if_neg blocked, scannedTop_eq consistent isLayout split tracks allAllocated]
    unfold Config.placeDecision
    by_cases empty : solver.config.candidates earlier buffer = []
    · have floor : alignUp solver.static.alignment 0 = 0 := by
        rw [alignUp_eq_roundUp consistent.alignment (le_refl 0), roundUp_zero consistent.alignment]
      simp [empty, floor]
    · have noneUnallocated : ¬ (solver.config.candidates earlier buffer).any
          (fun candidate => !reference.allocated candidate) = true := by
        simpa using allAllocated
      obtain ⟨candidate, inside⟩ := List.exists_mem_of_ne_nil _ empty
      have topNonneg : 0 ≤ solver.config.top reference candidate :=
        add_nonneg
          (isLayout.address_nonneg consistent.alignment (fun other _ => consistent.sizes other)
            candidate (by
              rw [split]
              exact List.mem_append_left _ ((solver.config.mem_candidates).mp inside).1) _
            (Layout.address_eq_some.mpr ⟨allAllocated candidate inside, rfl⟩))
          (consistent.sizes candidate)
      have sameFloor : ((solver.config.candidates earlier buffer).map
            (solver.config.top reference)).foldl max (-int64Max - 1) =
          ((solver.config.candidates earlier buffer).map
            (solver.config.top reference)).foldl max 0 :=
        foldl_max_eq_of_le (by decide) ⟨_, List.mem_map_of_mem inside, topNonneg⟩
      simp [empty, noneUnallocated, sameFloor]

omit isLayout in
/-- Committing the buffer's outcome keeps the aggregates. -/
theorem commitIntervals_aggregates {setNone : Bool} {top : ℤ}
    (evicts : setNone = true ↔ solver.eligible buffer = true ∧ reference.allocated buffer = false)
    (rests : setNone = false →
      top = if reference.allocated buffer then solver.config.top reference buffer else -1) :
    solver.Aggregates reference (earlier ++ [buffer])
      (commitIntervals solver.static buffer setNone top pass.intervals) := by
  have committed := foldl_commitAt_committed solver.static setNone top
    (nodup_liveIntervals solver.static buffer) pass.intervals
  have old := tracks.aggregates
  unfold commitIntervals
  constructor
  · intro interval
    rw [committed.placed, old.placed, List.countP_append, List.countP_singleton]
    simp only [mem_liveIntervals, decide_eq_true_eq]
    split <;> simp
  · intro interval
    rw [committed.hasNone, old.hasNone, mem_liveIntervals, evicts]
    simp only [List.mem_append, List.mem_singleton, or_and_right, exists_or, exists_eq_left]
  · intro interval
    rw [committed.maxTop, old.maxTop, List.filter_append, List.map_append, List.foldl_append]
    simp only [mem_liveIntervals]
    by_cases covered : solver.static.Covers buffer interval
    · cases allocated : reference.allocated buffer
      · cases setNone
        · have ignored := rests rfl
          simp only [allocated, Bool.false_eq_true, if_false] at ignored
          simp [covered, allocated, ignored, le_trans (by decide : (-1 : ℤ) ≤ 0)
            (le_foldl_max_initial _ _)]
        · simp [allocated]
      · have stays : setNone = false := by
          cases setNone
          · rfl
          · simp [allocated] at evicts
        have stacked := rests stays
        simp only [allocated, if_true] at stacked
        simp [covered, allocated, stays, stacked]
    · simp [covered]
  · intro interval finished
    rcases (committed.done interval).mp finished with already | ⟨-, saturated⟩
    · rcases old.done interval already with blocked | full
      · exact .inl ((committed.hasNone interval).mpr (.inl blocked))
      · refine .inr (le_trans full ?_)
        rw [committed.placed]
        split <;> omega
    · rcases saturated with blocked | full
      · exact .inl blocked
      · exact .inr (le_of_eq full.symm)
  · apply foldl_commitAt_notDone _ old.notDone
    intro interval membership
    exact consistent.static.covers_lt (buffer_bounded consistent split)
      ((mem_liveIntervals _ _ _).mp membership)

/-- The decision `visit` takes, whichever path it goes. -/
theorem decided_eq (eligible : solver.eligible buffer = true) :
    (if solver.static.inplacePartners buffer = [] then
        solver.fastDecision pass.intervals buffer
      else
        solver.config.placeDecision pass.layout (solver.static.inplacePartners buffer) buffer
          (solver.gatherCandidates buffer earlier.length)) = reference.address buffer := by
  split_ifs with noPartners
  · exact fastDecision_eq consistent isLayout split tracks eligible noPartners
  · exact partnerDecision_eq consistent isLayout split tracks eligible

theorem visit_tracks :
    Tracks solver reference (earlier ++ [buffer]) (solver.visit earlier.length pass buffer) := by
  have fresh := not_mem_earlier consistent split
  have unchanged : ∀ (layout : Layout),
      (∀ other, other ≠ buffer → layout.address other = pass.layout.address other) →
      layout.address buffer = reference.address buffer →
      ∀ other ∈ earlier ++ [buffer], layout.address other = reference.address other := by
    intro layout others own other membership
    rcases List.mem_append.mp membership with inEarlier | isBuffer
    · rw [others other (fun same => fresh (same ▸ inEarlier)), tracks.address other inEarlier]
    · rw [List.mem_singleton.mp isBuffer, own]
  unfold visit
  cases eligible : solver.eligible buffer with
  | false =>
      have unallocated := reference_ineligible consistent isLayout split eligible
      simp only [Bool.not_false, if_true]
      constructor
      · apply unchanged
        · intro other distinct
          simp [Layout.address, Function.update_of_ne distinct]
        · rw [Layout.address_eq_none.mpr unallocated]
          simp [Layout.address]
      · simp [tracks.quality, Config.qualityOf, unallocated]
      · simp [tracks.count, Config.countAllocatedIn, unallocated]
      · apply commitIntervals_aggregates consistent split tracks <;> simp [eligible, unallocated]
  | true =>
      simp only [Bool.not_true, Bool.false_eq_true, if_false,
        decided_eq consistent isLayout split tracks eligible]
      cases located : reference.address buffer with
      | none =>
          have unallocated := Layout.address_eq_none.mp located
          simp only
          constructor
          · exact unchanged (pass.layout.set buffer none)
              (fun other distinct => pass.layout.address_set_of_ne distinct none)
              (by rw [Layout.address_set_self, located])
          · simp [tracks.quality, Config.qualityOf, unallocated]
          · simp [tracks.count, Config.countAllocatedIn, unallocated]
          · apply commitIntervals_aggregates consistent split tracks <;>
              simp [eligible, unallocated]
      | some address =>
          obtain ⟨allocated, atAddress⟩ := Layout.address_eq_some.mp located
          simp only
          constructor
          · exact unchanged (pass.layout.set buffer (some address))
              (fun other distinct => pass.layout.address_set_of_ne distinct (some address))
              (by rw [Layout.address_set_self, located])
          · simp [tracks.quality, Config.qualityOf, allocated]
          · simp [tracks.count, Config.countAllocatedIn, allocated]
          · apply commitIntervals_aggregates consistent split tracks <;>
              simp [allocated, Config.top, atAddress]

end Visit

section Walk

variable {solver : Solver} {reference : Layout} {earlier rest : List ℕ} {pass : Pass}
  (consistent : solver.Consistent)
  (isLayout : solver.config.IsLayout solver.permutation reference)
  (split : solver.permutation = earlier ++ rest)
  (tracks : Tracks solver reference earlier pass)

include consistent split in
/-- An interval counted full has no buffer left to visit. -/
theorem not_covers_of_full {buffer interval : ℕ} (membership : buffer ∈ rest)
    (full : solver.static.totalAt interval ≤
      earlier.countP fun other => solver.static.Covers other interval) :
    ¬ solver.static.Covers buffer interval := by
  intro covered
  have bounded : buffer < solver.static.n := consistent.mem_permutation.mp (by
    rw [split]
    exact List.mem_append_right _ membership)
  have counted : (List.range solver.static.n).countP
        (fun other => solver.static.Covers other interval) =
      earlier.countP (fun other => solver.static.Covers other interval) +
        rest.countP (fun other => solver.static.Covers other interval) := by
    rw [← consistent.permuted.countP_eq, split, List.countP_append]
  have positive : 0 < rest.countP fun other => solver.static.Covers other interval :=
    List.countP_pos_iff.mpr ⟨buffer, membership, by simpa using covered⟩
  rw [consistent.static.totalAt_eq bounded] at full
  omega

include consistent isLayout split tracks

/-- Once every interval is saturated, the reference evicts all remaining buffers. -/
theorem unallocated_of_saturated (saturated : pass.intervals.notDone = 0) :
    ∀ buffer ∈ rest, reference.allocated buffer = false := by
  intro buffer membership
  have inOrder : buffer ∈ solver.permutation := by
    rw [split]
    exact List.mem_append_right _ membership
  have bounded := consistent.mem_permutation.mp inOrder
  by_contra allocatedFlag
  have allocated : reference.allocated buffer = true := by simpa using allocatedFlag
  obtain ⟨interval, covered⟩ := consistent.static.exists_covers bounded
  have finished : pass.intervals.doneAt interval = true := by
    have noneLeft := tracks.aggregates.notDone
    rw [saturated] at noneLeft
    have empty := Finset.card_eq_zero.mp (Int.natCast_eq_zero.mp noneLeft.symm)
    by_contra unfinished
    have inside : interval ∈ (Finset.range solver.static.numIntervals).filter
        fun other => pass.intervals.doneAt other = false := by
      rw [Finset.mem_filter, Finset.mem_range]
      exact ⟨consistent.static.covers_lt bounded covered, by simpa using unfinished⟩
    rw [empty] at inside
    exact absurd inside (Finset.notMem_empty _)
  rcases tracks.aggregates.done interval finished with blocked | full
  · obtain ⟨other, isEarlier, otherCovers, eligible, evicted⟩ :=
      (tracks.aggregates.hasNone interval).mp blocked
    have inPermutation : other ∈ solver.permutation := by
      rw [split]
      exact List.mem_append_left _ isEarlier
    have isCandidate : other ∈ solver.config.candidates (before solver.permutation buffer) buffer := by
      refine (solver.config.mem_candidates).mpr ⟨?_, eligible, ?_⟩
      · rw [split]
        exact mem_before_of_append (split ▸ consistent.nodup) isEarlier membership
      · exact (consistent.overlaps_iff bounded (consistent.mem_permutation.mp inPermutation)).mpr
          ⟨interval, covered, otherCovers⟩
    have located := Layout.address_eq_some.mpr ⟨allocated, rfl⟩
    rw [isLayout buffer inOrder] at located
    have decided := (solver.config.decision_eq_some located).2
    rw [solver.config.placeDecision_of_unallocated isCandidate evicted] at decided
    exact absurd decided (by simp)
  · rw [tracks.aggregates.placed] at full
    exact not_covers_of_full consistent split membership full covered

theorem recomputeFrom_tracks :
    ∃ visited, solver.permutation =
        visited ++ (solver.recomputeFrom earlier.length pass rest).2 ∧
      Tracks solver reference visited (solver.recomputeFrom earlier.length pass rest).1 ∧
      ∀ buffer ∈ (solver.recomputeFrom earlier.length pass rest).2,
        reference.allocated buffer = false := by
  induction rest generalizing earlier pass with
  | nil => exact ⟨earlier, split, tracks, by simp [recomputeFrom]⟩
  | cons head tail inductionHypothesis =>
      unfold recomputeFrom
      by_cases saturated : pass.intervals.notDone = 0
      · rw [if_pos saturated]
        exact ⟨earlier, split, tracks,
          unallocated_of_saturated consistent isLayout split tracks saturated⟩
      · rw [if_neg saturated]
        have nextSplit : solver.permutation = (earlier ++ [head]) ++ tail := by simp [split]
        have advanced := inductionHypothesis nextSplit
          (visit_tracks consistent isLayout split tracks)
        rwa [List.length_append, List.length_singleton] at advanced

end Walk

theorem initIntervals_aggregates (solver : Solver) (reference : Layout) :
    solver.Aggregates reference [] (initIntervals solver.static) := by
  constructor
  · intro interval
    simp [initIntervals]
  · intro interval
    simp [initIntervals]
  · intro interval
    simp [initIntervals]
  · intro interval finished
    exact .inr (le_of_eq (of_decide_eq_true finished))
  · simp only [initIntervals, remaining_eq_countP]

theorem foldl_unallocate (rest : List ℕ) (allocated : ℕ → Bool) (buffer : ℕ) :
    rest.foldl (fun flags other => Function.update flags other false) allocated buffer =
      (if buffer ∈ rest then false else allocated buffer) := by
  induction rest generalizing allocated with
  | nil => simp
  | cons head tail inductionHypothesis =>
      rw [List.foldl_cons, inductionHypothesis]
      by_cases inTail : buffer ∈ tail
      · simp [inTail]
      · by_cases isHead : buffer = head
        · simp [isHead]
        · simp [inTail, isHead]

section RecomputeAll

variable {solver : Solver} {reference : Layout} (consistent : solver.Consistent)
  (isLayout : solver.config.IsLayout solver.permutation reference)

include consistent isLayout

/-- The shortcuts do not change the layout, whatever entries the previous layout
left behind. -/
theorem recomputeAll_spec :
    (∀ buffer < solver.static.n,
      solver.recomputeAll.layout.address buffer = reference.address buffer) ∧
    solver.recomputeAll.totalQuality = solver.config.qualityOf reference solver.permutation ∧
    solver.recomputeAll.totalAllocatedCount =
      Config.countAllocatedIn reference solver.permutation := by
  have started : Tracks solver reference [] ⟨solver.layout, 0, 0, initIntervals solver.static⟩ :=
    ⟨by simp, rfl, rfl, initIntervals_aggregates solver reference⟩
  obtain ⟨visited, split, tracks, evicted⟩ :=
    recomputeFrom_tracks consistent isLayout (List.nil_append _).symm started
  rw [List.length_nil] at split tracks evicted
  have noneLeft : (solver.recomputeFrom 0 ⟨solver.layout, 0, 0, initIntervals solver.static⟩
      solver.permutation).2.filter reference.allocated = [] := by
    rw [List.filter_eq_nil_iff]
    intro buffer membership
    simp [evicted buffer membership]
  refine ⟨?_, ?_, ?_⟩
  · intro buffer bounded
    have membership := consistent.mem_permutation.mpr bounded
    rw [split, List.mem_append] at membership
    simp only [recomputeAll, Layout.address, foldl_unallocate]
    by_cases unreached : buffer ∈ (solver.recomputeFrom 0
        ⟨solver.layout, 0, 0, initIntervals solver.static⟩ solver.permutation).2
    · rw [if_pos unreached, evicted buffer unreached]
      simp
    · rw [if_neg unreached]
      exact tracks.address buffer (membership.resolve_right unreached)
  · change (solver.recomputeFrom 0 _ solver.permutation).1.totalQuality = _
    rw [tracks.quality]
    unfold Config.qualityOf
    conv_rhs => rw [split, List.filter_append, noneLeft, List.append_nil]
  · change (solver.recomputeFrom 0 _ solver.permutation).1.totalAllocatedCount = _
    rw [tracks.count]
    unfold Config.countAllocatedIn
    conv_rhs => rw [split, List.filter_append, noneLeft, List.append_nil]

end RecomputeAll

end Solver

end TorchSpyre.Scratchpad.PermLayout
