import Mathlib
import TorchSpyre.Scratchpad.Buffer

/-!
# Static data of the native permutation packer

`StaticData` is derived once from the buffers, the capacity and the alignment
and shared by a solver and its copies.  Its interval part cuts the timeline at
the sorted distinct lifetime endpoints: interval `t` lies between the `t`-th and
the next endpoint, a buffer covers a contiguous range of intervals, and two
buffers overlap in time exactly when they cover a common interval.

Vectors of length `n` are functions on indices; entries at or past `n` are never
read.
-/

namespace TorchSpyre.Scratchpad.PermLayout

structure StaticData where
  n : ℕ
  capacity : ℤ
  alignment : ℤ
  start : ℕ → ℤ
  stop : ℕ → ℤ
  weight : ℕ → ℚ
  overlap : ℕ → List ℕ
  inplacePartners : ℕ → List ℕ
  declaredParents : ℕ → List ℕ
  numIntervals : ℕ
  totalAt : ℕ → ℤ
  bufIntervals : ℕ → ℕ × ℕ

/-! ## Intervals -/

/-- Sorted distinct lifetime endpoints (`std::sort`, then `std::unique`). -/
def endpoints (n : ℕ) (start stop : ℕ → ℤ) : List ℤ :=
  (((List.range n).map start ++ (List.range n).map stop).dedup).insertionSort (· ≤ ·)

/-- `std::lower_bound` as an index. -/
def bisectLeft (points : List ℤ) (value : ℤ) : ℕ := points.findIdx fun point => value ≤ point

/-- The delta sweep: one more buffer at its first interval, one fewer past its
last. -/
def deltas (n : ℕ) (intervals : ℕ → ℕ × ℕ) : ℕ → ℤ :=
  (List.range n).foldl (fun sweep buffer =>
    let opened := Function.update sweep (intervals buffer).1 (sweep (intervals buffer).1 + 1)
    Function.update opened (intervals buffer).2 (opened (intervals buffer).2 - 1)) fun _ => 0

def runningTotal (sweep : ℕ → ℤ) : ℕ → ℤ
  | 0 => sweep 0
  | interval + 1 => runningTotal sweep interval + sweep (interval + 1)

structure IntervalData where
  numIntervals : ℕ
  totalAt : ℕ → ℤ
  bufIntervals : ℕ → ℕ × ℕ

def buildIntervalData (n : ℕ) (start stop : ℕ → ℤ) : IntervalData :=
  let points := endpoints n start stop
  let k := points.length - 1
  if k = 0 then ⟨0, fun _ => 0, fun _ => (0, 0)⟩
  else
    let intervals := fun buffer => (bisectLeft points (start buffer), bisectLeft points (stop buffer))
    ⟨k, runningTotal (deltas n intervals), intervals⟩

theorem endpoints_sorted (n : ℕ) (start stop : ℕ → ℤ) :
    (endpoints n start stop).Pairwise (· < ·) := by
  unfold endpoints
  set distinct := ((List.range n).map start ++ (List.range n).map stop).dedup
  have sorted : (distinct.insertionSort (· ≤ ·)).Pairwise (· ≤ ·) :=
    List.pairwise_insertionSort _ _
  have nodup : (distinct.insertionSort (· ≤ ·)).Nodup :=
    (List.perm_insertionSort _ _).nodup_iff.mpr (List.nodup_dedup _)
  exact (sorted.and nodup).imp fun both => lt_of_le_of_ne both.1 both.2

theorem mem_endpoints {n : ℕ} {start stop : ℕ → ℤ} {value : ℤ} :
    value ∈ endpoints n start stop ↔
      ∃ buffer < n, start buffer = value ∨ stop buffer = value := by
  unfold endpoints
  rw [(List.perm_insertionSort _ _).mem_iff, List.mem_dedup, List.mem_append]
  simp only [List.mem_map, List.mem_range]
  constructor
  · rintro (⟨buffer, bounded, equality⟩ | ⟨buffer, bounded, equality⟩)
    · exact ⟨buffer, bounded, .inl equality⟩
    · exact ⟨buffer, bounded, .inr equality⟩
  · rintro ⟨buffer, bounded, equality | equality⟩
    · exact .inl ⟨buffer, bounded, equality⟩
    · exact .inr ⟨buffer, bounded, equality⟩

theorem bisectLeft_lt_length {points : List ℤ} {value : ℤ} (membership : value ∈ points) :
    bisectLeft points value < points.length :=
  List.findIdx_lt_length_of_exists ⟨value, membership, by simp⟩

theorem bisectLeft_mono (points : List ℤ) {small large : ℤ} (order : small ≤ large) :
    bisectLeft points small ≤ bisectLeft points large := by
  unfold bisectLeft
  apply List.findIdx_le_findIdx
  intro point _ reached
  simp only [decide_eq_true_eq] at reached ⊢
  exact le_trans order reached

theorem bisectLeft_lt {points : List ℤ} (sorted : points.Pairwise (· < ·)) {small large : ℤ}
    (membership : small ∈ points) (order : small < large) :
    bisectLeft points small < bisectLeft points large := by
  refine lt_of_le_of_ne (bisectLeft_mono points (le_of_lt order)) ?_
  intro equal
  have bounded := bisectLeft_lt_length membership
  obtain ⟨index, indexBound, atIndex⟩ := List.mem_iff_getElem.mp membership
  have largeBounded : bisectLeft points large < points.length := equal ▸ bounded
  have reached : large ≤ points[bisectLeft points large] :=
    of_decide_eq_true (List.findIdx_getElem (w := largeBounded))
  have position : bisectLeft points small ≤ index := by
    by_contra later
    have missed := List.not_of_lt_findIdx (p := fun point => small ≤ point) (not_le.mp later)
    simp [atIndex] at missed
  have ordered : points[bisectLeft points small] ≤ points[index] := by
    rcases Nat.eq_or_lt_of_le position with same | before
    · simp [same]
    · exact le_of_lt (List.pairwise_iff_getElem.mp sorted _ _ _ _ before)
  simp only [← equal] at reached
  omega

/-- A buffer is alive on an interval. -/
def IntervalData.Covers (data : IntervalData) (buffer interval : ℕ) : Prop :=
  (data.bufIntervals buffer).1 ≤ interval ∧ interval < (data.bufIntervals buffer).2

instance (data : IntervalData) (buffer interval : ℕ) : Decidable (data.Covers buffer interval) :=
  inferInstanceAs (Decidable (_ ∧ _))

section Sweep

variable (intervals : ℕ → ℕ × ℕ)

theorem foldl_deltas (buffers : List ℕ) (initial : ℕ → ℤ) (interval : ℕ) :
    buffers.foldl (fun sweep buffer =>
      let opened := Function.update sweep (intervals buffer).1 (sweep (intervals buffer).1 + 1)
      Function.update opened (intervals buffer).2 (opened (intervals buffer).2 - 1))
        initial interval =
      initial interval + buffers.countP (fun buffer => (intervals buffer).1 = interval) -
        buffers.countP (fun buffer => (intervals buffer).2 = interval) := by
  induction buffers generalizing initial with
  | nil => simp
  | cons head tail inductionHypothesis =>
      rw [List.foldl_cons, inductionHypothesis]
      simp only [List.countP_cons, Function.update_apply, decide_eq_true_eq]
      split_ifs <;> first | omega | (subst_vars; simp_all; omega)

theorem deltas_apply (n interval : ℕ) :
    deltas n intervals interval =
      (List.range n).countP (fun buffer => (intervals buffer).1 = interval) -
        (List.range n).countP (fun buffer => (intervals buffer).2 = interval) := by
  unfold deltas
  rw [foldl_deltas]
  omega

theorem runningTotal_deltas (n interval : ℕ) :
    runningTotal (deltas n intervals) interval =
      (List.range n).countP (fun buffer => (intervals buffer).1 ≤ interval) -
        (List.range n).countP (fun buffer => (intervals buffer).2 ≤ interval) := by
  have step : ∀ (bound : ℕ → ℕ) (buffers : List ℕ) (interval : ℕ),
      buffers.countP (fun buffer => bound buffer ≤ interval + 1) =
        buffers.countP (fun buffer => bound buffer ≤ interval) +
          buffers.countP (fun buffer => bound buffer = interval + 1) := by
    intro bound buffers interval
    induction buffers with
    | nil => rfl
    | cons head tail inductionHypothesis =>
        simp only [List.countP_cons, inductionHypothesis, decide_eq_true_eq]
        split_ifs <;> omega
  induction interval with
  | zero =>
      simp only [runningTotal, deltas_apply, Nat.le_zero]
  | succ interval inductionHypothesis =>
      rw [runningTotal, inductionHypothesis, deltas_apply,
        step (fun buffer => (intervals buffer).1), step (fun buffer => (intervals buffer).2)]
      omega

theorem countP_covering (buffers : List ℕ) (interval : ℕ)
    (ordered : ∀ buffer ∈ buffers, (intervals buffer).1 ≤ (intervals buffer).2) :
    (buffers.countP (fun buffer => (intervals buffer).1 ≤ interval) : ℤ) -
        buffers.countP (fun buffer => (intervals buffer).2 ≤ interval) =
      buffers.countP (fun buffer =>
        (intervals buffer).1 ≤ interval ∧ interval < (intervals buffer).2) := by
  induction buffers with
  | nil => rfl
  | cons head tail inductionHypothesis =>
      have headOrdered := ordered head List.mem_cons_self
      have tailCounted := inductionHypothesis fun buffer membership =>
        ordered buffer (List.mem_cons_of_mem _ membership)
      simp only [List.countP_cons, decide_eq_true_eq] at tailCounted ⊢
      split_ifs <;> omega

end Sweep

section IntervalFacts

variable {n : ℕ} {start stop : ℕ → ℤ} (nonempty : ∀ buffer < n, start buffer < stop buffer)

include nonempty

theorem buildIntervalData_eq {buffer : ℕ} (bounded : buffer < n) :
    let points := endpoints n start stop
    let intervals := fun other => (bisectLeft points (start other), bisectLeft points (stop other))
    buildIntervalData n start stop =
      ⟨points.length - 1, runningTotal (deltas n intervals), intervals⟩ := by
  intro points intervals
  have startMembership : start buffer ∈ points := mem_endpoints.2 ⟨buffer, bounded, .inl rfl⟩
  have stopMembership : stop buffer ∈ points := mem_endpoints.2 ⟨buffer, bounded, .inr rfl⟩
  have before : bisectLeft points (start buffer) < bisectLeft points (stop buffer) :=
    bisectLeft_lt (endpoints_sorted n start stop) startMembership (nonempty buffer bounded)
  have inside : bisectLeft points (stop buffer) < points.length :=
    bisectLeft_lt_length stopMembership
  have positive : ¬ points.length - 1 = 0 := by omega
  unfold buildIntervalData
  rw [if_neg positive]

theorem covers_iff {buffer interval : ℕ} (bounded : buffer < n) :
    (buildIntervalData n start stop).Covers buffer interval ↔
      bisectLeft (endpoints n start stop) (start buffer) ≤ interval ∧
        interval < bisectLeft (endpoints n start stop) (stop buffer) := by
  unfold IntervalData.Covers
  rw [buildIntervalData_eq nonempty bounded]

theorem covers_lt_numIntervals {buffer interval : ℕ} (bounded : buffer < n)
    (covers : (buildIntervalData n start stop).Covers buffer interval) :
    interval < (buildIntervalData n start stop).numIntervals := by
  have upper := ((covers_iff nonempty bounded).mp covers).2
  have inside := bisectLeft_lt_length (mem_endpoints.mpr ⟨buffer, bounded, .inr rfl⟩ :
    stop buffer ∈ endpoints n start stop)
  rw [buildIntervalData_eq nonempty bounded]
  change interval < (endpoints n start stop).length - 1
  omega

theorem exists_covers {buffer : ℕ} (bounded : buffer < n) :
    ∃ interval, (buildIntervalData n start stop).Covers buffer interval :=
  ⟨_, (covers_iff nonempty bounded).mpr ⟨le_refl _,
    bisectLeft_lt (endpoints_sorted n start stop)
      (mem_endpoints.mpr ⟨buffer, bounded, .inl rfl⟩) (nonempty buffer bounded)⟩⟩

/-- Two lifetimes intersect exactly when they cover a common interval. -/
theorem overlap_iff_covers {first second : ℕ} (firstBounded : first < n)
    (secondBounded : second < n) :
    (start first < stop second ∧ start second < stop first) ↔
      ∃ interval, (buildIntervalData n start stop).Covers first interval ∧
        (buildIntervalData n start stop).Covers second interval := by
  simp only [covers_iff nonempty firstBounded, covers_iff nonempty secondBounded]
  have sorted := endpoints_sorted n start stop
  have startMembership : ∀ {buffer}, buffer < n → start buffer ∈ endpoints n start stop :=
    fun bounded => mem_endpoints.mpr ⟨_, bounded, .inl rfl⟩
  constructor
  · rintro ⟨firstBefore, secondBefore⟩
    -- The later of the two first intervals lies in both ranges.
    refine ⟨max (bisectLeft (endpoints n start stop) (start first))
      (bisectLeft (endpoints n start stop) (start second)), ?_⟩
    have a := bisectLeft_lt sorted (startMembership firstBounded) firstBefore
    have b := bisectLeft_lt sorted (startMembership secondBounded) secondBefore
    have c := bisectLeft_lt sorted (startMembership firstBounded) (nonempty first firstBounded)
    have d := bisectLeft_lt sorted (startMembership secondBounded) (nonempty second secondBounded)
    omega
  · rintro ⟨interval, ⟨firstLower, firstUpper⟩, secondLower, secondUpper⟩
    constructor
    · by_contra ordered
      have := bisectLeft_mono (endpoints n start stop) (not_lt.mp ordered)
      omega
    · by_contra ordered
      have := bisectLeft_mono (endpoints n start stop) (not_lt.mp ordered)
      omega

/-- The sweep counts, on each interval, the buffers alive on it. -/
theorem totalAt_eq_countP {buffer : ℕ} (bounded : buffer < n) (interval : ℕ) :
    (buildIntervalData n start stop).totalAt interval =
      (List.range n).countP fun other => (buildIntervalData n start stop).Covers other interval := by
  unfold IntervalData.Covers
  rw [buildIntervalData_eq nonempty bounded]
  simp only
  rw [runningTotal_deltas]
  apply countP_covering
  intro other membership
  exact bisectLeft_mono _ (le_of_lt (nonempty other (List.mem_range.mp membership)))

end IntervalFacts

/-! ## Reading the buffers -/

def int64Max : ℤ := 9223372036854775807

def fitsInt64 (value : ℤ) : Bool := decide (-int64Max - 1 ≤ value ∧ value ≤ int64Max)

/-- A cast of a Python field that fails is restated with the buffer's index. -/
def readError (index : ℕ) : String :=
  "buffer " ++ toString index ++
    ": could not read fields (name, size, uses, first_use_is_read, in_place_parents)"

def fieldError? : LifetimeBoundBuffer × ℕ → Option String
  | (buffer, index) =>
      if !(fitsInt64 buffer.size && buffer.uses.all fitsInt64) then some (readError index)
      else if buffer.lastUse = int64Max then
        some ("buffer " ++ toString index ++ ": last use must be below INT64_MAX")
      else if !(fitsInt64 buffer.startTime && fitsInt64 buffer.endTime) then
        some (readError index)
      else none

/-- The last use is a read, so the buffer has storage to hand over. -/
def canHandOver (buffer : LifetimeBoundBuffer) : Bool :=
  buffer.firstUseIsRead || decide (1 < buffer.uses.length ∧ buffer.firstUse < buffer.lastUse)

/-- Declared in-place pairs as `(child, parent)` indices, in the order the
constructor resolves them; a parent outside the list is skipped. -/
def declaredPairs (buffers : List LifetimeBoundBuffer) : List (ℕ × ℕ) :=
  buffers.zipIdx.flatMap fun entry =>
    entry.1.inPlaceParents.filterMap fun parentName =>
      (buffers.findIdx? fun buffer => buffer.name = parentName).map fun parent => (entry.2, parent)

def pairError? (buffers : List LifetimeBoundBuffer) : ℕ × ℕ → Option String
  | (child, parent) =>
      match buffers[child]?, buffers[parent]? with
      | some childBuffer, some parentBuffer =>
          if !canHandOver parentBuffer then
            some ("in-place parent " ++ parentBuffer.name ++
              " is a computed buffer that is never read, so it cannot hand its " ++
              "storage to child " ++ childBuffer.name)
          else if parentBuffer.endTime ≠ childBuffer.startTime + 1 then
            some ("in-place pair (" ++ parentBuffer.name ++ ", " ++ childBuffer.name ++
              ") must hand off at a single tick: parent end_time " ++
              toString parentBuffer.endTime ++ " != child start_time " ++
              toString childBuffer.startTime ++ " + 1")
          else none
      | _, _ => none

def weightOf (buffer : LifetimeBoundBuffer) : ℚ :=
  buffer.uses.length + if buffer.firstUseIsRead then 0 else 1 / 2

def overlapsAt (start stop : ℕ → ℤ) (first second : ℕ) : Bool :=
  decide (start first < stop second ∧ start second < stop first)

/-- Every buffer that declares `buffer` as parent or that `buffer` declares. -/
def partnerSet (pairs : List (ℕ × ℕ)) (buffer : ℕ) : List ℕ :=
  (pairs.filterMap (fun pair => if pair.1 = buffer then some pair.2 else none) ++
    pairs.filterMap (fun pair => if pair.2 = buffer then some pair.1 else none)).dedup

/-- The part of the constructor that reads the buffers.  `shuffle` is the
unspecified iteration order of the unordered partner sets. -/
def StaticData.build (shuffle : ℕ → List ℕ → List ℕ) (buffers : List LifetimeBoundBuffer)
    (capacity alignment : ℤ) : Except String StaticData :=
  let n := buffers.length
  let start := fun buffer => (buffers.map LifetimeBoundBuffer.startTime).getD buffer 0
  let stop := fun buffer => (buffers.map LifetimeBoundBuffer.endTime).getD buffer 0
  let pairs := declaredPairs buffers
  let intervals := buildIntervalData n start stop
  match buffers.zipIdx.findSome? fieldError? with
  | some message => .error message
  | none =>
      if ¬ (buffers.map LifetimeBoundBuffer.name).Nodup then
        .error "buffer names must be unique"
      else
        match pairs.findSome? (pairError? buffers) with
        | some message => .error message
        | none => .ok
            { n := n
              capacity := capacity
              alignment := alignment
              start := start
              stop := stop
              weight := fun buffer => (buffers.map weightOf).getD buffer 0
              overlap := fun buffer => (List.range n).filter fun other =>
                other ≠ buffer && overlapsAt start stop buffer other
              inplacePartners := fun buffer => shuffle buffer (partnerSet pairs buffer)
              declaredParents := fun buffer =>
                pairs.filterMap fun pair => if pair.1 = buffer then some pair.2 else none
              numIntervals := intervals.numIntervals
              totalAt := intervals.totalAt
              bufIntervals := intervals.bufIntervals }

namespace StaticData

/-- `Overlaps`: alive at a common tick. -/
def overlaps (static : StaticData) (first second : ℕ) : Bool :=
  overlapsAt static.start static.stop first second

theorem overlaps_iff (static : StaticData) (first second : ℕ) :
    static.overlaps first second = true ↔
      static.start first < static.stop second ∧ static.start second < static.stop first := by
  simp [overlaps, overlapsAt]

theorem overlaps_comm (static : StaticData) (first second : ℕ) :
    static.overlaps first second = static.overlaps second first := by
  simp only [overlaps, overlapsAt, and_comm]

def Covers (static : StaticData) (buffer interval : ℕ) : Prop :=
  (static.bufIntervals buffer).1 ≤ interval ∧ interval < (static.bufIntervals buffer).2

instance (static : StaticData) (buffer interval : ℕ) : Decidable (static.Covers buffer interval) :=
  inferInstanceAs (Decidable (_ ∧ _))

/-- One of the two buffers declares the other as in-place parent. -/
def Partners (static : StaticData) (first second : ℕ) : Prop :=
  second ∈ static.declaredParents first ∨ first ∈ static.declaredParents second

instance (static : StaticData) (first second : ℕ) : Decidable (static.Partners first second) :=
  inferInstanceAs (Decidable (_ ∨ _))

/-- What the constructor guarantees about the static data. -/
structure WellFormed (static : StaticData) : Prop where
  nonempty : ∀ buffer < static.n, static.start buffer < static.stop buffer
  mem_overlap : ∀ buffer other, other ∈ static.overlap buffer ↔
    other < static.n ∧ other ≠ buffer ∧ static.overlaps buffer other = true
  mem_partners : ∀ buffer other,
    other ∈ static.inplacePartners buffer ↔ static.Partners buffer other
  parent_bounds : ∀ child, ∀ parent ∈ static.declaredParents child,
    child < static.n ∧ parent < static.n
  handoff : ∀ child, ∀ parent ∈ static.declaredParents child,
    static.stop parent = static.start child + 1
  intervals : buildIntervalData static.n static.start static.stop =
    ⟨static.numIntervals, static.totalAt, static.bufIntervals⟩

namespace WellFormed

variable {static : StaticData} (wellFormed : static.WellFormed)

include wellFormed

theorem covers_iff (buffer interval : ℕ) :
    static.Covers buffer interval ↔
      (buildIntervalData static.n static.start static.stop).Covers buffer interval := by
  rw [wellFormed.intervals]
  rfl

theorem exists_covers {buffer : ℕ} (bounded : buffer < static.n) :
    ∃ interval, static.Covers buffer interval := by
  simp only [wellFormed.covers_iff]
  exact PermLayout.exists_covers wellFormed.nonempty bounded

theorem covers_lt {buffer interval : ℕ} (bounded : buffer < static.n)
    (covers : static.Covers buffer interval) : interval < static.numIntervals := by
  have inside := covers_lt_numIntervals wellFormed.nonempty bounded
    ((wellFormed.covers_iff _ _).mp covers)
  rwa [wellFormed.intervals] at inside

theorem overlaps_iff_covers {first second : ℕ} (firstBounded : first < static.n)
    (secondBounded : second < static.n) :
    static.overlaps first second = true ↔
      ∃ interval, static.Covers first interval ∧ static.Covers second interval := by
  simp only [overlaps_iff, wellFormed.covers_iff]
  exact PermLayout.overlap_iff_covers wellFormed.nonempty firstBounded secondBounded

theorem totalAt_eq {buffer : ℕ} (bounded : buffer < static.n) (interval : ℕ) :
    static.totalAt interval =
      (List.range static.n).countP fun other => static.Covers other interval := by
  have counted := totalAt_eq_countP wellFormed.nonempty bounded interval
  rw [wellFormed.intervals] at counted
  exact counted

end WellFormed

end StaticData

theorem mem_declaredPairs_bounds {buffers : List LifetimeBoundBuffer} {child parent : ℕ}
    (membership : (child, parent) ∈ declaredPairs buffers) :
    child < buffers.length ∧ parent < buffers.length := by
  obtain ⟨⟨buffer, index⟩, inBuffers, inParents⟩ := List.mem_flatMap.mp membership
  obtain ⟨parentName, -, resolved⟩ := List.mem_filterMap.mp inParents
  obtain ⟨found, foundAt, pairEquality⟩ := Option.map_eq_some_iff.mp resolved
  cases pairEquality
  refine ⟨?_, (List.findIdx?_eq_some_iff_findIdx_eq.mp foundAt).1⟩
  have entry := List.mem_zipIdx inBuffers
  omega

theorem mem_partnerSet {pairs : List (ℕ × ℕ)} {buffer other : ℕ} :
    other ∈ partnerSet pairs buffer ↔ (buffer, other) ∈ pairs ∨ (other, buffer) ∈ pairs := by
  simp [partnerSet, List.mem_filterMap]

theorem pairError?_none {buffers : List LifetimeBoundBuffer} {child parent : ℕ}
    {childBuffer parentBuffer : LifetimeBoundBuffer} (childAt : buffers[child]? = some childBuffer)
    (parentAt : buffers[parent]? = some parentBuffer)
    (accepted : pairError? buffers (child, parent) = none) :
    parentBuffer.endTime = childBuffer.startTime + 1 := by
  simp only [pairError?, childAt, parentAt] at accepted
  split at accepted
  · simp at accepted
  · split at accepted
    · simp at accepted
    · rename_i handoff
      exact not_not.mp handoff

theorem build_wellFormed {shuffle : ℕ → List ℕ → List ℕ}
    (shuffled : ∀ buffer set, (shuffle buffer set).Perm set)
    {buffers : List LifetimeBoundBuffer} {capacity alignment : ℤ} {static : StaticData}
    (built : StaticData.build shuffle buffers capacity alignment = .ok static) :
    static.WellFormed ∧ static.n = buffers.length ∧ static.capacity = capacity ∧
      static.alignment = alignment := by
  unfold StaticData.build at built
  simp only at built
  split at built
  · simp at built
  split at built
  · simp at built
  split at built
  · simp at built
  rename_i accepted
  cases built
  refine ⟨?_, rfl, rfl, rfl⟩
  constructor
  · intro buffer bounded
    simp only [List.getD_eq_getElem?_getD, List.getElem?_map,
      List.getElem?_eq_getElem bounded, Option.map_some, Option.getD_some]
    exact LifetimeBoundBuffer.startTime_lt_endTime _
  · intro buffer other
    simp [StaticData.overlaps]
  · intro buffer other
    rw [(shuffled _ _).mem_iff, mem_partnerSet]
    simp [StaticData.Partners, List.mem_filterMap]
  · intro child parent membership
    simp only [List.mem_filterMap] at membership
    obtain ⟨⟨first, second⟩, inPairs, selected⟩ := membership
    split at selected
    · cases selected
      subst child
      exact mem_declaredPairs_bounds inPairs
    · simp at selected
  · intro child parent membership
    simp only [List.mem_filterMap] at membership
    obtain ⟨⟨first, second⟩, inPairs, selected⟩ := membership
    split at selected
    · cases selected
      subst child
      have bounds := mem_declaredPairs_bounds inPairs
      have handoff := pairError?_none (List.getElem?_eq_getElem bounds.1)
        (List.getElem?_eq_getElem bounds.2)
        (List.findSome?_eq_none_iff.mp accepted _ inPairs)
      simp only [List.getD_eq_getElem?_getD, List.getElem?_map,
        List.getElem?_eq_getElem bounds.1, List.getElem?_eq_getElem bounds.2,
        Option.map_some, Option.getD_some]
      exact handoff
    · simp at selected
  · rfl

end TorchSpyre.Scratchpad.PermLayout
