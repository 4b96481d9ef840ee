import Mathlib
import TorchSpyre.HbmPool.Planning

/-!
# What the computed live ranges are

A name starts at the last step writing it and stops at the last step reading it
or, as a counted loop, writing it.  A group starts with its first name and stops
with its last.
-/

namespace TorchSpyre.HbmPool

open Lib

/-- The last step satisfying a predicate. -/
def lastStep (holds : SchedulerNode → Bool) (nodes : List SchedulerNode) : Option ℕ :=
  ((nodes.zipIdx.filter fun step => holds step.1).getLast?).map Prod.snd

def lastWrite (nodes : List SchedulerNode) (name : String) : Option ℕ :=
  lastStep (fun node => name ∈ node.writes) nodes

/-- The last step reading the name, or writing it in a counted loop. -/
def lastUse (nodes : List SchedulerNode) (name : String) : Option ℕ :=
  lastStep (fun node => name ∈ node.reads ∨ (node.isCountedLoop ∧ name ∈ node.writes)) nodes

theorem lastStep_concat (holds : SchedulerNode → Bool) (nodes : List SchedulerNode)
    (node : SchedulerNode) :
    lastStep holds (nodes ++ [node]) =
      if holds node then some nodes.length else lastStep holds nodes := by
  unfold lastStep
  rw [List.zipIdx_append, List.filter_append]
  by_cases last : holds node
  · simp [last]
  · simp [last]

theorem lastStep_spec {holds : SchedulerNode → Bool} {nodes : List SchedulerNode} {step : ℕ}
    (last : lastStep holds nodes = some step) :
    ∃ node, nodes[step]? = some node ∧ holds node = true := by
  obtain ⟨⟨node, index⟩, isLast, rfl⟩ := Option.map_eq_some_iff.mp last
  obtain ⟨inside, satisfied⟩ := List.mem_filter.mp (List.mem_of_getLast? isLast)
  refine ⟨node, ?_, satisfied⟩
  exact List.mem_zipIdx_iff_getElem?.mp inside

/-! ## The scan -/

section Scan

variable {candidates : List String}

theorem foldl_write (node : SchedulerNode) {idx : ℕ} (names : List String) {scan : Scan}
    {name : String} (candidate : name ∈ candidates)
    (earlier : ∀ stop, scan.stop name = some stop → stop ≤ idx) :
    (names.foldl (Scan.write candidates node idx) scan).start name =
        (if name ∈ names then some idx else scan.start name) ∧
    (names.foldl (Scan.write candidates node idx) scan).stop name =
        if name ∈ names ∧ node.isCountedLoop then some idx else scan.stop name := by
  induction names generalizing scan with
  | nil => simp
  | cons head tail inductionHypothesis =>
      rw [List.foldl_cons]
      by_cases same : name = head
      · subst same
        have bounded : max ((scan.stop name).getD idx) idx = idx := by
          cases found : scan.stop name with
          | none => exact max_self idx
          | some stop => exact max_eq_right (earlier stop found)
        have written : (Scan.write candidates node idx scan name).start name = some idx ∧
            (Scan.write candidates node idx scan name).stop name =
              if node.isCountedLoop then some idx else scan.stop name := by
          unfold Scan.write
          rw [if_pos candidate]
          split_ifs <;> simp [bounded]
        have stillEarlier : ∀ stop,
            (Scan.write candidates node idx scan name).stop name = some stop → stop ≤ idx := by
          intro stop
          rw [written.2]
          split_ifs
          · rintro ⟨⟩
            exact le_refl _
          · exact earlier stop
        obtain ⟨starts, stops⟩ := inductionHypothesis stillEarlier
        rw [starts, stops, written.1, written.2]
        by_cases loop : node.isCountedLoop <;> simp [loop]
      · have untouched : (Scan.write candidates node idx scan head).start name = scan.start name ∧
            (Scan.write candidates node idx scan head).stop name = scan.stop name := by
          unfold Scan.write
          split_ifs <;> simp [Function.update_of_ne same]
        obtain ⟨starts, stops⟩ := inductionHypothesis (by rw [untouched.2]; exact earlier)
        rw [starts, stops, untouched.1, untouched.2]
        simp [same]

theorem foldl_read (idx : ℕ) (names : List String) (scan : Scan) {name : String}
    (candidate : name ∈ candidates) :
    (names.foldl (Scan.read candidates idx) scan).start name = scan.start name ∧
    (names.foldl (Scan.read candidates idx) scan).stop name =
      if name ∈ names then some idx else scan.stop name := by
  induction names generalizing scan with
  | nil => simp
  | cons head tail inductionHypothesis =>
      obtain ⟨starts, stops⟩ := inductionHypothesis (Scan.read candidates idx scan head)
      rw [List.foldl_cons, starts, stops]
      unfold Scan.read
      by_cases same : name = head
      · subst same
        simp [candidate]
      · by_cases known : head ∈ candidates <;> simp [same, known]

/-- The scan finds the last write and the last use. -/
theorem scanNodes_eq (nodes : List SchedulerNode) {name : String} (candidate : name ∈ candidates) :
    (scanNodes candidates nodes).start name = lastWrite nodes name ∧
    (scanNodes candidates nodes).stop name = lastUse nodes name ∧
    ∀ stop, lastUse nodes name = some stop → stop < nodes.length := by
  induction nodes using List.reverseRecOn with
  | nil => exact ⟨rfl, rfl, by simp [lastUse, lastStep]⟩
  | append_singleton nodes node inductionHypothesis =>
      obtain ⟨starts, stops, bounded⟩ := inductionHypothesis
      have unfolded : scanNodes candidates (nodes ++ [node]) =
          Scan.node candidates (scanNodes candidates nodes) (node, nodes.length) := by
        unfold scanNodes
        rw [List.zipIdx_append, List.foldl_append]
        simp
      have earlier : ∀ stop, (scanNodes candidates nodes).stop name = some stop →
          stop ≤ nodes.length := by
        intro stop found
        exact le_of_lt (bounded stop (stops ▸ found))
      obtain ⟨written, writtenStop⟩ := foldl_write node node.writes candidate earlier
      obtain ⟨kept, readStop⟩ := foldl_read nodes.length node.reads
        (node.writes.foldl (Scan.write candidates node nodes.length)
          (scanNodes candidates nodes)) candidate
      refine ⟨?_, ?_, ?_⟩
      · rw [unfolded, Scan.node, kept, written, starts]
        unfold lastWrite
        rw [lastStep_concat]
        simp
      · rw [unfolded, Scan.node, readStop, writtenStop, stops]
        unfold lastUse
        rw [lastStep_concat]
        simp only [decide_eq_true_eq]
        split_ifs <;> tauto
      · intro stop
        unfold lastUse at bounded ⊢
        rw [lastStep_concat, List.length_append, List.length_singleton]
        split_ifs
        · rintro ⟨⟩
          exact Nat.lt_succ_self _
        · exact fun found => Nat.lt_succ_of_lt (bounded stop found)

end Scan

/-! ## Ranges of groups -/

/-- `end_step` of a name on its own. -/
def lastStop (nodes : List SchedulerNode) (name : String) : ℕ :=
  (lastUse nodes name).getD (nodes.length + 1)

section Groups

variable (nodes : List SchedulerNode) (candidates : List String) (allocIdOf : String → Option ℕ)

/-- The name is a candidate of the allocation and written by some step. -/
structure Pooled (allocId : ℕ) (name : String) : Prop where
  candidate : name ∈ candidates
  allocated : allocIdOf name = some allocId
  written : (lastWrite nodes name).isSome

/-- First start and last stop of the pooled names of an allocation. -/
structure GroupSpan (allocId start stop : ℕ) : Prop where
  opens : ∃ name, Pooled nodes candidates allocIdOf allocId name ∧
    lastWrite nodes name = some start
  opens_le : ∀ name write, Pooled nodes candidates allocIdOf allocId name →
    lastWrite nodes name = some write → start ≤ write
  closes : ∃ name, Pooled nodes candidates allocIdOf allocId name ∧ lastStop nodes name = stop
  le_closes : ∀ name, Pooled nodes candidates allocIdOf allocId name →
    lastStop nodes name ≤ stop

variable {nodes candidates allocIdOf}

theorem mem_ownRanges {range : LiveRange} :
    range ∈ ownRanges candidates nodes ↔ range.name ∈ candidates ∧
      lastWrite nodes range.name = some range.start ∧ lastStop nodes range.name = range.stop := by
  have entry : ∀ name ∈ candidates, ((scanNodes candidates nodes).start name).map (fun start =>
      ({ name := name, start := start
         stop := ((scanNodes candidates nodes).stop name).getD (nodes.length + 1) } : LiveRange)) =
      (lastWrite nodes name).map fun start =>
        { name := name, start := start, stop := lastStop nodes name } := by
    intro name candidate
    obtain ⟨starts, stops, -⟩ := scanNodes_eq nodes candidate
    rw [starts, stops]
    rfl
  unfold ownRanges
  rw [List.mem_filterMap]
  constructor
  · rintro ⟨name, candidate, found⟩
    rw [entry name candidate] at found
    obtain ⟨start, written, rfl⟩ := Option.map_eq_some_iff.mp found
    exact ⟨candidate, written, rfl⟩
  · rintro ⟨candidate, written, stops⟩
    refine ⟨range.name, candidate, ?_⟩
    rw [entry _ candidate, written, Option.map_some, stops]

theorem pooled_iff_mem_ownRanges {allocId : ℕ} {name : String} :
    Pooled nodes candidates allocIdOf allocId name ↔
      allocIdOf name = some allocId ∧ ∃ range ∈ ownRanges candidates nodes, range.name = name := by
  constructor
  · rintro ⟨candidate, allocated, written⟩
    obtain ⟨start, isWrite⟩ := Option.isSome_iff_exists.mp written
    exact ⟨allocated, ⟨name, start, lastStop nodes name⟩,
      mem_ownRanges.2 ⟨candidate, isWrite, rfl⟩, rfl⟩
  · rintro ⟨allocated, range, inside, rfl⟩
    obtain ⟨candidate, written, -⟩ := mem_ownRanges.1 inside
    exact ⟨candidate, allocated, written ▸ rfl⟩

variable (allocIdOf) in
/-- The fold of `group_range` computes the hull of the group's ranges. -/
theorem groupRange_spec (ranges : List LiveRange) (allocId : ℕ) :
    (groupRange allocIdOf ranges allocId = none ∧
      ∀ range ∈ ranges, allocIdOf range.name ≠ some allocId) ∨
    ∃ start stop, groupRange allocIdOf ranges allocId = some (start, stop) ∧
      (∃ range ∈ ranges, allocIdOf range.name = some allocId ∧ range.start = start) ∧
      (∃ range ∈ ranges, allocIdOf range.name = some allocId ∧ range.stop = stop) ∧
      ∀ range ∈ ranges, allocIdOf range.name = some allocId →
        start ≤ range.start ∧ range.stop ≤ stop := by
  induction ranges using List.reverseRecOn with
  | nil => exact .inl ⟨rfl, by simp⟩
  | append_singleton ranges last inductionHypothesis =>
      have unfolded : groupRange allocIdOf (ranges ++ [last]) allocId =
          if allocIdOf last.name = some allocId then
            some (widen (groupRange allocIdOf ranges allocId) last)
          else groupRange allocIdOf ranges allocId := by
        unfold groupRange
        rw [List.foldl_append]
        rfl
      have isLast : last ∈ ranges ++ [last] := List.mem_append_right _ List.mem_cons_self
      rw [unfolded]
      by_cases inGroup : allocIdOf last.name = some allocId
      · rw [if_pos inGroup]
        rcases inductionHypothesis with ⟨missing, outside⟩ |
          ⟨start, stop, found, ⟨first, firstIn, firstGroup, firstStart⟩,
            ⟨longest, longestIn, longestGroup, longestStop⟩, bounds⟩
        · refine .inr ⟨last.start, last.stop, ?_, ⟨last, isLast, inGroup, rfl⟩,
            ⟨last, isLast, inGroup, rfl⟩, ?_⟩
          · simp [missing, widen]
          · intro range inside grouped
            rcases List.mem_append.mp inside with old | new
            · exact absurd grouped (outside range old)
            · rw [List.mem_singleton.mp new]
              exact ⟨le_refl _, le_refl _⟩
        · refine .inr ⟨min start last.start, max stop last.stop, by simp [found, widen], ?_, ?_, ?_⟩
          · rcases le_total start last.start with older | newer
            · exact ⟨first, List.mem_append_left _ firstIn, firstGroup,
                by rw [min_eq_left older, firstStart]⟩
            · exact ⟨last, isLast, inGroup, by rw [min_eq_right newer]⟩
          · rcases le_total last.stop stop with older | newer
            · exact ⟨longest, List.mem_append_left _ longestIn, longestGroup,
                by rw [max_eq_left older, longestStop]⟩
            · exact ⟨last, isLast, inGroup, by rw [max_eq_right newer]⟩
          · intro range inside grouped
            rcases List.mem_append.mp inside with old | new
            · obtain ⟨starts, stops⟩ := bounds range old grouped
              exact ⟨le_trans (min_le_left _ _) starts, le_trans stops (le_max_left _ _)⟩
            · rw [List.mem_singleton.mp new]
              exact ⟨min_le_right _ _, le_max_right _ _⟩
      · rw [if_neg inGroup]
        rcases inductionHypothesis with ⟨missing, outside⟩ |
          ⟨start, stop, found, ⟨first, firstIn, firstGroup⟩, ⟨longest, longestIn, longestGroup⟩,
            bounds⟩
        · refine .inl ⟨missing, fun range inside => ?_⟩
          rcases List.mem_append.mp inside with old | new
          · exact outside range old
          · rw [List.mem_singleton.mp new]
            exact inGroup
        · refine .inr ⟨start, stop, found, ⟨first, List.mem_append_left _ firstIn, firstGroup⟩,
            ⟨longest, List.mem_append_left _ longestIn, longestGroup⟩, ?_⟩
          intro range inside grouped
          rcases List.mem_append.mp inside with old | new
          · exact bounds range old grouped
          · rw [List.mem_singleton.mp new] at grouped
            exact absurd grouped inGroup

/-- A computed range is the span of its group. -/
theorem groupSpan_of_mem {range : LiveRange} {allocId : ℕ}
    (membership : range ∈ computeLiveRanges allocIdOf nodes candidates)
    (allocated : allocIdOf range.name = some allocId) :
    GroupSpan nodes candidates allocIdOf allocId range.start range.stop := by
  obtain ⟨own, ownIn, merged⟩ := List.mem_map.mp membership
  have sameName : own.name = range.name := by
    rw [← merged]
    unfold mergeRange
    split <;> rfl
  rw [← sameName] at allocated
  rcases groupRange_spec allocIdOf (ownRanges candidates nodes) allocId with
    ⟨-, outside⟩ | ⟨start, stop, found, ⟨first, firstIn, firstGroup, firstStart⟩,
      ⟨longest, longestIn, longestGroup, longestStop⟩, bounds⟩
  · exact absurd allocated (outside own ownIn)
  have isHull : range.start = start ∧ range.stop = stop := by
    rw [← merged]
    unfold mergeRange
    rw [allocated, Option.bind_some, found]
    exact ⟨rfl, rfl⟩
  rw [isHull.1, isHull.2]
  constructor
  case opens =>
    exact ⟨first.name, pooled_iff_mem_ownRanges.2 ⟨firstGroup, first, firstIn, rfl⟩,
      firstStart ▸ (mem_ownRanges.1 firstIn).2.1⟩
  case opens_le =>
    intro name write pooled written
    obtain ⟨grouped, other, otherIn, rfl⟩ := pooled_iff_mem_ownRanges.1 pooled
    have sameStart : other.start = write :=
      Option.some.inj ((mem_ownRanges.1 otherIn).2.1.symm.trans written)
    exact sameStart ▸ (bounds other otherIn grouped).1
  case closes =>
    exact ⟨longest.name, pooled_iff_mem_ownRanges.2 ⟨longestGroup, longest, longestIn, rfl⟩,
      longestStop ▸ (mem_ownRanges.1 longestIn).2.2⟩
  case le_closes =>
    intro name pooled
    obtain ⟨grouped, other, otherIn, rfl⟩ := pooled_iff_mem_ownRanges.1 pooled
    rw [(mem_ownRanges.1 otherIn).2.2]
    exact (bounds other otherIn grouped).2

theorem exists_range_of_pooled {allocId : ℕ} {name : String}
    (pooled : Pooled nodes candidates allocIdOf allocId name) :
    ∃ range ∈ computeLiveRanges allocIdOf nodes candidates, range.name = name := by
  obtain ⟨-, own, ownIn, sameName⟩ := pooled_iff_mem_ownRanges.1 pooled
  refine ⟨mergeRange allocIdOf (ownRanges candidates nodes) own, List.mem_map_of_mem ownIn, ?_⟩
  unfold mergeRange
  split <;> exact sameName

theorem name_mem_candidates {range : LiveRange}
    (membership : range ∈ computeLiveRanges allocIdOf nodes candidates) :
    range.name ∈ candidates := by
  obtain ⟨own, ownIn, rfl⟩ := List.mem_map.mp membership
  have candidate := (mem_ownRanges.mp ownIn).1
  unfold mergeRange
  split <;> exact candidate

end Groups

end TorchSpyre.HbmPool
