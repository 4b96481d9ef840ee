import TorchSpyre.HbmPool.LiveRanges

/-!
# When pooled allocations may share memory

Two groups are given common bytes only if the range of one ends before the other
starts.  The ranges do not cover every access: a name starts at its last write,
and stops at its last read.  `hbmPoolPlanning_aliasing_iff` says for which
schedules the accesses of groups that may share a block are separated all the
same, whatever the sizes of the buffers are.
-/

namespace TorchSpyre.HbmPool

open Lib

/-- Some name of the allocation is read or written at the step. -/
def Accesses (nodes : List SchedulerNode) (allocIdOf : String → Option ℕ) (allocId step : ℕ) :
    Prop :=
  ∃ node, nodes[step]? = some node ∧
    ∃ name ∈ node.reads ++ node.writes, allocIdOf name = some allocId

/-- Groups sharing bytes are not accessed within each other's first and last
access. -/
def AliasingSafe (nodes : List SchedulerNode) (allocIdOf : String → Option ℕ)
    (assigned : List Assignment) : Prop :=
  ∀ first ∈ assigned, ∀ second ∈ assigned, ∀ firstId secondId,
    allocIdOf first.group.rep.name = some firstId →
    allocIdOf second.group.rep.name = some secondId → firstId ≠ secondId →
    ¬ first.block.Disjoint second.block →
    ∀ earliest step latest, Accesses nodes allocIdOf firstId earliest →
      Accesses nodes allocIdOf firstId latest → earliest ≤ step → step ≤ latest →
      ¬ Accesses nodes allocIdOf secondId step

/-- The second group may be given the block of the first: it starts no earlier, and
every use of a pooled name of the first precedes its writes.  Start is the last
write of a name, use its last read or write in a counted loop. -/
structure PassesTo (nodes : List SchedulerNode) (candidates : List String)
    (allocIdOf : String → Option ℕ) (first second : ℕ) : Prop where
  pooled : ∃ name, Pooled nodes candidates allocIdOf second name
  startsFirst : ∃ name write, Pooled nodes candidates allocIdOf first name ∧
    lastWrite nodes name = some write ∧
    ∀ other otherWrite, Pooled nodes candidates allocIdOf second other →
      lastWrite nodes other = some otherWrite → write ≤ otherWrite
  ends : ∀ name other write, Pooled nodes candidates allocIdOf first name →
    Pooled nodes candidates allocIdOf second other → lastWrite nodes other = some write →
    ∃ use, lastUse nodes name = some use ∧ use < write

section Spans

variable {nodes : List SchedulerNode} {candidates : List String} {allocIdOf : String → Option ℕ}
variable {first second firstStart firstStop secondStart secondStop : ℕ}

theorem lastWrite_lt {name : String} {write : ℕ} (written : lastWrite nodes name = some write) :
    write < nodes.length := by
  obtain ⟨node, located, -⟩ := lastStep_spec written
  exact (List.getElem?_eq_some_iff.mp located).1

theorem GroupSpan.accesses (span : GroupSpan nodes candidates allocIdOf first firstStart firstStop) :
    Accesses nodes allocIdOf first firstStart := by
  obtain ⟨name, pooled, written⟩ := span.opens
  obtain ⟨node, located, writes⟩ := lastStep_spec written
  exact ⟨node, located, name, List.mem_append_right _ (of_decide_eq_true writes), pooled.allocated⟩

theorem passesTo_iff
    (firstSpan : GroupSpan nodes candidates allocIdOf first firstStart firstStop)
    (secondSpan : GroupSpan nodes candidates allocIdOf second secondStart secondStop) :
    PassesTo nodes candidates allocIdOf first second ↔
      firstStart ≤ secondStart ∧ firstStop < secondStart := by
  obtain ⟨opener, openerPooled, openerWrite⟩ := secondSpan.opens
  constructor
  · intro passes
    constructor
    · obtain ⟨name, write, pooled, written, before⟩ := passes.startsFirst
      exact le_trans (firstSpan.opens_le name write pooled written)
        (before opener secondStart openerPooled openerWrite)
    · obtain ⟨closer, closerPooled, closes⟩ := firstSpan.closes
      obtain ⟨use, isUse, before⟩ :=
        passes.ends closer opener secondStart closerPooled openerPooled openerWrite
      rw [← closes, lastStop, isUse]
      exact before
  · rintro ⟨starts, ends⟩
    refine ⟨⟨opener, openerPooled⟩, ?_, ?_⟩
    · obtain ⟨name, pooled, written⟩ := firstSpan.opens
      exact ⟨name, firstStart, pooled, written, fun other write otherPooled otherWrite =>
        le_trans starts (secondSpan.opens_le other write otherPooled otherWrite)⟩
    · intro name other write pooled otherPooled otherWrite
      have stopped := firstSpan.le_closes name pooled
      have startsBefore := secondSpan.opens_le other write otherPooled otherWrite
      have inside := lastWrite_lt otherWrite
      -- A name without a use would stop past the last step.
      cases used : lastUse nodes name with
      | none =>
          rw [lastStop, used, Option.getD_none] at stopped
          omega
      | some use =>
          rw [lastStop, used, Option.getD_some] at stopped
          exact ⟨use, rfl, by omega⟩

end Spans

/-! ## The groups -/

instance : Std.Total LiveRange.LE := ⟨fun first second => by
  unfold LiveRange.LE
  rcases lt_trichotomy first.start second.start with less | same | more
  · exact .inl (.inl less)
  · rcases lt_trichotomy first.stop second.stop with stopLess | sameStop | stopMore
    · exact .inl (.inr ⟨same, .inl stopLess⟩)
    · rcases le_total first.name second.name with nameLe | nameGe
      · exact .inl (.inr ⟨same, .inr ⟨sameStop, nameLe⟩⟩)
      · exact .inr (.inr ⟨same.symm, .inr ⟨sameStop.symm, nameGe⟩⟩)
    · exact .inr (.inr ⟨same.symm, .inl stopMore⟩)
  · exact .inr (.inl more)⟩

instance : IsTrans LiveRange LiveRange.LE := ⟨fun first second third => by
  unfold LiveRange.LE
  rintro (less | ⟨same, stopLess | ⟨sameStop, nameLe⟩⟩)
    (less' | ⟨same', stopLess' | ⟨sameStop', nameLe'⟩⟩)
  · exact .inl (lt_trans less less')
  · exact .inl (same' ▸ less)
  · exact .inl (same' ▸ less)
  · exact .inl (same ▸ less')
  · exact .inr ⟨same.trans same', .inl (lt_trans stopLess stopLess')⟩
  · exact .inr ⟨same.trans same', .inl (sameStop' ▸ stopLess)⟩
  · exact .inl (same ▸ less')
  · exact .inr ⟨same.trans same', .inl (sameStop ▸ stopLess')⟩
  · exact .inr ⟨same.trans same', .inr ⟨sameStop.trans sameStop', le_trans nameLe nameLe'⟩⟩⟩

section Groups

variable {allocIdOf : String → Option ℕ}

def reps (groups : List AllocGroup) : List LiveRange := groups.map AllocGroup.rep

/-- A range joins the group of its allocation or opens a new one. -/
theorem reps_addToGroups (groups : List AllocGroup) (range : LiveRange) :
    (reps (addToGroups allocIdOf groups range) = reps groups ∧
      ∃ rep ∈ reps groups, allocIdOf rep.name = allocIdOf range.name) ∨
    (reps (addToGroups allocIdOf groups range) = reps groups ++ [range] ∧
      ((allocIdOf range.name).isSome →
        ∀ rep ∈ reps groups, allocIdOf rep.name ≠ allocIdOf range.name)) := by
  unfold addToGroups
  split_ifs with joins
  · obtain ⟨-, group, groupIn, same⟩ := joins
    refine .inl ⟨?_, group.rep, List.mem_map_of_mem groupIn, same⟩
    unfold reps
    rw [List.map_map]
    apply List.map_congr_left
    intro other _
    simp only [Function.comp_apply]
    split_ifs <;> rfl
  · refine .inr ⟨by simp [reps], fun isSome rep inReps same => joins ⟨isSome, ?_⟩⟩
    obtain ⟨group, groupIn, rfl⟩ := List.mem_map.mp inReps
    exact ⟨group, groupIn, same⟩

/-- What grouping a list of ranges yields: representatives in list order, one for each
allocation. -/
theorem reps_foldl {ranges : List LiveRange}
    (allocated : ∀ range ∈ ranges, (allocIdOf range.name).isSome) :
    (reps (ranges.foldl (addToGroups allocIdOf) [])).Sublist ranges ∧
    (reps (ranges.foldl (addToGroups allocIdOf) [])).Pairwise
      (fun first second => allocIdOf first.name ≠ allocIdOf second.name) ∧
    ∀ range ∈ ranges, ∃ rep ∈ reps (ranges.foldl (addToGroups allocIdOf) []),
      allocIdOf rep.name = allocIdOf range.name := by
  induction ranges using List.reverseRecOn with
  | nil => exact ⟨List.Sublist.slnil, List.Pairwise.nil, by simp⟩
  | append_singleton ranges last inductionHypothesis =>
      obtain ⟨sublist, distinct, covered⟩ := inductionHypothesis fun range inside =>
        allocated range (List.mem_append_left _ inside)
      rw [List.foldl_append, List.foldl_cons, List.foldl_nil]
      set groups := ranges.foldl (addToGroups allocIdOf) []
      rcases reps_addToGroups groups last with ⟨unchanged, joined⟩ | ⟨extended, fresh⟩
      · rw [unchanged]
        refine ⟨sublist.trans (List.sublist_append_left _ _), distinct, ?_⟩
        intro range inside
        rcases List.mem_append.mp inside with old | new
        · exact covered range old
        · rw [List.mem_singleton.mp new]
          exact joined
      · rw [extended]
        refine ⟨sublist.append (List.Sublist.refl _), ?_, ?_⟩
        · refine List.pairwise_append.mpr ⟨distinct, List.pairwise_singleton _ _, ?_⟩
          intro rep inReps other isLast
          rw [List.mem_singleton.mp isLast]
          exact fresh (allocated last (List.mem_append_right _ List.mem_cons_self)) rep inReps
        · intro range inside
          rcases List.mem_append.mp inside with old | new
          · obtain ⟨rep, inReps, same⟩ := covered range old
            exact ⟨rep, List.mem_append_left _ inReps, same⟩
          · exact ⟨last, List.mem_append_right _ List.mem_cons_self,
              by rw [List.mem_singleton.mp new]⟩

/-- The groups of a bundle. -/
structure Grouped (allocIdOf : String → Option ℕ) (nodes : List SchedulerNode)
    (candidates : List String) (groups : List AllocGroup) : Prop where
  sorted : (reps groups).Pairwise LiveRange.LE
  distinct : (reps groups).Pairwise
    fun first second => allocIdOf first.name ≠ allocIdOf second.name
  allocated : ∀ group ∈ groups, ∃ allocId, allocIdOf group.rep.name = some allocId ∧
    GroupSpan nodes candidates allocIdOf allocId group.rep.start group.rep.stop
  covered : ∀ allocId name, Pooled nodes candidates allocIdOf allocId name →
    ∃ group ∈ groups, allocIdOf group.rep.name = some allocId

theorem allocGroups_grouped (nodes : List SchedulerNode) {candidates : List String}
    (allocated : ∀ name ∈ candidates, (allocIdOf name).isSome) :
    Grouped allocIdOf nodes candidates (allocGroups allocIdOf nodes candidates) := by
  set ranges := (computeLiveRanges allocIdOf nodes candidates).insertionSort LiveRange.LE
    with rangesDef
  have permuted : ranges.Perm (computeLiveRanges allocIdOf nodes candidates) :=
    List.perm_insertionSort _ _
  have rangesAllocated : ∀ range ∈ ranges, (allocIdOf range.name).isSome := fun range inside =>
    allocated _ (name_mem_candidates (permuted.mem_iff.mp inside))
  obtain ⟨sublist, distinct, covered⟩ := reps_foldl rangesAllocated
  constructor
  case sorted => exact (List.pairwise_insertionSort LiveRange.LE _).sublist sublist
  case distinct => exact distinct
  case allocated =>
    intro group inGroups
    have inRanges := sublist.subset (List.mem_map_of_mem inGroups)
    obtain ⟨allocId, isId⟩ := Option.isSome_iff_exists.mp (rangesAllocated _ inRanges)
    exact ⟨allocId, isId, groupSpan_of_mem (permuted.mem_iff.mp inRanges) isId⟩
  case covered =>
    intro allocId name pooled
    obtain ⟨range, inRanges, sameName⟩ := exists_range_of_pooled pooled
    obtain ⟨rep, inReps, same⟩ := covered range (permuted.mem_iff.mpr inRanges)
    obtain ⟨group, inGroups, rfl⟩ := List.mem_map.mp inReps
    exact ⟨group, inGroups, same.trans (sameName ▸ pooled.allocated)⟩

end Groups

/-! ## The sweep -/

theorem freeEnded_perm (start : ℕ) (allocator : Allocator) (pending : List (ℕ × Extent)) :
    (pending.map Prod.snd ++ allocator.free).Perm
      ((freeEnded start allocator pending).2.map Prod.snd ++
        (freeEnded start allocator pending).1.free) ∧
    (freeEnded start allocator pending).1.poolEnd = allocator.poolEnd ∧
    ∀ entry ∈ pending, entry ∈ (freeEnded start allocator pending).2 ∨ entry.1 < start := by
  induction pending generalizing allocator with
  | nil => exact ⟨List.Perm.refl _, rfl, by simp⟩
  | cons entry rest inductionHypothesis =>
      obtain ⟨stop, block⟩ := entry
      simp only [freeEnded]
      split_ifs with ended
      · obtain ⟨permuted, sameEnd, kept⟩ := inductionHypothesis (allocator.release block)
        refine ⟨?_, sameEnd, ?_⟩
        · refine List.Perm.trans ?_ permuted
          rw [List.map_cons, List.cons_append]
          exact (List.perm_middle.symm).trans
            ((List.perm_append_singleton block allocator.free).symm.append_left _)
        · intro entry inside
          rcases List.mem_cons.mp inside with rfl | inRest
          · exact .inr ended
          · exact kept entry inRest
      · obtain ⟨permuted, sameEnd, kept⟩ := inductionHypothesis allocator
        refine ⟨permuted.cons block, sameEnd, ?_⟩
        intro entry inside
        rcases List.mem_cons.mp inside with rfl | inRest
        · exact .inl List.mem_cons_self
        · exact (kept entry inRest).imp_left (List.mem_cons_of_mem _)

/-- The state of the sweep before a group that starts at `now`. -/
structure Sweep.Valid (now : ℕ) (sweep : Sweep) : Prop where
  nonneg : 0 ≤ sweep.allocator.poolEnd
  tiles : Extent.Tiles (sweep.pendingFrees.map Prod.snd ++ sweep.allocator.free)
    sweep.allocator.poolEnd
  accounted : ∀ assignment ∈ sweep.assigned,
    (assignment.group.rep.stop, assignment.block) ∈ sweep.pendingFrees ∨
      assignment.group.rep.stop < now
  reuse : sweep.assigned.Pairwise fun earlier later =>
    earlier.block.Disjoint later.block ∨ earlier.group.rep.stop < later.group.rep.start

section Sweep

variable {deviceSize : String → ℕ}

theorem computeSizeBytes_nonneg (name : String) : 0 ≤ computeSizeBytes deviceSize name :=
  roundUp_nonneg (by decide) (Int.natCast_nonneg _)

theorem Sweep.Valid.later {now later : ℕ} {sweep : Sweep} (valid : sweep.Valid now)
    (ordered : now ≤ later) : sweep.Valid later :=
  { valid with
    accounted := fun assignment inside =>
      (valid.accounted assignment inside).imp_right fun ended => lt_of_lt_of_le ended ordered }

section Step

variable {sweep : Sweep} {group : AllocGroup} {freed next : Allocator}
  {stillLive : List (ℕ × Extent)}
  (ended : freeEnded group.rep.start sweep.allocator sweep.pendingFrees = (freed, stillLive))

include ended

theorem Sweep.step_refused
    (refused : freed.allocate (computeSizeBytes deviceSize group.rep.name) = (none, next)) :
    sweep.step deviceSize group =
      { sweep with
        allocator := next
        pendingFrees := stillLive
        overflowed := sweep.overflowed + 1 } := by
  simp only [Sweep.step, ended, refused]

theorem Sweep.step_placed {offset : ℤ}
    (placed : freed.allocate (computeSizeBytes deviceSize group.rep.name) = (some offset, next)) :
    sweep.step deviceSize group =
      { sweep with
        allocator := next
        pendingFrees := stillLive ++
          [(group.rep.stop, ⟨offset, computeSizeBytes deviceSize group.rep.name⟩)]
        assigned := sweep.assigned ++
          [⟨group, ⟨offset, computeSizeBytes deviceSize group.rep.name⟩⟩] } := by
  simp only [Sweep.step, ended, placed]

end Step

theorem Sweep.Valid.step {sweep : Sweep} {group : AllocGroup}
    (valid : sweep.Valid group.rep.start) :
    (sweep.step deviceSize group).Valid group.rep.start := by
  obtain ⟨permuted, sameEnd, kept⟩ :=
    freeEnded_perm group.rep.start sweep.allocator sweep.pendingFrees
  set freed := (freeEnded group.rep.start sweep.allocator sweep.pendingFrees).1
  set stillLive := (freeEnded group.rep.start sweep.allocator sweep.pendingFrees).2
  have freedTiles : Extent.Tiles (stillLive.map Prod.snd ++ freed.free) freed.poolEnd :=
    sameEnd ▸ valid.tiles.perm permuted
  have freedNonneg : 0 ≤ freed.poolEnd := sameEnd ▸ valid.nonneg
  have accounted : ∀ assignment ∈ sweep.assigned,
      (assignment.group.rep.stop, assignment.block) ∈ stillLive ∨
        assignment.group.rep.stop < group.rep.start := by
    intro assignment inside
    rcases valid.accounted assignment inside with pending | ended
    · exact kept _ pending
    · exact .inr ended
  have ended : freeEnded group.rep.start sweep.allocator sweep.pendingFrees = (freed, stillLive) := rfl
  cases outcome : freed.allocate (computeSizeBytes deviceSize group.rep.name) with
  | mk offset next =>
      cases offset with
      | none =>
          rw [Sweep.step_refused ended outcome]
          have unchanged : next = freed := by
            rcases Allocator.allocate_cases freed (computeSizeBytes deviceSize group.rep.name) with
              refused | ⟨block, rest, free, -, -, -, carved⟩ | ⟨-, bumped⟩
            · cases refused.symm.trans outcome
              rfl
            · cases carved.symm.trans outcome
            · cases bumped.symm.trans outcome
          subst unchanged
          exact ⟨freedNonneg, freedTiles, accounted, valid.reuse⟩
      | some offset =>
          rw [Sweep.step_placed ended outcome]
          obtain ⟨tiles, nonneg⟩ :=
            Allocator.allocate_tiles freedTiles freedNonneg (computeSizeBytes_nonneg _) outcome
          refine ⟨nonneg, ?_, ?_, ?_⟩
          · simp only
            refine tiles.perm (List.Perm.append_right _ ?_)
            rw [List.map_append]
            exact (List.perm_append_singleton _ _).symm
          · intro assignment inside
            rcases List.mem_append.mp inside with old | new
            · exact (accounted assignment old).imp_left (List.mem_append_left _)
            · rw [List.mem_singleton.mp new]
              exact .inl (List.mem_append_right _ List.mem_cons_self)
          · refine List.pairwise_append.mpr ⟨valid.reuse, List.pairwise_singleton _ _, ?_⟩
            intro earlier earlierIn later isNew
            rw [List.mem_singleton.mp isNew]
            rcases accounted earlier earlierIn with live | ended
            · -- A block still live is disjoint from the new one by the tiling.
              have disjoint := (List.pairwise_cons.mp tiles.pairwise_disjoint).1 earlier.block
                (List.mem_append_left _ (List.mem_map.mpr ⟨_, live, rfl⟩))
              exact .inl disjoint.symm
            · exact .inr ended

theorem Sweep.Valid.foldl {groups : List AllocGroup} {now : ℕ} {sweep : Sweep}
    (valid : sweep.Valid now) (passed : ∀ group ∈ groups, now ≤ group.rep.start)
    (sorted : (reps groups).Pairwise LiveRange.LE) :
    ∃ later, (groups.foldl (Sweep.step deviceSize) sweep).Valid later := by
  induction groups generalizing now sweep with
  | nil => exact ⟨now, valid⟩
  | cons head tail inductionHypothesis =>
      obtain ⟨headFirst, tailSorted⟩ := List.pairwise_cons.mp sorted
      refine inductionHypothesis (valid.later (passed head List.mem_cons_self)).step ?_ tailSorted
      intro group inTail
      rcases headFirst group.rep (List.mem_map_of_mem inTail) with less | ⟨same, -⟩
      · exact le_of_lt less
      · exact le_of_eq same

/-- Groups that share bytes come one after the other. -/
theorem sweepGroups_reuse (deviceSize : String → ℕ) {groups : List AllocGroup}
    (sorted : (reps groups).Pairwise LiveRange.LE) :
    (sweepGroups deviceSize groups).assigned.Pairwise fun earlier later =>
      earlier.block.Disjoint later.block ∨ earlier.group.rep.stop < later.group.rep.start := by
  have started : Sweep.Valid 0 ⟨.init maxPoolSizeBytes, [], [], 0⟩ := by
    refine ⟨le_refl _, ?_, by simp, List.Pairwise.nil⟩
    intro point
    have outside : ¬ (0 ≤ point ∧ point < 0) := by omega
    simp [Allocator.init, outside]
  obtain ⟨later, valid⟩ := started.foldl (fun _ _ => Nat.zero_le _) sorted
  exact valid.reuse

theorem assigned_step (sweep : Sweep) (group : AllocGroup) :
    (sweep.step deviceSize group).assigned = sweep.assigned ∨
      ∃ block, (sweep.step deviceSize group).assigned = sweep.assigned ++ [⟨group, block⟩] := by
  unfold Sweep.step
  simp only
  split
  · exact .inl rfl
  · exact .inr ⟨_, rfl⟩

theorem assigned_foldl (deviceSize : String → ℕ) (sweep : Sweep) (groups : List AllocGroup) :
    sweep.assigned <+: (groups.foldl (Sweep.step deviceSize) sweep).assigned ∧
    ((groups.foldl (Sweep.step deviceSize) sweep).assigned.map Assignment.group).Sublist
      (sweep.assigned.map Assignment.group ++ groups) := by
  induction groups generalizing sweep with
  | nil => exact ⟨List.prefix_refl _, by simp⟩
  | cons head tail inductionHypothesis =>
      obtain ⟨extends_, sublist⟩ := inductionHypothesis (sweep.step deviceSize head)
      rw [List.foldl_cons]
      rcases assigned_step sweep head with same | ⟨block, added⟩
      · rw [same] at extends_ sublist
        exact ⟨extends_, sublist.trans
          (List.Sublist.append_left (List.sublist_cons_self head tail) _)⟩
      · rw [added] at extends_ sublist
        refine ⟨(List.prefix_append _ _).trans extends_, ?_⟩
        simpa using sublist

/-- Of two assigned groups sharing bytes, the earlier one ends before the later one
starts. -/
theorem sweepGroups_ordered {groups : List AllocGroup}
    (sorted : (reps groups).Pairwise LiveRange.LE) {first second : Assignment}
    (firstIn : first ∈ (sweepGroups deviceSize groups).assigned)
    (secondIn : second ∈ (sweepGroups deviceSize groups).assigned) (distinct : first ≠ second)
    (shared : ¬ first.block.Disjoint second.block) :
    (first.group.rep.start ≤ second.group.rep.start ∧
      first.group.rep.stop < second.group.rep.start) ∨
    (second.group.rep.start ≤ first.group.rep.start ∧
      second.group.rep.stop < first.group.rep.start) := by
  have inOrder : (sweepGroups deviceSize groups).assigned.Pairwise fun earlier later =>
      earlier.group.rep.start ≤ later.group.rep.start := by
    obtain ⟨-, sublist⟩ := assigned_foldl deviceSize
      ⟨.init maxPoolSizeBytes, [], [], 0⟩ groups
    have sortedAssigned := sorted.sublist ((List.nil_append groups ▸ sublist).map AllocGroup.rep)
    rw [List.pairwise_map, List.pairwise_map] at sortedAssigned
    refine sortedAssigned.imp fun {earlier later} ordered => ?_
    rcases ordered with less | ⟨same, -⟩
    · exact le_of_lt less
    · exact le_of_eq same
  have related := (sweepGroups_reuse deviceSize sorted).and inOrder
  rcases pairwise_or related firstIn secondIn distinct with ⟨reused, ordered⟩ | ⟨reused, ordered⟩
  · exact .inl ⟨ordered, reused.resolve_left shared⟩
  · exact .inr ⟨ordered, reused.resolve_left fun disjoint => shared disjoint.symm⟩

end Sweep

/-! ## Sizes that bring two groups together -/

/-- One unit for two allocations; nothing else fits the pool. -/
def pairSizes (allocIdOf : String → Option ℕ) (first second : ℕ) (name : String) : ℕ :=
  if allocIdOf name = some first ∨ allocIdOf name = some second then 128
  else maxPoolSizeBytes + 1

/-- A request larger than every free block and the rest of the segment is refused. -/
theorem allocate_refused (allocator : Allocator) (size : ℤ)
    (small : ∀ block ∈ allocator.free, block.size < size)
    (full : allocator.segmentSize < allocator.poolEnd + size) :
    allocator.allocate size = (none, allocator) := by
  rcases Allocator.allocate_cases allocator size with
    refused | ⟨block, rest, free, freePerm, fits, -, -⟩ | ⟨room, -⟩
  · exact refused
  · have tooSmall := small block (freePerm.mem_iff.mpr List.mem_cons_self)
    omega
  · omega

/-- The sweep before the first group of the pair. -/
structure Unopened (sweep : Sweep) : Prop where
  allocator : sweep.allocator = .init maxPoolSizeBytes
  pendingFrees : sweep.pendingFrees = []
  assigned : sweep.assigned = []

/-- The sweep after the first group of the pair: its block is live or free again, and
nothing else was placed. -/
structure Holding (first : AllocGroup) (sweep : Sweep) : Prop where
  assigned : sweep.assigned = [⟨first, ⟨0, 128⟩⟩]
  poolEnd : sweep.allocator.poolEnd = 128
  segment : sweep.allocator.segmentSize = maxPoolSizeBytes
  block : (sweep.pendingFrees = [(first.rep.stop, ⟨0, 128⟩)] ∧ sweep.allocator.free = []) ∨
    (sweep.pendingFrees = [] ∧ sweep.allocator.free = [⟨0, 128⟩])

section Pair

variable {deviceSize : String → ℕ} {first second : AllocGroup}

theorem Unopened.other {sweep : Sweep} (unopened : Unopened sweep) {group : AllocGroup}
    (huge : (maxPoolSizeBytes : ℤ) < computeSizeBytes deviceSize group.rep.name) :
    Unopened (sweep.step deviceSize group) := by
  have refused := allocate_refused (.init maxPoolSizeBytes)
    (computeSizeBytes deviceSize group.rep.name) (by simp [Allocator.init])
    (by simp only [Allocator.init]; omega)
  unfold Sweep.step
  rw [unopened.allocator, unopened.pendingFrees]
  simp only [freeEnded, refused]
  exact ⟨rfl, rfl, unopened.assigned⟩

theorem Holding.freeEnded (start : ℕ) {sweep : Sweep} (holding : Holding first sweep) :
    Holding first
      { sweep with
        allocator := (freeEnded start sweep.allocator sweep.pendingFrees).1
        pendingFrees := (freeEnded start sweep.allocator sweep.pendingFrees).2 } ∧
    (first.rep.stop < start →
      (HbmPool.freeEnded start sweep.allocator sweep.pendingFrees).1.free = [⟨0, 128⟩]) := by
  rcases holding.block with ⟨pending, noFree⟩ | ⟨pending, isFree⟩
  · rw [pending]
    simp only [HbmPool.freeEnded]
    split_ifs with ended
    · refine ⟨⟨holding.assigned, holding.poolEnd, holding.segment, .inr ⟨rfl, ?_⟩⟩, fun _ => ?_⟩
      · simp [Allocator.release, noFree]
      · simp [Allocator.release, noFree]
    · exact ⟨⟨holding.assigned, holding.poolEnd, holding.segment, .inl ⟨rfl, noFree⟩⟩,
        fun later => absurd later ended⟩
  · rw [pending]
    exact ⟨⟨holding.assigned, holding.poolEnd, holding.segment, .inr ⟨rfl, isFree⟩⟩,
      fun _ => isFree⟩

theorem Holding.other {sweep : Sweep} (holding : Holding first sweep) {group : AllocGroup}
    (huge : (maxPoolSizeBytes : ℤ) < computeSizeBytes deviceSize group.rep.name) :
    Holding first (sweep.step deviceSize group) := by
  obtain ⟨freed, -⟩ := holding.freeEnded group.rep.start
  have refused := allocate_refused
    (HbmPool.freeEnded group.rep.start sweep.allocator sweep.pendingFrees).1
    (computeSizeBytes deviceSize group.rep.name) (by
      intro block inFree
      have isUnit : block.size = 128 := by
        rcases freed.block with ⟨-, none⟩ | ⟨-, one⟩
        · simp only at none
          rw [none] at inFree
          cases inFree
        · simp only at one
          rw [one] at inFree
          rw [List.mem_singleton.mp inFree]
      have large : (128 : ℤ) < maxPoolSizeBytes := by decide
      omega) (by
      have segment := freed.segment
      have poolEnd := freed.poolEnd
      simp only at segment poolEnd
      omega)
  unfold Sweep.step
  simp only [refused]
  exact ⟨freed.assigned, freed.poolEnd, freed.segment, freed.block⟩

theorem foldl_others (groups : List AllocGroup) {holds : Sweep → Prop}
    (step : ∀ sweep, ∀ group ∈ groups, holds sweep → holds (sweep.step deviceSize group))
    {sweep : Sweep} (started : holds sweep) : holds (groups.foldl (Sweep.step deviceSize) sweep) := by
  induction groups generalizing sweep with
  | nil => exact started
  | cons head tail inductionHypothesis =>
      exact inductionHypothesis
        (fun sweep group inTail => step sweep group (List.mem_cons_of_mem _ inTail))
        (step sweep head List.mem_cons_self started)

theorem sweep_pair {before between after : List AllocGroup}
    (huge : ∀ group ∈ before ++ between,
      (maxPoolSizeBytes : ℤ) < computeSizeBytes deviceSize group.rep.name)
    (firstUnit : computeSizeBytes deviceSize first.rep.name = 128)
    (secondUnit : computeSizeBytes deviceSize second.rep.name = 128)
    (ended : first.rep.stop < second.rep.start) :
    ⟨first, ⟨0, 128⟩⟩ ∈
        (sweepGroups deviceSize (before ++ first :: (between ++ second :: after))).assigned ∧
      ⟨second, ⟨0, 128⟩⟩ ∈
        (sweepGroups deviceSize (before ++ first :: (between ++ second :: after))).assigned := by
  unfold sweepGroups
  rw [List.foldl_append, List.foldl_cons, List.foldl_append, List.foldl_cons]
  have opened : Unopened (before.foldl (Sweep.step deviceSize)
      ⟨.init maxPoolSizeBytes, [], [], 0⟩) :=
    foldl_others before (fun sweep group inBefore held =>
      held.other (huge group (List.mem_append_left _ inBefore))) ⟨rfl, rfl, rfl⟩
  generalize before.foldl (Sweep.step deviceSize) ⟨.init maxPoolSizeBytes, [], [], 0⟩ = opening
    at opened ⊢
  have held : Holding first (opening.step deviceSize first) := by
    unfold Sweep.step
    rw [opened.allocator, opened.pendingFrees, opened.assigned]
    simp only [HbmPool.freeEnded, firstUnit]
    exact ⟨rfl, rfl, rfl, .inl ⟨rfl, rfl⟩⟩
  have stillHeld : Holding first
      (between.foldl (Sweep.step deviceSize) (opening.step deviceSize first)) :=
    foldl_others between (fun sweep group inBetween held =>
      held.other (huge group (List.mem_append_right _ inBetween))) held
  generalize between.foldl (Sweep.step deviceSize) (opening.step deviceSize first) = middle
    at stillHeld ⊢
  have both : (middle.step deviceSize second).assigned = [⟨first, ⟨0, 128⟩⟩, ⟨second, ⟨0, 128⟩⟩] := by
    obtain ⟨freed, isFree⟩ := stillHeld.freeEnded second.rep.start
    have noExtension : ¬ (HbmPool.freeEnded second.rep.start middle.allocator
        middle.pendingFrees).1.poolEnd > (HbmPool.freeEnded second.rep.start middle.allocator
        middle.pendingFrees).1.segmentSize := by
      have poolEnd := freed.poolEnd
      have segment := freed.segment
      have large : (128 : ℤ) < maxPoolSizeBytes := by decide
      simp only at poolEnd segment
      omega
    unfold Sweep.step Allocator.allocate
    simp only [secondUnit, isFree ended, Allocator.firstFit, le_refl, if_true, if_neg noExtension,
      stillHeld.assigned]
    rfl
  have final := (assigned_foldl deviceSize (middle.step deviceSize second) after).1.subset
  rw [both] at final
  exact ⟨final List.mem_cons_self, final (List.mem_cons_of_mem _ List.mem_cons_self)⟩

end Pair

/-! ## The exact condition -/

/-- Groups of which one may be given the block of the other are accessed one after the
other. -/
def SeparatesReuse (nodes : List SchedulerNode) (candidates : List String)
    (allocIdOf : String → Option ℕ) : Prop :=
  ∀ first second, first ≠ second → PassesTo nodes candidates allocIdOf first second →
    ∀ step later, Accesses nodes allocIdOf first step → Accesses nodes allocIdOf second later →
      step < later

section Bundle

variable {nodes : List SchedulerNode} {candidates : List String} {allocIdOf : String → Option ℕ}

theorem aliasingSafe_of_separatesReuse
    (allocated : ∀ name ∈ candidates, (allocIdOf name).isSome)
    (separates : SeparatesReuse nodes candidates allocIdOf) (deviceSize : String → ℕ) :
    AliasingSafe nodes allocIdOf
      (sweepGroups deviceSize (allocGroups allocIdOf nodes candidates)).assigned := by
  have grouped := allocGroups_grouped nodes allocated
  obtain ⟨-, sublist⟩ := assigned_foldl deviceSize ⟨.init maxPoolSizeBytes, [], [], 0⟩
    (allocGroups allocIdOf nodes candidates)
  have span : ∀ assignment ∈ (sweepGroups deviceSize
      (allocGroups allocIdOf nodes candidates)).assigned, ∀ allocId,
      allocIdOf assignment.group.rep.name = some allocId →
      GroupSpan nodes candidates allocIdOf allocId assignment.group.rep.start
        assignment.group.rep.stop := by
    intro assignment inside allocId isId
    have inGroups := sublist.subset (List.mem_map_of_mem inside)
    rw [List.map_nil, List.nil_append] at inGroups
    obtain ⟨otherId, sameId, groupSpan⟩ := grouped.allocated _ inGroups
    rwa [Option.some.inj (isId.symm.trans sameId)]
  intro first firstIn second secondIn firstId secondId isFirst isSecond differ shared
    earliest step latest accessed accessedLast lower upper intruded
  have distinct : first ≠ second := by
    rintro rfl
    exact differ (Option.some.inj (isFirst.symm.trans isSecond))
  rcases sweepGroups_ordered grouped.sorted firstIn secondIn distinct shared with order | order
  · have passes := (passesTo_iff (span first firstIn firstId isFirst)
      (span second secondIn secondId isSecond)).mpr order
    have := separates firstId secondId differ passes latest step accessedLast intruded
    omega
  · have passes := (passesTo_iff (span second secondIn secondId isSecond)
      (span first firstIn firstId isFirst)).mpr order
    have := separates secondId firstId (Ne.symm differ) passes step earliest intruded accessed
    omega

theorem computeSizeBytes_pair {first second : ℕ} {name : String}
    (inPair : allocIdOf name = some first ∨ allocIdOf name = some second) :
    computeSizeBytes (pairSizes allocIdOf first second) name = 128 := by
  unfold computeSizeBytes pairSizes
  rw [if_pos inPair]
  decide

theorem computeSizeBytes_other {first second : ℕ} {name : String}
    (notFirst : allocIdOf name ≠ some first) (notSecond : allocIdOf name ≠ some second) :
    (maxPoolSizeBytes : ℤ) < computeSizeBytes (pairSizes allocIdOf first second) name := by
  unfold computeSizeBytes pairSizes
  rw [if_neg (not_or.mpr ⟨notFirst, notSecond⟩)]
  refine lt_of_lt_of_le ?_ (le_roundUp (by decide) _)
  push_cast
  omega

/-- Two distinct members of a list, in the order in which they occur. -/
theorem split_at_pair {α : Type*} {list : List α} {first second : α} (firstIn : first ∈ list)
    (secondIn : second ∈ list) (distinct : first ≠ second) :
    ∃ before between after, list = before ++ first :: (between ++ second :: after) ∨
      list = before ++ second :: (between ++ first :: after) := by
  obtain ⟨before, after, rfl⟩ := List.append_of_mem firstIn
  rcases List.mem_append.mp secondIn with inBefore | inAfter
  · obtain ⟨front, between, rfl⟩ := List.append_of_mem inBefore
    exact ⟨front, between, after, .inr (by simp)⟩
  · obtain ⟨between, back, rfl⟩ :=
      List.append_of_mem ((List.mem_cons.mp inAfter).resolve_left (Ne.symm distinct))
    exact ⟨before, between, back, .inl rfl⟩

/-- Both groups of a pair are given the same block. -/
theorem assigned_pair {firstId secondId : ℕ} {first second : AllocGroup}
    {before between after : List AllocGroup}
    (distinct : (reps (before ++ first :: (between ++ second :: after))).Pairwise
      fun left right => allocIdOf left.name ≠ allocIdOf right.name)
    (isFirst : allocIdOf first.rep.name = some firstId)
    (isSecond : allocIdOf second.rep.name = some secondId)
    (ended : first.rep.stop < second.rep.start) {left right : ℕ}
    (pair : (left = firstId ∧ right = secondId) ∨ (left = secondId ∧ right = firstId)) :
    ⟨first, ⟨0, 128⟩⟩ ∈ (sweepGroups (pairSizes allocIdOf left right)
        (before ++ first :: (between ++ second :: after))).assigned ∧
      ⟨second, ⟨0, 128⟩⟩ ∈ (sweepGroups (pairSizes allocIdOf left right)
        (before ++ first :: (between ++ second :: after))).assigned := by
  have others : ∀ group ∈ before ++ between, allocIdOf group.rep.name ≠ some firstId ∧
      allocIdOf group.rep.name ≠ some secondId := by
    simp only [reps, List.map_append, List.map_cons, List.pairwise_append, List.pairwise_cons]
      at distinct
    obtain ⟨-, ⟨afterFirst, -, -, betweenApart⟩, beforeApart⟩ := distinct
    intro group inside
    rw [← isFirst, ← isSecond]
    rcases List.mem_append.mp inside with inBefore | inBetween
    · have mapped := List.mem_map_of_mem (f := AllocGroup.rep) inBefore
      exact ⟨beforeApart _ mapped _ (by simp), beforeApart _ mapped _ (by simp)⟩
    · have mapped := List.mem_map_of_mem (f := AllocGroup.rep) inBetween
      exact ⟨Ne.symm (afterFirst _ (List.mem_append_left _ mapped)),
        betweenApart _ mapped _ List.mem_cons_self⟩
  refine sweep_pair (fun group inside => ?_) (computeSizeBytes_pair ?_) (computeSizeBytes_pair ?_)
    ended
  · obtain ⟨notFirst, notSecond⟩ := others group inside
    rcases pair with ⟨rfl, rfl⟩ | ⟨rfl, rfl⟩
    · exact computeSizeBytes_other notFirst notSecond
    · exact computeSizeBytes_other notSecond notFirst
  · rcases pair with ⟨rfl, rfl⟩ | ⟨rfl, rfl⟩
    · exact .inl isFirst
    · exact .inr isFirst
  · rcases pair with ⟨rfl, rfl⟩ | ⟨rfl, rfl⟩
    · exact .inr isSecond
    · exact .inl isSecond

theorem separatesReuse_of_aliasingSafe
    (allocated : ∀ name ∈ candidates, (allocIdOf name).isSome)
    (safe : ∀ deviceSize, AliasingSafe nodes allocIdOf
      (sweepGroups deviceSize (allocGroups allocIdOf nodes candidates)).assigned) :
    SeparatesReuse nodes candidates allocIdOf := by
  intro firstId secondId differ passes step later accessedFirst accessedSecond
  have grouped := allocGroups_grouped nodes allocated
  obtain ⟨firstName, -, firstPooled, -⟩ := passes.startsFirst
  obtain ⟨secondName, secondPooled⟩ := passes.pooled
  obtain ⟨first, firstIn, isFirst⟩ := grouped.covered firstId firstName firstPooled
  obtain ⟨second, secondIn, isSecond⟩ := grouped.covered secondId secondName secondPooled
  obtain ⟨firstSpanId, sameFirst, firstSpan⟩ := grouped.allocated first firstIn
  obtain ⟨secondSpanId, sameSecond, secondSpan⟩ := grouped.allocated second secondIn
  cases Option.some.inj (sameFirst.symm.trans isFirst)
  cases Option.some.inj (sameSecond.symm.trans isSecond)
  obtain ⟨startsFirst, ends⟩ := (passesTo_iff firstSpan secondSpan).mp passes
  have distinct : first ≠ second := by
    rintro rfl
    exact differ (Option.some.inj (isFirst.symm.trans isSecond))
  have assigned : ⟨first, ⟨0, 128⟩⟩ ∈ (sweepGroups (pairSizes allocIdOf firstId secondId)
        (allocGroups allocIdOf nodes candidates)).assigned ∧
      ⟨second, ⟨0, 128⟩⟩ ∈ (sweepGroups (pairSizes allocIdOf firstId secondId)
        (allocGroups allocIdOf nodes candidates)).assigned := by
    obtain ⟨before, between, after, split | split⟩ := split_at_pair firstIn secondIn distinct
    · have apart := grouped.distinct
      rw [split] at apart ⊢
      exact assigned_pair apart isFirst isSecond ends (.inl ⟨rfl, rfl⟩)
    · -- The second group comes first only when both start together.
      have apart := grouped.distinct
      have sorted := grouped.sorted
      rw [split] at apart sorted ⊢
      simp only [reps, List.map_append, List.map_cons, List.pairwise_append, List.pairwise_cons]
        at sorted
      obtain ⟨-, ⟨afterSecond, -⟩, -⟩ := sorted
      have inOrder : LiveRange.LE second.rep first.rep := afterSecond _ (by simp)
      have ended : second.rep.stop < first.rep.start := by
        rcases inOrder with less | ⟨same, less | ⟨sameStop, -⟩⟩ <;> omega
      exact (assigned_pair apart isSecond isFirst ended (.inr ⟨rfl, rfl⟩)).symm
  obtain ⟨firstAssigned, secondAssigned⟩ := assigned
  have shared : ¬ Extent.Disjoint ⟨0, 128⟩ ⟨0, 128⟩ :=
    fun disjoint => disjoint 0 (by decide) (by decide)
  have firstApart := safe _ _ firstAssigned _ secondAssigned firstId secondId isFirst isSecond
    differ shared
  have secondApart := safe _ _ secondAssigned _ firstAssigned secondId firstId isSecond isFirst
    (Ne.symm differ) shared
  have firstOpens := firstSpan.accesses
  have secondOpens := secondSpan.accesses
  by_contra notBefore
  rw [not_lt] at notBefore
  rcases le_total later first.rep.start with below | above
  · exact secondApart later first.rep.start second.rep.start accessedSecond secondOpens below
      startsFirst firstOpens
  · exact firstApart first.rep.start later step firstOpens accessedFirst above notBefore
      accessedSecond

end Bundle

theorem Graph.allocId_isSome {graph : Graph} {bundle : SchedulerNode} {name : String}
    (candidate : name ∈ graph.bundleCandidates bundle) : (graph.allocId name).isSome := by
  have inAll := (List.mem_filter.mp candidate).1
  have eligible := (List.mem_filter.mp inAll).2
  simp only [Bool.and_eq_true] at eligible
  have intermediate := eligible.1.2
  unfold Graph.isIntermediate at intermediate
  unfold Graph.allocId
  split at intermediate
  · cases intermediate
  next layout found => rw [found]; rfl

/-- The plans of a schedule are free of aliasing for all buffer sizes exactly when, in
every bundle, groups that may share a block are accessed one after the other. -/
theorem hbmPoolPlanning_aliasing_iff (symbolicArgs : Bool) (graph : Graph) :
    (∀ deviceSize, ∀ plan ∈ hbmPoolPlanning ⟨true, symbolicArgs⟩ graph deviceSize,
      AliasingSafe plan.bundle.liveRangeNodes graph.allocId plan.assigned) ↔
    ∀ bundle ∈ graph.nodes, SeparatesReuse bundle.liveRangeNodes (graph.bundleCandidates bundle)
      graph.allocId := by
  constructor
  · intro safe bundle inNodes
    by_cases noCandidates : graph.bundleCandidates bundle = []
    · intro first second _ passes
      obtain ⟨name, pooled⟩ := passes.pooled
      have candidate := pooled.candidate
      rw [noCandidates] at candidate
      cases candidate
    · apply separatesReuse_of_aliasingSafe fun name candidate => Graph.allocId_isSome candidate
      intro deviceSize
      apply safe deviceSize (planBundle graph deviceSize bundle)
      simp only [hbmPoolPlanning, if_true]
      exact List.mem_map_of_mem (List.mem_filter.mpr ⟨inNodes, by simpa using noCandidates⟩)
  · intro separates deviceSize plan inPlans
    simp only [hbmPoolPlanning, if_true] at inPlans
    obtain ⟨bundle, inBundles, rfl⟩ := List.mem_map.mp inPlans
    exact aliasingSafe_of_separatesReuse (fun name candidate => Graph.allocId_isSome candidate)
      (separates bundle (List.mem_filter.mp inBundles).1) deviceSize

/-! ## An accumulator updated in place -/

/-- `acc` is initialised, read, and updated in place later on; `tmp` lives in between. -/
def accumulating : SchedulerNode :=
  .fused "bundle" false ["x"] ["acc", "tmp", "y", "z"]
    [.leaf "init" .kernel ["x"] ["acc"],
      .leaf "scale" .kernel ["acc"] ["tmp"],
      .leaf "store" .kernel ["tmp"] ["y"],
      .leaf "update" .kernel ["acc"] ["acc"],
      .leaf "result" .kernel ["acc"] ["z"]]

def accumulatingGraph : Graph where
  inputs := ["x"]
  outputs := ["y", "z"]
  getBuffer := fun name =>
    if name = "acc" then some (.buffer (some ⟨0, false⟩) false)
    else if name = "tmp" then some (.buffer (some ⟨1, false⟩) false)
    else some (.buffer (some ⟨2, false⟩) false)
  nodes := [accumulating]

/-- The range of `acc` starts with the update, so it is given the block of `tmp`
although it already holds its initial value while `tmp` is written. -/
theorem hbmPoolPlanning_aliases :
    (hbmPoolPlanning ⟨true, false⟩ accumulatingGraph fun _ => 128).map BundlePlan.assigned =
      [[⟨⟨⟨"tmp", 1, 2⟩, ["tmp"]⟩, ⟨0, 128⟩⟩, ⟨⟨⟨"acc", 3, 4⟩, ["acc"]⟩, ⟨0, 128⟩⟩]] ∧
    ¬ ∀ plan ∈ hbmPoolPlanning ⟨true, false⟩ accumulatingGraph fun _ => 128,
      AliasingSafe plan.bundle.liveRangeNodes accumulatingGraph.allocId plan.assigned := by
  have computed : (hbmPoolPlanning ⟨true, false⟩ accumulatingGraph fun _ => 128).map
      BundlePlan.assigned =
      [[⟨⟨⟨"tmp", 1, 2⟩, ["tmp"]⟩, ⟨0, 128⟩⟩, ⟨⟨⟨"acc", 3, 4⟩, ["acc"]⟩, ⟨0, 128⟩⟩]] := by
    decide +kernel
  refine ⟨computed, fun safe => ?_⟩
  have isPlan : planBundle accumulatingGraph (fun _ => 128) accumulating ∈
      hbmPoolPlanning ⟨true, false⟩ accumulatingGraph fun _ => 128 := by
    refine List.mem_map_of_mem (List.mem_filter.mpr ⟨List.mem_cons_self, ?_⟩)
    decide +kernel
  have assigned : (planBundle accumulatingGraph (fun _ => 128) accumulating).assigned =
      [⟨⟨⟨"tmp", 1, 2⟩, ["tmp"]⟩, ⟨0, 128⟩⟩, ⟨⟨⟨"acc", 3, 4⟩, ["acc"]⟩, ⟨0, 128⟩⟩] := by
    decide +kernel
  have apart := safe _ isPlan
  rw [assigned] at apart
  exact apart _ (List.mem_cons_of_mem _ List.mem_cons_self) _ List.mem_cons_self 0 1 rfl rfl
    (by decide) (fun disjoint => disjoint 0 (by decide) (by decide)) 0 1 4
    ⟨_, rfl, "acc", by decide, rfl⟩ ⟨_, rfl, "acc", by decide, rfl⟩ (by decide) (by decide)
    ⟨_, rfl, "tmp", by decide, rfl⟩

end TorchSpyre.HbmPool
