import Mathlib
import TorchSpyre.Scheduling.LoopForest
import TorchSpyre.Scheduling.Regrouping

/-!
# The loops of the regrouped nodes

The outermost runs of the regrouped nodes are the outermost loops.  The inner loops
are recovered whole exactly when each is contiguous within its outermost loop.
-/

namespace TorchSpyre.Scheduling

open Lib LoopNest LoopRuns

variable {Expr : Type} {nodes : List (SchedulerNode Expr)}

section Outermost

theorem unitOfNode_eq_group_iff {index : ℕ} {key : ℤ} :
    unitOfNode nodes index = .group key ↔ (loopGroupId nodes index).head? = some key := by
  unfold unitOfNode
  split
  next outside => simp [outside]
  next other inside => simp [inside]

theorem unitOfNode_eq_single_iff {index other : ℕ} :
    unitOfNode nodes index = .single other ↔ loopGroupId nodes index = [] ∧ index = other := by
  unfold unitOfNode
  split
  next outside => simp [List.head?_eq_none_iff.mp outside]
  next key inside =>
    have nonempty : loopGroupId nodes index ≠ [] := by
      intro isEmpty
      rw [isEmpty] at inside
      cases inside
    simp [nonempty]

/-- Nodes are in one outermost run exactly when they are in one group. -/
theorem sameRun_zero_iff {first second : ℕ} :
    sameRun (loopGroupId nodes) 0 first second ↔
      ∃ key, unitOfNode nodes first = .group key ∧ unitOfNode nodes second = .group key := by
  unfold sameRun
  rw [decide_eq_true_eq, ← List.head?_eq_getElem?, ← List.head?_eq_getElem?]
  constructor
  · rintro ⟨inside, same⟩
    obtain ⟨key, rest, isCons⟩ := List.exists_cons_of_length_pos inside
    rw [isCons, List.head?_cons] at same
    refine ⟨key, unitOfNode_eq_group_iff.2 ?_, unitOfNode_eq_group_iff.2 same.symm⟩
    rw [isCons, List.head?_cons]
  · rintro ⟨key, isFirst, isSecond⟩
    rw [unitOfNode_eq_group_iff] at isFirst isSecond
    refine ⟨?_, isFirst.trans isSecond.symm⟩
    rw [List.length_pos_iff]
    intro isEmpty
    rw [isEmpty] at isFirst
    cases isFirst

theorem unitMembers_ne_nil {unit : LoopUnit} (isUnit : unit ∈ orderedUnits nodes) :
    unitMembers nodes unit ≠ [] := by
  obtain ⟨index, bounded, isUnit⟩ := mem_orderedUnits.mp isUnit
  exact List.ne_nil_of_mem (mem_unitMembers.mpr ⟨bounded, isUnit⟩)

/-- The outermost runs of the regrouped nodes are the units. -/
theorem splitBy_regroup : (regroupByOuterLoopKey nodes).splitBy (sameRun (loopGroupId nodes) 0) =
    (orderedUnits nodes).map (unitMembers nodes) := by
  unfold regroupByOuterLoopKey
  rw [List.flatMap_def]
  apply List.splitBy_flatten
  · intro isEmpty
    obtain ⟨unit, isUnit, noMembers⟩ := List.mem_map.mp isEmpty
    exact unitMembers_ne_nil isUnit noMembers
  · intro run isRun
    obtain ⟨unit, -, rfl⟩ := List.mem_map.mp isRun
    apply List.Pairwise.isChain
    refine (unitMembers_ordered unit).imp_of_mem fun {first second} firstIn secondIn lower => ?_
    obtain ⟨-, isFirst⟩ := mem_unitMembers.mp firstIn
    obtain ⟨-, isSecond⟩ := mem_unitMembers.mp secondIn
    cases unit with
    | single index =>
        have same := (unitOfNode_eq_single_iff.1 isFirst).2.trans
          (unitOfNode_eq_single_iff.1 isSecond).2.symm
        omega
    | group key => exact sameRun_zero_iff.2 ⟨key, isFirst, isSecond⟩
  · apply List.Pairwise.isChain
    rw [List.pairwise_map]
    refine orderedUnits_nodup.imp_of_mem fun {first second} isFirst isSecond distinct => ?_
    refine ⟨unitMembers_ne_nil isFirst, unitMembers_ne_nil isSecond, ?_⟩
    rw [← Bool.not_eq_true, sameRun_zero_iff]
    rintro ⟨key, lastIs, headIs⟩
    have inFirst := (mem_unitMembers.mp (List.getLast_mem (unitMembers_ne_nil isFirst))).2
    have inSecond := (mem_unitMembers.mp (List.head_mem (unitMembers_ne_nil isSecond))).2
    exact distinct ((inFirst.symm.trans lastIs).trans (inSecond.symm.trans headIs).symm)

end Outermost

section Inner

/-- The runs of one unit, some levels below the outermost one. -/
def unitRuns (nodes : List (SchedulerNode Expr)) : ℕ → LoopUnit → List (List ℕ)
  | _, .single _ => []
  | 0, .group key => [unitMembers nodes (.group key)]
  | below + 1, .group key =>
      runsAt (loopGroupId nodes) below 1 (unitMembers nodes (.group key))

theorem runs_regroup : runs (loopGroupId nodes) 0 (regroupByOuterLoopKey nodes) =
    (orderedUnits nodes).flatMap (unitRuns nodes 0) := by
  have each : ∀ unit ∈ orderedUnits nodes,
      (([unitMembers nodes unit]).filter fun run => run.any fun index =>
        0 < (loopGroupId nodes index).length) = unitRuns nodes 0 unit := by
    intro unit isUnit
    cases unit with
    | single index =>
        have outside : ((unitMembers nodes (.single index)).any fun index =>
            0 < (loopGroupId nodes index).length) = false := by
          refine List.any_eq_false.mpr fun other inside => ?_
          have isEmpty := (unitOfNode_eq_single_iff.1 (mem_unitMembers.mp inside).2).1
          simp [isEmpty]
        rw [List.filter_cons, outside]
        rfl
    | group key =>
        obtain ⟨index, bounded, isGroup⟩ := mem_orderedUnits.mp isUnit
        have inside : ((unitMembers nodes (.group key)).any fun index =>
            0 < (loopGroupId nodes index).length) = true := by
          refine List.any_eq_true.mpr ⟨index, mem_unitMembers.mpr ⟨bounded, isGroup⟩, ?_⟩
          rw [decide_eq_true_eq, List.length_pos_iff]
          intro isEmpty
          rw [unitOfNode_eq_group_iff, isEmpty] at isGroup
          cases isGroup
        rw [List.filter_cons, inside]
        rfl
  unfold runs
  rw [splitBy_regroup]
  generalize orderedUnits nodes = ordered at each
  induction ordered with
  | nil => rfl
  | cons unit rest inductionHypothesis =>
      rw [List.map_cons, List.flatMap_cons, ← each unit List.mem_cons_self,
        ← inductionHypothesis fun other inside => each other (List.mem_cons_of_mem _ inside),
        ← List.filter_append]
      rfl

theorem runsAt_regroup (below : ℕ) :
    runsAt (loopGroupId nodes) below 0 (regroupByOuterLoopKey nodes) =
      (orderedUnits nodes).flatMap (unitRuns nodes below) := by
  cases below with
  | zero => exact runs_regroup
  | succ below =>
      rw [runsAt, runs_regroup, List.flatMap_assoc]
      apply List.flatMap_congr
      intro unit _
      cases unit with
      | single index => rfl
      | group key => exact List.append_nil _

theorem unitRuns_subset {below : ℕ} {unit : LoopUnit} {run : List ℕ}
    (isRun : run ∈ unitRuns nodes below unit) : run ⊆ unitMembers nodes unit := by
  cases unit with
  | single index => cases below <;> cases isRun
  | group key =>
      cases below with
      | zero =>
          rw [List.mem_singleton.mp isRun]
          exact List.Subset.refl _
      | succ below => exact (runsAt_isPart isRun).subset

/-- An inner loop has nothing else of its outermost loop between its nodes. -/
def InnerLoopsContiguous (nodes : List (SchedulerNode Expr)) : Prop :=
  ∀ loop : List ℤ, 2 ≤ loop.length → ∀ first middle last, first < middle → middle < last →
    last < nodes.length → loop <+: loopGroupId nodes first → loop <+: loopGroupId nodes last →
      (loopGroupId nodes middle).head? = loop.head? → loop <+: loopGroupId nodes middle

theorem head?_eq_of_extends {loop path : List ℤ} (inside : loop <+: path) (nonempty : loop ≠ []) :
    path.head? = loop.head? := by
  obtain ⟨rest, rfl⟩ := inside
  exact List.head?_append_of_ne_nil _ nonempty

theorem mem_group_of_extends {loop : List ℤ} {key : ℤ} {index : ℕ} (isKey : loop.head? = some key)
    (inside : loop <+: loopGroupId nodes index) (bounded : index < nodes.length) :
    index ∈ unitMembers nodes (.group key) := by
  have nonempty : loop ≠ [] := by
    rintro rfl
    cases isKey
  refine mem_unitMembers.mpr ⟨bounded, unitOfNode_eq_group_iff.mpr ?_⟩
  rw [head?_eq_of_extends inside nonempty, isKey]

theorem innerLoopsContiguous_iff : InnerLoopsContiguous nodes ↔
    ∀ key, ContiguousFrom (loopGroupId nodes) 2 (unitMembers nodes (.group key)) := by
  constructor
  · intro contiguous key loop deep first firstIn middle middleIn last lastIn lower upper
      firstInLoop lastInLoop
    have nonempty : loop ≠ [] := by
      rintro rfl
      cases deep
    obtain ⟨-, isFirst⟩ := mem_unitMembers.mp firstIn
    obtain ⟨-, isMiddle⟩ := mem_unitMembers.mp middleIn
    apply contiguous loop deep first middle last lower upper (mem_unitMembers.mp lastIn).1
      firstInLoop lastInLoop
    rw [← head?_eq_of_extends firstInLoop nonempty, unitOfNode_eq_group_iff.mp isFirst,
      unitOfNode_eq_group_iff.mp isMiddle]
  · intro contiguous loop deep first middle last lower upper bounded firstInLoop lastInLoop sameHead
    obtain ⟨key, rest, rfl⟩ := List.exists_cons_of_length_pos (by omega : 0 < loop.length)
    have isKey : (key :: rest).head? = some key := rfl
    refine contiguous key _ deep first (mem_group_of_extends isKey firstInLoop (by omega)) middle
      ?_ last (mem_group_of_extends isKey lastInLoop bounded) lower upper firstInLoop lastInLoop
    exact mem_unitMembers.mpr ⟨by omega, unitOfNode_eq_group_iff.mpr (sameHead.trans isKey)⟩

theorem group_together (key : ℤ) :
    Together (loopGroupId nodes) 1 (unitMembers nodes (.group key)) := by
  intro first firstIn second secondIn
  have same := sameRun_zero_iff.mpr
    ⟨key, (mem_unitMembers.mp firstIn).2, (mem_unitMembers.mp secondIn).2⟩
  exact shares_of_sameRun ⟨Nat.zero_le _, rfl⟩ same

/-- The nodes of a loop are all in its outermost loop. -/
theorem members_group {loop : List ℤ} {key : ℤ} (isKey : loop.head? = some key) :
    members (loopGroupId nodes) loop (unitMembers nodes (.group key)) =
      members (loopGroupId nodes) loop (positions nodes) := by
  unfold members unitMembers
  rw [List.filter_filter]
  apply List.filter_congr
  intro index inside
  rw [Bool.and_eq_left_iff_imp, decide_eq_true_eq, decide_eq_true_eq]
  intro inLoop
  exact (mem_unitMembers.mp (mem_group_of_extends isKey inLoop (mem_positions.mp inside))).2

/-- The loop is recovered by exactly one run of the regrouped nodes. -/
def RecoveredOnce (nodes : List (SchedulerNode Expr)) (below : ℕ) (loop : List ℤ) : Prop :=
  ((runsAt (loopGroupId nodes) below 0 (regroupByOuterLoopKey nodes)).countP fun run =>
    run.Perm (members (loopGroupId nodes) loop (positions nodes))) = 1

theorem countP_unitRuns_eq_one (contiguous : InnerLoopsContiguous nodes) {below index : ℕ}
    {loop : List ℤ} (level : loop.length = below + 1) {key : ℤ} (isKey : loop.head? = some key)
    (bounded : index < nodes.length) (inLoop : loop <+: loopGroupId nodes index) :
    ((unitRuns nodes below (.group key)).countP fun run =>
      run.Perm (members (loopGroupId nodes) loop (positions nodes))) = 1 := by
  rw [← members_group isKey]
  have inside := mem_group_of_extends isKey inLoop bounded
  cases below with
  | zero =>
      obtain ⟨only, rfl⟩ := List.length_eq_one_iff.mp level
      cases isKey
      have all : members (loopGroupId nodes) [key] (unitMembers nodes (.group key)) =
          unitMembers nodes (.group key) := by
        refine List.filter_eq_self.mpr fun other otherIn => decide_eq_true ?_
        obtain ⟨rest, isCons⟩ := List.head?_eq_some_iff.mp
          (unitOfNode_eq_group_iff.mp (mem_unitMembers.mp otherIn).2)
        exact ⟨rest, isCons.symm⟩
      rw [all]
      simp [unitRuns]
  | succ below =>
      exact countP_runsAt_eq_one (unitMembers_ordered _) (group_together key)
        (innerLoopsContiguous_iff.1 contiguous key) (by omega) inside inLoop

theorem recoveredOnce_of_contiguous (contiguous : InnerLoopsContiguous nodes) {below index : ℕ}
    {loop : List ℤ} (level : loop.length = below + 1) (bounded : index < nodes.length)
    (inLoop : loop <+: loopGroupId nodes index) : RecoveredOnce nodes below loop := by
  obtain ⟨key, rest, isCons⟩ := List.exists_cons_of_length_pos (by omega : 0 < loop.length)
  have isKey : loop.head? = some key := by rw [isCons]; rfl
  have inside := mem_group_of_extends isKey inLoop bounded
  have isUnit : LoopUnit.group key ∈ orderedUnits nodes :=
    mem_orderedUnits.mpr ⟨index, bounded, (mem_unitMembers.mp inside).2⟩
  unfold RecoveredOnce
  rw [runsAt_regroup, countP_flatMap_of_unique orderedUnits_nodup isUnit]
  · exact countP_unitRuns_eq_one contiguous level isKey bounded inLoop
  · intro unit _ other run isRun whole
    have inRun : index ∈ run := whole.mem_iff.mpr
      (mem_members.mpr ⟨mem_positions.mpr bounded, inLoop⟩)
    have isOther := (mem_unitMembers.mp (unitRuns_subset isRun inRun)).2
    exact other (isOther.symm.trans (mem_unitMembers.mp inside).2)

theorem contiguous_of_recoveredOnce
    (recovered : ∀ below loop index, loop.length = below + 1 → index < nodes.length →
      loop <+: loopGroupId nodes index → RecoveredOnce nodes below loop) :
    InnerLoopsContiguous nodes := by
  rw [innerLoopsContiguous_iff]
  intro key loop deep first firstIn middle middleIn last lastIn lower upper firstInLoop lastInLoop
  have once := recovered (loop.length - 2 + 1) loop first (by omega)
    (mem_unitMembers.mp firstIn).1 firstInLoop
  unfold RecoveredOnce at once
  obtain ⟨run, isRun, whole⟩ := List.countP_pos_iff.mp (by rw [once]; exact Nat.one_pos)
  rw [runsAt_regroup] at isRun
  obtain ⟨unit, -, inUnit⟩ := List.mem_flatMap.mp isRun
  rw [decide_eq_true_eq] at whole
  have inRun : first ∈ run := whole.mem_iff.mpr (mem_members.mpr
    ⟨mem_positions.mpr (mem_unitMembers.mp firstIn).1, firstInLoop⟩)
  have isGroup := (mem_unitMembers.mp (unitRuns_subset inUnit inRun)).2
  rw [(mem_unitMembers.mp firstIn).2] at isGroup
  subst isGroup
  have isKey : loop.head? = some key := by
    rw [← head?_eq_of_extends firstInLoop (by rintro rfl; cases deep)]
    exact unitOfNode_eq_group_iff.mp (mem_unitMembers.mp firstIn).2
  rw [← members_group isKey] at whole
  exact prefix_of_run (unitMembers_ordered _) inUnit whole firstIn middleIn lastIn lower upper
    firstInLoop lastInLoop

end Inner

end TorchSpyre.Scheduling
