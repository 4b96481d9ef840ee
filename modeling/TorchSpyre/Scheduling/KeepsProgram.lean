import TorchSpyre.Scheduling.ReportedLoops

/-!
# When the pass keeps the program

The pass keeps the nodes, their order and their loops exactly when no outermost loop
waits for itself through other nodes and every inner loop is contiguous within its
outermost loop, unless it raises.
-/

namespace TorchSpyre.Scheduling

open Lib LoopNest LoopRuns

variable {Expr : Type} {nodes : List (SchedulerNode Expr)}

/-- The forest runs the nodes of the input, each once and after what it waits for, and
has for every loop exactly one loop node, over exactly the loop's nodes. -/
structure KeepsProgram (nodes : List (SchedulerNode Expr)) (forest : List (LoopTree Expr)) :
    Prop where
  perm : (RoseTree.leaves forest).Perm (positions nodes)
  topological : TopologicallyOrdered nodes (RoseTree.leaves forest)
  loops : ∀ below loop index, loop.length = below + 1 → index < nodes.length →
    loop <+: loopGroupId nodes index →
      ((RoseTree.nodesAt below forest).countP fun node =>
        node.2.Perm (members (loopGroupId nodes) loop (positions nodes))) = 1
  trips : ∀ below, ∀ node ∈ RoseTree.nodesAt below forest, ∀ index ∈ node.2,
    loopCount nodes index below = some node.1

/-- A node of one unit waits for a node of the other. -/
def WaitsFor (nodes : List (SchedulerNode Expr)) (unit other : LoopUnit) : Prop :=
  other ≠ unit ∧ ∃ index < nodes.length, ∃ producer ∈ producers nodes index,
    unitOfNode nodes index = unit ∧ unitOfNode nodes producer = other

/-- No outermost loop waits for itself through other nodes. -/
def NoUnitCycle (nodes : List (SchedulerNode Expr)) : Prop :=
  ∀ unit, ¬ Relation.TransGen (WaitsFor nodes) unit unit

theorem waitsFor_iff {unit other : LoopUnit} :
    WaitsFor nodes unit other ↔ DepthFirst.Depends (unitDeps nodes) unit other := by
  unfold WaitsFor DepthFirst.Depends
  rw [mem_unitDeps]
  constructor
  · rintro ⟨distinct, index, bounded, producer, produces, isUnit, isOther⟩
    exact ⟨distinct, index, mem_unitMembers.mpr ⟨bounded, isUnit⟩, producer, produces, isOther⟩
  · rintro ⟨distinct, index, inside, producer, produces, isOther⟩
    obtain ⟨bounded, isUnit⟩ := mem_unitMembers.mp inside
    exact ⟨distinct, index, bounded, producer, produces, isUnit, isOther⟩

theorem noUnitCycle_iff :
    NoUnitCycle nodes ↔ DepthFirst.Acyclic (unitDeps nodes) (units nodes) := by
  have same : WaitsFor nodes = DepthFirst.Depends (unitDeps nodes) := by
    funext unit other
    exact propext waitsFor_iff
  unfold NoUnitCycle DepthFirst.Acyclic
  rw [same]
  constructor
  · exact fun acyclic unit _ => acyclic unit
  · intro acyclic unit cycle
    apply acyclic unit _ cycle
    obtain ⟨other, isDependency, -⟩ := Relation.TransGen.head'_iff.mp cycle
    obtain ⟨-, index, inside, -⟩ := mem_unitDeps.1 isDependency
    exact mem_units.mpr ⟨index, mem_unitMembers.mp inside⟩

/-- The forest of the regrouped nodes keeps the program exactly under these conditions. -/
theorem keepsProgram_iff (topological : TopologicallyOrdered nodes (positions nodes))
    {forest : List (LoopTree Expr)}
    (built : Built nodes 0 (regroupByOuterLoopKey nodes) forest) :
    KeepsProgram nodes forest ↔ NoUnitCycle nodes ∧ InnerLoopsContiguous nodes := by
  have recovered : ∀ below loop,
      ((RoseTree.nodesAt below forest).countP fun node =>
        node.2.Perm (members (loopGroupId nodes) loop (positions nodes))) = 1 ↔
          RecoveredOnce nodes below loop := by
    intro below loop
    unfold RecoveredOnce
    rw [← built.loops below, List.countP_map]
    exact Iff.rfl
  rw [noUnitCycle_iff, ← regroup_topological_iff topological]
  constructor
  · intro keeps
    refine ⟨built.leaves ▸ keeps.topological, contiguous_of_recoveredOnce ?_⟩
    intro below loop index level bounded inLoop
    exact (recovered below loop).mp (keeps.loops below loop index level bounded inLoop)
  · rintro ⟨ordered, contiguous⟩
    constructor
    case perm => rw [built.leaves]; exact regroup_perm
    case topological => rwa [built.leaves]
    case loops =>
      intro below loop index level bounded inLoop
      rw [recovered]
      exact recoveredOnce_of_contiguous contiguous level bounded inLoop
    case trips =>
      intro below node isNode index inside
      have counted := built.trips below node isNode index inside
      rwa [Nat.zero_add] at counted

variable [DecidableEq Expr]

/-- A tree stands for a unit in the final check. -/
def StandsFor (nodes : List (SchedulerNode Expr)) (unit : LoopUnit) (tree : LoopTree Expr) : Prop :=
  checkedKey nodes tree = reportedKey nodes unit ∧ getName nodes tree = unitName nodes unit

/-- The result has one tree for each unit. -/
theorem forall₂_units (consistent : ConsistentTripCounts nodes) {levels : ℕ}
    (enough : ∀ index, index < nodes.length → (loopGroupId nodes index).length ≤ levels)
    {forest : List (LoopTree Expr)}
    (builds : buildLoopGroup nodes (levels + 1) (regroupByOuterLoopKey nodes) 0 = .ok forest) :
    List.Forall₂ (StandsFor nodes) (orderedUnits nodes) forest := by
  rw [buildLoopGroup, splitBy_regroup] at builds
  obtain ⟨forests, wraps, isForest⟩ := bind_eq_ok_iff.mp builds
  cases isForest
  have each := fun unit => @wrapRun_unit _ nodes _ consistent levels unit enough
  have wrapped := List.forall₂_map_left_iff.mp (forall₂_of_mapM wraps)
  generalize orderedUnits nodes = ordered at each wrapped
  clear builds wraps
  induction wrapped with
  | nil => exact .nil
  | cons here _ inductionHypothesis =>
      obtain ⟨tree, wraps, standsFor⟩ := each _ List.mem_cons_self
      cases here.symm.trans wraps
      exact .cons standsFor
        (inductionHypothesis fun unit inside => each unit (List.mem_cons_of_mem _ inside))

omit [DecidableEq Expr] in
theorem checkLoops_forest_iff {forest : List (LoopTree Expr)}
    (trees : List.Forall₂ (StandsFor nodes) (orderedUnits nodes) forest) :
    checkLoops nodes [] forest = .ok () ↔ ¬ ReportedTwice nodes := by
  rw [checkLoops_eq_ok_iff]
  have unseen : ∀ tree ∈ forest, Expects nodes [] tree := by simp [Expects]
  rw [and_iff_right unseen]
  constructor
  · rintro agrees ⟨unit, isUnit, other, isOther, key, unitKey, otherKey, differs⟩
    have symmetric : Std.Symm (AgreeOn nodes) :=
      ⟨fun tree other agree key isTree isOther => (agree key isOther isTree).symm⟩
    rw [← orderedUnits_perm.mem_iff] at isUnit isOther
    obtain ⟨tree, isTree, reads, named⟩ := exists_right_of_forall₂ trees isUnit
    obtain ⟨otherTree, isOtherTree, otherReads, otherNamed⟩ := exists_right_of_forall₂ trees isOther
    have agree := agrees.forall_of_forall (fun _ _ _ _ _ => rfl) isTree isOtherTree
    rw [← named, ← otherNamed] at differs
    exact differs (agree key (reads.trans unitKey) (otherReads.trans otherKey))
  · intro once
    refine List.pairwise_of_forall_mem_list fun tree isTree other isOther key isKey isOtherKey => ?_
    obtain ⟨unit, isUnit, reads, named⟩ := exists_left_of_forall₂ trees isTree
    obtain ⟨otherUnit, isOtherUnit, otherReads, otherNamed⟩ := exists_left_of_forall₂ trees isOther
    rw [orderedUnits_perm.mem_iff] at isUnit isOtherUnit
    rw [named, otherNamed]
    by_contra differs
    exact once ⟨unit, isUnit, otherUnit, isOtherUnit, key, reads.symm.trans isKey,
      otherReads.symm.trans isOtherKey, differs⟩

/-- What the pass does: it wraps the regrouped nodes, and raises exactly when two units
report one loop. -/
theorem buildLoopSchedulerNodes_spec (consistent : ConsistentTripCounts nodes) :
    ∃ forest, Built nodes 0 (regroupByOuterLoopKey nodes) forest ∧
      ((ReportedTwice nodes ∧ ∃ error, buildLoopSchedulerNodes nodes = .error error) ∨
        (¬ ReportedTwice nodes ∧ buildLoopSchedulerNodes nodes = .ok forest)) := by
  have enough : ∀ index, index < nodes.length → (loopGroupId nodes index).length ≤
      nestingDepth (loopGroupId nodes) nodes.length := fun index => length_le_nestingDepth
  obtain ⟨forest, builds, built⟩ := buildLoopGroup_spec consistent
    (show Together (loopGroupId nodes) 0 (regroupByOuterLoopKey nodes) from
      fun _ _ _ _ => ⟨Nat.zero_le _, rfl⟩)
    (show ∀ index ∈ regroupByOuterLoopKey nodes, (loopGroupId nodes index).length ≤
        0 + (nestingDepth (loopGroupId nodes) nodes.length + 1) from fun index inside => by
      have bound := enough index (mem_regroup.mp inside)
      omega)
  refine ⟨forest, built, ?_⟩
  have checks := checkLoops_forest_iff (forall₂_units consistent enough builds)
  unfold buildLoopSchedulerNodes
  rw [builds]
  cases checked : checkLoops nodes [] forest with
  | error exception =>
      refine .inl ⟨?_, exception, ?_⟩
      · by_contra once
        rw [checks.mpr once] at checked
        cases checked
      · change (checkLoops nodes [] forest >>= fun _ => pure forest) = _
        rw [checked]
        rfl
  | ok =>
      refine .inr ⟨checks.mp checked, ?_⟩
      change (checkLoops nodes [] forest >>= fun _ => pure forest) = _
      rw [checked]
      rfl

/-- On a list in topological order with consistent trip counts, the pass raises or keeps
the program exactly when two of its loops report one outermost loop, or no outermost
loop waits for itself and the inner loops are contiguous. -/
theorem buildLoopSchedulerNodes_keeps_iff
    (topological : TopologicallyOrdered nodes (positions nodes))
    (consistent : ConsistentTripCounts nodes) :
    ((∃ error, buildLoopSchedulerNodes nodes = .error error) ∨
        ∃ forest, buildLoopSchedulerNodes nodes = .ok forest ∧ KeepsProgram nodes forest) ↔
      ReportedTwice nodes ∨ (NoUnitCycle nodes ∧ InnerLoopsContiguous nodes) := by
  obtain ⟨forest, built, ⟨twice, raises⟩ | ⟨once, succeeds⟩⟩ :=
    buildLoopSchedulerNodes_spec consistent
  · exact iff_of_true (.inl raises) (.inl twice)
  · rw [or_iff_right once, ← keepsProgram_iff topological built]
    constructor
    · rintro (⟨error, raises⟩ | ⟨other, returns, keeps⟩)
      · rw [succeeds] at raises
        cases raises
      · cases succeeds.symm.trans returns
        exact keeps
    · exact fun keeps => .inr ⟨forest, succeeds, keeps⟩

omit [DecidableEq Expr] in
theorem consistent_of_uniform {count : Expr}
    (uniform : ∀ node ∈ nodes, ∀ level ∈ node.levels, level.tripCount = count) :
    ConsistentTripCounts nodes := by
  have counted : ∀ index depth, depth < (loopGroupId nodes index).length →
      loopCount nodes index depth = some count := by
    intro index depth deep
    unfold loopCount
    have located : depth < (memberLoops nodes index).length := by simpa [loopGroupId] using deep
    rw [List.getElem?_eq_getElem located, Option.map_some, Option.some_inj]
    have inside := List.getElem_mem located
    generalize (memberLoops nodes index)[depth] = level at inside
    unfold memberLoops enclosingLoops at inside
    split at inside
    next => cases inside
    next =>
      cases found : nodes[index]? with
      | none => rw [found] at inside; cases inside
      | some node =>
          rw [found] at inside
          exact uniform node (List.mem_of_getElem? found) level inside
  intro depth first second shared
  rw [counted first depth shared.1, counted second depth shared.le_right]

/-- Two nodes of a nested loop with an independent node between them. -/
def interleavedLoop : List (SchedulerNode ℕ) :=
  [⟨"op0", ["buf0"], [], false, [⟨0, 4⟩, ⟨0, 4⟩]⟩, ⟨"op1", ["buf1"], [], false, []⟩,
    ⟨"op2", ["buf2"], ["buf0"], false, [⟨0, 4⟩, ⟨0, 4⟩]⟩]

theorem interleavedLoop_kept :
    TopologicallyOrdered interleavedLoop (positions interleavedLoop) ∧
      ConsistentTripCounts interleavedLoop ∧
      ((∃ error, buildLoopSchedulerNodes interleavedLoop = .error error) ∨
        ∃ forest, buildLoopSchedulerNodes interleavedLoop = .ok forest ∧
          KeepsProgram interleavedLoop forest) := by
  have topological : TopologicallyOrdered interleavedLoop (positions interleavedLoop) := by
    unfold TopologicallyOrdered DepthFirst.Ordered
    decide
  have consistent : ConsistentTripCounts interleavedLoop :=
    consistent_of_uniform (show ∀ node ∈ interleavedLoop, ∀ level ∈ node.levels,
      level.tripCount = 4 by decide)
  have noCycle : NoUnitCycle interleavedLoop := by
    rw [noUnitCycle_iff, ← DepthFirst.search_ordered_iff unitDeps_subset]
    unfold DepthFirst.Ordered
    decide
  have contiguous : InnerLoopsContiguous interleavedLoop := by
    intro loop deep first middle last lower upper bounded _ _ sameHead
    change last < 3 at bounded
    obtain rfl : middle = 1 := by omega
    change none = loop.head? at sameHead
    rw [List.head?_eq_none_iff.mp sameHead.symm] at deep
    cases deep
  exact ⟨topological, consistent, (buildLoopSchedulerNodes_keeps_iff topological consistent).mpr
    (.inr ⟨noCycle, contiguous⟩)⟩

/-- A loop whose second node waits, through a node outside the loop, for its first. -/
def interruptedLoop : List (SchedulerNode ℕ) :=
  [⟨"op0", ["buf0"], [], false, [⟨0, 4⟩]⟩, ⟨"op1", ["buf1"], ["buf0"], false, []⟩,
    ⟨"op2", ["buf2"], ["buf1"], false, [⟨0, 4⟩]⟩]

/-- The node outside the loop is moved before the loop it waits for. -/
theorem interruptedLoop_not_kept :
    TopologicallyOrdered interruptedLoop (positions interruptedLoop) ∧
      ConsistentTripCounts interruptedLoop ∧
      ¬ ((∃ error, buildLoopSchedulerNodes interruptedLoop = .error error) ∨
        ∃ forest, buildLoopSchedulerNodes interruptedLoop = .ok forest ∧
          KeepsProgram interruptedLoop forest) := by
  have topological : TopologicallyOrdered interruptedLoop (positions interruptedLoop) := by
    unfold TopologicallyOrdered DepthFirst.Ordered
    decide
  have consistent : ConsistentTripCounts interruptedLoop :=
    consistent_of_uniform (show ∀ node ∈ interruptedLoop, ∀ level ∈ node.levels,
      level.tripCount = 4 by decide)
  have result : buildLoopSchedulerNodes interruptedLoop =
      .ok [.leaf 1, .node 4 [.leaf 0, .leaf 2]] := by rfl
  refine ⟨topological, consistent, ?_⟩
  rw [result]
  rintro (⟨error, raises⟩ | ⟨forest, returns, keeps⟩)
  · cases raises
  · cases returns
    have early := keeps.topological 1 (by decide) 0 (by decide)
    revert early
    decide

end TorchSpyre.Scheduling
