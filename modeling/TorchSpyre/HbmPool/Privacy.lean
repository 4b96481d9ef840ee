import Mathlib
import TorchSpyre.HbmPool.Aliasing

/-!
# Which nodes touch a pooled allocation

A pool offset is written into the allocation dict, so it moves every name that shares
the dict.  The walks over the schedule keep such an allocation to the kernel nodes of
one bundle, with one exception: the writes of extern and nop nodes are not recorded.
`hbmPoolPlanning_private_iff` says that nothing else goes wrong.
-/

namespace TorchSpyre.HbmPool

open SchedulerNode

namespace Graph

variable (graph : Graph)

def ReadsAlloc (node : SchedulerNode) (allocId : ℕ) : Prop :=
  ∃ name ∈ node.reads, graph.allocId name = some allocId

/-- The node writes the allocation; a `SpyreEmptyFallback` only creates its own buffer. -/
def WritesAlloc (node : SchedulerNode) (allocId : ℕ) : Prop :=
  ∃ name ∈ node.writes, graph.allocId name = some allocId ∧ node.emptyFallback? ≠ some name

def Touches (node : SchedulerNode) (allocId : ℕ) : Prop :=
  graph.ReadsAlloc node allocId ∨ graph.WritesAlloc node allocId

/-- The allocation is used by the kernel nodes of one bundle, and by nothing else. -/
structure Private (allocId : ℕ) : Prop where
  oneBundle : ∃ bundle ∈ graph.nodes, ∀ other ∈ graph.nodes, ∀ node ∈ other.flatten,
    graph.Touches node allocId → other = bundle
  kernelOnly : ∀ bundle ∈ graph.nodes, ∀ node ∈ bundle.flatten,
    graph.Touches node allocId → node.takesKernelArgs = false
  notInput : ∀ name ∈ graph.inputs, graph.allocId name ≠ some allocId
  notOutput : ∀ name ∈ graph.outputs, graph.allocId name ≠ some allocId

/-- Some plan gives the allocation an offset. -/
def GivenOffset (plans : List BundlePlan) (allocId : ℕ) : Prop :=
  ∃ plan ∈ plans, ∃ assignment ∈ plan.assigned,
    graph.allocId assignment.group.rep.name = some allocId

end Graph

theorem iterAllNodes_singleton (bundle : SchedulerNode) :
    iterAllNodes [bundle] = bundle.flatten := by
  simp [iterAllNodes]

theorem mem_iterAllNodes {nodes : List SchedulerNode} {node : SchedulerNode} :
    node ∈ iterAllNodes nodes ↔ ∃ bundle ∈ nodes, node ∈ bundle.flatten := by
  induction nodes with
  | nil => simp [iterAllNodes]
  | cons head tail inductionHypothesis => simp [iterAllNodes, inductionHypothesis]

/-! ## What the walks record -/

section Walks

variable {graph : Graph}

theorem writeEvents_of_kernel {bundle node : SchedulerNode} {name : String}
    (inNodes : bundle ∈ graph.nodes) (inBundle : node ∈ bundle.flatten)
    (isKernel : node.takesKernelArgs = false) (written : name ∈ node.writes)
    (notOutput : name ∉ graph.outputs) : (name, bundle.name) ∈ graph.writeEvents := by
  apply List.mem_flatMap.mpr
  refine ⟨bundle, inNodes, List.mem_map_of_mem (List.mem_filter.mpr ⟨?_, by simpa using notOutput⟩)⟩
  apply List.mem_append_left
  apply List.mem_flatMap.mpr
  refine ⟨node, List.mem_filter.mpr ⟨?_, by simpa using isKernel⟩, written⟩
  rw [iterAllNodes_singleton]
  exact inBundle

theorem readEvents_of_kernel {bundle node : SchedulerNode} {name : String}
    (inNodes : bundle ∈ graph.nodes) (inBundle : node ∈ bundle.flatten)
    (isKernel : node.takesKernelArgs = false) (read : name ∈ node.reads)
    (notInput : name ∉ graph.inputs) : (name, bundle.name) ∈ graph.readEvents := by
  apply List.mem_flatMap.mpr
  refine ⟨bundle, inNodes, List.mem_map_of_mem (List.mem_filter.mpr ⟨?_, by simpa using notInput⟩)⟩
  apply List.mem_flatMap.mpr
  refine ⟨node, List.mem_filter.mpr ⟨?_, by simpa using isKernel⟩, read⟩
  rw [iterAllNodes_singleton]
  exact inBundle

theorem bundle_of_writeEvent {name bundleName : String}
    (event : (name, bundleName) ∈ graph.writeEvents) :
    ∃ bundle ∈ graph.nodes, bundle.name = bundleName := by
  obtain ⟨bundle, inNodes, inWrites⟩ := List.mem_flatMap.mp event
  obtain ⟨written, -, same⟩ := List.mem_map.mp inWrites
  exact ⟨bundle, inNodes, (Prod.mk.inj same).2⟩

theorem mem_bundlesOf {events : List (String × String)} {concerns : String → Bool}
    {name bundleName : String} (event : (name, bundleName) ∈ events)
    (concerned : concerns name = true) : bundleName ∈ Graph.bundlesOf events concerns :=
  List.mem_dedup.mpr (List.mem_map.mpr ⟨_, List.mem_filter.mpr ⟨event, concerned⟩, rfl⟩)

/-- What the filters leave of a candidate's allocation. -/
structure Eligible (graph : Graph) (allocId : ℕ) : Prop where
  notIo : allocId ∉ graph.ioAllocIds
  notFallbackRead : allocId ∉ graph.fallbackReadAllocIds
  written : ∃ name bundleName, (name, bundleName) ∈ graph.writeEvents ∧
    graph.allocId name = some allocId
  oneWriter : (graph.allocIdBundles allocId).length ≤ 1
  readersWrite : ∀ bundleName ∈ graph.allocIdReaderBundles allocId,
    bundleName ∈ graph.allocIdBundles allocId

theorem eligible_of_candidate {name : String} {allocId : ℕ}
    (candidate : name ∈ graph.allCandidates) (allocated : graph.allocId name = some allocId) :
    Eligible graph allocId := by
  obtain ⟨inWritten, eligible⟩ := List.mem_filter.mp candidate
  simp only [Bool.and_eq_true, Bool.not_eq_true'] at eligible
  obtain ⟨⟨-, intermediate⟩, oneBundle⟩ := eligible
  obtain ⟨⟨writtenName, bundleName⟩, event, rfl⟩ := List.mem_map.mp (List.mem_dedup.mp inWritten)
  have inWriters : bundleName ∈ graph.allocIdBundles allocId :=
    mem_bundlesOf event (by simpa using allocated)
  have layoutFacts : allocId ∉ graph.ioAllocIds ∧ allocId ∉ graph.fallbackReadAllocIds := by
    unfold Graph.isIntermediate at intermediate
    unfold Graph.allocId at allocated
    split at intermediate
    · cases intermediate
    next layout found =>
      rw [found] at allocated
      cases Option.some.inj allocated
      simp only [Bool.and_eq_true, decide_eq_true_eq] at intermediate
      exact ⟨intermediate.1.2, intermediate.2⟩
  have nonempty : graph.allocIdBundles allocId ≠ [] := List.ne_nil_of_mem inWriters
  unfold Graph.isCrossBundle at oneBundle
  simp only [allocated, if_neg nonempty] at oneBundle
  split_ifs at oneBundle with _ several foreign
  refine ⟨layoutFacts.1, layoutFacts.2, ⟨_, _, event, allocated⟩, not_lt.mp several, ?_⟩
  intro reader isReader
  simp only [List.any_eq_true, not_exists, not_and, decide_eq_true_eq, not_not] at foreign
  exact foreign reader isReader

theorem candidate_of_givenOffset {config : Config} {deviceSize : String → ℕ} {allocId : ℕ}
    (given : graph.GivenOffset (hbmPoolPlanning config graph deviceSize) allocId) :
    ∃ name ∈ graph.allCandidates, graph.allocId name = some allocId := by
  obtain ⟨plan, inPlans, assignment, inAssigned, allocated⟩ := given
  unfold hbmPoolPlanning at inPlans
  split at inPlans
  · obtain ⟨bundle, -, rfl⟩ := List.mem_map.mp inPlans
    obtain ⟨-, sublist⟩ := assigned_foldl deviceSize ⟨.init maxPoolSizeBytes, [], [], 0⟩
      (allocGroups graph.allocId bundle.liveRangeNodes (graph.bundleCandidates bundle))
    have inGroups := sublist.subset (List.mem_map_of_mem inAssigned)
    rw [List.map_nil, List.nil_append] at inGroups
    have grouped := allocGroups_grouped bundle.liveRangeNodes fun name =>
      @Graph.allocId_isSome graph bundle name
    obtain ⟨groupId, isGroupId, span⟩ := grouped.allocated _ inGroups
    obtain ⟨name, pooled, -⟩ := span.opens
    refine ⟨name, (List.mem_filter.mp pooled.candidate).1, ?_⟩
    rw [pooled.allocated, ← isGroupId, allocated]
  · cases inPlans

end Walks

/-! ## The exact condition -/

section Eligible

variable {graph : Graph} {allocId : ℕ}

theorem Eligible.not_io (eligible : Eligible graph allocId) {name : String}
    (allocated : graph.allocId name = some allocId) : name ∉ graph.ioNames :=
  fun isIo => eligible.notIo (List.mem_filterMap.mpr ⟨name, isIo, allocated⟩)

theorem Eligible.kernel_of_read (eligible : Eligible graph allocId)
    {bundle node : SchedulerNode} (inNodes : bundle ∈ graph.nodes)
    (inBundle : node ∈ bundle.flatten) (reads : graph.ReadsAlloc node allocId) :
    node.takesKernelArgs = false := by
  obtain ⟨name, isRead, allocated⟩ := reads
  by_contra takes
  apply eligible.notFallbackRead
  refine List.mem_filterMap.mpr ⟨name, List.mem_flatMap.mpr ⟨node, ?_, isRead⟩, allocated⟩
  exact List.mem_filter.mpr ⟨mem_iterAllNodes.2 ⟨bundle, inNodes, inBundle⟩, by simpa using takes⟩

/-- A kernel node touching the allocation is in a bundle the walk recorded as a writer. -/
theorem Eligible.writer_of_kernel (eligible : Eligible graph allocId)
    {bundle node : SchedulerNode} (inNodes : bundle ∈ graph.nodes)
    (inBundle : node ∈ bundle.flatten) (isKernel : node.takesKernelArgs = false)
    (touches : graph.Touches node allocId) : bundle.name ∈ graph.allocIdBundles allocId := by
  rcases touches with ⟨name, isRead, allocated⟩ | ⟨name, isWritten, allocated, -⟩
  · have notInput : name ∉ graph.inputs := fun isInput =>
      eligible.not_io allocated (List.mem_append_left _ isInput)
    apply eligible.readersWrite
    exact mem_bundlesOf (readEvents_of_kernel inNodes inBundle isKernel isRead notInput)
      (by simpa using allocated)
  · have notOutput : name ∉ graph.outputs := fun isOutput =>
      eligible.not_io allocated (List.mem_append_right _ isOutput)
    exact mem_bundlesOf (writeEvents_of_kernel inNodes inBundle isKernel isWritten notOutput)
      (by simpa using allocated)

/-- All recorded writers are one bundle of the schedule. -/
theorem Eligible.exists_writer (eligible : Eligible graph allocId) :
    ∃ bundle ∈ graph.nodes, graph.allocIdBundles allocId = [bundle.name] := by
  obtain ⟨name, bundleName, event, allocated⟩ := eligible.written
  obtain ⟨bundle, inNodes, rfl⟩ := bundle_of_writeEvent event
  have inWriters : bundle.name ∈ graph.allocIdBundles allocId :=
    mem_bundlesOf event (by simpa using allocated)
  refine ⟨bundle, inNodes, ?_⟩
  obtain ⟨writer, isSingleton⟩ := List.length_eq_one_iff.mp
    (le_antisymm eligible.oneWriter (List.length_pos_of_mem inWriters))
  rw [isSingleton] at inWriters ⊢
  rw [List.mem_singleton.mp inWriters]

end Eligible

/-- An allocation given an offset is private to one bundle exactly when no extern or nop
node writes a name that shares it, the `SpyreEmptyFallback` of that name apart. -/
theorem hbmPoolPlanning_private_iff (config : Config) (graph : Graph) (deviceSize : String → ℕ)
    (distinctNames : (graph.nodes.map SchedulerNode.name).Nodup) (allocId : ℕ)
    (given : graph.GivenOffset (hbmPoolPlanning config graph deviceSize) allocId) :
    graph.Private allocId ↔
      ∀ node ∈ iterAllNodes graph.nodes, node.takesKernelArgs = true →
        ¬ graph.WritesAlloc node allocId := by
  obtain ⟨name, candidate, allocated⟩ := candidate_of_givenOffset given
  have eligible := eligible_of_candidate candidate allocated
  constructor
  · intro isPrivate node inNodes takes writes
    obtain ⟨bundle, bundleIn, inBundle⟩ := mem_iterAllNodes.mp inNodes
    have isKernel := isPrivate.kernelOnly bundle bundleIn node inBundle (.inr writes)
    rw [isKernel] at takes
    cases takes
  · intro noExternWrite
    have kernelOnly : ∀ bundle ∈ graph.nodes, ∀ node ∈ bundle.flatten,
        graph.Touches node allocId → node.takesKernelArgs = false := by
      intro bundle inNodes node inBundle touches
      rcases touches with reads | writes
      · exact eligible.kernel_of_read inNodes inBundle reads
      · by_contra takes
        exact noExternWrite node (mem_iterAllNodes.mpr ⟨bundle, inNodes, inBundle⟩)
          (by simpa using takes) writes
    constructor
    case kernelOnly => exact kernelOnly
    case oneBundle =>
      obtain ⟨bundle, bundleIn, writers⟩ := eligible.exists_writer
      refine ⟨bundle, bundleIn, ?_⟩
      intro other otherIn node inOther touches
      have isWriter := eligible.writer_of_kernel otherIn inOther
        (kernelOnly other otherIn node inOther touches) touches
      rw [writers, List.mem_singleton] at isWriter
      exact List.inj_on_of_nodup_map distinctNames otherIn bundleIn isWriter
    case notInput =>
      intro inputName isInput shared
      exact eligible.not_io shared (List.mem_append_left _ isInput)
    case notOutput =>
      intro outputName isOutput shared
      exact eligible.not_io shared (List.mem_append_right _ isOutput)

/-! ## An in-place update of a fallback's output -/

/-- `buf0` is the output of a fallback; the bundle updates it in place under the name
`buf1` and reads the result. -/
def inPlaceGraph : Graph where
  inputs := ["x"]
  outputs := ["y"]
  getBuffer := fun name =>
    if name = "buf0" ∨ name = "buf1" then some (.buffer (some ⟨0, false⟩) false)
    else if name = "x" then some (.buffer (some ⟨1, false⟩) false)
    else some (.buffer (some ⟨2, false⟩) false)
  nodes :=
    [.leaf "op0" (.externKernel none) ["x"] ["buf0"],
      .fused "op1_op2" false ["buf0"] ["buf1", "y"]
        [.leaf "op1" .kernel ["buf0"] ["buf1"], .leaf "op2" .kernel ["buf1"] ["y"]]]

theorem givenOffset_of_assigned {graph : Graph} {plans : List BundlePlan} {allocId : ℕ}
    {assignment : Assignment} (computed : plans.map BundlePlan.assigned = [[assignment]])
    (allocated : graph.allocId assignment.group.rep.name = some allocId) :
    graph.GivenOffset plans allocId := by
  obtain ⟨plan, inPlans, planAssigned⟩ : ∃ plan ∈ plans, plan.assigned = [assignment] := by
    apply List.mem_map.mp
    rw [computed]
    exact List.mem_cons_self
  exact ⟨plan, inPlans, assignment, planAssigned ▸ List.mem_cons_self, allocated⟩

/-- The fallback's output is given a pool offset together with its in-place update. -/
theorem hbmPoolPlanning_moves_fallback_output :
    (inPlaceGraph.nodes.map SchedulerNode.name).Nodup ∧
    inPlaceGraph.GivenOffset (hbmPoolPlanning ⟨true, false⟩ inPlaceGraph fun _ => 128) 0 ∧
    ¬ inPlaceGraph.Private 0 := by
  have assigned : (hbmPoolPlanning ⟨true, false⟩ inPlaceGraph fun _ => 128).map
      BundlePlan.assigned = [[⟨⟨⟨"buf1", 0, 1⟩, ["buf1"]⟩, ⟨0, 128⟩⟩]] := by
    decide +kernel
  refine ⟨by decide, givenOffset_of_assigned assigned rfl, fun isPrivate => ?_⟩
  have isKernel := isPrivate.kernelOnly _ List.mem_cons_self
    (.leaf "op0" (.externKernel none) ["x"] ["buf0"]) (by simp [flatten])
    (.inr ⟨"buf0", List.mem_cons_self, rfl, by simp [emptyFallback?]⟩)
  cases isKernel

/-- The same schedule with `buf0` created by a kernel node of its own bundle. -/
def fusedGraph : Graph :=
  { inPlaceGraph with
    nodes :=
      [.fused "op0_op1_op2" false ["x"] ["buf0", "buf1", "y"]
        [.leaf "op0" .kernel ["x"] ["buf0"], .leaf "op1" .kernel ["buf0"] ["buf1"],
          .leaf "op2" .kernel ["buf1"] ["y"]]] }

theorem hbmPoolPlanning_private_fused :
    fusedGraph.GivenOffset (hbmPoolPlanning ⟨true, false⟩ fusedGraph fun _ => 128) 0 ∧
    fusedGraph.Private 0 := by
  have assigned : (hbmPoolPlanning ⟨true, false⟩ fusedGraph fun _ => 128).map
      BundlePlan.assigned = [[⟨⟨⟨"buf0", 0, 2⟩, ["buf0", "buf1"]⟩, ⟨0, 128⟩⟩]] := by
    decide +kernel
  have given : fusedGraph.GivenOffset _ 0 := givenOffset_of_assigned assigned rfl
  refine ⟨given, (hbmPoolPlanning_private_iff ⟨true, false⟩ fusedGraph (fun _ => 128) (by decide) 0
    given).mpr ?_⟩
  intro node inNodes takes
  simp only [fusedGraph, iterAllNodes, flatten, List.append_nil, List.cons_append,
    List.nil_append, List.mem_cons, List.not_mem_nil, or_false] at inNodes
  rcases inNodes with rfl | rfl | rfl <;> cases takes

end TorchSpyre.HbmPool
