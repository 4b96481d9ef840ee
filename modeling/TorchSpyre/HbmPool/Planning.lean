import Mathlib
import TorchSpyre.HbmPool.Allocator
import TorchSpyre.Lib.Order

/-!
# The HBM pool planning pass

Bundles are the top-level nodes of the schedule.  Buffers written and read inside
one bundle, and not visible outside, are grouped by the allocation they share,
and every group is given a block of the intermediates segment in the order of the
live ranges; blocks whose range has ended are given back first.

Identities of allocation dicts are natural numbers.  A Python set is a list here;
no result below depends on the order of its elements.
-/

namespace TorchSpyre.HbmPool

open Lib

/-! ## The schedule -/

inductive NodeKind where
  | kernel
  /-- An `ExternKernelSchedulerNode`, with the buffer name of a `SpyreEmptyFallback`. -/
  | externKernel (emptyFallback : Option String)
  | nop
  deriving DecidableEq

/-- A scheduler node with the names in its `read_writes`.  A counted loop is a
fused node. -/
inductive SchedulerNode where
  | leaf (name : String) (kind : NodeKind) (reads writes : List String)
  | fused (name : String) (countedLoop : Bool) (reads writes : List String)
      (children : List SchedulerNode)

namespace SchedulerNode

def name : SchedulerNode → String
  | leaf name _ _ _ => name
  | fused name _ _ _ _ => name

def reads : SchedulerNode → List String
  | leaf _ _ reads _ => reads
  | fused _ _ reads _ _ => reads

def writes : SchedulerNode → List String
  | leaf _ _ _ writes => writes
  | fused _ _ _ writes _ => writes

def isCountedLoop : SchedulerNode → Bool
  | leaf _ _ _ _ => false
  | fused _ countedLoop _ _ _ => countedLoop

/-- Whether the node is one of `_kernel_arg_types`. -/
def takesKernelArgs : SchedulerNode → Bool
  | leaf _ .kernel _ _ => false
  | leaf _ (.externKernel _) _ _ => true
  | leaf _ .nop _ _ => true
  | fused _ _ _ _ _ => false

def emptyFallback? : SchedulerNode → Option String
  | leaf _ (.externKernel emptyFallback) _ _ => emptyFallback
  | _ => none

def getNodes : SchedulerNode → List SchedulerNode
  | leaf name kind reads writes => [leaf name kind reads writes]
  | fused _ _ _ _ children => children

mutual

def flatten : SchedulerNode → List SchedulerNode
  | leaf name kind reads writes => [leaf name kind reads writes]
  | fused _ _ _ _ children => iterAllNodes children

def iterAllNodes : List SchedulerNode → List SchedulerNode
  | [] => []
  | node :: rest => node.flatten ++ iterAllNodes rest

end

/-- The steps of a bundle: its children, a bare counted loop being one step. -/
def liveRangeNodes (bundle : SchedulerNode) : List SchedulerNode :=
  if bundle.isCountedLoop then [bundle] else bundle.getNodes

end SchedulerNode

/-! ## Live ranges -/

/-- The dicts `start` and `end` of the scan. -/
structure Scan where
  start : String → Option ℕ
  stop : String → Option ℕ

section LiveRanges

variable (candidates : List String)

def Scan.write (node : SchedulerNode) (idx : ℕ) (scan : Scan) (name : String) : Scan :=
  if name ∈ candidates then
    { start := Function.update scan.start name (some idx)
      stop :=
        if node.isCountedLoop then
          Function.update scan.stop name (some (max ((scan.stop name).getD idx) idx))
        else scan.stop }
  else scan

def Scan.read (idx : ℕ) (scan : Scan) (name : String) : Scan :=
  if name ∈ candidates then { scan with stop := Function.update scan.stop name (some idx) }
  else scan

def Scan.node (scan : Scan) (step : SchedulerNode × ℕ) : Scan :=
  step.1.reads.foldl (Scan.read candidates step.2)
    (step.1.writes.foldl (Scan.write candidates step.1 step.2) scan)

def scanNodes (nodes : List SchedulerNode) : Scan :=
  nodes.zipIdx.foldl (Scan.node candidates) ⟨fun _ => none, fun _ => none⟩

structure LiveRange where
  name : String
  start : ℕ
  stop : ℕ
  deriving DecidableEq

/-- The ranges before alias groups are merged. -/
def ownRanges (nodes : List SchedulerNode) : List LiveRange :=
  let scan := scanNodes candidates nodes
  candidates.filterMap fun name =>
    (scan.start name).map fun start =>
      { name := name, start := start, stop := (scan.stop name).getD (nodes.length + 1) }

end LiveRanges

section Groups

variable (allocIdOf : String → Option ℕ)

def widen (range : Option (ℕ × ℕ)) (other : LiveRange) : ℕ × ℕ :=
  let (start, stop) := range.getD (other.start, other.stop)
  (min start other.start, max stop other.stop)

/-- `group_range.get(alloc_id)` -/
def groupRange (ranges : List LiveRange) (allocId : ℕ) : Option (ℕ × ℕ) :=
  ranges.foldl
    (fun range other => if allocIdOf other.name = some allocId then some (widen range other)
      else range)
    none

def mergeRange (ranges : List LiveRange) (range : LiveRange) : LiveRange :=
  match (allocIdOf range.name).bind (groupRange allocIdOf ranges) with
  | none => range
  | some (start, stop) => { range with start := start, stop := stop }

def computeLiveRanges (nodes : List SchedulerNode) (candidates : List String) : List LiveRange :=
  let ranges := ownRanges candidates nodes
  ranges.map (mergeRange allocIdOf ranges)

/-- The order of `_alloc_sort_key`. -/
def LiveRange.LE (first second : LiveRange) : Prop :=
  first.start < second.start ∨ (first.start = second.start ∧
    (first.stop < second.stop ∨ (first.stop = second.stop ∧ first.name ≤ second.name)))

instance : DecidableRel LiveRange.LE := fun first second =>
  inferInstanceAs (Decidable (_ ∨ (_ ∧ (_ ∨ (_ ∧ _)))))

/-- Names sharing one allocation, with the range of the first of them. -/
structure AllocGroup where
  rep : LiveRange
  members : List String
  deriving DecidableEq

def addToGroups (groups : List AllocGroup) (range : LiveRange) : List AllocGroup :=
  if (allocIdOf range.name).isSome ∧
      ∃ group ∈ groups, allocIdOf group.rep.name = allocIdOf range.name then
    groups.map fun group =>
      if allocIdOf group.rep.name = allocIdOf range.name then
        { group with members := group.members ++ [range.name] }
      else group
  else groups ++ [⟨range, [range.name]⟩]

def allocGroups (nodes : List SchedulerNode) (candidates : List String) : List AllocGroup :=
  ((computeLiveRanges allocIdOf nodes candidates).insertionSort LiveRange.LE).foldl
    (addToGroups allocIdOf) []

end Groups

/-! ## The allocation sweep -/

def segmentBytes : ℕ := 0x400000000

def maxPoolSizeBytes : ℕ := segmentBytes - 2 * 1024 ^ 3

def intermediatesSegment : ℤ := 0x0

def allocationAlignmentBytes : ℤ := 128

/-- A group with the block it was given. -/
structure Assignment where
  group : AllocGroup
  block : Extent
  deriving DecidableEq

structure Sweep where
  allocator : Allocator
  pendingFrees : List (ℕ × Extent)
  assigned : List Assignment
  overflowed : ℕ

/-- Give back the blocks whose live range ended before a start step. -/
def freeEnded (start : ℕ) (allocator : Allocator) :
    List (ℕ × Extent) → Allocator × List (ℕ × Extent)
  | [] => (allocator, [])
  | (stop, block) :: rest =>
      if stop < start then freeEnded start (allocator.release block) rest
      else
        let (freed, stillLive) := freeEnded start allocator rest
        (freed, (stop, block) :: stillLive)

section Bundle

variable (deviceSize : String → ℕ)

def computeSizeBytes (name : String) : ℤ := roundUp allocationAlignmentBytes (deviceSize name)

def Sweep.step (sweep : Sweep) (group : AllocGroup) : Sweep :=
  let (freed, stillLive) := freeEnded group.rep.start sweep.allocator sweep.pendingFrees
  let size := computeSizeBytes deviceSize group.rep.name
  match freed.allocate size with
  | (none, allocator) =>
      { sweep with
        allocator := allocator
        pendingFrees := stillLive
        overflowed := sweep.overflowed + 1 }
  | (some offset, allocator) =>
      { sweep with
        allocator := allocator
        pendingFrees := stillLive ++ [(group.rep.stop, ⟨offset, size⟩)]
        assigned := sweep.assigned ++ [⟨group, ⟨offset, size⟩⟩] }

def sweepGroups (groups : List AllocGroup) : Sweep :=
  groups.foldl (Sweep.step deviceSize) ⟨.init maxPoolSizeBytes, [], [], 0⟩

end Bundle

/-! ## Pool candidates -/

structure FixedTiledLayout where
  allocation : ℕ
  hasLx : Bool
  deriving DecidableEq

/-- What `V.graph.get_buffer` returns for a known name. -/
inductive GraphBuffer where
  | symbol
  | buffer (layout : Option FixedTiledLayout) (isEmptyFallback : Bool)
  deriving DecidableEq

structure Graph where
  inputs : List String
  outputs : List String
  getBuffer : String → Option GraphBuffer
  nodes : List SchedulerNode

namespace Graph

open SchedulerNode

variable (graph : Graph)

def ioNames : List String := graph.inputs ++ graph.outputs

def layoutOf (name : String) : Option FixedTiledLayout :=
  match graph.getBuffer name with
  | some (.buffer layout _) => layout
  | _ => none

def allocId (name : String) : Option ℕ := (graph.layoutOf name).map FixedTiledLayout.allocation

def ioAllocIds : List ℕ := graph.ioNames.filterMap graph.allocId

def fallbackRead : List String :=
  ((iterAllNodes graph.nodes).filter takesKernelArgs).flatMap reads

def fallbackReadAllocIds : List ℕ := graph.fallbackRead.filterMap graph.allocId

def isIntermediate (name : String) : Bool :=
  match graph.layoutOf name with
  | none => false
  | some layout =>
      !layout.hasLx && layout.allocation ∉ graph.ioAllocIds &&
        layout.allocation ∉ graph.fallbackReadAllocIds

/-- The writes of a bundle in the order of the walk: those of its kernel nodes, then
the buffers of its `SpyreEmptyFallback` nodes. -/
def bundleWrites (bundle : SchedulerNode) : List String :=
  (((iterAllNodes [bundle]).filter fun node => !node.takesKernelArgs).flatMap writes ++
    (iterAllNodes [bundle]).filterMap emptyFallback?).filter (· ∉ graph.outputs)

def bundleReads (bundle : SchedulerNode) : List String :=
  (((iterAllNodes [bundle]).filter fun node => !node.takesKernelArgs).flatMap reads).filter
    (· ∉ graph.inputs)

/-- Pairs of a written buffer and the bundle that writes it, in order. -/
def writeEvents : List (String × String) :=
  graph.nodes.flatMap fun bundle => (graph.bundleWrites bundle).map fun name => (name, bundle.name)

def readEvents : List (String × String) :=
  graph.nodes.flatMap fun bundle => (graph.bundleReads bundle).map fun name => (name, bundle.name)

def bundlesOf (events : List (String × String)) (concerns : String → Bool) : List String :=
  ((events.filter fun event => concerns event.1).map Prod.snd).dedup

/-- `buffer_writer_bundle.get(name)`: the last bundle writing the name. -/
def writerBundle (name : String) : Option String :=
  ((graph.writeEvents.filter fun event => event.1 = name).getLast?).map Prod.snd

def writerBundles (name : String) : List String :=
  bundlesOf graph.writeEvents fun other => other = name

def readerBundles (name : String) : List String :=
  bundlesOf graph.readEvents fun other => other = name

def allocIdBundles (allocId : ℕ) : List String :=
  bundlesOf graph.writeEvents fun other => graph.allocId other = some allocId

def allocIdReaderBundles (allocId : ℕ) : List String :=
  bundlesOf graph.readEvents fun other => graph.allocId other = some allocId

def isCrossBundle (name : String) : Bool :=
  if (graph.writerBundles name).length > 1 then true
  else
    let writer := (graph.writerBundle name).toList
    match graph.allocId name with
    | none => (graph.readerBundles name).any (· ∉ writer)
    | some allocId =>
        if (graph.allocIdBundles allocId).length > 1 then true
        else
          let aliasWriters :=
            if graph.allocIdBundles allocId = [] then writer else graph.allocIdBundles allocId
          if (graph.allocIdReaderBundles allocId).any (· ∉ aliasWriters) then true
          else (graph.readerBundles name).any (· ∉ writer)

def allCandidates : List String :=
  ((graph.writeEvents.map Prod.fst).dedup).filter fun name =>
    name ∈ graph.readEvents.map Prod.fst && name ∉ graph.ioNames && name ∉ graph.fallbackRead &&
      graph.isIntermediate name && !graph.isCrossBundle name

def bundleCandidates (bundle : SchedulerNode) : List String :=
  graph.allCandidates.filter fun name => graph.writerBundle name = some bundle.name

end Graph

/-! ## The pass -/

/-- What the pass records for a bundle with candidates. -/
structure BundlePlan where
  bundle : SchedulerNode
  assigned : List Assignment
  poolExtent : ℤ
  peak : ℤ
  overflowed : ℕ

def planBundle (graph : Graph) (deviceSize : String → ℕ) (bundle : SchedulerNode) : BundlePlan :=
  let sweep := sweepGroups deviceSize
    (allocGroups graph.allocId bundle.liveRangeNodes (graph.bundleCandidates bundle))
  { bundle := bundle
    assigned := sweep.assigned
    poolExtent := sweep.allocator.poolEnd
    peak := sweep.allocator.peakUsage
    overflowed := sweep.overflowed }

structure Config where
  hbmPoolPlanning : Bool
  bundleSymbolicArgs : Bool

/-- `layout.allocation["hbm_pool"]` of an assignment. -/
def poolAddress (config : Config) (assignment : Assignment) : ℤ :=
  if config.bundleSymbolicArgs then assignment.block.offset
  else intermediatesSegment + assignment.block.offset

/-- The bundles given a pool, in order; `hbm_pool_sizes` and the addresses are read off
their plans. -/
def hbmPoolPlanning (config : Config) (graph : Graph) (deviceSize : String → ℕ) :
    List BundlePlan :=
  if config.hbmPoolPlanning then
    (graph.nodes.filter fun bundle => graph.bundleCandidates bundle ≠ []).map
      (planBundle graph deviceSize)
  else []

def hbmPoolSizes (plans : List BundlePlan) : List (String × ℤ) :=
  plans.map fun plan => (plan.bundle.name, plan.poolExtent)

/-- Pooled `SpyreEmptyFallback` buffers, kept out of code generation. -/
def removedBuffers (graph : Graph) (plans : List BundlePlan) : List String :=
  (plans.flatMap fun plan => plan.assigned.flatMap fun assignment =>
    assignment.group.members).filter fun name =>
      match graph.getBuffer name with
      | some (.buffer _ isEmptyFallback) => isEmptyFallback
      | _ => false

end TorchSpyre.HbmPool
