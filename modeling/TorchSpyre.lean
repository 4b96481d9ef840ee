import TorchSpyre.Lib.Extent
import TorchSpyre.HbmPool.Allocator
import TorchSpyre.Scratchpad.Buffer
import TorchSpyre.Scratchpad.PermLayout.Static
import TorchSpyre.Lib.Order
import TorchSpyre.Scratchpad.PermLayout.Static
import TorchSpyre.Scratchpad.PermLayout.Placement
import TorchSpyre.Scratchpad.PermLayout.Recompute
import TorchSpyre.Scratchpad.PermLayout.Solver
import TorchSpyre.Scratchpad.PermLayout.Safety
import TorchSpyre.Lib.Binary64
import TorchSpyre.Scratchpad.Greedy.Solver
import TorchSpyre.Scratchpad.Greedy.FreeBlock
import TorchSpyre.Scratchpad.Greedy.Invariant
import TorchSpyre.Scratchpad.Greedy.Safety
import TorchSpyre.Lib.TopologicalSort
import TorchSpyre.Scratchpad.FirstFit.Solver
import TorchSpyre.Scratchpad.FirstFit.Gaps
import TorchSpyre.Scratchpad.FirstFit.Safety
import TorchSpyre.HbmPool.Planning
import TorchSpyre.HbmPool.LiveRanges
import TorchSpyre.HbmPool.Aliasing
import TorchSpyre.Views.Coordinates
import TorchSpyre.Views.Decoding
import TorchSpyre.Lib.Outcome
import TorchSpyre.Lib.Slice
import TorchSpyre.Lib.Symbolic
import TorchSpyre.Ownership.Mapping
import TorchSpyre.Ownership.LoopRegions
import TorchSpyre.Ownership.SliceOwnership
import TorchSpyre.Ownership.Soundness
import TorchSpyre.Lib.MixedRadix
import TorchSpyre.Ownership.Alignment
import TorchSpyre.HbmPool.Privacy
import TorchSpyre.Lib.LoopNest
import TorchSpyre.Lib.Walk
import TorchSpyre.Scratchpad.Lifetimes
import TorchSpyre.Scratchpad.LifetimeSafety
import TorchSpyre.TensorLayout.Layout
import TorchSpyre.TensorLayout.Reserved
import TorchSpyre.TensorLayout.ReservedRuns
import TorchSpyre.Lib.DepthFirst
import TorchSpyre.Lib.LoopRuns
import TorchSpyre.Lib.RoseTree
import TorchSpyre.Scheduling.LoopGroups
import TorchSpyre.Scheduling.Regrouping
import TorchSpyre.Scheduling.LoopForest
import TorchSpyre.Scheduling.UnitRuns
import TorchSpyre.Scheduling.ReportedLoops
import TorchSpyre.Scheduling.KeepsProgram
import TorchSpyre.LoopNode.Node
import TorchSpyre.LoopNode.Nesting
import TorchSpyre.LoopNode.Peeling
import TorchSpyre.Lib.Box
import TorchSpyre.Subrange.Transfer
import TorchSpyre.Subrange.Partition
import TorchSpyre.Subrange.Exact
import TorchSpyre.Subrange.Certificate
import TorchSpyre.TensorLayout.Arrangement
import TorchSpyre.TensorLayout.Tiles
import TorchSpyre.TensorLayout.TileWalk
import TorchSpyre.TensorLayout.Copies
import TorchSpyre.TensorLayout.Assignment
import TorchSpyre.TensorLayout.RoundTrip
import TorchSpyre.Subrange.LocalRead
import TorchSpyre.TensorLayout.ResizeContents
import TorchSpyre.DeadCode.Liveness
import TorchSpyre.DeadCode.Elimination
import TorchSpyre.Lib.ForestRun
import TorchSpyre.SlidingWindow.Plan
import TorchSpyre.DedupConstants.Pass
import TorchSpyre.DedupConstants.Merging
import TorchSpyre.DedupConstants.Meaning
import TorchSpyre.CoarseTiling.Groups
import TorchSpyre.CoarseTiling.SolverRuns
import TorchSpyre.ContextSwitch.Brackets
import TorchSpyre.ContextSwitch.Protection
import TorchSpyre.Lib.KeepBest
import TorchSpyre.Restickify.Costs
import TorchSpyre.Restickify.Reorder
import TorchSpyre.Restickify.Beam
import TorchSpyre.Restickify.Exactness
import TorchSpyre.CoOptimizer.Problem
import TorchSpyre.Lib.Triple
import TorchSpyre.CoOptimizer.Moves
import TorchSpyre.CoOptimizer.Anneal
import TorchSpyre.CoOptimizer.Coherence
import TorchSpyre.CoOptimizer.Assignment
import TorchSpyre.Lib.Dict
import TorchSpyre.SplitPlanning.Distribution
import TorchSpyre.SplitPlanning.Budget
import TorchSpyre.SplitPlanning.Span
import TorchSpyre.SplitPlanning.MustSplit
import TorchSpyre.Scratchpad.Greedy.Atomicity
import TorchSpyre.Scratchpad.Greedy.Barring
import TorchSpyre.Lib.Positional
import TorchSpyre.Ownership.AxisFactors
import TorchSpyre.Ownership.OperationMapping
import TorchSpyre.Ownership.CoreDigits
import TorchSpyre.Ownership.OperationOwners
import TorchSpyre.Ownership.FusedSplit
import TorchSpyre.Ownership.Rectangles
import TorchSpyre.Ownership.CanonicalOwner
import TorchSpyre.Ownership.FusedExact
import TorchSpyre.Lib.NestedSteps
import TorchSpyre.OverlappingWindows.Domains
import TorchSpyre.OverlappingWindows.Injective
import TorchSpyre.PerCoreViews.Prep
import TorchSpyre.Lib.Cartesian
import TorchSpyre.PerCoreViews.Forward
import TorchSpyre.PerCoreViews.Inverse
import TorchSpyre.PerCoreViews.Placements
import TorchSpyre.PerCoreViews.Complete
import TorchSpyre.Lib.AdjacentSwaps
import TorchSpyre.Scratchpad.Annealing.SwapStep
import TorchSpyre.Scratchpad.Annealing.Position
import TorchSpyre.Scratchpad.Annealing.Reinsertion
import TorchSpyre.Lib.Backtracking
import TorchSpyre.Scratchpad.Annealing.Pruning
import TorchSpyre.Scratchpad.ExhaustiveSearch.Search
import TorchSpyre.Scratchpad.ExhaustiveSearch.Optimal
import TorchSpyre.Scratchpad.ExhaustiveSearch.Parameters
import TorchSpyre.CoOptimizer.Trimming
import TorchSpyre.Lib.Reconvergence
import TorchSpyre.Restickify.Shares
import TorchSpyre.Restickify.Admissible
import TorchSpyre.Restickify.Reconverging
import TorchSpyre.Bundle.Sdsc
import TorchSpyre.Bundle.Compile
import TorchSpyre.Bundle.Emit
import TorchSpyre.Bundle.Execution
import TorchSpyre.Bundle.Renaming
import TorchSpyre.Bundle.SameProgram
import TorchSpyre.Bundle.Correspondence
import TorchSpyre.Bundle.CacheAgrees
import TorchSpyre.Scratchpad.PermLayout.Checked
import TorchSpyre.Scratchpad.PermLayout.Headroom
import TorchSpyre.Scratchpad.PermLayout.NoOverflow
import TorchSpyre.Ownership.TransferEdges
import TorchSpyre.Lib.Sieve
import TorchSpyre.Scratchpad.CostExpr.InvScale
import TorchSpyre.Lib.Combinations
import TorchSpyre.CoarseTiling.TilingSpace
import TorchSpyre.CoarseTiling.Neighbours
import TorchSpyre.LoopNode.Holders
import TorchSpyre.LoopNode.OpsView
import TorchSpyre.CoarseTiling.TileIndex
import TorchSpyre.Ownership.TightRegions
import TorchSpyre.CoarseTiling.RescaleIndex
import TorchSpyre.TensorLayout.Shards
import TorchSpyre.CoarseTiling.TileLayout
import TorchSpyre.Lib.CaseExpr
import TorchSpyre.Lib.StridedLoops
import TorchSpyre.Scratchpad.CostExpr.Conjunctions
import TorchSpyre.Scratchpad.CostExpr.LogMin
import TorchSpyre.Scratchpad.CostExpr.MinPiecewise
import TorchSpyre.Scratchpad.CostExpr.ProductSymbols
import TorchSpyre.Scratchpad.CostExpr.ReciprocalConditions
import TorchSpyre.Scratchpad.CostExpr.RewritesKeep
import TorchSpyre.TensorLayout.IdentityCopy
import TorchSpyre.CoOptimizer.Judging
import TorchSpyre.CoOptimizer.Published
import TorchSpyre.Bundle.Addresses
import TorchSpyre.Scratchpad.Annealing.RotateStep
import TorchSpyre.Scratchpad.Annealing.Solve
import TorchSpyre.Lib.Footprint
import TorchSpyre.Runtime.Launch
import TorchSpyre.Runtime.PinnedAllocator
import TorchSpyre.Runtime.Streams
