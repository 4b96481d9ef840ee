import Mathlib
import TorchSpyre.CoarseTiling.Runs
import TorchSpyre.Scratchpad.PermLayout.Solver

/-!
# The co-optimizer's buffers and objective

What `SaCoOptimizingSolver` fixes before it anneals: the buffers, where their divisions come
from, the relation on each producer-consumer edge; and what it derives from a division vector:
per-core sizes, eligibility and the score.
-/

namespace TorchSpyre.CoOptimizer

open CoarseTiling (TileAxis TileSpec TileReads TileMisread Positions)
open Scratchpad (LifetimeBoundBuffer)
open Scratchpad.PermLayout (Solver Layout)

/-- The draws still to come from the generator; each is any number. -/
abbrev Rng := ℕ → ℕ

namespace Rng

def rest (rng : Rng) : Rng := fun later => rng (later + 1)

def randrange (rng : Rng) (bound : ℕ) : ℕ × Rng := (rng 0 % bound, rng.rest)

def choice {Item : Type} (rng : Rng) (items : List Item) : Option Item × Rng :=
  (items[rng 0 % items.length]?, rng.rest)

/-- `random() < threshold`: either outcome. -/
def coin (rng : Rng) : Bool × Rng := (rng 0 % 2 = 0, rng.rest)

end Rng

/-- The loop tiles of an operation's own output, over output axes only. -/
def outputTileCount (spec : TileSpec) : ℕ :=
  ((spec.axes.filter fun axis => !axis.isReduction).map TileAxis.count).prod

/-- One operation's work division: the choice, and what the engine reads of it. -/
structure DivisionConfig (Choice : Type) where
  choice : Choice
  outputPartition : ℕ
  tiling : TileSpec
  divisor_pos : 0 < outputPartition * outputTileCount tiling

/-- `_DivisionSource`: where a buffer's candidate divisions come from. `canTile` holds of a
generated source with a tiling space. -/
structure DivisionSource (Choice : Type) where
  seed : DivisionConfig Choice
  canMove : Bool
  canSplit : Bool
  canTile : Bool
  neighbours : DivisionConfig Choice → List (DivisionConfig Choice)
  retiled : DivisionConfig Choice → TileSpec → Option (DivisionConfig Choice)
  anchor : DivisionConfig Choice → Rng → Option (DivisionConfig Choice) × Rng

/-- `_EdgeRelation`: which divisions let a consumer read a producer from the scratchpad, and
the division on the other end of the edge. -/
structure EdgeRelation (Choice : Type) where
  compatible : DivisionConfig Choice → DivisionConfig Choice → Bool
  childFor : DivisionConfig Choice → Option (DivisionConfig Choice)
  parentFor : DivisionConfig Choice → Option (DivisionConfig Choice)

inductive BufferType where
  | input
  | intermediate
  | output
  deriving DecidableEq, Repr

/-- A buffer to plan. Its size is negative where it could not be sized; the size in `lifetime`
is the packer's and is set from the division. -/
structure Buffer (Choice Index : Type) where
  lifetime : LifetimeBoundBuffer
  size : ℤ
  parents : List String
  relation : String → EdgeRelation Choice
  source : DivisionSource Choice
  boundary : BufferType
  opPosition : Option ℕ
  tileReads : List (String × TileReads Index)

namespace Buffer

variable {Choice Index : Type}

def name (buf : Buffer Choice Index) : String := buf.lifetime.name

def residencyReason (buf : Buffer Choice Index) : Option String := buf.lifetime.residencyReason

def readCount (buf : Buffer Choice Index) : ℤ :=
  max 0 (buf.lifetime.uses.length - if buf.lifetime.firstUseIsRead then 0 else 1)

/-- The traffic a spill adds over residency. -/
def spillCost (buf : Buffer Choice Index) : ℤ :=
  let readsServed := buf.readCount - if buf.lifetime.firstUseIsRead then 1 else 0
  (readsServed + if buf.boundary = .intermediate then 1 else 0) * max 0 buf.size

/-- What the runs look at. -/
def positioned (buf : Buffer Choice Index) : CoarseTiling.CoreDivisionBuffer Index :=
  ⟨buf.name, buf.opPosition, buf.tileReads⟩

end Buffer

/-- The division vector `W`, by buffer index. -/
abbrev Divisions (Choice : Type) := ℕ → DivisionConfig Choice

structure Problem (Choice Index : Type) where
  bufs : List (Buffer Choice Index)
  positions : Positions Index
  built : CoarseTiling.buildOperationPositions (bufs.map Buffer.positioned) = .ok positions
  tileMisread : TileMisread Index
  limit : ℤ
  /-- The compiled cost expression, over the divisions and the resident names. -/
  scoreFn : Option (Divisions Choice → (String → Bool) → ℤ)

namespace Problem

variable {Choice Index : Type} (problem : Problem Choice Index)

def count : ℕ := problem.bufs.length

def nameToIdx (name : String) : Option ℕ :=
  CoarseTiling.nameToIdx (problem.bufs.map Buffer.positioned) name

/-- The parents that are buffers of the problem. -/
def parentsIdx (idx : ℕ) : List ℕ :=
  ((problem.bufs[idx]?.map fun buf => buf.parents.filterMap problem.nameToIdx).getD []).dedup

/-- The children of a buffer, each with the relation on the edge. -/
def children (idx : ℕ) : List (ℕ × EdgeRelation Choice) :=
  problem.bufs.zipIdx.flatMap fun child =>
    child.1.parents.filterMap fun parent =>
      if problem.nameToIdx parent = some idx then some (child.2, child.1.relation parent) else none

def relation? (parent child : ℕ) : Option (EdgeRelation Choice) :=
  ((problem.children parent).reverse.find? fun edge => edge.1 = child).map Prod.snd

def childrenIdx (idx : ℕ) : List ℕ :=
  ((problem.children idx).map Prod.fst).insertionSort (· ≤ ·)

def tilingsArePossible : Bool := problem.bufs.any fun buf => buf.source.canTile

def positionOf (idx : ℕ) : Option ℕ := problem.bufs[idx]?.bind Buffer.opPosition

def bufferAt (position : ℕ) : Option ℕ := problem.positions.bufferAt.lookup position

/-! ## What a division vector decides -/

/-- `ceil_div(size, output_partition * output_tile_count)`, clamped. -/
def perCoreSize (idx : ℕ) (config : DivisionConfig Choice) : ℤ :=
  let size := (problem.bufs[idx]?.map Buffer.size).getD 0
  max 0 (-(-size / (config.outputPartition * outputTileCount config.tiling : ℕ)))

variable (chosen : Divisions Choice)

def readAcrossATilingBoundary (idx : ℕ) : Bool :=
  if !problem.tilingsArePossible || !(chosen idx).tiling.isUntiled then false
  else (problem.children idx).any fun edge => !(chosen edge.1).tiling.isUntiled

/-- Whether a buffer may be resident under the divisions. -/
def eligible (idx : ℕ) : Bool :=
  ((problem.bufs[idx]?.bind Buffer.residencyReason).isNone &&
    !(problem.limit < problem.perCoreSize idx (chosen idx)) &&
    !problem.readAcrossATilingBoundary chosen idx) &&
    (problem.children idx).all fun edge => edge.2.compatible (chosen idx) (chosen edge.1)

def runs (override : ℕ → Option TileSpec) : List (ℕ × ℕ) :=
  CoarseTiling.runs problem.tileMisread problem.positions (fun idx => (chosen idx).tiling) override

def runBounds (override : ℕ → Option TileSpec) (position : ℕ) : Option (ℕ × ℕ) :=
  CoarseTiling.runBounds problem.tileMisread problem.positions (fun idx => (chosen idx).tiling)
    override position

/-! ## The score -/

def usFixedPointScale : ℚ := 1000000

/-- Round half up to the fixed-point scale. -/
def toFixedUs (us : ℚ) : ℤ := ⌊us * usFixedPointScale + 1 / 2⌋

/-- The source's 204.8 GB/s. -/
def hbmBytesPerUs : ℚ := 204800

/-- The bytes that the companion of an escaping buffer of a tiled run moves. -/
def companionCharge (addresses : ℕ → Option ℤ) (run : ℕ × ℕ) (idx : ℕ) : ℤ :=
  match problem.bufs[idx]? with
  | none => 0
  | some buf =>
      let outside : ℤ := (problem.children idx).countP fun edge =>
        !((problem.positionOf edge.1).any fun position => run.1 ≤ position ∧ position ≤ run.2)
      let isGraphOutput := buf.boundary = .output
      if outside = 0 ∧ ¬ isGraphOutput then 0
      else
        let size := max 0 buf.size
        let resident := (addresses idx).isSome
        let copyRead := if resident then 0 else size
        let copyWrite := if isGraphOutput then copyRead else size
        let outsideReads := if resident then size * outside else 0
        copyRead + copyWrite + outsideReads

def companionBytes (addresses : ℕ → Option ℤ) : ℤ :=
  if problem.tilingsArePossible then
    (((problem.runs chosen fun _ => none).filter fun run =>
        !(CoarseTiling.tilingAt problem.positions (fun idx => (chosen idx).tiling) (fun _ => none)
          run.1).isUntiled).flatMap fun run =>
      (List.range' run.1 (run.2 + 1 - run.1)).filterMap fun position =>
        (problem.bufferAt position).map (problem.companionCharge addresses run)).sum
  else 0

/-- The objective, from the divisions and the addresses. -/
def scoreOf (addresses : ℕ → Option ℤ) : ℤ :=
  let companions := toFixedUs (problem.companionBytes chosen addresses / hbmBytesPerUs)
  match problem.scoreFn with
  | some scoreFn =>
      let resident := fun name => problem.bufs.zipIdx.any fun entry =>
        entry.1.name = name && (addresses entry.2).isSome
      scoreFn chosen resident + companions
  | none =>
      let traffic := ((problem.bufs.zipIdx.filter fun entry => (addresses entry.2).isNone).map
        fun entry => entry.1.spillCost).sum
      toFixedUs (traffic / hbmBytesPerUs) + companions

end Problem

end TorchSpyre.CoOptimizer
