import Mathlib
import TorchSpyre.CoarseTiling.Runs
import TorchSpyre.CoOptimizer.Problem
import TorchSpyre.Lib.Backtracking
import TorchSpyre.Lib.Dict
import TorchSpyre.Scratchpad.PlanSolver

/-!
# The exhaustive search over core divisions

`ExhaustiveSearchSolver` tries every combination of candidate divisions, places the per-core
sizes each one gives with an inner solver, and keeps the first with the fewest bytes left
outside the scratchpad.
-/

namespace TorchSpyre.Scratchpad.ExhaustiveSearch

open Lib
open CoarseTiling (TileSpec)

/-- Split factors by iteration symbol, and the symbols that split a reduction axis. -/
structure CoreDivision where
  splits : Dict String ℕ
  reductionSyms : List String := []
  tiling : TileSpec := .untiled
  deriving DecidableEq

def CoreDivision.outputPartition (division : CoreDivision) : ℕ :=
  ((division.splits.entries.filter fun entry => entry.1 ∉ division.reductionSyms).map
    Prod.snd).prod

structure CoreDivisionBuffer extends LifetimeBoundBuffer where
  coreDivisions : List CoreDivision := []
  parents : List String := []
  cdParentMatches : Dict String (List (ℕ × ℕ)) := .empty
  chosenDivision : Option ℕ := none
  spillReason : Option String := none
  deriving DecidableEq

def ceilDiv (a b : ℤ) : ℤ := -(-a / b)

def CoreDivisionBuffer.perCoreSize (buffer : CoreDivisionBuffer) (division : ℕ) :
    Except String ℕ :=
  match buffer.coreDivisions[division]? with
  | none => .error "list index out of range"
  | some cd =>
      let parts := cd.outputPartition * CoOptimizer.outputTileCount cd.tiling
      if parts = 0 then .error "integer division or modulo by zero"
      else .ok (ceilDiv buffer.size parts).toNat

/-- What is read back of a buffer the inner solver has planned. -/
structure Allocation where
  name : String
  address : Option ℤ
  spillReason : Option String
  deriving DecidableEq

/-- Building an inner solver on buffers, a size and an alignment, and planning its layout. -/
abbrev InnerSolver := List LifetimeBoundBuffer → ℤ → ℤ → Except String (List Allocation)

/-- `MemoryPlanSolver.__init__`'s default. -/
def defaultAlignment : ℤ := 128

/-- The division index of each buffer, by name. -/
abbrev Chosen := String → ℕ

structure ExhaustiveSearchSolver where
  buffers : List CoreDivisionBuffer
  limit : ℤ
  alignment : ℤ := defaultAlignment

namespace ExhaustiveSearchSolver

variable (solver : ExhaustiveSearchSolver)

/-- The last buffer of a name, as a dict built in buffer order has it. -/
def bufByName (name : String) : Option CoreDivisionBuffer :=
  solver.buffers.reverse.find? fun buffer => buffer.name = name

/-- The entries of `children_by_parent` for a buffer's name. -/
def childrenByParent (parentName : String) : List (CoreDivisionBuffer × List (ℕ × ℕ)) :=
  solver.buffers.flatMap fun child =>
    (child.parents.filter fun name => name = parentName).map fun name =>
      (child, (child.cdParentMatches.lookup name).getD [])

def bufTotalBytes : Dict String ℕ :=
  Dict.empty.update (solver.buffers.map fun buffer => (buffer.name, buffer.size))

def variableBuffers : List CoreDivisionBuffer :=
  solver.buffers.filter fun buffer => 1 < buffer.coreDivisions.length

/-- A producer spills unless every consumer matches it under the chosen divisions. -/
def residencyReason (chosen : Chosen) (buffer : CoreDivisionBuffer) (ci : ℕ) : Option String :=
  match buffer.residencyReason with
  | some reason => some reason
  | none =>
      if (solver.childrenByParent buffer.name).any fun entry =>
          !entry.2.any fun pair => pair.1 = ci ∧ pair.2 = chosen entry.1.name then
        some "core div mismatch"
      else none

/-- One declared parent: kept when it is not in the list, or is at least as large per core. -/
def validInplaceParent (chosen : Chosen) (perCore : ℕ) (parentName : String) :
    Except String Bool :=
  match solver.bufByName parentName with
  | none => .ok true
  | some parent => do
      let parentPerCore ← parent.perCoreSize (chosen parentName)
      .ok (decide (perCore ≤ parentPerCore))

def validInplaceParents (chosen : Chosen) (buffer : CoreDivisionBuffer) (ci : ℕ) :
    Except String (List String) := do
  let perCore ← buffer.perCoreSize ci
  let valid ← buffer.inPlaceParents.mapM fun parentName => do
    let keeps ← solver.validInplaceParent chosen perCore parentName
    .ok (if keeps then [parentName] else [])
  .ok valid.flatten

/-- The buffer as the inner solver gets it: the per-core size, and none of the fields of the
core divisions. -/
def tempBuf (chosen : Chosen) (buffer : CoreDivisionBuffer) : Except String LifetimeBoundBuffer := do
  let size ← buffer.perCoreSize (chosen buffer.name)
  let inPlaceParents ← solver.validInplaceParents chosen buffer (chosen buffer.name)
  .ok
    { name := buffer.name
      size := size
      uses := buffer.uses
      firstUseIsRead := buffer.firstUseIsRead
      inPlaceParents := inPlaceParents
      residencyReason := solver.residencyReason chosen buffer (chosen buffer.name)
      lifetimeStartOverride := buffer.lifetimeStartOverride
      lifetimeEndOverride := buffer.lifetimeEndOverride
      usesNonempty := buffer.usesNonempty
      usesIncreasing := buffer.usesIncreasing
      startOverride_le := buffer.startOverride_le
      endOverride_ge := buffer.endOverride_ge }

def makeTempBufs (chosen : Chosen) : Except String (List LifetimeBoundBuffer) :=
  solver.buffers.mapM (solver.tempBuf chosen)

variable (inner : InnerSolver)

/-- Both runs of the inner solver, of a leaf and the final one, leave its alignment at the
default. -/
def runInner (chosen : Chosen) : Except String (List Allocation) := do
  let tempBufs ← solver.makeTempBufs chosen
  inner tempBufs solver.limit defaultAlignment

def scoreLeaf (chosen : Chosen) : Except String ℕ := do
  let allocation ← solver.runInner inner chosen
  let pinned := (allocation.filter fun a => a.address.isSome).map Allocation.name
  .ok ((solver.bufTotalBytes.entries.filter fun entry => entry.1 ∉ pinned).map Prod.snd).sum

def recurse : List CoreDivisionBuffer → Search String ℕ ℕ → Except String (Search String ℕ ℕ) :=
  backtrack (fun buffer => buffer.name) (fun buffer => List.range buffer.coreDivisions.length)
    (solver.scoreLeaf inner)

/-- A buffer with its division, address and spill reason written. -/
def commit (chosen : Chosen) (allocation : List Allocation) (buffer : CoreDivisionBuffer) :
    CoreDivisionBuffer :=
  let found := allocation.reverse.find? fun a => a.name = buffer.name
  { buffer with
    chosenDivision := some (chosen buffer.name)
    address := found.bind Allocation.address
    spillReason := found.bind Allocation.spillReason }

def startingSearch : Search String ℕ ℕ :=
  { chosen := fun _ => 0, best := { total := none, chosen := fun _ => 0 } }

def planLayoutAndCoreDivisions : Except String (List CoreDivisionBuffer) :=
  if solver.buffers.any fun buffer => buffer.coreDivisions.any fun cd => !cd.tiling.isUntiled then
    .error "Exhaustive search requires untiled candidates"
  else do
    let searched ← solver.recurse inner solver.variableBuffers startingSearch
    let finalAlloc ← solver.runInner inner searched.best.chosen
    .ok (solver.buffers.map (commit searched.best.chosen finalAlloc))

end ExhaustiveSearchSolver

end TorchSpyre.Scratchpad.ExhaustiveSearch
