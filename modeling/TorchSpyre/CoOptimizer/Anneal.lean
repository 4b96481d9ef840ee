import TorchSpyre.CoOptimizer.Moves

/-!
# Judged steps and the annealing loop

A step takes a snapshot, moves, and keeps the move or adopts the snapshot again. The
temperature only sets how likely a worse move is kept; both outcomes are possible at any
temperature.
-/

namespace TorchSpyre.CoOptimizer

open Scratchpad (LifetimeBoundBuffer)
open Scratchpad.PermLayout (Solver)
open Scratchpad.PermLayout.Solver (Call)

variable {Choice Index : Type} (problem : Problem Choice Index)

/-! ## Judging -/

/-- The Metropolis test draws only when the move is worse. -/
def metropolis (delta : ℤ) : Method Choice Bool :=
  if delta ≤ 0 then pure true else coin

/-- Update the best state seen. -/
def recordBest (candidate : ℤ) : Method Choice PUnit := do
  let engine ← get
  if candidate < engine.bestScore then
    let snap ← snapshot
    modify fun engine => { engine with bestScore := candidate, bestSnap := snap }
  else pure ⟨⟩

/-- The position to lift out; every weight is positive. -/
def chooseReinsertionSource : Method Choice ℕ := randrange problem.count

def sweepUpperBound (position : ℕ) (allocated : List Bool) : ℕ :=
  if allocated.getD position false then problem.count - 1
  else
    let last := (((List.range allocated.length).filter fun index =>
      allocated.getD index false).foldl max 0)
    min (problem.count - 1) (last + 1)

/-- Bubble the lifted buffer forward and rank the positions it passes by quality. -/
def probe (lifted : ℕ) : List ℕ → Method Choice (List (ℕ × ℚ))
  | [] => pure []
  | position :: rest => do
      let _ ← callPacker (.swap (position - 1 : ℕ))
      let engine ← get
      let later ← probe lifted rest
      if position = lifted then pure later
      else pure ((position, engine.packer.totalQuality) :: later)

/-- Try the positions in order; `none` when no one is accepted. -/
def tryPositions (cur : ℤ) : ℕ → List ℕ → Method Choice (Option ℤ)
  | _, [] => pure none
  | current, position :: rest => do
      let _ ← callPacker (.rotate current position)
      let candidate ← score problem
      let accepted ← metropolis (candidate - cur)
      if accepted then
        recordBest candidate
        pure (some candidate)
      else tryPositions cur position rest

/-- The best-first reinsertion; the score where a position was accepted. -/
def judgeReorder (cur : ℤ) : Method Choice (Option ℤ) := do
  let engine ← get
  let allocated := (List.range problem.count).map fun position =>
    engine.packer.layout.allocated (engine.packer.permutation.getD position 0)
  let lifted ← chooseReinsertionSource problem
  let upper := sweepUpperBound problem lifted allocated
  let snap ← snapshot
  let first ← if lifted = 0 then pure [] else do
    let _ ← callPacker (.rotate lifted 0)
    let engine ← get
    pure [(0, engine.packer.totalQuality)]
  let later ← probe lifted (List.range' 1 upper)
  let ranked := (first ++ later).insertionSort fun left right => right.2 ≤ left.2
  let outcome ← tryPositions problem cur upper (ranked.map Prod.fst)
  if outcome = none then adopt snap
  pure outcome

/-- A structural move, judged as a whole. -/
def judgeMove (move : Move) (cur : ℤ) : Method Choice (Option ℤ) := do
  let snap ← snapshot
  executeMove problem move
  let candidate ← score problem
  let accepted ← metropolis (candidate - cur)
  if accepted then
    recordBest candidate
    pure (some candidate)
  else do
    adopt snap
    pure none

/-- The score of an accepted step; `none` for a rejected one. -/
def judge (move : Move) (cur : ℤ) : Method Choice (Option ℤ) :=
  if move = .reorder then judgeReorder problem cur else judgeMove problem move cur

/-- The objective after the step. -/
def step (move : Move) (cur : ℤ) : Method Choice ℤ := do
  let outcome ← judge problem move cur
  pure (outcome.getD cur)

/-! ## The loop -/

/-- A calibration move is always taken back. -/
def calibrationMove : Method Choice PUnit := do
  let snap ← snapshot
  let move ← chooseMove problem
  executeMove problem move
  adopt snap

def calibrationSteps : ℕ → Method Choice PUnit
  | 0 => pure ⟨⟩
  | left + 1 => do
      calibrationMove problem
      calibrationSteps left

/-- The steps of the cool, until no move applies. -/
def coolingSteps : ℕ → ℤ → Method Choice PUnit
  | 0, _ => pure ⟨⟩
  | left + 1, cur => do
      let move ← chooseMove problem
      if move = .none then pure ⟨⟩
      else do
        let next ← step problem move cur
        coolingSteps left next

def stepBudget (count : ℕ) : ℕ := min 50000 (200 * count)

/-- The seed is the first best state. -/
def startBest : Method Choice ℤ := do
  let cur ← score problem
  let snap ← snapshot
  modify fun engine => { engine with bestScore := cur, bestSnap := snap }
  pure cur

/-- Publish the best state seen. -/
def publish : Method Choice PUnit := do
  let engine ← get
  adopt engine.bestSnap

def anneal : Method Choice PUnit := do
  let cur ← startBest problem
  let engine ← get
  if applicableMoves problem engine ≠ [] then
    calibrationSteps problem (min 64 (4 * problem.count + 8))
    coolingSteps problem (stepBudget problem.count) cur
    publish
  else publish

/-! ## The seed -/

/-- The plain buffers the packer takes, at their per-core sizes. -/
def lifetimeBuffers (chosen : Divisions Choice) : List LifetimeBoundBuffer :=
  problem.bufs.zipIdx.map fun entry =>
    { entry.1.lifetime with
      size := (problem.perCoreSize entry.2 (chosen entry.2)).toNat
      address := none
      inPlaceParents := entry.1.lifetime.inPlaceParents.filter fun parent =>
        (problem.nameToIdx parent).isSome
      untiledBar := none
      pairedWith := [] }

/-- The packer of the seed state, in an order `pi`. -/
def buildSeedPacker (shuffle : ℕ → List ℕ → List ℕ) (pi : List ℤ) (alignment : ℤ)
    (chosen : Divisions Choice) : Except String Solver :=
  Solver.new shuffle (lifetimeBuffers problem chosen) pi problem.limit alignment
    (some ((List.range problem.count).map (problem.eligible chosen)))

end TorchSpyre.CoOptimizer
