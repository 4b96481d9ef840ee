import TorchSpyre.CoOptimizer.Problem

/-!
# The annealer's moves

The live state is the packer, the division vector and the count of eligible buffers; a move
changes them in place and adjusts the count by the buffers it can have affected.
-/

namespace TorchSpyre.CoOptimizer

open CoarseTiling (TileSpec)
open Scratchpad.PermLayout (Solver)
open Scratchpad.PermLayout.Solver (Call)

variable {Choice Index : Type}

structure Snapshot (Choice : Type) where
  packer : Solver
  chosen : Divisions Choice
  nEligible : ℤ

structure Engine (Choice : Type) where
  packer : Solver
  chosen : Divisions Choice
  nEligible : ℤ
  rng : Rng
  bestScore : ℤ
  bestSnap : Snapshot Choice

/-- A method of the solver object. -/
abbrev Method (Choice : Type) := StateT (Engine Choice) (Except String)

/-! ## The packer, the generator and snapshots -/

/-- A call on the packer; returns the change of its quality. -/
def callPacker (request : Call) : Method Choice ℚ := fun engine =>
  match engine.packer.call request with
  | .error message => .error message
  | .ok (delta, packer) => .ok (delta, { engine with packer := packer })

def randrange (bound : ℕ) : Method Choice ℕ :=
  modifyGet fun engine =>
    ((engine.rng.randrange bound).1, { engine with rng := (engine.rng.randrange bound).2 })

def coin : Method Choice Bool :=
  modifyGet fun engine => (engine.rng.coin.1, { engine with rng := engine.rng.coin.2 })

def choice {Item : Type} (items : List Item) : Method Choice Item := fun engine =>
  match (engine.rng.choice items).1 with
  | none => .error "IndexError: Cannot choose from an empty sequence"
  | some item => .ok (item, { engine with rng := (engine.rng.choice items).2 })

/-- An independent copy of the joint state. -/
def snapshot : Method Choice (Snapshot Choice) := do
  let engine ← get
  pure ⟨engine.packer, engine.chosen, engine.nEligible⟩

/-- Install a snapshot as the live state. -/
def adopt (snap : Snapshot Choice) : Method Choice PUnit :=
  modify fun engine =>
    { engine with packer := snap.packer, chosen := snap.chosen, nEligible := snap.nEligible }

variable (problem : Problem Choice Index)

def Engine.score (engine : Engine Choice) : ℤ :=
  problem.scoreOf engine.chosen engine.packer.layout.address

def score : Method Choice ℤ := do
  let engine ← get
  pure (engine.score problem)

def allEligibleResident (engine : Engine Choice) : Bool :=
  (engine.packer.totalAllocatedCount : ℤ) = engine.nEligible

/-! ## Structural changes -/

/-- The buffers whose eligibility a change of some divisions can change, in order. -/
def affected (changed : List ℕ) : List ℕ :=
  (List.range problem.count).filter fun idx =>
    idx ∈ changed || changed.any fun op => idx ∈ problem.parentsIdx op

/-- Set the divisions, resize the footprints and refresh eligibility of what is affected. -/
def applyAssignment (assignment : List (ℕ × DivisionConfig Choice)) : Method Choice PUnit := do
  let engine ← get
  let assigned := assignment.map Prod.fst
  let before := (affected problem assigned).countP (problem.eligible engine.chosen)
  let chosen := fun idx => (assignment.lookup idx).getD (engine.chosen idx)
  modify fun engine => { engine with chosen := chosen }
  ((List.range problem.count).filter (· ∈ assigned)).forM fun op => do
    let _ ← callPacker (.resize op (problem.perCoreSize op (chosen op)))
    pure ⟨⟩
  (affected problem assigned).forM fun idx => do
    let _ ← callPacker (.setEligible idx (problem.eligible chosen idx))
    pure ⟨⟩
  let after := (affected problem assigned).countP (problem.eligible chosen)
  modify fun engine => { engine with nEligible := engine.nEligible + (after - before) }

/-- The ripple of one buffer's change. -/
def atomicFlip (idx : ℕ) (config : DivisionConfig Choice) : Method Choice PUnit :=
  applyAssignment problem [(idx, config)]

/-- Whether a spec would cut a position from the stretch that the walk has given it. -/
def misreadAcross (position start : ℕ) (spec : TileSpec) (forward : Bool) : Bool :=
  if spec.isUntiled then false
  else
    let edges := problem.positions.tileReads.filter fun edge =>
      if forward then edge.1 = position ∧ start ≤ edge.2.1
      else edge.2.1 = position ∧ edge.1 ≤ start
    edges.any fun edge => !edge.2.2.aligned problem.tileMisread spec spec

/-- The walk from a position to one end of its run; it stops at the first operation that
cannot take the tiling. -/
def retileWalk (chosen : Divisions Choice) (spec : TileSpec) (start stop : ℕ) (forward : Bool) :
    ℕ → ℕ → List (ℕ × DivisionConfig Choice)
  | 0, _ => []
  | left + 1, position =>
      match problem.bufferAt position with
      | none => []
      | some target =>
          if position ≠ start ∧ misreadAcross problem position start spec forward = true then []
          else
            match problem.bufs[target]?.bind fun buf => buf.source.retiled (chosen target) spec with
            | none => []
            | some retiled =>
                (target, retiled) ::
                  if position = stop then []
                  else retileWalk chosen spec start stop forward left
                    (if forward then position + 1 else position - 1)

/-- Spread a division's tiling from a buffer to one end of its run. -/
def retileBoundary (idx : ℕ) (config : DivisionConfig Choice) : Method Choice PUnit := do
  let engine ← get
  match problem.positionOf idx with
  | none => pure ⟨⟩
  | some position =>
      match problem.runBounds engine.chosen (fun _ => none) position with
      | none => throw "StopIteration"
      | some run => do
          let forward ← coin
          let assignment := retileWalk problem engine.chosen config.tiling position
            (if forward then run.2 else run.1) forward (run.2 + 1 - run.1) position
          if assignment = [] then pure ⟨⟩ else applyAssignment problem assignment

/-! ## Regions -/

/-- A frontier and the divisions assigned so far. -/
abbrev Flood (Choice : Type) := List ℕ × List (ℕ × DivisionConfig Choice)

/-- Join a neighbour at the division the edge gives it, unless it has one already. -/
def join (flood : Flood Choice) (target : ℕ) (joined : Option (DivisionConfig Choice)) :
    Flood Choice :=
  if (flood.2.lookup target).isSome then flood
  else
    match joined with
    | none => flood
    | some config => (flood.1 ++ [target], flood.2 ++ [(target, config)])

/-- The flood from the frontier, its least index first; each buffer enters it once. -/
def floodLoop : ℕ → Flood Choice → List (ℕ × DivisionConfig Choice)
  | 0, flood => flood.2
  | left + 1, flood =>
      match flood.1.min? with
      | none => flood.2
      | some current =>
          match flood.2.lookup current with
          | none => flood.2
          | some config =>
              let popped : Flood Choice := (flood.1.erase current, flood.2)
              let down := (problem.childrenIdx current).foldl (fun flood child =>
                join flood child ((problem.relation? current child).bind fun relation =>
                  relation.childFor config)) popped
              let up := ((problem.parentsIdx current).insertionSort (· ≤ ·)).foldl (fun flood parent =>
                join flood parent ((problem.relation? parent current).bind fun relation =>
                  relation.parentFor config)) down
              floodLoop left up

def floodRegion (anchor : ℕ) (config : DivisionConfig Choice) : List (ℕ × DivisionConfig Choice) :=
  floodLoop problem (problem.count + 1) ([anchor], [(anchor, config)])

/-- Strip the tiling from every assigned operation outside the anchor's run. -/
def trimTilingsToAnchorRun (chosen : Divisions Choice) (anchor : ℕ)
    (assignment : List (ℕ × DivisionConfig Choice)) : List (ℕ × DivisionConfig Choice) :=
  if assignment.all fun entry => entry.2.tiling.isUntiled then assignment
  else
    let override := fun idx => (assignment.lookup idx).map DivisionConfig.tiling
    let run := (problem.positionOf anchor).bind (problem.runBounds chosen override)
    assignment.map fun entry =>
      let inside := (problem.positionOf entry.1).any fun position =>
        run.any fun bounds => bounds.1 ≤ position ∧ position ≤ bounds.2
      if entry.2.tiling.isUntiled || inside then entry
      else
        match problem.bufs[entry.1]?.bind fun buf => buf.source.retiled entry.2 .untiled with
        | none => entry
        | some untiled => (entry.1, untiled)

/-! ## Moves -/

/-- Layout steps that do not lower the packer's quality; a worse one is turned back. -/
def burstSteps : ℕ → Method Choice PUnit
  | 0 => pure ⟨⟩
  | left + 1 => do
      let engine ← get
      if allEligibleResident engine then pure ⟨⟩
      else do
        let i ← randrange problem.count
        let j ← randrange problem.count
        let delta ← callPacker (.rotate i j)
        if delta < 0 then
          let _ ← callPacker (.rotate j i)
          burstSteps left
        else burstSteps left

def burst : Method Choice PUnit :=
  if problem.count < 2 then pure ⟨⟩ else burstSteps problem (max 1 (problem.count / 10))

def anchorCandidates : List ℕ :=
  (List.range problem.count).filter fun idx => problem.bufs[idx]?.any fun buf => buf.source.canSplit

def flippable : List ℕ :=
  (List.range problem.count).filter fun idx => problem.bufs[idx]?.any fun buf => buf.source.canMove

/-- The recolor anchor, drawn by the buffer's source. -/
def drawAnchor (idx : ℕ) : Method Choice (Option (DivisionConfig Choice)) :=
  modifyGet fun engine =>
    match problem.bufs[idx]? with
    | none => (none, engine)
    | some buf =>
        ((buf.source.anchor (engine.chosen idx) engine.rng).1,
          { engine with rng := (buf.source.anchor (engine.chosen idx) engine.rng).2 })

def recolor : Method Choice PUnit := do
  let anchor ← choice (anchorCandidates problem)
  match ← drawAnchor problem anchor with
  | none => pure ⟨⟩
  | some config => do
      let engine ← get
      applyAssignment problem (trimTilingsToAnchorRun problem engine.chosen anchor
        (floodRegion problem anchor config))
      burst problem

inductive Move where
  | reorder
  | flip
  | recolor
  | none
  deriving DecidableEq, Repr

def flip : Method Choice PUnit := do
  let idx ← choice (flippable problem)
  let engine ← get
  let options := (problem.bufs[idx]?.map fun buf =>
    buf.source.neighbours (engine.chosen idx)).getD []
  if options = [] then pure ⟨⟩
  else do
    let config ← choice options
    if config.tiling = (engine.chosen idx).tiling then atomicFlip problem idx config
    else retileBoundary problem idx config
    burst problem

def executeMove : Move → Method Choice PUnit
  | .reorder => do
      let i ← randrange problem.count
      let j ← randrange problem.count
      let _ ← callPacker (.rotate i j)
      pure ⟨⟩
  | .flip => flip problem
  | .recolor => recolor problem
  | .none => pure ⟨⟩

def applicableMoves (engine : Engine Choice) : List Move :=
  (if 2 ≤ problem.count ∧ allEligibleResident engine = false then [.reorder] else []) ++
    (if flippable problem ≠ [] then [.flip] else []) ++
    if anchorCandidates problem ≠ [] then [.recolor] else []

/-- The proposal weights are positive, so any applicable move may be drawn. -/
def chooseMove : Method Choice Move := do
  let engine ← get
  if applicableMoves problem engine = [] then pure .none
  else choice (applicableMoves problem engine)

end TorchSpyre.CoOptimizer
