import Mathlib
import TorchSpyre.Lib.KeepBest
import TorchSpyre.Restickify.Reorder

/-!
# The beam search

Operations are taken in order; every state of the beam branches over the candidates of the
next operation, and states that agree on the layouts still needed are merged.
-/

namespace TorchSpyre.Restickify

open Lib

/-- What the pass raises. -/
inductive Error where
  | keyError (name : String)
  | indexError
  | stopIteration
  | noFeasibleLayout (operation : String)
  deriving DecidableEq, Repr

variable {Layout : Type} [DecidableEq Layout]

/-! ## Tables computed before the search -/

/-- The operations whose edge costs read a name, each once. -/
def downstream (operations : List (LaidOperation Layout)) (name : String) :
    List (LaidOperation Layout) :=
  operations.filter fun operation => name ∈ operation.restickCostFn.deps

/-- An infinite future is capped, so that it puts a state behind without blocking it. -/
def futureCap : Cost := ((10 ^ 18 : ℕ) : WithTop ℕ)

/-- The least cost a consumer can still add, given one of its inputs. -/
def bestFuture (future : String → Layout → Cost) (name : String) (candidate : Layout)
    (consumer : LaidOperation Layout) : Cost :=
  let best := consumer.layouts.foldl (fun best consumerCandidate =>
    min best (consumer.restickCostFn.minInputCost name candidate consumerCandidate +
      future consumer.name consumerCandidate)) ⊤
  if best = ⊤ then futureCap else best

/-- The table is filled from the last operation back; what is absent counts as zero. -/
def futureMinCost (operations : List (LaidOperation Layout)) :
    List (LaidOperation Layout) → String → Layout → Cost
  | [] => fun _ _ => 0
  | operation :: rest =>
      let future := futureMinCost operations rest
      Function.update future operation.name fun candidate =>
        if candidate ∈ operation.layouts then
          ((downstream operations operation.name).map
            (bestFuture future operation.name candidate)).sum
        else 0

def computeFutureMinCost (operations : List (LaidOperation Layout)) : String → Layout → Cost :=
  futureMinCost operations operations

def stepOf (operations : List (LaidOperation Layout)) (name : String) : Option ℕ :=
  (operations.map LaidOperation.name).idxOf? name

/-- One edge of a consumer at a step. -/
def recordUse (operations : List (LaidOperation Layout)) (consumerStep : ℕ)
    (lastUse : String → Option ℕ) (dep : String) : String → Option ℕ :=
  if (stepOf operations dep).isSome ∧ (lastUse dep).all (· < consumerStep) = true then
    Function.update lastUse dep (some consumerStep)
  else lastUse

/-- The step of the last consumer of each operation. -/
def computeLastUse (operations : List (LaidOperation Layout)) : String → Option ℕ :=
  operations.foldl (fun lastUse operation =>
    operation.restickCostFn.deps.foldl
      (recordUse operations ((stepOf operations operation.name).getD 0)) lastUse) fun _ => none

/-! ## The frontier -/

structure BeamState (Layout : Type) where
  assignments : List Layout
  cost : Cost
  lowerBound : Cost

structure Frontier (Layout : Type) where
  width : ℕ
  bufNames : List String
  states : List (BeamState Layout)

def beamWidth : ℕ := 200

namespace Frontier

def addBuf (frontier : Frontier Layout) (name : String) : Frontier Layout :=
  { frontier with bufNames := frontier.bufNames ++ [name] }

def inputStl (frontier : Frontier Layout) (state : BeamState Layout) (name : String) :
    Except Error Layout :=
  match frontier.bufNames.idxOf? name with
  | none => .error (.keyError name)
  | some index =>
      match state.assignments[index]? with
      | none => .error .indexError
      | some stl => .ok stl

def best (frontier : Frontier Layout) : Option (BeamState Layout) :=
  frontier.states.argmin BeamState.cost

def trim (frontier : Frontier Layout) : Frontier Layout :=
  { frontier with
    states := (frontier.states.insertionSort fun first second =>
      first.lowerBound ≤ second.lowerBound).take frontier.width }

end Frontier

/-! ## One operation -/

section Step

variable (future : String → Layout → Cost) (lastUse : String → Option ℕ)

/-- The state extended by every candidate that is feasible. -/
def expandState (frontier : Frontier Layout) (operation : LaidOperation Layout)
    (state : BeamState Layout) : Except Error (List (BeamState Layout)) := do
  let inLayouts ← operation.restickCostFn.deps.mapM fun dep => do
    let stl ← frontier.inputStl state dep
    pure (dep, stl)
  pure (operation.layouts.filterMap fun candidate =>
    let extraCost := operation.restickCostFn.cost (inLayouts.lookup ·) candidate
    if extraCost < ⊤ then
      let newCost := state.cost + extraCost
      some ⟨state.assignments ++ [candidate], newCost, newCost + future operation.name candidate⟩
    else none)

/-- The layouts that a later operation still needs. -/
def liveKey (bufNames : List String) (currentStep : ℕ) (state : BeamState Layout) :
    List (Option Layout) :=
  (bufNames.zip state.assignments).map fun slot =>
    if (lastUse slot.1).any (currentStep < ·) then some slot.2 else none

/-- The states after an operation, merged but not yet trimmed. -/
def mergedStates (frontier : Frontier Layout) (currentStep : ℕ)
    (operation : LaidOperation Layout) : Except Error (List (BeamState Layout)) := do
  let nextStates ← frontier.states.mapM (expandState future frontier operation)
  pure (keepBest (liveKey lastUse frontier.bufNames currentStep) BeamState.lowerBound
    nextStates.flatten)

def beamStep (operations : List (LaidOperation Layout)) (frontier : Frontier Layout)
    (operation : LaidOperation Layout) : Except Error (Frontier Layout) := do
  let frontier := frontier.addBuf operation.name
  let states ← mergedStates future lastUse frontier
    ((stepOf operations operation.name).getD 0) operation
  let frontier := { frontier with states := states }.trim
  if frontier.states = [] then .error (.noFeasibleLayout operation.name) else .ok frontier

end Step

/-! ## The search -/

/-- A graph input takes its first layout. -/
def seedInput (frontier : Frontier Layout) (input : GraphInput Layout) :
    Except Error (Frontier Layout) :=
  match input.isInputBuffer, input.layouts with
  | true, some layouts =>
      match layouts with
      | [] => .error .stopIteration
      | stl :: _ =>
          .ok { frontier.addBuf input.name with
            states := frontier.states.map fun state =>
              ⟨state.assignments ++ [stl], state.cost, state.cost⟩ }
  | _, _ => .ok frontier

/-- What the layouts of the inputs may still cost. -/
def totalInputFuture (future : String → Layout → Cost) (frontier : Frontier Layout) : Cost :=
  ((frontier.bufNames.zip ((frontier.states.map BeamState.assignments).headD [])).map fun slot =>
    future slot.1 slot.2).sum

def seedFrontier (future : String → Layout → Cost) (inputs : List (GraphInput Layout)) :
    Except Error (Frontier Layout) := do
  let frontier ← inputs.foldlM seedInput ⟨beamWidth, [], [⟨[], 0, 0⟩]⟩
  pure { frontier with
    states := frontier.states.map fun state =>
      { state with lowerBound := state.cost + totalInputFuture future frontier } }

/-- The frontier after some of the operations of a list. -/
def searchAfter (inputs : List (GraphInput Layout)) (operations done : List (LaidOperation Layout)) :
    Except Error (Frontier Layout) := do
  let future := computeFutureMinCost operations
  let frontier ← seedFrontier future inputs
  done.foldlM (beamStep future (computeLastUse operations) operations) frontier

/-- The names with the layouts that are committed to them. -/
def beamGlobalMinCost (graph : Graph Layout) : Except Error (List (String × Layout)) := do
  let operations := laidOperations (reorderAnyInNodes graph.operations)
  let frontier ← searchAfter graph.graphInputs operations operations
  pure (frontier.best.elim [] fun best => frontier.bufNames.zip best.assignments)

end TorchSpyre.Restickify
