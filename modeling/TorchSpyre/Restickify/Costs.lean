import Mathlib

/-!
# Restick costs

What an operation's cost function charges for the layouts of its inputs and a candidate for
its output. A cost is a number of bytes, weighted by the device type, or infinite.
-/

namespace TorchSpyre.Restickify

/-- `⊤` is the source's `INF`: the restickify is infeasible. -/
abbrev Cost := WithTop ℕ

/-- The cost table of one input of an operation, and the layouts its producer may take. -/
structure EdgeCostMap (Layout : Type) where
  dep : String
  inLayouts : List Layout
  cost : Layout → Layout → Cost

/-- The source's three cost nodes. A fixed node's edges come with the input layout each one
requires. -/
inductive RestickNodeCost (Layout : Type) where
  | allSameNode (inputEdgeCosts outputEdgeCosts : List (EdgeCostMap Layout))
  | fixedInOutNode (edgeCosts : List (EdgeCostMap Layout × Layout))
      (outStickCompatible : Layout → Bool)
  | anyInNode

namespace RestickNodeCost

variable {Layout : Type} [DecidableEq Layout]

def edgeCosts : RestickNodeCost Layout → List (EdgeCostMap Layout)
  | .allSameNode inputs outputs => inputs ++ outputs
  | .fixedInOutNode edges _ => edges.map Prod.fst
  | .anyInNode => []

def deps (costFn : RestickNodeCost Layout) : List String := costFn.edgeCosts.map EdgeCostMap.dep

/-- One edge; the table of input layouts holds every dependency of the node. -/
def edgeCost (inLayouts : String → Option Layout) (edge : EdgeCostMap Layout) (target : Layout) :
    Cost :=
  (inLayouts edge.dep).elim ⊤ fun inStl => edge.cost inStl target

def cost (costFn : RestickNodeCost Layout) (inLayouts : String → Option Layout) (outStl : Layout) :
    Cost :=
  match costFn with
  | .allSameNode inputs outputs =>
      let inputCost := (inputs.map fun edge => edgeCost inLayouts edge outStl).sum
      if inputCost = ⊤ then ⊤
      else if outputs.all fun edge => (inLayouts edge.dep).all (· = outStl) then inputCost else ⊤
  | .fixedInOutNode edges outStickCompatible =>
      if outStickCompatible outStl then
        (edges.map fun edge => edgeCost inLayouts edge.1 edge.2).sum
      else ⊤
  | .anyInNode => 0

/-- Some layout of the producer reaches the target. -/
def reachable (edge : EdgeCostMap Layout) (target : Layout) : Bool :=
  edge.inLayouts.any fun inStl => edge.cost inStl target < ⊤

/-- What one input alone contributes toward an output candidate. -/
def minInputCost (costFn : RestickNodeCost Layout) (depName : String) (inStl outStl : Layout) :
    Cost :=
  match costFn with
  | .allSameNode inputs _ =>
      match inputs.find? fun edge => edge.dep = depName with
      | none => 0
      | some edge =>
          let edgeCost := edge.cost inStl outStl
          let otherOk := (inputs.filter fun other => other.dep ≠ depName).all (reachable · outStl)
          if edgeCost ≠ ⊤ ∧ otherOk = true then edgeCost else ⊤
  | .fixedInOutNode edges outStickCompatible =>
      let costs := (edges.filter fun edge => edge.1.dep = depName).map fun edge =>
        edge.1.cost inStl edge.2
      let otherOk := (edges.filter fun edge => edge.1.dep ≠ depName).all fun edge =>
        reachable edge.1 edge.2
      if outStickCompatible outStl ∧ costs ≠ [] ∧ ⊤ ∉ costs ∧ otherOk = true then costs.sum else ⊤
  | .anyInNode => 0

/-- A cost depends on the layouts of the dependencies only. -/
theorem cost_congr {costFn : RestickNodeCost Layout} {first second : String → Option Layout}
    (same : ∀ name ∈ costFn.deps, first name = second name) (outStl : Layout) :
    costFn.cost first outStl = costFn.cost second outStl := by
  have sameEdge : ∀ edge ∈ costFn.edgeCosts, first edge.dep = second edge.dep := by
    intro edge inside
    exact same edge.dep (List.mem_map_of_mem inside)
  cases costFn with
  | allSameNode inputs outputs =>
      have sameInputs : (inputs.map fun edge => edgeCost first edge outStl) =
          inputs.map fun edge => edgeCost second edge outStl := by
        apply List.map_congr_left
        intro edge inside
        rw [edgeCost, sameEdge edge (List.mem_append_left _ inside), edgeCost]
      have sameOutputs : (outputs.all fun edge => (first edge.dep).all (· = outStl)) =
          outputs.all fun edge => (second edge.dep).all (· = outStl) := by
        rw [Bool.eq_iff_iff, List.all_eq_true, List.all_eq_true]
        apply forall₂_congr
        intro edge inside
        rw [sameEdge edge (List.mem_append_right _ inside)]
      simp only [cost, sameInputs, sameOutputs]
  | fixedInOutNode edges outStickCompatible =>
      have sameInputs : (edges.map fun edge => edgeCost first edge.1 edge.2) =
          edges.map fun edge => edgeCost second edge.1 edge.2 := by
        apply List.map_congr_left
        intro edge inside
        rw [edgeCost, sameEdge edge.1 (List.mem_map_of_mem inside), edgeCost]
      simp only [cost, sameInputs]
  | anyInNode => rfl

end RestickNodeCost

/-! ## Operations -/

/-- An operation that has candidate layouts. -/
structure LaidOperation (Layout : Type) where
  name : String
  layouts : List Layout
  restickCostFn : RestickNodeCost Layout

inductive Operation (Layout : Type) where
  | plain (name : String)
  | laid (operation : LaidOperation Layout)

/-- A graph input; only tensors in input buffers have candidate layouts. -/
structure GraphInput (Layout : Type) where
  name : String
  isInputBuffer : Bool
  layouts : Option (List Layout)

structure Graph (Layout : Type) where
  graphInputs : List (GraphInput Layout)
  operations : List (Operation Layout)

namespace Operation

variable {Layout : Type}

def name : Operation Layout → String
  | .plain name => name
  | .laid operation => operation.name

def laid? : Operation Layout → Option (LaidOperation Layout)
  | .plain _ => none
  | .laid operation => some operation

def isAnyIn (operation : Operation Layout) : Bool :=
  match operation with
  | .laid ⟨_, _, .anyInNode⟩ => true
  | _ => false

/-- The names whose chosen layouts the operation's edge costs read. -/
def deps (operation : Operation Layout) : List String :=
  (operation.laid?.map fun laid => laid.restickCostFn.deps).getD []

theorem deps_of_isAnyIn {operation : Operation Layout} (anyIn : operation.isAnyIn = true) :
    operation.deps = [] := by
  unfold isAnyIn at anyIn
  split at anyIn
  next => rfl
  next => cases anyIn

end Operation

/-- The loops of the source skip the operations that have no layouts. -/
def laidOperations {Layout : Type} (operations : List (Operation Layout)) :
    List (LaidOperation Layout) :=
  operations.filterMap Operation.laid?

end TorchSpyre.Restickify
