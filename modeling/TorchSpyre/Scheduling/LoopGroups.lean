import TorchSpyre.Lib.DepthFirst
import TorchSpyre.Lib.LoopRuns
import TorchSpyre.Lib.Outcome
import TorchSpyre.Lib.RoseTree
import TorchSpyre.Lib.Walk

/-!
# Wrapping loop groups for the scheduler

Before fusion, the scheduler nodes of a counted loop are made contiguous and wrapped
into one loop node per loop.  Nodes are identified by their position in the list the
pass receives.
-/

namespace TorchSpyre.Scheduling

open Lib

/-- One counted loop around an operation: its entry of `loop_group_id` and its trip
count. -/
structure LoopLevel (Expr : Type) where
  group : ℤ
  tripCount : Expr
  deriving DecidableEq, Repr

/-- A scheduler node with what the pass reads of it.  A structured node is a counted
loop already; its levels are those of its first member. -/
structure SchedulerNode (Expr : Type) where
  name : String
  bufferNames : List String
  unmetDependencies : List String
  structured : Bool
  levels : List (LoopLevel Expr)
  deriving DecidableEq, Repr

/-- What the pass raises. -/
inductive LoopGroupError where
  /-- `Loop group .. has inconsistent loop_count at depth ..` -/
  | inconsistentLoopCount (depth : ℕ)
  /-- `Loop group .. is not contiguous in the scheduler node list ..` -/
  | notContiguous (group : ℤ)
  deriving DecidableEq, Repr

/-- A node passed through, or a counted loop with its trip count. -/
abbrev LoopTree (Expr : Type) := RoseTree Expr ℕ

variable {Expr : Type} [DecidableEq Expr]

section Pass

variable (nodes : List (SchedulerNode Expr))

def enclosingLoops (index : ℕ) : List (LoopLevel Expr) :=
  (nodes[index]?.map SchedulerNode.levels).getD []

def isStructured (index : ℕ) : Bool := nodes[index]?.any SchedulerNode.structured

/-- The loops the node is a member of. -/
def memberLoops (index : ℕ) : List (LoopLevel Expr) :=
  if isStructured nodes index then [] else enclosingLoops nodes index

/-- `_loop_group_id`; a node in no loop has the empty path. -/
def loopGroupId (index : ℕ) : List ℤ := (memberLoops nodes index).map LoopLevel.group

def loopCount (index depth : ℕ) : Option Expr :=
  (memberLoops nodes index)[depth]?.map LoopLevel.tripCount

/-! ## Regrouping -/

/-- What the regrouping orders: all nodes of an outermost loop as one, and every other
node by itself. -/
inductive LoopUnit where
  | single (index : ℕ)
  | group (key : ℤ)
  deriving DecidableEq, Repr

def unitOfNode (index : ℕ) : LoopUnit :=
  match (loopGroupId nodes index).head? with
  | none => .single index
  | some key => .group key

def positions : List ℕ := List.range nodes.length

/-- The units in the order in which their first nodes appear. -/
def units : List LoopUnit := ((positions nodes).map (unitOfNode nodes)).eraseDups

def unitMembers (unit : LoopUnit) : List ℕ :=
  (positions nodes).filter fun index => unitOfNode nodes index = unit

/-- The nodes that produce what a node waits for; `name_to_node` keeps the last
producer of a name. -/
def producers (index : ℕ) : List ℕ :=
  ((nodes[index]?.map SchedulerNode.unmetDependencies).getD []).filterMap
    (lastEntry SchedulerNode.bufferNames nodes)

def unitDeps (unit : LoopUnit) : List LoopUnit :=
  (((unitMembers nodes unit).flatMap (producers nodes)).filter fun producer =>
    producer ∉ unitMembers nodes unit).map (unitOfNode nodes) |>.eraseDups

def orderedUnits : List LoopUnit := DepthFirst.search (unitDeps nodes) (units nodes)

def regroupByOuterLoopKey : List ℕ := (orderedUnits nodes).flatMap (unitMembers nodes)

/-! ## Wrapping -/

/-- Wrap one run: a node outside any loop at the depth stays, the nodes of a loop
become one loop node. -/
def wrapRun (depth : ℕ) (inner : List ℕ → Except LoopGroupError (List (LoopTree Expr))) :
    List ℕ → Except LoopGroupError (List (LoopTree Expr))
  | [] => .ok []
  | first :: rest =>
      match loopCount nodes first depth with
      | none => .ok ((first :: rest).map .leaf)
      | some count =>
          if rest.any fun index => loopCount nodes index depth ≠ some count then
            .error (.inconsistentLoopCount depth)
          else do
            let body ← inner (first :: rest)
            return [.node count body]

/-- `_build_loop_group`; the first argument bounds the loops still to be wrapped. -/
def buildLoopGroup : ℕ → List ℕ → ℕ → Except LoopGroupError (List (LoopTree Expr))
  | 0, text, _ => .ok (text.map .leaf)
  | levels + 1, text, depth => do
      let wrapped ← (text.splitBy (LoopRuns.sameRun (loopGroupId nodes) depth)).mapM
        (wrapRun nodes depth fun run => buildLoopGroup levels run (depth + 1))
      return wrapped.flatten

/-! ## The final check -/

/-- `scheduler_enclosing_loops`: the levels of the first direct member with a loop. -/
def schedulerEnclosingLoops : LoopTree Expr → List (LoopLevel Expr)
  | .leaf index => enclosingLoops nodes index
  | .node _ body => ((RoseTree.topLeaves body).findSome? fun index =>
      if isStructured nodes index ∨ enclosingLoops nodes index = [] then none
      else some (enclosingLoops nodes index)).getD []

/-- The outermost loop a counted loop of the result reports, through its first member. -/
def checkedKey : LoopTree Expr → Option ℤ
  | .leaf index =>
      if isStructured nodes index then (enclosingLoops nodes index).head?.map LoopLevel.group
      else none
  | .node _ [] => none
  | .node _ (first :: _) => (schedulerEnclosingLoops nodes first).head?.map LoopLevel.group

/-- A loop is named after all its nodes. -/
def getName (tree : LoopTree Expr) : String :=
  "_".intercalate (tree.leavesOf.map fun index =>
    (nodes[index]?.map SchedulerNode.name).getD "")

/-- No two loops of the result may report one outermost loop under different names. -/
def checkLoops : List (ℤ × String) → List (LoopTree Expr) → Except LoopGroupError Unit
  | _, [] => .ok ()
  | seen, tree :: rest =>
      match checkedKey nodes tree with
      | none => checkLoops seen rest
      | some key =>
          if (seen.lookup key).any (· ≠ getName nodes tree) then .error (.notContiguous key)
          else checkLoops ((key, getName nodes tree) :: seen) rest

def buildLoopSchedulerNodes : Except LoopGroupError (List (LoopTree Expr)) := do
  let result ← buildLoopGroup nodes
    (LoopNest.nestingDepth (loopGroupId nodes) nodes.length + 1) (regroupByOuterLoopKey nodes) 0
  checkLoops nodes [] result
  return result

end Pass

end TorchSpyre.Scheduling
