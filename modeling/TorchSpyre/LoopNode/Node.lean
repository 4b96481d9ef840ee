import Mathlib
import TorchSpyre.Lib.RoseTree
import TorchSpyre.Scheduling.LoopGroups

/-!
# Counted loops as nodes of the operation list

`collapse` wraps the operations of each counted loop into a node, `expand` flattens the
nodes again, and `peel_non_members` moves operations at the edge of a body that are not
members of the loop out of its node.
-/

namespace TorchSpyre.LoopNode

open Lib Scheduling

/-- An operation with its `loop_info`, one level per entry of `loop_group_id`, and its
carry record. -/
structure Operation (Expr : Type) where
  name : String
  isExtern : Bool
  levels : List (LoopLevel Expr)
  carry : Option ℕ
  deriving DecidableEq, Repr

/-- What a node holds besides its body; its name is `loopnode` with a number. -/
structure LoopFacts (Expr : Type) where
  number : ℕ
  induction : Option String
  tripCount : Option Expr
  carries : List ℕ
  deriving DecidableEq, Repr

/-- An entry of an operation list: an operation or a loop node with its body. -/
abbrev Entry (Expr : Type) := RoseTree (LoopFacts Expr) (Operation Expr)

variable {Expr : Type}

/-- `_group_path`: an extern kernel runs outside the loops it has `loop_info` of. -/
def groupPath (operation : Operation Expr) : List ℤ :=
  if operation.isExtern then [] else operation.levels.map LoopLevel.group

/-- The operation is a member of the loop. -/
def memberOf (loop : List ℤ) (operation : Operation Expr) : Bool :=
  (groupPath operation).take loop.length = loop

/-- `_carries_of`: the records on the operations directly in a body. -/
def carriesOf (body : List (Entry Expr)) : List ℕ :=
  ((RoseTree.topLeaves body).filterMap Operation.carry).eraseDups

/-! ## Collapsing and expanding -/

section Collapse

variable (inductions : ℤ → Option String)

/-- One level of `_wrap`: a loop spans from its first member to its last.  The first
argument bounds the entries, `inner` wraps the span at the next level. -/
def wrapSpans (inner : List (Operation Expr) → List ℤ → ℕ → List (Entry Expr) × ℕ)
    (outer : List ℤ) : ℕ → List (Operation Expr) → ℕ → List (Entry Expr) × ℕ
  | 0, _, counter => ([], counter)
  | _ + 1, [], counter => ([], counter)
  | size + 1, operation :: rest, counter =>
      if (groupPath operation).length ≤ outer.length ∨
          (groupPath operation).take outer.length ≠ outer then
        let (entries, counter) := wrapSpans inner outer size rest counter
        (.leaf operation :: entries, counter)
      else
        let key := (groupPath operation).take (outer.length + 1)
        let span := (operation :: rest).rdropWhile fun other => ¬ memberOf key other
        let after := (operation :: rest).rtakeWhile fun other => ¬ memberOf key other
        let (body, next) := inner span key (counter + 1)
        let facts : LoopFacts Expr :=
          { number := counter
            induction := key.getLast?.bind inductions
            tripCount := operation.levels[outer.length]?.map LoopLevel.tripCount
            carries := carriesOf body }
        let (entries, counter) := wrapSpans inner outer size after next
        (.node facts body :: entries, counter)

/-- `_wrap`; the first argument bounds the levels below.  The depth of the source is the
length of the loop's own path. -/
def wrap : ℕ → List (Operation Expr) → List ℤ → ℕ → List (Entry Expr) × ℕ
  | 0, operations, _, counter => (operations.map .leaf, counter)
  | levels + 1, operations, outer, counter =>
      wrapSpans inductions (wrap levels) outer operations.length operations counter

def deepest (operations : List (Operation Expr)) : ℕ :=
  (operations.map fun operation => (groupPath operation).length).foldr max 0

def collapse (operations : List (Operation Expr)) : List (Entry Expr) :=
  if operations.any fun operation => groupPath operation ≠ [] then
    (wrap inductions (deepest operations) operations [] 0).1
  else operations.map .leaf

end Collapse

/-- `all_ops` of the nested list, which is also what `expand` leaves. -/
def expand (entries : List (Entry Expr)) : List (Operation Expr) := RoseTree.leaves entries

/-! ## Peeling -/

def nodeKey (body : List (Entry Expr)) (depth : ℕ) : Option (List ℤ) :=
  (expand body).findSome? fun operation =>
    if depth < (groupPath operation).length then some ((groupPath operation).take (depth + 1))
    else none

def belongs (key : List ℤ) : Entry Expr → Bool
  | .leaf operation => memberOf key operation
  | .node _ _ => true

/-- The entries popped at the head of a body. -/
def lead (key : List ℤ) (body : List (Entry Expr)) : List (Entry Expr) :=
  body.takeWhile fun entry => ¬ belongs key entry

/-- The entries popped at the end of a body, after those at its head. -/
def trail (key : List ℤ) (body : List (Entry Expr)) : List (Entry Expr) :=
  (body.dropWhile fun entry => ¬ belongs key entry).rtakeWhile fun entry => ¬ belongs key entry

/-- The entries that stay in a body. -/
def middle (key : List ℤ) (body : List (Entry Expr)) : List (Entry Expr) :=
  (body.dropWhile fun entry => ¬ belongs key entry).rdropWhile fun entry => ¬ belongs key entry

/-- `_peel`; the first argument bounds the nesting. -/
def peel : ℕ → List (Entry Expr) → ℕ → List (Entry Expr)
  | 0, entries, _ => entries
  | height + 1, entries, depth => entries.flatMap fun
      | .leaf operation => [.leaf operation]
      | .node facts body =>
          match nodeKey body depth with
          | none => [.node facts body]
          | some key =>
              lead key body ++ .node facts (peel height (middle key body) (depth + 1)) ::
                trail key body

def peelNonMembers (entries : List (Entry Expr)) : List (Entry Expr) :=
  peel (RoseTree.height entries) entries 0

end TorchSpyre.LoopNode
