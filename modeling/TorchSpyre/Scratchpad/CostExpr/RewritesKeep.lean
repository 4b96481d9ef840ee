import TorchSpyre.Scratchpad.CostExpr.Conjunctions
import TorchSpyre.Scratchpad.CostExpr.LogMin
import TorchSpyre.Scratchpad.CostExpr.MinPiecewise
import TorchSpyre.Scratchpad.CostExpr.ProductSymbols
import TorchSpyre.Scratchpad.CostExpr.ReciprocalConditions

/-!
# The rewrites keep the cost

What the symbolic rewrites of a cost expression keep, for every SymPy that keeps values itself.  Two
things are lost: a branch on a reciprocal that is not equal to something has no turned-over relation,
and a conjunction that mixes two forms of a number, such as `2` and `2.0`, is resolved wrongly.
-/

namespace TorchSpyre.Scratchpad.CostExpr

open Lib Lib.CaseExpr Expr

/-- A SymPy that simplifies nothing. -/
def plain : Sympy where
  build := node
  numeric := id
  build_keeps _ _ := .refl _
  build_depth _ _ := le_rfl
  numeric_keeps := .refl

def splitX : Symbol := { name := "split_x", isInteger := true, sign := .positive }

/-- A branch on how the reciprocal of `split_x` compares with a half. -/
def halfBranches (op : RelOp) : List Expr :=
  [node .pair [num (.exact 1),
    node (.rel op) [node .pow [sym splitX, num (.exact (-1))], num (.exact (1 / 2))]],
    node .pair [num (.exact 0), boolean true]]

/-- Every symbol stands for two. -/
def allTwo : Point where
  value _ := 2
  positive _ _ := Nat.two_pos
  others _ _ := none

/-- `And(Eq(split_x, 2), Eq(split_x, 2.0))` -/
def twoForms : List Expr :=
  [node (.rel .eq) [sym splitX, num (.exact 2)], node (.rel .eq) [sym splitX, num ⟨2, some 53⟩]]

end TorchSpyre.Scratchpad.CostExpr
