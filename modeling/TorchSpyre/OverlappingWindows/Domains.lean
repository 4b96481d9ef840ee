import Mathlib
import TorchSpyre.Lib.Coefficients
import TorchSpyre.SplitPlanning.Distribution

/-!
# Split domains of overlapping windows

`overlapping_window_split_domains` looks at every coordinate of every input.  A window variable
that sweeps more than its place in the coordinate has to be cut down to that place, or, when it
is reduced, to be left alone inside pinned outer variables.
-/

namespace TorchSpyre.OverlappingWindows

open Lib Lib.Symbolic SplitPlanning

/-! ## Affine coordinates -/

/-- A variable with its step and its range. -/
structure AffineTerm where
  step : ℕ
  extent : ℕ
  var : Symbol
  deriving DecidableEq

/-- `int(coeff)` of a positive coefficient. -/
def truncated (coefficient : ℚ) : ℕ := coefficient.num.toNat / coefficient.den

def affineTerm? (ranges : Dict Symbol ℕ) : Expr × ℚ → Option AffineTerm
  | (.sym var, coefficient) =>
      match ranges.lookup var with
      | none => none
      | some extent => if coefficient ≤ 0 then none else some ⟨truncated coefficient, extent, var⟩
  | _ => none

/-- The order of `(step, extent, str(var))`. -/
def AffineTerm.before (first second : AffineTerm) : Prop :=
  first.step < second.step ∨ first.step = second.step ∧
    (first.extent < second.extent ∨ first.extent = second.extent ∧ first.var ≤ second.var)

instance : DecidableRel AffineTerm.before :=
  fun _ _ => inferInstanceAs (Decidable (_ ∨ _))

/-- `_ordered_affine_coordinate_terms` -/
def orderedAffineCoordinateTerms (coordinate : Expr) (ranges : Dict Symbol ℕ) :
    Option (List AffineTerm) := do
  let terms ← coordinate.coefficients.mapM (affineTerm? ranges)
  return (terms.filter fun term => 1 < term.extent).insertionSort AffineTerm.before

/-! ## Overlaps -/

inductive WindowError where
  /-- symbolic read coordinate cannot be divided safely -/
  | symbolicRead (coordinate : Expr)
  /-- symbolic overlapping read coordinate cannot be divided safely -/
  | symbolicOverlap (coordinate : Expr)
  /-- reduced overlapping read requires a concrete outer extent -/
  | symbolicOuter (outer : Symbol)
  | zeroDivision
  | keyError (var : Symbol)
  deriving DecidableEq

/-- A variable that sweeps more than its size, and the variable that it overlaps. -/
structure Overlap where
  var : Symbol
  size : ℕ
  outer : Symbol
  deriving DecidableEq

def overlapsFrom (overlaps : List Overlap) : List AffineTerm → Except WindowError (List Overlap)
  | inner :: outer :: terms =>
      if inner.step = 0 then .error .zeroDivision
      else if outer.step % inner.step ≠ 0 then .ok []
      else
        let size := outer.step / inner.step
        overlapsFrom
          (if size < inner.extent then overlaps ++ [⟨inner.var, size, outer.var⟩] else overlaps)
          (outer :: terms)
  | _ => .ok overlaps

/-- `overlapping_coordinate_extents` -/
def overlappingCoordinateExtents (coordinate : Expr) (ranges : Dict Symbol ℕ) :
    Except WindowError (List Overlap) :=
  match orderedAffineCoordinateTerms coordinate ranges with
  | none => .ok []
  | some terms => overlapsFrom [] terms

/-- `_moves_coordinate` -/
def movesCoordinate (coordinate : Expr) (var : Symbol) (extent : ℕ) : Bool :=
  1 < extent && coordinate.eval (fun _ => 0) ≠
    coordinate.eval (fun name => if name = var then extent - 1 else 0)

/-! ## The context -/

inductive ReductionType where
  | conv2dFwd
  | depthwiseConv2d
  | avgpool2d
  | maxpool2d
  | other (name : String)
  deriving DecidableEq

/-- A device axis with its entry of `stride_map`. -/
structure Axis where
  coordinate : Expr
  stride : ℤ

/-- The axes of a tensor access, the stick last. -/
structure TensorDep where
  axes : List Axis

structure WorkDivConstraintContext where
  reductionType : Option ReductionType
  /-- The sizes of the loop variables; a size with free symbols is missing. -/
  itSpace : Dict Symbol (Option ℕ)
  inputTds : List TensorDep
  reductionVars : List Symbol

namespace WorkDivConstraintContext

variable (ctx : WorkDivConstraintContext)

/-- The sizes without free symbols. -/
def ranges : Dict Symbol ℕ := ctx.itSpace.filterValues

def isSymbolic (var : Symbol) : Bool := ctx.itSpace.lookup var = some none

def isLoopVar (var : Symbol) : Bool := (ctx.itSpace.lookup var).isSome

/-- Convolutions and pools have window fields of their own. -/
def ownWindows : Bool :=
  match ctx.reductionType with
  | some .conv2dFwd | some .depthwiseConv2d | some .avgpool2d | some .maxpool2d => true
  | _ => false

/-- The integer steps of the loop variables, for the check of symbolic sizes. -/
def integerStep? : Expr × ℚ → Option (ℕ × Symbol)
  | (.sym var, coefficient) =>
      if ctx.isLoopVar var ∧ coefficient.den = 1 ∧ 0 < coefficient then
        some (truncated coefficient, var)
      else none
  | _ => none

def coordRanges (coordinate : Expr) : Except WindowError (Dict Symbol ℕ) :=
  if coordinate.freeSymbols.any ctx.isSymbolic then
    let terms := (coordinate.coefficients.filterMap ctx.integerStep?).insertionSort
      fun first second => first.1 ≤ second.1
    let loopVars := coordinate.freeSymbols.filter ctx.isLoopVar
    if 1 < loopVars.length ∧ (terms.map Prod.snd).toFinset ≠ loopVars.toFinset then
      .error (.symbolicRead coordinate)
    else
      match terms.reverse with
      | outer :: next :: inner =>
          if ((next :: inner).any fun term => ctx.isSymbolic term.2) ∨
              ctx.isSymbolic outer.2 = true ∧ next.1 = outer.1 then
            .error (.symbolicOverlap coordinate)
          else .ok (if ctx.isSymbolic outer.2 then ctx.ranges.set outer.2 2 else ctx.ranges)
      | _ => .ok ctx.ranges
  else .ok ctx.ranges

/-- The caps on window variables, and the variables with one value on each core. -/
structure Restrictions where
  caps : Dict Symbol ℕ
  pinned : List Symbol

/-- The variables of the axes with larger strides. -/
def outsideVars (axes : List (Axis × ℕ)) (axis : Axis × ℕ) : List Symbol :=
  (axes.filter fun other => other.2 ≠ axis.2 ∧ axis.1.stride < other.1.stride).flatMap fun other =>
    other.1.coordinate.freeSymbols.filter fun var =>
      match ctx.ranges.lookup var with
      | none => false
      | some extent => movesCoordinate other.1.coordinate var extent

/-- The variables after the window in its coordinate. -/
def laterVars (ordered : List AffineTerm) (var : Symbol) : List Symbol :=
  (((ordered.map AffineTerm.var).dropWhile (· ≠ var)).drop 1).filter fun later =>
    (ctx.ranges.lookup later).isSome

def restrictOverlap (axes : List (Axis × ℕ)) (axis : Axis × ℕ) (ordered : List AffineTerm)
    (restrictions : Restrictions) (overlap : Overlap) : Except WindowError Restrictions :=
  if overlap.var ∈ ctx.reductionVars ∧ ctx.isSymbolic overlap.outer = true then
    .error (.symbolicOuter overlap.outer)
  else
    let cap := min overlap.size ((restrictions.caps.lookup overlap.var).getD overlap.size)
    .ok {
      caps := restrictions.caps.set overlap.var cap
      pinned :=
        if overlap.var ∈ ctx.reductionVars then
          restrictions.pinned ∪ (overlap.outer :: ctx.laterVars ordered overlap.var) ∪
            ctx.outsideVars axes axis
        else restrictions.pinned }

def restrictAxis (axes : List (Axis × ℕ)) (restrictions : Restrictions) (axis : Axis × ℕ) :
    Except WindowError Restrictions := do
  let coordRanges ← ctx.coordRanges axis.1.coordinate
  let overlaps ← overlappingCoordinateExtents axis.1.coordinate coordRanges
  let ordered := (orderedAffineCoordinateTerms axis.1.coordinate coordRanges).getD []
  overlaps.foldlM (ctx.restrictOverlap axes axis ordered) restrictions

def restrictTensor (restrictions : Restrictions) (tensor : TensorDep) :
    Except WindowError Restrictions :=
  let axes := tensor.axes.dropLast.zipIdx
  axes.foldlM (ctx.restrictAxis axes) restrictions

def rangeOf (var : Symbol) : Except WindowError ℕ :=
  match ctx.ranges.lookup var with
  | none => .error (.keyError var)
  | some range => .ok range

/-- The factors that keep a window within its cap, and the whole of a reduced window. -/
def capDomain (var : Symbol) (range size : ℕ) : Finset ℕ :=
  ((divisors range).filter fun split =>
    range / split ≤ size ∨ split = 1 ∧ var ∈ ctx.reductionVars).toFinset

def allowCap (allowed : Domains Symbol) (entry : Symbol × ℕ) : Except WindowError (Domains Symbol) := do
  let range ← ctx.rangeOf entry.1
  return allowed.set entry.1 (ctx.capDomain entry.1 range entry.2)

def allowPinned (allowed : Domains Symbol) (var : Symbol) : Except WindowError (Domains Symbol) := do
  let range ← ctx.rangeOf var
  return allowed.set var ((allowed.lookup var).getD {range} ∩ {range})

end WorkDivConstraintContext

open WorkDivConstraintContext in
/-- The `allowed_splits` of `overlapping_window_split_domains`, which blocks no dimension. -/
def overlappingWindowSplitDomains (ctx : WorkDivConstraintContext) :
    Except WindowError (Domains Symbol) :=
  if ctx.ownWindows then .ok Dict.empty
  else do
    let restrictions ← ctx.inputTds.foldlM ctx.restrictTensor ⟨Dict.empty, []⟩
    let allowed ← restrictions.caps.entries.foldlM ctx.allowCap Dict.empty
    restrictions.pinned.foldlM ctx.allowPinned allowed

end TorchSpyre.OverlappingWindows
