import TorchSpyre.Ownership.WorkDivision

/-!
# One fused loop on several device axes

`decompose_fused_split_view` expresses the contiguous partitions of a loop that
drives several axes as one slice per axis.  Each partition has to fill a
rectangle, all of one shape, and a canonical mapping has to give the positions of
the rectangles in partition order.

The rejections are the reasons that the source logs before it returns nothing; an
exception inside it is one of them.
-/

namespace TorchSpyre.Ownership

open Lib Lib.Symbolic

inductive FusedRejection where
  | splitDoesNotDivideCores
  | rankDiffers
  | extentNotConcrete
  | extentNotDivisible (extent : ℕ)
  | proofLimit (states : ℕ)
  | unresolvedOwner
  | noCanonicalOwner
  | drivenAxes (count : ℕ)
  | otherLoops
  | regions (cause : RegionError)
  | shapesDiffer
  | notDividingExtents
  | noSplitDimension
  | crossesSlices
  | slices (cause : OwnershipError)
  | noPhysicalOrder
  deriving DecidableEq

/-- A device axis whose coordinate contains the fused loop. -/
structure DrivenAxis where
  axis : ℕ
  size : ℕ
  coordinate : Expr
  deriving DecidableEq

def drivenAxis? (fusedSymbol : Symbol) : (ℕ × Expr) × ℕ → Option DrivenAxis
  | ((size, coordinate), axis) =>
      if fusedSymbol ∈ coordinate.freeSymbols then some ⟨axis, size, coordinate⟩ else none

def drivenAxes (fusedSymbol : Symbol) (deviceSize : List ℕ) (deviceCoordinates : List Expr) :
    List DrivenAxis :=
  (deviceSize.zip deviceCoordinates).zipIdx.filterMap (drivenAxis? fusedSymbol)

/-- The committed owner of the fused loop is the tensor's, and one canonical order has the tensor's
owners. -/
def ownerIsCanonical (sympy : Sympy) (fusedSymbol : Symbol) (fusedSplit : ℕ) (fusedSlotExpr : Expr)
    (ownership : TensorWorkDivision) (numCores : ℕ) : Bool :=
  decide ((ownership.workSlices.lookup fusedSymbol).getD 1 = fusedSplit) &&
  decide (ownership.physicalCoreCount = numCores) &&
  (match ownership.coreIdToWorkSlice.lookup fusedSymbol with
    | none => false
    | some formula =>
        coreMappingsEqual [(fusedSymbol, formula)] [(fusedSymbol, fusedSlotExpr)] numCores) &&
  match selectUniquePartitionDivision sympy (ownership.workSlices.map Prod.fst) ownership.workSlices
      numCores fun candidate => .ok (ownership.sameOwnership candidate) with
  | .ok (some _) => true
  | _ => false

/-- `physical_dim_{axis}` -/
def synthetic (axis : ℕ) : Symbol := "physical_dim_" ++ toString axis

/-- A driven axis with the width of its rectangles and the number of slices. -/
structure CutAxis extends DrivenAxis where
  width : ℕ
  factor : ℕ
  deriving DecidableEq

def cutAxes (driven : List DrivenAxis) (shape : List ℤ) : List CutAxis :=
  List.zipWith (fun axis width => ⟨axis, width.toNat, axis.size / width.toNat⟩) driven shape

def shapeOf (bounds : List (ℤ × ℤ)) : List ℤ := bounds.map fun bound => bound.2 - bound.1 + 1

/-- The slots of a rectangle, one per axis. -/
def expectedRow (cut : List CutAxis) (bounds : List (ℤ × ℤ)) : List (Symbol × ℕ) :=
  List.zipWith (fun axis bound => (synthetic axis.axis, bound.1.toNat / axis.width)) cut bounds

/-- The first order of the axes whose canonical mapping has the expected slots. -/
def physicalOrder (cut : List CutAxis) (fusedSplit : ℕ) (expected : List (List (Symbol × ℕ))) :
    List (List CutAxis) → Except FusedRejection (List (Symbol × Expr))
  | [] => .error .noPhysicalOrder
  | order :: orders =>
      match coreToSliceMapping (order.map fun axis => synthetic axis.axis)
          (order.map CutAxis.factor) fusedSplit none with
      | .error cause => .error (.slices cause)
      | .ok mapping =>
          match ownerSlots mapping (cut.map fun axis => (synthetic axis.axis, axis.factor))
              fusedSplit with
          | .error cause => .error (.slices cause)
          | .ok rows => if rows = expected then .ok mapping else physicalOrder cut fusedSplit expected orders

/-- The slots of the split axes, in the terms of the physical core. -/
def physicalSlots (sympy : Sympy) (fusedSlotExpr : Expr) (mapping : List (Symbol × Expr))
    (cut : List CutAxis) : List (ℕ × Expr) :=
  (cut.filter fun axis => 1 < axis.factor).map fun axis =>
    (axis.axis, sympy.auto (((mapping.lookup (synthetic axis.axis)).getD (.const 0)).replaceSymbol
      coreId fusedSlotExpr))

def splitDims (cut : List CutAxis) : List (ℕ × ℕ) :=
  (cut.filter fun axis => 1 < axis.factor).map fun axis => (axis.axis, axis.factor)

/-- The rectangles of one shape, checked and matched with a canonical mapping. -/
def matchRectangles (sympy : Sympy) (fusedSplit : ℕ) (fusedSlotExpr : Expr)
    (driven : List DrivenAxis) (regions : List (List (ℤ × ℤ))) :
    Except FusedRejection (List (ℕ × ℕ) × List (ℕ × Expr)) :=
  match regions with
  | [] => .error .shapesDiffer
  | bounds :: others =>
      let cut := cutAxes driven (shapeOf bounds)
      if others.any fun other => shapeOf other ≠ shapeOf bounds then .error .shapesDiffer
      else if cut.any fun axis => axis.size % axis.width ≠ 0 then .error .notDividingExtents
      else if splitDims cut = [] then .error .noSplitDimension
      else if regions.any fun other =>
          (cut.zip other).any fun (axis, bound) => bound.1.toNat % axis.width ≠ 0 then
        .error .crossesSlices
      else do
        let mapping ← physicalOrder cut fusedSplit (regions.map (expectedRow cut))
          (permutationsOf cut.length cut)
        return (splitDims cut, physicalSlots sympy fusedSlotExpr mapping cut)

def decomposeFusedSplitView (sympy : Sympy) (fusedSymbol : Symbol) (fusedSplit : ℕ)
    (fusedSlotExpr : Expr) (ownership : TensorWorkDivision) (loopExtents : IterationSpace)
    (deviceSize : List ℕ) (deviceCoordinates : List Expr) (numCores : ℕ) :
    Except FusedRejection (List (ℕ × ℕ) × List (ℕ × Expr)) :=
  if fusedSplit ≤ 1 ∨ numCores = 0 ∨ numCores % fusedSplit ≠ 0 then .error .splitDoesNotDivideCores
  else if deviceSize.length ≠ deviceCoordinates.length then .error .rankDiffers
  else
    match (loopExtents.lookup fusedSymbol).bind Expr.asInteger with
    | none => .error .extentNotConcrete
    | some extent =>
        if extent ≤ 0 ∨ extent % fusedSplit ≠ 0 then .error (.extentNotDivisible extent.toNat)
        else if maxExactOwnershipPoints < extent.toNat + fusedSplit then
          .error (.proofLimit (extent.toNat + fusedSplit))
        else if ∃ name ∈ fusedSlotExpr.freeSymbols, name ≠ coreId then .error .unresolvedOwner
        else if ownerIsCanonical sympy fusedSymbol fusedSplit fusedSlotExpr ownership numCores =
            false then .error .noCanonicalOwner
        else
          let driven := drivenAxes fusedSymbol deviceSize deviceCoordinates
          if driven.length < 2 ∨ 5 < driven.length then .error (.drivenAxes driven.length)
          else if ∃ axis ∈ driven, axis.coordinate.freeSymbols ≠ [fusedSymbol] then
            .error .otherLoops
          else
            match loopRegions sympy extent.toNat
                (driven.map fun axis =>
                  sympy.auto (axis.coordinate.replaceSymbol fusedSymbol (.sym loopPoint)))
                (driven.map DrivenAxis.size) fusedSplit true with
            | .error cause => .error (.regions cause)
            | .ok regions => matchRectangles sympy fusedSplit fusedSlotExpr driven regions

end TorchSpyre.Ownership
