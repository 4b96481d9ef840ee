import Mathlib
import TorchSpyre.Lib.Box
import TorchSpyre.TensorLayout.Layout

/-!
# Copies between host and device

A copy is described by strided loops over the device dimensions.  Which host dimension
a device dimension belongs to is found again from the strides, and a last stick that is
not full gets a description of its own.

Vectors with one entry per dimension are functions on the dimensions, and `-1` in
`dim_map` is `none`.
-/

namespace TorchSpyre.TensorLayout

open Lib

/-- A strided loop: element `index` goes from `offset_src + ∑ index * stride_src` to
`offset_dst + ∑ index * stride_dst`, for every index below `size`. -/
structure DataConversionStrideInfo (rank : ℕ) where
  size : Fin rank → ℤ
  strideSrc : Fin rank → ℤ
  strideDst : Fin rank → ℤ
  offsetSrc : ℤ
  offsetDst : ℤ

section Maps

variable {hostRank deviceRank : ℕ} (sizes strides : Fin hostRank → ℤ)
  (deviceSizes strideMap : Fin deviceRank → ℤ)

/-! ## Which host dimension a device dimension belongs to -/

/-- One host dimension in the scan of a device dimension; the state is `max_stride_le`
with `dim_map` at that device dimension. -/
def scanDim (j : Fin deviceRank) (state : ℤ × Option (Fin hostRank)) (i : Fin hostRank) :
    ℤ × Option (Fin hostRank) :=
  if sizes i = 1 then state
  else if strides i = 0 then state
  else if deviceSizes j = 1 then state
  else if state.1 < strides i ∧ strides i ≤ strideMap j then (strides i, some i)
  else state

def closestDim (j : Fin deviceRank) : Option (Fin hostRank) :=
  ((List.finRange hostRank).foldl (scanDim sizes strides deviceSizes strideMap j) (0, none)).2

def stickDimIndex (deviceRank : ℕ) : ℕ := if 2 < deviceRank then deviceRank - 3 else 0

/-- The last device dimension, where there is one. -/
def lastDim (j : Fin deviceRank) : Fin deviceRank :=
  ⟨deviceRank - 1, Nat.sub_lt j.pos Nat.one_pos⟩

def getDimMap (j : Fin deviceRank) : Option (Fin hostRank) :=
  let dimMap := closestDim sizes strides deviceSizes strideMap
  if j.val = stickDimIndex deviceRank ∧ dimMap j ≠ none then dimMap (lastDim j) else dimMap j

/-- `insert` of an ordered map: a key that is present keeps its value. -/
def insertPair (pairs : List (ℤ × Fin deviceRank)) (pair : ℤ × Fin deviceRank) :
    List (ℤ × Fin deviceRank) :=
  if pairs.any fun other => other.1 = pair.1 then pairs
  else pairs.orderedInsert (fun first second => first.1 ≤ second.1) pair

/-- The device dimensions of a host dimension under their strides; the last one is the
stick and comes first. -/
def tilePairs (dim : Fin hostRank) : List (ℤ × Fin deviceRank) :=
  let dimMap := getDimMap sizes strides deviceSizes strideMap
  let stick := (List.finRange deviceRank).filter fun j => j.val + 1 = deviceRank ∧ dimMap j = some dim
  let outer := (List.finRange deviceRank).reverse.filter fun j =>
    j.val + 1 ≠ deviceRank ∧ dimMap j = some dim
  (stick.map (fun j => (-1, j)) ++ outer.map fun j => (strideMap j, j)).foldl insertPair []

def getTileMap (dim : Fin hostRank) : List (Fin deviceRank) :=
  (tilePairs sizes strides deviceSizes strideMap dim).map Prod.snd

end Maps

/-! ## The strided loops -/

/-- What a partial last tile adds: its size and where it starts. -/
structure Remainder (rank : ℕ) where
  size : Fin rank → ℤ
  hostOffset : ℤ
  deviceOffset : ℤ

structure Conversion (rank : ℕ) where
  dcsiSizes : Fin rank → ℤ
  remainders : List (Remainder rank)

inductive ConversionError where
  /-- `Invalid stride map: zero DMA stride for host dimension` -/
  | zeroHostStride
  /-- `Invalid device size ... for device dimension` -/
  | deviceSize
  /-- `Invalid device sizes and stride map for host sizes and strides` -/
  | sizes
  /-- `Invalid stride map: device dimension ... has stride ... which is smaller than the
  host DMA stride` -/
  | smallStride
  /-- `Invalid tiling for dimension` -/
  | tiling
  deriving DecidableEq

section Tiles

variable {rank : ℕ} (deviceSizes hostStrides deviceStrides : Fin rank → ℤ)
  (hostStride hostSize : ℤ)

/-- The device dimensions of one host dimension, from the outermost in. -/
def walkTiles : List (Fin rank) → ℤ → Conversion rank → Except ConversionError (Conversion rank)
  | [], _, conversion => .ok conversion
  | tile :: inner, elementsBefore, conversion =>
      if hostStride = 0 then .error .zeroHostStride
      else
        let tileStride := (hostStrides tile).tdiv hostStride
        let tileSize := deviceSizes tile
        if tileSize = 1 then walkTiles inner elementsBefore conversion
        else if ¬ tileSize > 0 then .error .deviceSize
        else if ¬ elementsBefore > 0 then .error .sizes
        else if hostSize.tmod elementsBefore ≠ 0 then .error .sizes
        else
          let currentElements := hostSize.tdiv elementsBefore
          if tileStride = 0 then .error .smallStride
          else
            let remainingElements := currentElements.tdiv tileStride
            if ¬ remainingElements > 0 then .error .sizes
            else if currentElements.tmod tileStride = 0 then
              let size := min remainingElements tileSize
              walkTiles inner (elementsBefore * size)
                { conversion with dcsiSizes := Function.update conversion.dcsiSizes tile size }
            else
              match inner with
              | [] => .error .tiling
              | next :: inner =>
                  let nextSize := deviceSizes next
                  let nextStride := (hostStrides next).tdiv hostStride
                  if nextStride = 0 then .error .smallStride
                  else if ¬ nextSize > 0 then .error .deviceSize
                  else
                    let tiledElements := currentElements.tdiv nextStride
                    walkTiles inner (elementsBefore * tiledElements)
                      { dcsiSizes := Function.update
                          (Function.update conversion.dcsiSizes tile remainingElements) next nextSize
                        remainders := conversion.remainders ++
                          [{ size := Function.update (Function.update (fun _ => 0) tile 1) next
                              (tiledElements.tmod nextSize)
                             hostOffset := remainingElements * hostStrides tile
                             deviceOffset := remainingElements * deviceStrides tile }] }

end Tiles

section Infos

variable {hostRank deviceRank : ℕ} (sizes strides : Fin hostRank → ℤ)
  (deviceSizes strideMap : Fin deviceRank → ℤ)

/-- The size of a host dimension with the leading ones that are not tiled folded in. -/
def foldedSize (tileMap : Fin hostRank → List (Fin deviceRank)) (i : Fin hostRank) : ℤ :=
  ((((List.finRange hostRank).filter (· < i)).reverse.takeWhile fun j => tileMap j = []).filter
    fun j => strides j ≠ 0).foldl (fun size j => size * sizes j) (sizes i)

def hostStridesOf (j : Fin deviceRank) : ℤ := if strideMap j = -1 then 1 else strideMap j

def convertDim (conversion : Conversion deviceRank) (i : Fin hostRank) :
    Except ConversionError (Conversion deviceRank) :=
  let tileMap := getTileMap sizes strides deviceSizes strideMap
  walkTiles deviceSizes (hostStridesOf strideMap) (stride deviceSizes) (strides i)
    (foldedSize sizes strides tileMap i) (tileMap i).reverse 1 conversion

def conversionOf : Except ConversionError (Conversion deviceRank) :=
  (List.finRange hostRank).reverse.foldlM (convertDim sizes strides deviceSizes strideMap)
    { dcsiSizes := fun j => if strideMap j = 0 then deviceSizes j else 1
      remainders := [] }

/-- The first loop, over the tiles that are full.  The dimensions come out reversed. -/
def firstInfo (cpuOffset deviceOffset : ℤ) (host2device : Bool) (dcsiSizes : Fin deviceRank → ℤ) :
    DataConversionStrideInfo deviceRank :=
  let hostStrides : Fin deviceRank → ℤ := fun k => hostStridesOf strideMap k.rev
  let deviceStrides : Fin deviceRank → ℤ := fun k => stride deviceSizes k.rev
  { size := fun k => dcsiSizes k.rev
    strideSrc := if host2device then hostStrides else deviceStrides
    strideDst := if host2device then deviceStrides else hostStrides
    offsetSrc := if host2device then cpuOffset else deviceOffset
    offsetDst := if host2device then deviceOffset else cpuOffset }

def remainderInfo (host2device : Bool) (remainder : Remainder deviceRank)
    (info : DataConversionStrideInfo deviceRank) : DataConversionStrideInfo deviceRank :=
  { info with
    size := fun k => if remainder.size k.rev = 0 then info.size k else remainder.size k.rev
    offsetSrc := info.offsetSrc +
      if host2device then remainder.hostOffset else remainder.deviceOffset
    offsetDst := info.offsetDst +
      if host2device then remainder.deviceOffset else remainder.hostOffset }

def getDeviceStrideInfos (cpuOffset deviceOffset : ℤ) (host2device : Bool) :
    Except ConversionError (List (DataConversionStrideInfo deviceRank)) := do
  let conversion ← conversionOf sizes strides deviceSizes strideMap
  return conversion.remainders.foldl
    (fun infos remainder => infos ++ infos.map (remainderInfo host2device remainder))
    [firstInfo deviceSizes strideMap cpuOffset deviceOffset host2device conversion.dcsiSizes]

end Infos

/-- A list with one entry per dimension. -/
def vector (rank : ℕ) (values : List ℤ) (dim : Fin rank) : ℤ := values.getD dim 0

/-- The descriptions of a copy to or from a tensor with the given layout. -/
def layoutStrideInfos (sizes strides : List ℤ) (layout : SpyreTensorLayout)
    (cpuOffset deviceOffset : ℤ) (host2device : Bool) :
    Except ConversionError (List (DataConversionStrideInfo layout.strideMap.length)) :=
  getDeviceStrideInfos (vector strides.length sizes) (vector strides.length strides)
    (vector layout.strideMap.length layout.deviceSize) (vector _ layout.strideMap) cpuOffset
    deviceOffset host2device

end TorchSpyre.TensorLayout
