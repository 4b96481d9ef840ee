import TorchSpyre.TensorLayout.Assignment

/-!
# Resizing a device layout

Coarse tiling shrinks a host buffer and derives the layout of the tile from the layout of the
buffer.  Device dims are matched back to host dims by size, with the strides as tiebreaker; the
stick host dim is the one that is left over.

Host strides have one entry for each host dim.
-/

namespace TorchSpyre.TensorLayout

open Lib

/-- What `_resize_device_layout` raises. -/
inductive ResizeError where
  | grows (oldHostSize newHostSize : List ℤ)
  | ranksDiffer
  | oneStride
  | stickMatched (stickHostDim : ℕ) (matchedHost : List (ℕ × ℕ))
  | stickAbsent (unmatched : List ℕ)
  | ambiguousStick (unmatchedAll pstarCands : List ℕ) (matchedHost : List (ℕ × ℕ))
  | notTileCount (dim : ℕ) (strideMap deviceSize expectedTc tcStride : ℤ) (pstar : ℕ)
  | invalidLayout (deviceSize strideMap : List ℤ)
  deriving DecidableEq, Repr

/-- What the first pass makes of a device dim. -/
inductive DimMatch where
  | host (p : ℕ)
  | unmatched
  /-- Skipped silently. -/
  | placeholder
  deriving DecidableEq, Repr

/-- `matched_host` and `unmatched_j` -/
structure Matching where
  matchedHost : List (ℕ × ℕ)
  unmatched : List ℕ
  deriving DecidableEq, Repr

def ceilDiv (value elems : ℤ) : ℤ := -(-value / elems)

section Passes

variable (orig : SpyreTensorLayout) (eps : ℤ) (oldHostSize newHostSize oldHs newHs : List ℤ)
  (stickHostDim : Option ℕ)

/-- Only a stick host dim with a tile-count dim is trusted. -/
def trustedStick (given : Option ℤ) : Option ℕ :=
  match given with
  | none => none
  | some dim =>
      if 0 ≤ dim ∧ dim < oldHostSize.length then
        if ceilDiv (entry oldHostSize dim) eps ∈ orig.deviceSize.dropLast then some dim.toNat
        else none
      else none

/-- `size1_cands` and `size_cands` -/
def sizeCands (dsz : ℤ) : List ℕ :=
  (List.range oldHostSize.length).filter fun p =>
    oldHostSize.getD p 0 = dsz ∧ stickHostDim ≠ some p

def matchDim (j : ℕ) : DimMatch :=
  let dsz := orig.deviceSize.getD j 0
  let stride := orig.strideMap.getD j 0
  if dsz = 1 ∧ stride ≠ -1 then .unmatched
  else if dsz = 1 then
    match sizeCands oldHostSize stickHostDim 1 with
    | [p] => .host p
    | _ => .placeholder
  else
    match sizeCands oldHostSize stickHostDim dsz with
    | [] => .unmatched
    | [p] => .host p
    | cands =>
        match cands.filter fun p => oldHs.getD p 0 = stride with
        | [p] => .host p
        | _ => .unmatched

/-- The last device dim is the inner stick. -/
def pass1 : Matching :=
  let dims := List.range (orig.strideMap.length - 1)
  let found := matchDim orig oldHostSize oldHs stickHostDim
  { matchedHost := dims.filterMap fun j =>
      match found j with
      | .host p => some (j, p)
      | _ => none
    unmatched := dims.filter fun j => found j = .unmatched }

def unmatchedAll (matchedHost : List (ℕ × ℕ)) : List ℕ :=
  (List.range oldHostSize.length).filter fun p => p ∉ matchedHost.map Prod.snd

def pstarCands (matchedHost : List (ℕ × ℕ)) : List ℕ :=
  let wide := (unmatchedAll oldHostSize matchedHost).filter fun p => 1 < oldHostSize.getD p 0
  if wide = [] then unmatchedAll oldHostSize matchedHost else wide

/-- `_find_pstar` -/
def findPstar (matchedHost : List (ℕ × ℕ)) : Option ℕ :=
  match pstarCands oldHostSize matchedHost with
  | [p] => some p
  | _ => none

/-- A provisional match that has the size of the tile count and not the stride of its host dim. -/
def Clashes (expectedTc : ℤ) (found : ℕ × ℕ) : Prop :=
  1 < orig.deviceSize.getD found.1 0 ∧ orig.strideMap.getD found.1 0 ≠ oldHs.getD found.2 0 ∧
    orig.deviceSize.getD found.1 0 = expectedTc

instance (expectedTc : ℤ) (found : ℕ × ℕ) : Decidable (Clashes orig oldHs expectedTc found) :=
  inferInstanceAs (Decidable (_ ∧ _))

def pass1b (matching : Matching) : Matching :=
  match findPstar oldHostSize matching.matchedHost with
  | none => matching
  | some pstar =>
      let expectedTc := ceilDiv (oldHostSize.getD pstar 0) eps
      { matchedHost := matching.matchedHost.filter fun found =>
          ¬ Clashes orig oldHs expectedTc found
        unmatched := matching.unmatched ++ (matching.matchedHost.filter fun found =>
          Clashes orig oldHs expectedTc found).map Prod.fst }

/-- The stick host dim; a reduction may have removed it. -/
def finalPstar (matching : Matching) : Except ResizeError (Option ℕ) :=
  let unmatchedHosts := unmatchedAll oldHostSize matching.matchedHost
  match stickHostDim with
  | some stick =>
      if stick ∉ unmatchedHosts then .error (.stickMatched stick matching.matchedHost)
      else .ok (some stick)
  | none =>
      if unmatchedHosts = [] then
        if matching.unmatched ≠ [] then .error (.stickAbsent matching.unmatched) else .ok none
      else
        match pstarCands oldHostSize matching.matchedHost with
        | [p] => .ok (some p)
        | cands => .error (.ambiguousStick unmatchedHosts cands matching.matchedHost)

/-- A stride that does not follow its host dim stays. -/
def resizedStride (newSize original old new : ℤ) : ℤ :=
  if newSize = 1 then -1 else if original = old then new else original

def pass2Step (dims : List ℤ × List ℤ) (found : ℕ × ℕ) : List ℤ × List ℤ :=
  let newSize := newHostSize.getD found.2 0
  (dims.1.set found.1 newSize,
    dims.2.set found.1 (resizedStride newSize (orig.strideMap.getD found.1 0)
      (oldHs.getD found.2 0) (newHs.getD found.2 0)))

def pass3Step (matchedHost : List (ℕ × ℕ)) (pstar : ℕ) (dims : List ℤ × List ℤ) (j : ℕ) :
    Except ResizeError (List ℤ × List ℤ) :=
  let oldSize := oldHostSize.getD pstar 0
  let newSize := newHostSize.getD pstar 0
  let expectedTc := ceilDiv oldSize eps
  let tcStride := min eps oldSize * oldHs.getD pstar 0
  let ambiguous := (List.range oldHostSize.length).any fun p =>
    p ≠ pstar ∧ p ∉ matchedHost.map Prod.snd ∧
      oldHostSize.getD p 0 = orig.deviceSize.getD j 0
  if orig.deviceSize.getD j 0 ≠ expectedTc ∨
      (ambiguous ∧ orig.strideMap.getD j 0 ≠ tcStride) then
    .error (.notTileCount j (orig.strideMap.getD j 0) (orig.deviceSize.getD j 0) expectedTc
      tcStride pstar)
  else
    .ok (dims.1.set j (ceilDiv newSize eps),
      dims.2.set j (resizedStride newSize (orig.strideMap.getD j 0) tcStride
        (min eps newSize * newHs.getD pstar 0)))

def pass4 (pstar : ℕ) (dims : List ℤ × List ℤ) : List ℤ × List ℤ :=
  let j := orig.strideMap.length - 1
  (dims.1, dims.2.set j (resizedStride (newHostSize.getD pstar 0) (orig.strideMap.getD j 0)
    (oldHs.getD pstar 0) (newHs.getD pstar 0)))

/-- The constructor that takes the device sizes and the stride map. -/
def ofDeviceSize (dims : List ℤ × List ℤ) (dtype : DataFormats) :
    Except ResizeError SpyreTensorLayout :=
  if dims.1 = [] ∨ dims.2.length ≠ dims.1.length ∨ ∃ size ∈ dims.1, size < 0 then
    .error (.invalidLayout dims.1 dims.2)
  else
    .ok
      { deviceSize := dims.1
        strideMap := dims.2
        deviceDtype := dtype
        validElements := [] }

/-- The passes, once the host strides are settled. -/
def resizePasses : Except ResizeError SpyreTensorLayout := do
  let matching := pass1b orig eps oldHostSize oldHs (pass1 orig oldHostSize oldHs stickHostDim)
  let pstar ← finalPstar oldHostSize stickHostDim matching
  let dims := matching.matchedHost.foldl (pass2Step orig newHostSize oldHs newHs)
    (orig.deviceSize, orig.strideMap)
  match pstar with
  | none => ofDeviceSize dims orig.deviceDtype
  | some pstar =>
      let dims ← matching.unmatched.foldlM (pass3Step orig eps oldHostSize newHostSize oldHs newHs
        matching.matchedHost pstar) dims
      ofDeviceSize (pass4 orig newHostSize oldHs newHs pstar dims) orig.deviceDtype

end Passes

/-- `_resize_device_layout` -/
def resizeDeviceLayout (sendefs : Sendefs) (orig : SpyreTensorLayout)
    (oldHostSize newHostSize : List ℤ) (stickHostDim : Option ℤ)
    (oldHostStride newHostStride : Option (List ℤ)) : Except ResizeError SpyreTensorLayout :=
  let eps := elemsPerStick sendefs orig.deviceDtype
  if (oldHostSize.zip newHostSize).any fun sizes => sizes.2 > sizes.1 then
    .error (.grows oldHostSize newHostSize)
  else if oldHostSize.length ≠ newHostSize.length then .error .ranksDiffer
  else
    let stick := trustedStick orig eps oldHostSize stickHostDim
    match oldHostStride, newHostStride with
    | some oldHs, some newHs =>
        resizePasses orig eps oldHostSize newHostSize oldHs newHs stick
    | none, none =>
        -- Without the strides of the buffer, the contiguous ones stand in.
        resizePasses orig eps oldHostSize newHostSize (computeHostStride oldHostSize)
          (computeHostStride newHostSize) stick
    | _, _ => .error .oneStride

end TorchSpyre.TensorLayout
