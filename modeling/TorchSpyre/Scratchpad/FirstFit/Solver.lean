import Mathlib
import TorchSpyre.Lib.Binary64
import TorchSpyre.Lib.TopologicalSort
import TorchSpyre.Scratchpad.PlanSolver

/-!
# `FirstFitLayoutSolver` and `BestFitLayoutSolver`

Buffers are placed one after the other, parents before children and otherwise by
score.  Each one goes to a declared parent's address when the whole slot of the
parent lies in one gap left by the other live buffers, else to the aligned start
of a gap left by all live buffers.  The two solvers differ in `_pick_gap` only.
-/

namespace TorchSpyre.Scratchpad.FirstFit

open Lib

structure Gap where
  start : ℤ
  stop : ℤ
  inPlaceParents : List String := []
  deriving DecidableEq

/-! ## The order of placement -/

/-- `name_to_idx`: the last index of a name. -/
def nameToIdx (buffers : List LifetimeBoundBuffer) (name : String) : Option ℕ :=
  (List.range buffers.length).reverse.find? fun index =>
    buffers[index]?.map LifetimeBoundBuffer.name = some name

def parentIndices (buffers : List LifetimeBoundBuffer) (index : ℕ) : List ℕ :=
  match buffers[index]? with
  | none => []
  | some child => child.inPlaceParents.filterMap (nameToIdx buffers)

def topologicalSort (buffers : List LifetimeBoundBuffer) :
    Except String (List LifetimeBoundBuffer) :=
  let result := (TopologicalSort.sort buffers.length (parentIndices buffers)).filterMap
    fun index => buffers[index]?
  if result.length = buffers.length then .ok result
  else .error "Cycle detected in in-place parent relationships"

def span (buffer : LifetimeBoundBuffer) : ℤ := buffer.endTime - buffer.startTime

/-- The conversion of an integer to a float is out of range. -/
def floatOverflows (value : ℤ) : Prop := (2 : ℚ) ^ 1024 ≤ |Binary64.nearest value|

instance (value : ℤ) : Decidable (floatOverflows value) := inferInstanceAs (Decidable (_ ≤ _))

/-- `_sort_key`; differences, sums and the quotient are rounded to floats. -/
def sortKey (parentNames : List String) (buffer : LifetimeBoundBuffer) : ℚ × ℤ :=
  let discount : ℚ :=
    (if buffer.inPlaceParents = [] then 0 else 1 / 4) +
      (if buffer.name ∈ parentNames then 1 / 4 else 0)
  let uses := Binary64.nearest
    (Binary64.nearest buffer.uses.length + if buffer.firstUseIsRead then 0 else 1 / 2)
  (Binary64.nearest (Binary64.nearest (Binary64.nearest (span buffer) - discount) / uses),
    span buffer)

/-- The order of key tuples. -/
def KeyLE (first second : ℚ × ℤ) : Prop :=
  first.1 < second.1 ∨ (first.1 = second.1 ∧ first.2 ≤ second.2)

instance : DecidableRel KeyLE := fun first second =>
  inferInstanceAs (Decidable (first.1 < second.1 ∨ (first.1 = second.1 ∧ first.2 ≤ second.2)))

def sortByKey (buffers : List LifetimeBoundBuffer) : List LifetimeBoundBuffer :=
  let parentNames := buffers.flatMap LifetimeBoundBuffer.inPlaceParents
  buffers.insertionSort fun first second =>
    KeyLE (sortKey parentNames first) (sortKey parentNames second)

/-! ## Gaps -/

def allMinus (gaps : List Gap) (low high minimumSize : ℤ) : List Gap :=
  gaps.flatMap fun gap =>
    (if gap.start < low then
        if gap.stop < low then
          if gap.stop - gap.start ≥ minimumSize then [⟨gap.start, gap.stop, []⟩] else []
        else if low - gap.start ≥ minimumSize then [⟨gap.start, low, []⟩] else []
      else []) ++
    (if gap.stop > high then
        if gap.start > high then
          if gap.stop - gap.start ≥ minimumSize then [⟨gap.start, gap.stop, []⟩] else []
        else if gap.stop - high ≥ minimumSize then [⟨high, gap.stop, []⟩] else []
      else [])

/-- One step of the first pass. -/
def subtractPlaced (buffer : LifetimeBoundBuffer) (parentNames : List String) (gaps : List Gap)
    (other : LifetimeBoundBuffer) : List Gap :=
  match other.address with
  | none => gaps
  | some address =>
      if other.name ∈ parentNames then gaps
      else if ¬ other.overlapsInTime buffer then gaps
      else allMinus gaps address (address + other.size) buffer.size

/-- Declared parents whose slot lies in the gap, in declaration order. -/
def parentsWithin (buffer : LifetimeBoundBuffer) (placed : List LifetimeBoundBuffer) (gap : Gap) :
    List String :=
  buffer.inPlaceParents.filter fun parentName =>
    match byName placed parentName with
    | none => false
    | some parent =>
        match parent.address with
        | none => false
        | some address => decide (gap.start ≤ address ∧ address + parent.size ≤ gap.stop)

def buildGaps (limit : ℤ) (buffer : LifetimeBoundBuffer) (placed : List LifetimeBoundBuffer)
    (reuseInPlaceParents : Bool) : List Gap :=
  let parentNames := if reuseInPlaceParents then buffer.inPlaceParents else []
  (placed.foldl (subtractPlaced buffer parentNames) [⟨0, limit, []⟩]).map fun gap =>
    { gap with inPlaceParents := gap.inPlaceParents ++ parentsWithin buffer placed gap }

def roundUpToAlignment (arg alignment : ℤ) : Except String ℤ :=
  if alignment = 0 then .error "integer division or modulo by zero"
  else .ok ((arg + alignment - 1).fdiv alignment * alignment)

/-- `FirstFitLayoutSolver._pick_gap` -/
def pickFirst (alignment size : ℤ) : List Gap → Except String (Option Gap)
  | [] => .ok none
  | gap :: rest =>
      match roundUpToAlignment gap.start alignment with
      | .error message => .error message
      | .ok address =>
          if address + size ≤ gap.stop then .ok (some gap) else pickFirst alignment size rest

/-- `BestFitLayoutSolver._pick_gap`, with `best_gap` and `best_waste`. -/
def pickBest (alignment size : ℤ) (best : Option (Gap × ℤ)) :
    List Gap → Except String (Option Gap)
  | [] => .ok (best.map Prod.fst)
  | gap :: rest =>
      match roundUpToAlignment gap.start alignment with
      | .error message => .error message
      | .ok address =>
          if address + size ≤ gap.stop then
            let waste := gap.stop - address - size
            match best with
            | none => pickBest alignment size (some (gap, waste)) rest
            | some (bestGap, bestWaste) =>
                if waste < bestWaste then pickBest alignment size (some (gap, waste)) rest
                else pickBest alignment size (some (bestGap, bestWaste)) rest
          else pickBest alignment size best rest

inductive Policy where
  | first
  | best
  deriving DecidableEq

def pickGap (policy : Policy) (alignment size : ℤ) (gaps : List Gap) : Except String (Option Gap) :=
  match policy with
  | .first => pickFirst alignment size gaps
  | .best => pickBest alignment size none gaps

/-! ## Placement -/

section Plan

variable (policy : Policy) (limit alignment : ℤ)

/-- The address given to a buffer after `placed`. -/
def placeOne (placed : List LifetimeBoundBuffer) (namesToAddresses : String → Option ℤ)
    (buffer : LifetimeBoundBuffer) : Except String (Option ℤ) :=
  let reusable := (buildGaps limit buffer placed true).filter fun gap => gap.inPlaceParents ≠ []
  match pickGap policy alignment buffer.size reusable with
  | .error message => .error message
  | .ok (some gap) =>
      match gap.inPlaceParents with
      | [] => .error "list index out of range"
      | parent :: _ =>
          match namesToAddresses parent with
          | none => .error parent
          | some address => .ok (some address)
  | .ok none =>
      match pickGap policy alignment buffer.size (buildGaps limit buffer placed false) with
      | .error message => .error message
      | .ok none => .ok none
      | .ok (some gap) =>
          match roundUpToAlignment gap.start alignment with
          | .error message => .error message
          | .ok address => .ok (some address)

/-- The placement loop, returning `names_to_addresses`. -/
def placeAll (placed : List LifetimeBoundBuffer) (namesToAddresses : String → Option ℤ) :
    List LifetimeBoundBuffer → Except String (String → Option ℤ)
  | [] => .ok namesToAddresses
  | buffer :: rest =>
      match placeOne policy limit alignment placed namesToAddresses buffer with
      | .error message => .error message
      | .ok none => placeAll (placed ++ [buffer]) namesToAddresses rest
      | .ok (some address) =>
          placeAll (placed ++ [buffer.located (some address)])
            (Function.update namesToAddresses buffer.name (some address)) rest

def planLayout (buffers : List LifetimeBoundBuffer) : Except String (List LifetimeBoundBuffer) :=
  if buffers = [] then .ok []
  else if buffers.any fun buffer => buffer.address.isSome then
    .error "Buffers cannot be previously or partially planned"
  else
    match checkInPlaceRelationships buffers with
    | .error message => .error message
    | .ok () =>
        let filtered := (partition limit buffers).1.filter fun buffer =>
          buffer.endTime ≥ buffer.startTime + 1
        if filtered.any fun buffer => floatOverflows (span buffer) then
          .error "int too large to convert to float"
        else
          match topologicalSort (sortByKey filtered) with
          | .error message => .error message
          | .ok sorted =>
              match placeAll policy limit alignment [] (fun _ => none) sorted with
              | .error message => .error message
              | .ok namesToAddresses =>
                  .ok (buffers.map fun buffer => buffer.located (namesToAddresses buffer.name))

end Plan

end TorchSpyre.Scratchpad.FirstFit
