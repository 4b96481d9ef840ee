import Mathlib
import TorchSpyre.Lib.Binary64
import TorchSpyre.Scratchpad.PlanSolver

/-!
# `GreedyLayoutSolver`

The time walk over lifetime endpoints: expired buffers leave `usage`, then the
buffers starting at the tick are placed into a parent's slot or into a free
block.  A paired group is placed as a whole at the first start among its members,
and withdrawn when one member does not fit.

`plan_layout` writes the addresses onto the buffers; here they are kept in the
state by name and attached to the returned list.
-/

namespace TorchSpyre.Scratchpad

open Lib

namespace Greedy

/-- An entry of `usage`: a buffer together with the address it was given. -/
structure Placement where
  buffer : LifetimeBoundBuffer
  address : ℤ
  deriving DecidableEq

def Placement.extent (placement : Placement) : Extent :=
  ⟨placement.address, placement.buffer.size⟩

structure State where
  usage : List Placement
  addresses : String → Option ℤ
  reusedParents : List String
  rejected : List String

/-! ## Free blocks -/

/-- `math.ceil(value / alignment) * alignment`; the quotient is a float. -/
def ceilAlign (alignment value : ℤ) : Except String ℤ :=
  match Binary64.trueDivide value alignment with
  | .error message => .error message
  | .ok quotient => .ok (⌈quotient⌉ * alignment)

def lowestAddrInUse : List Placement → ℤ
  | [] => 0
  | first :: rest => (rest.map Placement.address).foldl min first.address

def highestAddrInUse : List Placement → ℤ
  | [] => 0
  | first :: rest => (rest.map fun placement => placement.extent.stop).foldl max first.extent.stop

/-- The order of `(lo, hi)` tuples. -/
def SpanLE (first second : ℤ × ℤ) : Prop :=
  first.1 < second.1 ∨ (first.1 = second.1 ∧ first.2 ≤ second.2)

instance : DecidableRel SpanLE := fun first second =>
  inferInstanceAs (Decidable (first.1 < second.1 ∨ (first.1 = second.1 ∧ first.2 ≤ second.2)))

instance : Std.Total SpanLE := ⟨fun first second => by unfold SpanLE; omega⟩

instance : IsTrans (ℤ × ℤ) SpanLE := ⟨fun first second third => by unfold SpanLE; omega⟩

/-- The merge loop with `current` as the last merged span. -/
def mergeInto (current : ℤ × ℤ) : List (ℤ × ℤ) → List (ℤ × ℤ)
  | [] => [current]
  | (lo, hi) :: rest =>
      if lo ≤ current.2 then mergeInto (current.1, max current.2 hi) rest
      else current :: mergeInto (lo, hi) rest

def mergeSpans : List (ℤ × ℤ) → List (ℤ × ℤ)
  | [] => []
  | first :: rest => mergeInto first rest

def spanOf (placement : Placement) : ℤ × ℤ := (placement.address, placement.extent.stop)

def occupiedSpans (usage : List Placement) : List (ℤ × ℤ) :=
  mergeSpans ((usage.map spanOf).insertionSort SpanLE)

/-- The scan over neighbouring spans. -/
def findGap (alignment sizeNeeded : ℤ) : List (ℤ × ℤ) → Except String (Option ℤ)
  | [] => .ok none
  | [_] => .ok none
  | (_, spanEnd) :: (nextStart, nextEnd) :: rest =>
      match ceilAlign alignment spanEnd with
      | .error message => .error message
      | .ok fragStart =>
          if nextStart - fragStart ≥ sizeNeeded then .ok (some fragStart)
          else findGap alignment sizeNeeded ((nextStart, nextEnd) :: rest)

def findFreeBlock (limit alignment : ℤ) (usage : List Placement) (sizeNeeded : ℤ) :
    Except String (Option ℤ) :=
  if limit < sizeNeeded then .ok none
  else if usage = [] ∨ lowestAddrInUse usage ≥ sizeNeeded then .ok (some 0)
  else
    match ceilAlign alignment (highestAddrInUse usage) with
    | .error message => .error message
    | .ok address =>
        if address + sizeNeeded ≤ limit then .ok (some address)
        else findGap alignment sizeNeeded (occupiedSpans usage)

/-! ## Allocation -/

/-- The first declared parent in use, not handed over yet and large enough. -/
def inPlaceSlot (state : State) (buffer : LifetimeBoundBuffer) : Option Placement :=
  buffer.inPlaceParents.findSome? fun parentName =>
    if parentName ∈ state.reusedParents then none
    else
      match state.usage.find? fun placement => placement.buffer.name = parentName with
      | none => none
      | some parent => if buffer.size ≤ parent.buffer.size then some parent else none

def State.place (state : State) (buffer : LifetimeBoundBuffer) (address : ℤ) : State :=
  { state with
    usage := state.usage ++ [⟨buffer, address⟩]
    addresses := Function.update state.addresses buffer.name (some address) }

def tryAllocateOne (limit alignment : ℤ) (state : State) (buffer : LifetimeBoundBuffer) :
    Except String State :=
  match inPlaceSlot state buffer with
  | some parent =>
      .ok { state.place buffer parent.address with
        reusedParents := parent.buffer.name :: state.reusedParents }
  | none =>
      match findFreeBlock limit alignment state.usage buffer.size with
      | .error message => .error message
      | .ok (some address) => .ok (state.place buffer address)
      | .ok none =>
          .ok { state with addresses := Function.update state.addresses buffer.name none }

/-- The loop over a group; a member that does not fit restores `previous`. -/
def allocateGroup (limit alignment : ℤ) (previous : State) (group : List LifetimeBoundBuffer)
    (state : State) : List LifetimeBoundBuffer → Except String State
  | [] => .ok state
  | member :: rest =>
      match tryAllocateOne limit alignment state member with
      | .error message => .error message
      | .ok next =>
          if (next.addresses member.name).isSome then
            allocateGroup limit alignment previous group next rest
          else
            let names := group.map LifetimeBoundBuffer.name
            .ok
              { usage := previous.usage
                reusedParents := previous.reusedParents
                rejected := names ++ next.rejected
                addresses := fun name => if name ∈ names then none else next.addresses name }

/-- `paired_group_by_name`: the groups, each a list of member names. -/
abbrev Groups := List (List String)

def Groups.groupOf (groups : Groups) (name : String) : Option (List String) :=
  groups.find? fun group => name ∈ group

def tryAllocate (buffers : List LifetimeBoundBuffer) (groups : Groups) (limit alignment : ℤ)
    (state : State) (buffer : LifetimeBoundBuffer) : Except String State :=
  if (state.addresses buffer.name).isSome ∨ buffer.name ∈ state.rejected then .ok state
  else
    match groups.groupOf buffer.name with
    | none => tryAllocateOne limit alignment state buffer
    | some names =>
        let group := names.filterMap (byName buffers)
        allocateGroup limit alignment state group state group

def tryDeallocate (state : State) (buffer : LifetimeBoundBuffer) : State :=
  { state with usage := state.usage.eraseP fun placement => placement.buffer = buffer }

/-! ## The time walk -/

def deallocateAt (tick : ℤ) (state : State) (placeable : List LifetimeBoundBuffer) : State :=
  placeable.foldl
    (fun current buffer => if tick = buffer.endTime then tryDeallocate current buffer else current)
    state

section Walk

variable (buffers : List LifetimeBoundBuffer) (groups : Groups) (limit alignment : ℤ)

def allocateAt (tick : ℤ) (state : State) : List LifetimeBoundBuffer → Except String State
  | [] => .ok state
  | buffer :: rest =>
      if tick = buffer.startTime then
        match tryAllocate buffers groups limit alignment state buffer with
        | .error message => .error message
        | .ok next => allocateAt tick next rest
      else allocateAt tick state rest

def walk (placeable : List LifetimeBoundBuffer) (state : State) : List ℤ → Except String State
  | [] => .ok state
  | tick :: rest =>
      match allocateAt buffers groups limit alignment tick (deallocateAt tick state placeable)
          placeable with
      | .error message => .error message
      | .ok next => walk placeable next rest

end Walk

def sortedTimes (placeable : List LifetimeBoundBuffer) : List ℤ :=
  ((placeable.flatMap fun buffer => [buffer.startTime, buffer.endTime]).dedup).insertionSort (· ≤ ·)

/-! ## Paired groups -/

/-- The two assertions made for each member of a new group. -/
def memberError? (buffers : List LifetimeBoundBuffer) (groups : Groups) (name : String) :
    Option String :=
  if (byName buffers name).isNone then
    some ("paired buffer " ++ name ++ " is not in this solve")
  else if (groups.groupOf name).isSome then
    some ("buffer " ++ name ++ " belongs to multiple paired groups")
  else none

def registerGroups (buffers : List LifetimeBoundBuffer) (placeableNames : List String)
    (groups : Groups) (rejected : List String) :
    List LifetimeBoundBuffer → Except String (Groups × List String)
  | [] => .ok (groups, rejected)
  | root :: rest =>
      if root.pairedWith = [] then registerGroups buffers placeableNames groups rejected rest
      else
        let group := root.name :: root.pairedWith
        if ¬ group.Nodup then
          .error ("paired-buffer group for " ++ root.name ++ " contains duplicates")
        else
          match group.findSome? (memberError? buffers groups) with
          | some message => .error message
          | none =>
              registerGroups buffers placeableNames (group :: groups)
                (if group.any (· ∉ placeableNames) then group ++ rejected else rejected) rest

def planLayout (buffers : List LifetimeBoundBuffer) (limit alignment : ℤ) :
    Except String (List LifetimeBoundBuffer) :=
  if buffers = [] then .ok []
  else if buffers.any fun buffer => buffer.address.isSome then
    .error "Buffers cannot be previously or partially planned"
  else
    match checkInPlaceRelationships buffers with
    | .error message => .error message
    | .ok () =>
        let placeable := (partition limit buffers).1
        if placeable = [] then .ok buffers
        else
          match registerGroups buffers (placeable.map LifetimeBoundBuffer.name) [] [] buffers with
          | .error message => .error message
          | .ok (groups, rejected) =>
              match walk buffers groups limit alignment placeable
                  ⟨[], fun _ => none, [], rejected⟩ (sortedTimes placeable) with
              | .error message => .error message
              | .ok state =>
                  .ok (buffers.map fun buffer => buffer.located (state.addresses buffer.name))

end Greedy

end TorchSpyre.Scratchpad
