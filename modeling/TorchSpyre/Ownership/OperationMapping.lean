import Mathlib
import TorchSpyre.Lib.Dict
import TorchSpyre.Lib.Positional
import TorchSpyre.Ownership.Mapping

/-!
# The core mapping of an operation

An operation's mapping numbers its cores by one digit per split dimension.  The
default takes the dimensions in the order of the iteration space.  Where tensors
in the scratchpad already own slices, the dimensions they constrain become the
outermost digits, and the orders of these are searched.
-/

namespace TorchSpyre.Ownership

open Lib Lib.Symbolic Lib.Positional

inductive MappingError where
  | slices (cause : OwnershipError)
  | splitCount (dims splits : ℕ)
  | splitProduct (product numCores : ℕ)
  | unknownGroupedDims (dims : List Symbol)
  | groupedSplit (dim : Symbol) (grouped split : ℕ)
  | groupsDoNotDivide
  | groupsNotFilled
  | coreDomains (tensor operation : ℕ)
  | unknownDim (dim : Symbol)
  | splitDiffers (dim : Symbol) (tensor operation : ℕ)
  /-- `KeyError` -/
  | noOwnerSlot (dim : Symbol)
  | tensorsDisagree (dim : Symbol)
  | tooManyDims (count : ℕ)
  | noMapping
  deriving DecidableEq

def sliced (outcome : Except OwnershipError (List (Symbol × Expr))) :
    Except MappingError (List (Symbol × Expr)) :=
  match outcome with
  | .error cause => .error (.slices cause)
  | .ok mapping => .ok mapping

/-! ## One mapping from group geometry -/

/-- `dims.index(dim)` where the dimension is present. -/
def positionOf (dims : List Symbol) (dim : Option Symbol) : Option ℕ :=
  match dim with
  | none => none
  | some dim => if dim ∈ dims then some (dims.idxOf dim) else none

/-- The first grouped dimension whose split is not the operation's. -/
def groupedMismatch (pairs groupedSplits : List (Symbol × ℕ)) : Option MappingError :=
  groupedSplits.findSome? fun entry =>
    if pairs.lookup entry.1 = some entry.2 then none
    else some (.groupedSplit entry.1 entry.2 ((pairs.lookup entry.1).getD 1))

/-- `{dim: expression.subs(core_id, core)}` -/
def rebased (sympy : Sympy) (core : Expr) (mapping : List (Symbol × Expr)) :
    List (Symbol × Expr) :=
  mapping.map fun entry => (entry.1, sympy.auto (entry.2.replaceSymbol coreId core))

/-- The dimensions left inside each group. -/
def localPairs (pairs grouped : List (Symbol × ℕ)) : List (Symbol × ℕ) :=
  pairs.filter fun entry => entry.1 ∉ grouped.map Prod.fst

def groupId (sympy : Sympy) (groupSize : ℕ) : Expr :=
  sympy.auto (.floor (.mul (.const (1 / groupSize)) (.sym coreId)))

def localCoreId (sympy : Sympy) (groupSize : ℕ) : Expr :=
  sympy.auto (.mod (.sym coreId) groupSize.toPNat')

/-- The grouped dimensions number the groups, the local ones the cores of a group. -/
def groupedMapping (sympy : Sympy) (locals grouped : List (Symbol × ℕ)) (groupSize : ℕ)
    (contiguousDim : Option Symbol) : Except MappingError (List (Symbol × Expr)) := do
  let ownerMapping ← sliced (coreToSliceMapping (grouped.map Prod.fst) (grouped.map Prod.snd)
    (capacity grouped) none)
  let localMapping ← sliced (coreToSliceMapping (locals.map Prod.fst) (locals.map Prod.snd)
    groupSize (positionOf (locals.map Prod.fst) contiguousDim))
  return rebased sympy (groupId sympy groupSize) ownerMapping ++
    rebased sympy (localCoreId sympy groupSize) localMapping

def deriveCoreMapping (sympy : Sympy) (dims : List Symbol) (dimSplits : List ℕ) (numCores : ℕ)
    (contiguousDim : Option Symbol) (groupedSplits : List (Symbol × ℕ)) :
    Except MappingError (List (Symbol × Expr)) :=
  let pairs := dims.zip dimSplits
  let unknownDims := (groupedSplits.map Prod.fst).filter (· ∉ dims)
  if dims.length ≠ dimSplits.length then .error (.splitCount dims.length dimSplits.length)
  else if dimSplits.prod ≠ numCores then .error (.splitProduct dimSplits.prod numCores)
  else if unknownDims ≠ [] then .error (.unknownGroupedDims unknownDims)
  else
    match groupedMismatch pairs groupedSplits with
    | some mismatch => .error mismatch
    | none =>
        if groupedSplits = [] then
          sliced (coreToSliceMapping dims dimSplits numCores (positionOf dims contiguousDim))
        else
          let ownerCount := capacity groupedSplits
          let groupSize := numCores / ownerCount
          if ownerCount = 0 ∨ numCores % ownerCount ≠ 0 then .error .groupsDoNotDivide
          else if capacity (localPairs pairs groupedSplits) ≠ groupSize then .error .groupsNotFilled
          else groupedMapping sympy (localPairs pairs groupedSplits) groupedSplits groupSize contiguousDim

/-! ## The operation's mapping -/

/-- One split dimension of a tensor; `setdefault` keeps the first owner expression. -/
def constrainDim (pairs : List (Symbol × ℕ)) (numCores : ℕ) (division : TensorWorkDivision)
    (constrained : List (Symbol × Expr)) (entry : Symbol × ℕ) :
    Except MappingError (List (Symbol × Expr)) :=
  if entry.2 ≤ 1 then .ok constrained
  else
    match pairs.lookup entry.1 with
    | none => .error (.unknownDim entry.1)
    | some split =>
        if split ≠ entry.2 then .error (.splitDiffers entry.1 entry.2 split)
        else
          match division.coreIdToWorkSlice.lookup entry.1 with
          | none => .error (.noOwnerSlot entry.1)
          | some expression =>
              match constrained.lookup entry.1 with
              | none =>
                  if coreMappingsEqual [(entry.1, expression)] [(entry.1, expression)] numCores then
                    .ok (constrained ++ [(entry.1, expression)])
                  else .error (.tensorsDisagree entry.1)
              | some previous =>
                  if coreMappingsEqual [(entry.1, previous)] [(entry.1, expression)] numCores then
                    .ok constrained
                  else .error (.tensorsDisagree entry.1)

def constrainDivision (pairs : List (Symbol × ℕ)) (numCores : ℕ)
    (constrained : List (Symbol × Expr)) :
    Option TensorWorkDivision → Except MappingError (List (Symbol × Expr))
  | none => .ok constrained
  | some division =>
      if division.physicalCoreCount ≠ numCores then
        .error (.coreDomains division.physicalCoreCount numCores)
      else division.workSlices.foldlM (constrainDim pairs numCores division) constrained

/-- The mapping gives every constrained dimension its owners. -/
def meets (mapping constrained : List (Symbol × Expr)) (numCores : ℕ) : Bool :=
  constrained.all fun entry =>
    match mapping.lookup entry.1 with
    | none => false
    | some formula => coreMappingsEqual [(entry.1, formula)] [entry] numCores

/-- The first candidate that gives every constrained dimension its owners. -/
def firstMeeting (candidate : List Symbol → Except MappingError (List (Symbol × Expr)))
    (constrained : List (Symbol × Expr)) (numCores : ℕ) :
    List (List Symbol) → Except MappingError (List (Symbol × Expr))
  | [] => .error .noMapping
  | order :: orders => do
      let mapping ← candidate order
      if meets mapping constrained numCores then return mapping
      else firstMeeting candidate constrained numCores orders

/-- The dimensions with their splits. -/
def splitPairs (space : Dict Symbol (Expr × ℕ)) : List (Symbol × ℕ) :=
  space.entries.map fun entry => (entry.1, entry.2.2)

def groupedBy (pairs : List (Symbol × ℕ)) (order : List Symbol) : List (Symbol × ℕ) :=
  order.map fun dim => (dim, (pairs.lookup dim).getD 1)

def deriveOperationMapping (sympy : Sympy) (space : Dict Symbol (Expr × ℕ))
    (tensorDivisions : List (Option TensorWorkDivision)) (contiguousDim : Option Symbol) :
    Except MappingError (List (Symbol × Expr)) :=
  let pairs := splitPairs space
  let numCores := capacity pairs
  let derive := deriveCoreMapping sympy (pairs.map Prod.fst) (pairs.map Prod.snd) numCores
    contiguousDim
  do
    let constrained ← tensorDivisions.foldlM (constrainDivision pairs numCores) []
    if constrained = [] then derive []
    else do
      let default ← derive []
      if meets default constrained numCores then return default
      else if maxOwnerPermutationDims < constrained.length then
        .error (.tooManyDims constrained.length)
      else
        firstMeeting (fun order => derive (groupedBy pairs order)) constrained numCores
          (permutationsOf constrained.length
            ((constrained.map Prod.fst).insertionSort (· ≤ ·)))

end TorchSpyre.Ownership
