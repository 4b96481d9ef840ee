import Mathlib
import TorchSpyre.Lib.Outcome
import TorchSpyre.Lib.StraightLine

/-!
# Deduplicating and promoting constants

`dedup_and_promote_constants` groups the constants of an operation list by value, dtype and
device, lets the readers of a repeated constant read the first one, drops the repeated one
and moves the constants that stay to the front.
-/

namespace TorchSpyre.DedupConstants

open Lib

/-! ## Constants -/

/-- A float of the source language; the sign of a zero is part of it, and a `nan` is equal
only to itself as an object. -/
inductive PyFloat where
  | negativeZero
  | finite (value : ℚ)
  | infinite (negative : Bool)
  | nan (identity : ℕ)
  deriving DecidableEq

inductive Number where
  | boolean (value : Bool)
  | integer (value : ℤ)
  | float (value : PyFloat)
  deriving DecidableEq

/-- What `==` compares numbers by. -/
inductive Magnitude where
  | finite (value : ℚ)
  | infinite (negative : Bool)
  | nan (identity : ℕ)
  deriving DecidableEq

def Number.magnitude : Number → Magnitude
  | .boolean value => .finite (if value then 1 else 0)
  | .integer value => .finite value
  | .float .negativeZero => .finite 0
  | .float (.finite value) => .finite value
  | .float (.infinite negative) => .infinite negative
  | .float (.nan identity) => .nan identity

def Number.isNegativeZero (number : Number) : Bool := number = .float .negativeZero

structure DType where
  name : String
  isFloatingPoint : Bool
  deriving DecidableEq

structure Device where
  type : String
  index : Option ℕ
  deriving DecidableEq

/-- The value a `SpyreConstantFallback` holds and its layout's dtype and device. -/
structure Constant where
  value : Number
  dtype : DType
  device : Device
  deriving DecidableEq

abbrev ConstantKey := Magnitude × DType × Device

def constantKey (constant : Constant) : ConstantKey :=
  (constant.value.magnitude, constant.dtype, constant.device)

/-! ## Operations -/

inductive Kind where
  | spyreConstantFallback (constant : Constant)
  | computedBuffer
  | other (typeName : String)
  deriving DecidableEq

/-- The buffers the body loads, and the name swaps wrapped around it, innermost first. -/
structure Operation where
  operationName : String
  name : String
  kind : Kind
  loads : List String
  swaps : List (String × String)
  deriving DecidableEq

/-- The name a load reaches through the wrapped swaps. -/
def resolve (swaps : List (String × String)) (name : String) : String :=
  swaps.foldl (fun name swap => if name = swap.1 then swap.2 else name) name

/-- A constant has no inputs. -/
def Operation.reads (operation : Operation) : List String :=
  match operation.kind with
  | .spyreConstantFallback _ => []
  | _ => operation.loads.map (resolve operation.swaps)

def Operation.key (operation : Operation) : Option ConstantKey :=
  match operation.kind with
  | .spyreConstantFallback constant => some (constantKey constant)
  | _ => none

def Operation.isConstant (operation : Operation) : Bool := operation.key.isSome

def Operation.typeName (operation : Operation) : String :=
  match operation.kind with
  | .spyreConstantFallback _ => "SpyreConstantFallback"
  | .computedBuffer => "ComputedBuffer"
  | .other typeName => typeName

structure Graph where
  operations : List Operation
  outputNames : List String
  graphInputs : List String
  removedBuffers : List String
  nameToBuffer : List String
  nameToOp : List String
  nameToUsers : String → Option (List String)

/-! ## The pass -/

/-- The groups in the order of their first constants. -/
def groups (operations : List Operation) : List (List Operation) :=
  (operations.filterMap Operation.key).eraseDups.map fun key =>
    operations.filter fun operation => operation.key = some key

/-- The repeated constants, each with the first of its group, in the order they are merged. -/
def duplicates (operations : List Operation) : List (Operation × Operation) :=
  (groups operations).flatMap fun group =>
    match group with
    | [] => []
    | canonical :: repeated => repeated.map fun dup => (dup, canonical)

def duplicateNames (graph : Graph) : List String :=
  ((duplicates graph.operations).map fun pair => pair.1.name).filter (· ∉ graph.outputNames)

/-- The operations that read a name, for the names to redirect. -/
def reverseConsumerIndex (operations : List Operation) (names : List String) (name : String) :
    List Operation :=
  if name ∈ names then operations.filter fun operation => name ∈ operation.reads else []

def patchInnerFn (swap : String × String) (consumer : Operation) : Operation :=
  { consumer with swaps := consumer.swaps ++ [swap] }

/-- The operations are patched in place, so those of the list that are consumers change. -/
def redirectConsumers (graph : Graph) (consumers : List Operation) (dup canonical : Operation) :
    Except String Graph :=
  if dup.name ∈ graph.outputNames then .ok graph
  else
    let others := consumers.filter fun operation =>
      operation.name ≠ dup.name ∧ operation.name ≠ canonical.name
    match others.find? fun operation => operation.kind ≠ .computedBuffer with
    | some operation =>
        let typeName := operation.typeName
        let name := dup.name
        .error (s!"dedup_and_promote_constants: unsupported consumer type {typeName} " ++
          s!"reads constant '{name}' — cannot rewrite")
    | none =>
        .ok { graph with
          operations := graph.operations.map fun operation =>
            if operation.name ∈ others.map Operation.name then
              patchInnerFn (dup.name, canonical.name) operation
            else operation }

def dropConstant (graph : Graph) (dup canonical : Operation) : Graph :=
  let extraUsers := (graph.nameToUsers dup.name).getD []
  { graph with
    operations := graph.operations.filter fun operation => operation.name ≠ dup.name
    removedBuffers := graph.removedBuffers ++ [dup.name]
    nameToBuffer := graph.nameToBuffer.filter (· ≠ dup.name)
    nameToOp := graph.nameToOp.filter (· ≠ dup.operationName)
    nameToUsers := fun name =>
      if name = dup.name then none
      else if name = canonical.name ∧ extraUsers ≠ [] then
        some ((graph.nameToUsers name).getD [] ++ extraUsers)
      else graph.nameToUsers name }

def mergeDuplicate (consumersByName : String → List Operation) (graph : Graph)
    (pair : Operation × Operation) : Except String Graph := do
  let graph ← redirectConsumers graph (consumersByName pair.1.name) pair.1 pair.2
  pure (dropConstant graph pair.1 pair.2)

def frontLoad (operations : List Operation) : List Operation :=
  operations.filter Operation.isConstant ++ operations.filter fun operation => ¬ operation.isConstant

def dedupAndPromoteConstants (graph : Graph) : Except String Graph := do
  let consumersByName := reverseConsumerIndex graph.operations (duplicateNames graph)
  let merged ← (duplicates graph.operations).foldlM (mergeDuplicate consumersByName) graph
  pure { merged with operations := frontLoad merged.operations }

end TorchSpyre.DedupConstants
