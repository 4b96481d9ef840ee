import Mathlib
import TorchSpyre.Lib.Outcome

/-!
# Device layouts

A tensor is stored on the device in sticks: the stick dimension of the host shape is
cut into pieces that fill a stick, and the other dimensions are stored around them in
the order of `dim_order`.  Machine integers are integers here; where the source checks
a product for overflow, so does the model.

Stick geometry comes from the DeepTools tables, which are a parameter.
-/

namespace TorchSpyre.TensorLayout

/-! ## Data types -/

inductive DataFormats where
  | ieeeFp16 | sen169Fp16 | ieeeFp32 | senInt8 | senInt16 | ieeeInt32 | ieeeInt64 | bool
  | bfloat16 | senUint32 | senUint2 | senUint8 | senInt4 | senInt2 | sen143Fp8 | sen152Fp8
  | sen153Fp9 | senInt24 | invalid
  deriving DecidableEq, Repr

inductive ScalarType where
  | byte | char | float8E4m3fn | float8E5m2fnuz | short | int | long | half | float | double
  | bool | bfloat16 | complexHalf | complexFloat | complexDouble | qint8 | quint8 | qint32
  | quint4x2 | quint2x4 | undefined
  deriving DecidableEq, Repr

def torchScalarToString : ScalarType → String
  | .byte => "uint8"
  | .char => "int8"
  | .float8E4m3fn => "fp8_143"
  | .float8E5m2fnuz => "fp8_152"
  | .short => "int16"
  | .int => "int32"
  | .long => "int64"
  | .half => "float16"
  | .float => "float32"
  | .double => "float64"
  | .bool => "bool"
  | .bfloat16 => "bfloat16"
  | .complexHalf => "complex32"
  | .complexFloat => "complex64"
  | .complexDouble => "complex128"
  | .qint8 => "qint8"
  | .quint8 => "quint8"
  | .qint32 => "qint32"
  | .quint4x2 => "quint4x2"
  | .quint2x4 => "quint2x4"
  | .undefined => "undefined"

/-- Format on the CPU side and on the Spyre side. -/
def typeMap : List (String × DataFormats × DataFormats) :=
  [("float16", .ieeeFp16, .sen169Fp16), ("float32", .ieeeFp32, .ieeeFp32),
    ("int8", .senInt8, .senInt8), ("int16", .senInt16, .senInt16),
    ("int32", .ieeeInt32, .ieeeInt32), ("int64", .ieeeInt64, .ieeeInt32),
    ("bool", .bool, .sen169Fp16), ("bfloat16", .bfloat16, .sen169Fp16),
    ("quint8", .senUint32, .senUint32), ("qint8", .senInt8, .senInt8),
    ("quint4x2", .senUint2, .senUint2), ("quint2x4", .senUint2, .senUint2),
    ("uint8", .senUint8, .senUint32), ("int4", .senInt4, .senInt4), ("int2", .senInt2, .senInt2),
    ("fp8_143", .sen143Fp8, .sen143Fp8), ("fp8_152", .sen152Fp8, .sen152Fp8),
    ("fp9_153", .sen153Fp9, .sen153Fp9), ("int24", .senInt24, .senInt24)]

def stringToDTDataFormatPair (typeName : String) : DataFormats × DataFormats :=
  (typeMap.lookup typeName).getD (.invalid, .invalid)

def getDeviceDtype (dtype : ScalarType) : DataFormats :=
  (stringToDTDataFormatPair (torchScalarToString dtype)).2

/-- Bytes of one host element. -/
def elementSize : ScalarType → ℕ
  | .byte | .char | .float8E4m3fn | .float8E5m2fnuz | .bool | .qint8 | .quint8 | .quint4x2
  | .quint2x4 => 1
  | .short | .half | .bfloat16 => 2
  | .int | .float | .complexHalf | .qint32 => 4
  | .long | .double | .complexFloat => 8
  | .complexDouble => 16
  | .undefined => 0

/-- The DeepTools tables. -/
structure Sendefs where
  dataFormatToStickSize : DataFormats → Option ℤ
  getNumElemsInStick : DataFormats → ℤ
  getSizeInBits : DataFormats → ℤ

section Layout

variable (sendefs : Sendefs)

def elemsPerStick (format : DataFormats) : ℤ :=
  match (sendefs.dataFormatToStickSize format).filter (0 < ·) with
  | some elems => elems
  | none =>
      if format ∈ [DataFormats.ieeeInt32, .ieeeInt64, .bool, .bfloat16] then
        sendefs.getNumElemsInStick format
      else 0

def isSupportedDtype (dtype : ScalarType) : Bool :=
  getDeviceDtype dtype ≠ .invalid ∧ elemsPerStick sendefs (getDeviceDtype dtype) > 0

/-! ## The layout -/

/-- Its element arrangement is left at `STANDARD` by everything modelled here. -/
structure SpyreTensorLayout where
  deviceSize : List ℤ
  strideMap : List ℤ
  deviceDtype : DataFormats
  validElements : List (List ℕ × ℤ)
  deriving DecidableEq, Repr

def genericStickDimOrder (numDims : ℕ) : List ℤ := (List.range numDims).map (Nat.cast : ℕ → ℤ)

/-- Row-major strides, from the innermost dimension out. -/
def computeHostStride (hostSize : List ℤ) : List ℤ :=
  match hostSize with
  | [] => []
  | _ :: rest => rest.prod :: computeHostStride rest

/-- A host dimension of `dim_order`; `-1` is the synthetic stick dimension. -/
def entry (values : List ℤ) (hostDim : ℤ) : ℤ := values.getD hostDim.toNat 0

/-- The state of the stride assignment: `stride_map` and `last_stride`. -/
structure Strides where
  strideMap : List ℤ
  lastStride : List ℤ

section Init

variable (hostSize hostStrides : List ℤ)

def computeExtent (stickDim stickSize : ℤ) (sparse : Bool) (hostDim : ℤ) : ℤ :=
  if hostDim = -1 then 1
  else if hostDim = stickDim then
    if sparse then 1 else (entry hostSize hostDim + stickSize - 1) / stickSize
  else entry hostSize hostDim

def updateStride (deviceSize : List ℤ) (strides : Strides) (step : ℤ × ℕ) : Strides :=
  let (hostDim, devIdx) := step
  if hostDim = -1 ∨ entry hostSize hostDim = 1 then strides
  else
    let last := entry strides.lastStride hostDim
    let stride := if last = -1 then entry hostStrides hostDim else last
    { strideMap := strides.strideMap.set devIdx stride
      lastStride := strides.lastStride.set hostDim.toNat
        (min (stride * deviceSize.getD devIdx 0) (entry hostStrides hostDim * entry hostSize hostDim)) }

/-- The device dimension that holds entry `i` of `dim_order`. -/
def deviceIndex (hostRank i : ℕ) : ℕ := if i = 0 then hostRank - 1 else i - 1

/-- Host dimensions with their device dimensions, in the order of the assignment: the
stick first, then `dim_order` from the back. -/
def assignments (dimOrder : List ℤ) : List (ℤ × ℕ) :=
  (dimOrder.getLastD 0, dimOrder.length) ::
    ((List.range dimOrder.length).map fun i =>
      (dimOrder.getD i 0, deviceIndex dimOrder.length i)).reverse

/-- The device dimensions of each host dimension with the count of valid elements. -/
def validElementsOf (dimOrder : List ℤ) (sparse : Bool) : List (List ℕ × ℤ) :=
  let steps := assignments dimOrder
  ((steps.map Prod.fst).dedup.insertionSort (· ≤ ·)).map fun hostDim =>
    (((steps.filter fun step => step.1 = hostDim).map Prod.snd).insertionSort (· ≤ ·),
      if sparse ∧ hostDim = dimOrder.getLastD 0 then 1 else entry hostSize hostDim)

def deviceSizeOf (elems : ℤ) (dimOrder : List ℤ) : List ℤ :=
  let sparse : Bool := dimOrder.getLastD 0 = -1
  let extent := computeExtent hostSize (dimOrder.getLastD 0) (if sparse then 1 else elems) sparse
  dimOrder.tail.map extent ++ [extent (dimOrder.headD 0), elems]

def strideMapOf (deviceSize dimOrder : List ℤ) : List ℤ :=
  ((assignments dimOrder).foldl (updateStride hostSize hostStrides deviceSize)
    ⟨List.replicate (dimOrder.length + 1) (-1), List.replicate hostSize.length (-1)⟩).strideMap

def init (dtype : ScalarType) (dimOrder : List ℤ) : Except String SpyreTensorLayout :=
  if hostSize.length ≠ hostStrides.length then
    .error "Incompatible host_size and host_strides"
  else if ¬ (hostSize.length = dimOrder.length ∨
      (hostSize.length + 1 = dimOrder.length ∧ dimOrder.getLastD 0 = -1)) then
    .error "Incompatible host_size and dim_order"
  else if getDeviceDtype dtype = .invalid then
    .error "Spyre backend does not support dtype "
  else if ¬ elemsPerStick sendefs (getDeviceDtype dtype) > 0 then
    .error "No stick size mapping for device data format "
  else
    let elems := elemsPerStick sendefs (getDeviceDtype dtype)
    if hostSize.length = 0 then
      .ok
        { deviceSize := [1, elems]
          strideMap := [-1, -1]
          deviceDtype := getDeviceDtype dtype
          validElements := [([0, 1], 1)] }
    else
      let deviceSize := deviceSizeOf hostSize elems dimOrder
      .ok
        { deviceSize := deviceSize
          strideMap := strideMapOf hostSize hostStrides deviceSize dimOrder
          deviceDtype := getDeviceDtype dtype
          validElements := validElementsOf hostSize dimOrder (dimOrder.getLastD 0 = -1) }

/-- The row-major layout of a host shape. -/
def initDefault (dtype : ScalarType) : Except String SpyreTensorLayout :=
  init sendefs hostSize (computeHostStride hostSize) dtype (genericStickDimOrder hostSize.length)

end Init

/-! ## Sizes in bytes -/

/-- A product of 64-bit unsigned integers, if it does not overflow. -/
def mulOverflows (first second : ℕ) : Option ℕ :=
  if first * second < 2 ^ 64 then some (first * second) else none

def scaleBytes (bytes : ℕ) (extent : ℤ) : Except String ℕ :=
  match mulOverflows bytes extent.toNat with
  | none => .error "Device size calculation overflowed for device_size="
  | some product =>
      if extent < 0 then .error "Device size calculation overflowed for device_size="
      else .ok product

/-- Whole sticks: the last extent does not shorten them. -/
def getDeviceSizeInBytes (layout : SpyreTensorLayout) : Except String ℕ :=
  let elems := elemsPerStick sendefs layout.deviceDtype
  let bits := sendefs.getSizeInBits layout.deviceDtype
  if ¬ elems > 0 then .error "No device stick geometry for data format "
  else if ¬ bits > 0 then .error "No device element width for data format "
  else
    layout.deviceSize.dropLast.reverse.foldlM scaleBytes ((elems * bits + 7) / 8).toNat

end Layout

end TorchSpyre.TensorLayout
