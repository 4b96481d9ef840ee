import TorchSpyre.TensorLayout.Layout

/-!
# Reserved tensors

A tensor can be allocated for the largest size of its outermost dimension.  Its storage
holds the device bytes of that ceiling, or the host bytes of the initial shape if these
are more.  `resize_` compares them with the host bytes of the requested shape.
-/

namespace TorchSpyre.TensorLayout

/-! ## Tensors -/

structure ReservedDimInfo where
  min : ℤ
  max : ℤ
  granularity : ℤ
  deriving DecidableEq, Repr

/-- A tensor on the device.  Storages are told apart by a number; their contents are not
modelled. -/
structure SpyreTensor where
  dtype : ScalarType
  sizes : List ℤ
  strides : List ℤ
  storageOffset : ℤ
  storage : ℕ
  storageBytes : ℕ
  spyreLayout : SpyreTensorLayout
  dmaSizes : List ℤ
  dmaStrides : List ℤ
  reservedDims : List (ℕ × ReservedDimInfo)
  sharded : Bool
  deriving DecidableEq, Repr

inductive MemoryFormat where
  | contiguous | preserve | channelsLast
  deriving DecidableEq, Repr

def storageMax : ℕ := 2 ^ 63 - 1

/-- Bytes of a contiguous host tensor.  Sizes enter the product as unsigned integers. -/
def computeStorageNbytesContiguous (sizes : List ℤ) (itemsize : ℕ) : Except String ℕ :=
  let count := sizes.foldlM (fun (product : ℕ) size => mulOverflows product (size % 2 ^ 64).toNat) 1
  match count.bind fun product => mulOverflows product itemsize with
  | none => .error "Storage size calculation overflowed with sizes="
  | some bytes =>
      if bytes > storageMax then .error "Storage size calculation overflowed with sizes="
      else .ok bytes

/-- The strides of `set_sizes_contiguous`. -/
def contiguousStrides : List ℤ → List ℤ
  | [] => []
  | _ :: rest => (rest.map fun size => max size 1).prod :: contiguousStrides rest

/-- `is_contiguous`: strides of dimensions of size one do not count. -/
def isContiguous (sizes strides : List ℤ) : Bool :=
  sizes.prod = 0 ∨
    ((sizes.zip strides).zip (contiguousStrides sizes)).all fun entry =>
      entry.1.1 = 1 ∨ entry.1.2 = entry.2

def SpyreTensor.hasIntactReservation (tensor : SpyreTensor) : Bool :=
  tensor.reservedDims ≠ [] ∧ tensor.storageOffset = 0 ∧ tensor.sizes = tensor.dmaSizes ∧
    tensor.strides = tensor.dmaStrides

section Operations

variable (sendefs : Sendefs)

/-! ## Allocation -/

def spyreEmptyReserved (storage : ℕ) (size stride : List ℤ) (dtype : ScalarType) (dim : ℤ)
    (minSize maxSize granularity : ℤ) : Except String SpyreTensor :=
  if size.any (· < 0) then .error "Trying to create tensor with negative dimension"
  else if ¬ isSupportedDtype sendefs dtype then .error "Spyre backend does not support dtype "
  else if ¬ (0 ≤ dim ∧ dim < size.length) then .error "reserved dim  out of range for tensor of rank "
  else if ¬ granularity ≥ 1 then .error "granularity must be >= 1, got "
  else if ¬ minSize ≤ maxSize then .error "min= must be <= max="
  else if ¬ maxSize.tmod granularity = 0 then .error "max= is not a multiple of granularity="
  else if ¬ (minSize ≤ entry size dim ∧ entry size dim ≤ maxSize) then
    .error "current size  is not within [min=, max=]"
  else if ¬ (entry size dim).tmod granularity = 0 then
    .error "current size  is not a multiple of granularity="
  else if ¬ dim ≠ size.length - 1 then
    .error "does not yet support reserving the innermost (stick) dimension "
  else if ¬ dim = 0 then .error "only dim 0 (the outermost dimension) is supported"
  else do
    let deviceLayout ← initDefault sendefs (size.set dim.toNat maxSize) dtype
    let deviceSizeBytes ← getDeviceSizeInBytes sendefs deviceLayout
    let cpuSizeBytes ← computeStorageNbytesContiguous size (elementSize dtype)
    return {
      dtype := dtype
      sizes := size
      strides := stride
      storageOffset := 0
      storage := storage
      storageBytes := max deviceSizeBytes cpuSizeBytes
      spyreLayout := deviceLayout
      dmaSizes := size
      dmaStrides := stride
      reservedDims := [(dim.toNat, ⟨minSize, maxSize, granularity⟩)]
      sharded := false }

/-! ## Resizing -/

/-- The checks of one reserved dimension; its ceiling enters the layout. -/
def checkReservedDim (tensor : SpyreTensor) (size layoutSize : List ℤ)
    (reserved : ℕ × ReservedDimInfo) : Except String (List ℤ) :=
  let (rdim, info) := reserved
  if ¬ size.length = tensor.sizes.length then .error "must keep the same rank"
  else if ¬ rdim < size.length then .error "is out of range for requested shape="
  else if ¬ ∀ d < size.length, d = rdim ∨ size.getD d 0 = tensor.sizes.getD d 0 then
    .error "may only change the reserved dim"
  else if ¬ (size.getD rdim 0 ≥ info.min ∧ size.getD rdim 0 ≤ info.max) then
    .error "is outside the reservation"
  else if ¬ (size.getD rdim 0).tmod info.granularity = 0 then
    .error "is not a multiple of the reservation's granularity="
  else .ok (layoutSize.set rdim info.max)

/-- `resize_`; `fresh` is the number of the storage a reallocation would create. -/
def spyreResize (fresh : ℕ) (tensor : SpyreTensor) (size : List ℤ)
    (memoryFormat : Option MemoryFormat) : Except String SpyreTensor :=
  if tensor.sizes = size ∧ isContiguous tensor.sizes tensor.strides then .ok tensor
  else if tensor.sharded then .error "resize_ is not supported on sharded Spyre tensors"
  else if memoryFormat = some .preserve then
    .error "aten::resize_ does not support MemoryFormat::Preserve"
  else if ¬ (memoryFormat = none ∨ memoryFormat = some .contiguous) then
    .error "aten::resize_ on Spyre only supports contiguous memory format"
  else if ¬ isSupportedDtype sendefs tensor.dtype then
    .error "Spyre backend does not support dtype "
  else if tensor.reservedDims ≠ [] ∧ ¬ tensor.hasIntactReservation then
    .error "the reservation no longer refers to the same axis"
  else do
    let layoutSize ← tensor.reservedDims.foldlM (checkReservedDim tensor size) size
    let newLayout ← initDefault sendefs layoutSize tensor.dtype
    let newDeviceBytes ← getDeviceSizeInBytes sendefs newLayout
    let newCpuBytes ← computeStorageNbytesContiguous size (elementSize tensor.dtype)
    let newSizeBytes := max newDeviceBytes newCpuBytes
    let lastDimOk : Bool := size = [] ∨ tensor.sizes = [] ∨
      size.getLastD 0 ≤ tensor.sizes.getLastD 0
    let reservedAndGrowing : Bool := tensor.reservedDims ≠ [] ∧ size.prod > tensor.sizes.prod
    if newSizeBytes ≤ tensor.storageBytes ∧
        (size.prod ≤ tensor.sizes.prod ∨ reservedAndGrowing) ∧ lastDimOk then
      .ok { tensor with
        sizes := size
        strides := contiguousStrides size
        spyreLayout := newLayout
        dmaSizes := size
        dmaStrides := contiguousStrides size }
    else if tensor.reservedDims ≠ [] then
      .error "would require reallocation, which breaks the reservation invariant"
    else
      .ok { tensor with
        sizes := size
        strides := contiguousStrides size
        storage := fresh
        storageBytes := newSizeBytes
        spyreLayout := newLayout
        dmaSizes := size
        dmaStrides := contiguousStrides size }

end Operations

end TorchSpyre.TensorLayout
