import Mathlib
import TorchSpyre.TensorLayout.Reserved

/-!
# Runs of `resize_` on a reserved tensor

Every accepted size keeps the layout of the ceiling.  Whether it also keeps the storage
depends on the host bytes of the sizes the reservation admits.
-/

namespace TorchSpyre.TensorLayout

open Lib

/-- The size passes the checks of the reservation. -/
def SpyreTensor.Accepts (tensor : SpyreTensor) (size : List ℤ) : Prop :=
  ∃ layoutSize, tensor.reservedDims.foldlM (checkReservedDim tensor size) size = .ok layoutSize

def acceptedFormats : List (Option MemoryFormat) := [none, some .contiguous]

/-- States reached by accepted resizes. -/
inductive Run (sendefs : Sendefs) (start : SpyreTensor) : SpyreTensor → Prop where
  | start : Run sendefs start start
  | resize {tensor result : SpyreTensor} {fresh : ℕ} {size : List ℤ}
      {format : Option MemoryFormat} : Run sendefs start tensor → tensor.Accepts size →
      format ∈ acceptedFormats → spyreResize sendefs fresh tensor size format = .ok result →
      Run sendefs start result

/-- The result has the size, and everything the reservation promises to keep. -/
structure KeepsAllocation (tensor result : SpyreTensor) (size : List ℤ) : Prop where
  sizes : result.sizes = size
  storage : result.storage = tensor.storage
  storageBytes : result.storageBytes = tensor.storageBytes
  spyreLayout : result.spyreLayout = tensor.spyreLayout
  reservedDims : result.reservedDims = tensor.reservedDims

/-- In every state reached, every accepted resize is done in place. -/
def ResizesInPlace (sendefs : Sendefs) (start : SpyreTensor) : Prop :=
  ∀ tensor, Run sendefs start tensor → ∀ fresh size format, tensor.Accepts size →
    format ∈ acceptedFormats → ∃ result,
      spyreResize sendefs fresh tensor size format = .ok result ∧
        KeepsAllocation start result size

/-! ## The reserved tensor -/

/-- What allocation establishes. -/
structure Reserves (sendefs : Sendefs) (size : List ℤ) (info : ReservedDimInfo)
    (tensor : SpyreTensor) : Prop where
  nested : 1 < size.length
  supported : isSupportedDtype sendefs tensor.dtype = true
  sizes : tensor.sizes = size
  intact : tensor.dmaSizes = tensor.sizes ∧ tensor.dmaStrides = tensor.strides ∧
    tensor.storageOffset = 0 ∧ tensor.sharded = false
  layout : initDefault sendefs (size.set 0 info.max) tensor.dtype = .ok tensor.spyreLayout
  fits : ∃ deviceBytes cpuBytes, getDeviceSizeInBytes sendefs tensor.spyreLayout = .ok deviceBytes ∧
    computeStorageNbytesContiguous size (elementSize tensor.dtype) = .ok cpuBytes ∧
    tensor.storageBytes = max deviceBytes cpuBytes
  reservedDims : tensor.reservedDims = [(0, info)]
  within : info.min ≤ size.getD 0 0 ∧ size.getD 0 0 ≤ info.max ∧
    (size.getD 0 0).tmod info.granularity = 0

theorem spyreEmptyReserved_reserves {sendefs : Sendefs} {storage : ℕ} {size stride : List ℤ}
    {dtype : ScalarType} {dim minSize maxSize granularity : ℤ} {tensor : SpyreTensor}
    (allocated : spyreEmptyReserved sendefs storage size stride dtype dim minSize maxSize
      granularity = .ok tensor) :
    tensor.dtype = dtype ∧ Reserves sendefs size ⟨minSize, maxSize, granularity⟩ tensor := by
  unfold spyreEmptyReserved at allocated
  obtain ⟨-, allocated⟩ := of_guard allocated
  obtain ⟨supported, allocated⟩ := of_guard allocated
  obtain ⟨inRange, allocated⟩ := of_guard allocated
  obtain ⟨-, allocated⟩ := of_guard allocated
  obtain ⟨-, allocated⟩ := of_guard allocated
  obtain ⟨-, allocated⟩ := of_guard allocated
  obtain ⟨bounds, allocated⟩ := of_guard allocated
  obtain ⟨stepped, allocated⟩ := of_guard allocated
  obtain ⟨notStick, allocated⟩ := of_guard allocated
  obtain ⟨outermost, allocated⟩ := of_guard allocated
  obtain ⟨layout, isLayout, allocated⟩ := bind_eq_ok_iff.mp allocated
  obtain ⟨deviceBytes, isDevice, allocated⟩ := bind_eq_ok_iff.mp allocated
  obtain ⟨cpuBytes, isCpu, allocated⟩ := bind_eq_ok_iff.mp allocated
  rw [not_not] at supported inRange bounds stepped notStick outermost
  subst outermost
  cases allocated
  refine ⟨rfl, ?_⟩
  constructor
  case nested => omega
  case supported => exact supported
  case sizes => rfl
  case intact => exact ⟨rfl, rfl, rfl, rfl⟩
  case layout => exact isLayout
  case fits => exact ⟨deviceBytes, cpuBytes, isDevice, isCpu, rfl⟩
  case reservedDims => rfl
  case within => exact ⟨bounds.1, bounds.2, stepped⟩

/-- The sizes of the outermost dimension that the reservation admits. -/
def ReservedDimInfo.Admits (info : ReservedDimInfo) (extent : ℤ) : Prop :=
  info.min ≤ extent ∧ extent ≤ info.max ∧ extent.tmod info.granularity = 0

/-- The host bytes of the admitted sizes are within a number of bytes. -/
def HostBytesFit (size : List ℤ) (info : ReservedDimInfo) (dtype : ScalarType) (bytes : ℕ) : Prop :=
  ∀ extent, info.Admits extent → ∃ cpuBytes,
    computeStorageNbytesContiguous (size.set 0 extent) (elementSize dtype) = .ok cpuBytes ∧
      cpuBytes ≤ bytes

section Steps

variable {sendefs : Sendefs} {size : List ℤ} {info : ReservedDimInfo} {start : SpyreTensor}

/-- A state of the run: the reserved tensor with another outermost size. -/
def Resized (start : SpyreTensor) (size : List ℤ) (extent : ℤ) (strides : List ℤ) : SpyreTensor :=
  { start with
    sizes := size.set 0 extent
    strides := strides
    dmaSizes := size.set 0 extent
    dmaStrides := strides }

theorem Reserves.isResized (reserves : Reserves sendefs size info start) :
    start = Resized start size (size.getD 0 0) start.strides := by
  have same : size.set 0 (size.getD 0 0) = size := by
    cases size with
    | nil => rfl
    | cons head tail => rfl
  obtain ⟨dmaSizes, dmaStrides, -, -⟩ := reserves.intact
  have sizes := reserves.sizes
  cases start
  simp only at sizes dmaSizes dmaStrides
  simp only [Resized, same, dmaSizes, dmaStrides, sizes]

theorem checkReservedDim_ok_iff {tensor : SpyreTensor} {request layoutSize result : List ℤ} :
    checkReservedDim tensor request layoutSize (0, info) = .ok result ↔
      request.length = tensor.sizes.length ∧ 0 < request.length ∧
        (∀ d < request.length, d = 0 ∨ request.getD d 0 = tensor.sizes.getD d 0) ∧
        info.Admits (request.getD 0 0) ∧ result = layoutSize.set 0 info.max := by
  unfold checkReservedDim ReservedDimInfo.Admits
  constructor
  · intro checked
    obtain ⟨sameRank, checked⟩ := of_guard checked
    obtain ⟨inRange, checked⟩ := of_guard checked
    obtain ⟨fixed, checked⟩ := of_guard checked
    obtain ⟨bounds, checked⟩ := of_guard checked
    obtain ⟨stepped, checked⟩ := of_guard checked
    rw [not_not] at sameRank inRange fixed bounds stepped
    cases checked
    exact ⟨sameRank, inRange, fixed, ⟨bounds.1, bounds.2, stepped⟩, rfl⟩
  · rintro ⟨sameRank, inRange, fixed, ⟨lower, upper, stepped⟩, rfl⟩
    simp only
    rw [if_neg (not_not.mpr sameRank), if_neg (not_not.mpr inRange), if_neg (not_not.mpr fixed),
      if_neg (not_not.mpr ⟨lower, upper⟩), if_neg (not_not.mpr stepped)]

theorem getD_set_zero {values : List ℤ} {extent : ℤ} {d : ℕ} (inner : d ≠ 0) :
    (values.set 0 extent).getD d 0 = values.getD d 0 := by
  rw [List.getD_eq_getElem?_getD, List.getD_eq_getElem?_getD,
    List.getElem?_set_ne (Ne.symm inner)]

theorem getD_set_zero_self {values : List ℤ} {extent : ℤ} (nonempty : 0 < values.length) :
    (values.set 0 extent).getD 0 0 = extent := by
  rw [List.getD_eq_getElem?_getD, List.getElem?_set_self nonempty, Option.getD_some]

/-- The accepted sizes differ in the outermost dimension only. -/
theorem Reserves.checks_iff (reserves : Reserves sendefs size info start) (extent : ℤ)
    (strides request layoutSize : List ℤ) :
    (Resized start size extent strides).reservedDims.foldlM
        (checkReservedDim (Resized start size extent strides) request) request = .ok layoutSize ↔
      ∃ requested, info.Admits requested ∧ request = size.set 0 requested ∧
        layoutSize = size.set 0 info.max := by
  have nested := reserves.nested
  have reserved : (Resized start size extent strides).reservedDims = [(0, info)] :=
    reserves.reservedDims
  rw [reserved, List.foldlM_cons]
  simp only [List.foldlM_nil, bind_pure]
  rw [checkReservedDim_ok_iff]
  simp only [Resized]
  constructor
  · rintro ⟨sameRank, inRange, fixed, admitted, rfl⟩
    rw [List.length_set] at sameRank
    have isRequest : request = size.set 0 (request.getD 0 0) := by
      apply List.ext_getElem?
      intro d
      rcases lt_or_ge d request.length with inside | outside
      · have atD : request.getD d 0 = (size.set 0 (request.getD 0 0)).getD d 0 := by
          rcases fixed d inside with rfl | same
          · rw [getD_set_zero_self (by omega)]
          · by_cases outer : d = 0
            · rw [outer, getD_set_zero_self (by omega)]
            · rw [same, getD_set_zero outer, getD_set_zero outer]
        have inside' : d < (size.set 0 (request.getD 0 0)).length := by
          rw [List.length_set]
          omega
        rw [List.getElem?_eq_getElem inside, List.getElem?_eq_getElem inside']
        rw [List.getD_eq_getElem _ _ inside, List.getD_eq_getElem _ _ inside'] at atD
        rw [atD]
      · rw [List.getElem?_eq_none outside, List.getElem?_eq_none (by rw [List.length_set]; omega)]
    refine ⟨_, admitted, isRequest, ?_⟩
    conv_lhs => rw [isRequest]
    rw [List.set_set]
  · rintro ⟨requested, admitted, rfl, rfl⟩
    rw [List.length_set, List.length_set, getD_set_zero_self (by omega), List.set_set]
    refine ⟨rfl, by omega, ?_, admitted, rfl⟩
    intro d _
    by_cases outer : d = 0
    · exact .inl outer
    · exact .inr (by rw [getD_set_zero outer, getD_set_zero outer])

theorem Reserves.accepts_iff (reserves : Reserves sendefs size info start) (extent : ℤ)
    (strides request : List ℤ) :
    (Resized start size extent strides).Accepts request ↔
      ∃ requested, info.Admits requested ∧ request = size.set 0 requested := by
  unfold SpyreTensor.Accepts
  simp only [reserves.checks_iff]
  constructor
  · rintro ⟨_, requested, admitted, isRequest, -⟩
    exact ⟨requested, admitted, isRequest⟩
  · rintro ⟨requested, admitted, isRequest⟩
    exact ⟨_, requested, admitted, isRequest, rfl⟩

theorem getLastD_set_zero {values : List ℤ} (nested : 1 < values.length) (extent : ℤ) :
    (values.set 0 extent).getLastD 0 = values.getLastD 0 := by
  match values, nested with
  | first :: second :: rest, _ => simp

/-- One accepted resize: nothing to do, in place, or refused for its host bytes. -/
theorem Reserves.resize_eq (reserves : Reserves sendefs size info start) (extent : ℤ)
    (strides : List ℤ) {requested : ℤ} (admitted : info.Admits requested) (fresh : ℕ)
    {format : Option MemoryFormat} (accepted : format ∈ acceptedFormats) :
    spyreResize sendefs fresh (Resized start size extent strides) (size.set 0 requested) format =
      if size.set 0 extent = size.set 0 requested ∧ isContiguous (size.set 0 extent) strides then
        .ok (Resized start size extent strides)
      else
        (computeStorageNbytesContiguous (size.set 0 requested) (elementSize start.dtype)).bind
          fun cpuBytes =>
            if cpuBytes ≤ start.storageBytes then
              .ok (Resized start size requested (contiguousStrides (size.set 0 requested)))
            else .error "would require reallocation, which breaks the reservation invariant" := by
  obtain ⟨deviceBytes, hostBytes, isDevice, -, isBytes⟩ := reserves.fits
  obtain ⟨-, -, offset, unsharded⟩ := reserves.intact
  have checked := (reserves.checks_iff extent strides (size.set 0 requested)
    (size.set 0 info.max)).mpr ⟨requested, admitted, rfl, rfl⟩
  have reserved : (Resized start size extent strides).reservedDims ≠ [] := by
    simp [Resized, reserves.reservedDims]
  have intact : (Resized start size extent strides).hasIntactReservation = true := by
    simp [SpyreTensor.hasIntactReservation, reserved]
    simp [Resized, offset]
  have deviceFits : deviceBytes ≤ start.storageBytes := by
    rw [isBytes]
    exact le_max_left _ _
  have lastDim : (size.set 0 requested).getLastD 0 ≤ (size.set 0 extent).getLastD 0 := by
    rw [getLastD_set_zero reserves.nested, getLastD_set_zero reserves.nested]
  have sizes : (Resized start size extent strides).sizes = size.set 0 extent := rfl
  have contiguous : (Resized start size extent strides).strides = strides := rfl
  have dtype : (Resized start size extent strides).dtype = start.dtype := rfl
  have formats : format = none ∨ format = some .contiguous := by
    simpa [acceptedFormats] using accepted
  have notPreserve : format ≠ some .preserve := by
    rcases formats with rfl | rfl <;> simp
  unfold spyreResize
  rw [sizes, contiguous, dtype, checked]
  by_cases same : size.set 0 extent = size.set 0 requested ∧ isContiguous (size.set 0 extent) strides
  · rw [if_pos same, if_pos same]
  · have notSharded : ¬ (Resized start size extent strides).sharded = true := by
      simp [Resized, unsharded]
    rw [if_neg same, if_neg same, if_neg notSharded, if_neg notPreserve,
      if_neg (not_not.mpr formats), if_neg (not_not.mpr reserves.supported),
      if_neg (fun broken => broken.2 intact)]
    simp only [bind, Except.bind, reserves.layout, isDevice]
    cases computeStorageNbytesContiguous (size.set 0 requested) (elementSize start.dtype) with
    | error message => rfl
    | ok cpuBytes =>
        have grows : (size.set 0 requested).prod ≤ (size.set 0 extent).prod ∨
            decide ((Resized start size extent strides).reservedDims ≠ [] ∧
              (size.set 0 requested).prod > (size.set 0 extent).prod) = true := by
          rcases le_or_gt (size.set 0 requested).prod (size.set 0 extent).prod with smaller | larger
          · exact .inl smaller
          · exact .inr (decide_eq_true ⟨reserved, larger⟩)
        have lastDimOk : decide (size.set 0 requested = [] ∨ size.set 0 extent = [] ∨
            (size.set 0 requested).getLastD 0 ≤ (size.set 0 extent).getLastD 0) = true :=
          decide_eq_true (.inr (.inr lastDim))
        have bytes : (Resized start size extent strides).storageBytes = start.storageBytes := rfl
        simp only [bytes]
        by_cases hostFits : cpuBytes ≤ start.storageBytes
        · rw [if_pos hostFits, if_pos ⟨max_le deviceFits hostFits, grows, lastDimOk⟩]
          rfl
        · rw [if_neg hostFits, if_neg (fun all => hostFits (le_trans (le_max_right _ _) all.1)),
            if_pos reserved]

theorem resized_injective {extent requested : ℤ} (nested : 1 < size.length)
    (same : size.set 0 extent = size.set 0 requested) : extent = requested := by
  have heads : (size.set 0 extent).getD 0 0 = (size.set 0 requested).getD 0 0 := by rw [same]
  rwa [getD_set_zero_self (by omega), getD_set_zero_self (by omega)] at heads

/-- Every state reached is the reserved tensor with another outermost size. -/
theorem Reserves.run_resized (reserves : Reserves sendefs size info start) {tensor : SpyreTensor}
    (run : Run sendefs start tensor) : ∃ extent strides, tensor = Resized start size extent strides := by
  induction run with
  | start => exact ⟨_, _, reserves.isResized⟩
  | resize _ accepted format resized inductionHypothesis =>
      obtain ⟨extent, strides, rfl⟩ := inductionHypothesis
      obtain ⟨requested, admitted, rfl⟩ := (reserves.accepts_iff extent strides _).mp accepted
      rw [reserves.resize_eq extent strides admitted _ format] at resized
      split at resized
      · cases resized
        exact ⟨extent, strides, rfl⟩
      · obtain ⟨cpuBytes, -, resized⟩ := bind_eq_ok_iff.mp resized
        split at resized
        · cases resized
          exact ⟨_, _, rfl⟩
        · cases resized

theorem Reserves.inPlace_of_fit (reserves : Reserves sendefs size info start)
    (fit : HostBytesFit size info start.dtype start.storageBytes) :
    ResizesInPlace sendefs start := by
  intro tensor run fresh request format accepted isFormat
  obtain ⟨extent, strides, rfl⟩ := reserves.run_resized run
  obtain ⟨requested, admitted, rfl⟩ := (reserves.accepts_iff extent strides request).mp accepted
  obtain ⟨cpuBytes, isBytes, hostFits⟩ := fit requested admitted
  rw [reserves.resize_eq extent strides admitted fresh isFormat, isBytes]
  by_cases same : size.set 0 extent = size.set 0 requested ∧ isContiguous (size.set 0 extent) strides
  · rw [if_pos same]
    exact ⟨_, rfl, same.1, rfl, rfl, rfl, rfl⟩
  · rw [if_neg same]
    simp only [Except.bind, if_pos hostFits]
    exact ⟨_, rfl, rfl, rfl, rfl, rfl, rfl⟩

theorem Reserves.fit_of_inPlace (reserves : Reserves sendefs size info start)
    (inPlace : ResizesInPlace sendefs start) :
    HostBytesFit size info start.dtype start.storageBytes := by
  intro requested admitted
  obtain ⟨deviceBytes, hostBytes, -, isHost, isBytes⟩ := reserves.fits
  have atStart := reserves.isResized
  by_cases unchanged : size.getD 0 0 = requested
  · refine ⟨hostBytes, ?_, isBytes ▸ le_max_right _ _⟩
    have sizes : size.set 0 requested = size := by
      rw [← unchanged]
      have kept := congrArg SpyreTensor.sizes atStart
      rw [reserves.sizes] at kept
      exact kept.symm
    rw [sizes]
    exact isHost
  · -- The first resize already has to be in place.
    have accepted : start.Accepts (size.set 0 requested) := by
      rw [atStart, reserves.accepts_iff]
      exact ⟨requested, admitted, rfl⟩
    obtain ⟨result, resized, -⟩ := inPlace start .start 0 (size.set 0 requested) none accepted
      List.mem_cons_self
    rw [atStart, reserves.resize_eq _ _ admitted 0 List.mem_cons_self] at resized
    rw [if_neg fun same => unchanged (resized_injective reserves.nested same.1)] at resized
    obtain ⟨cpuBytes, isCpu, resized⟩ := bind_eq_ok_iff.mp resized
    refine ⟨cpuBytes, isCpu, ?_⟩
    by_contra tooLarge
    rw [if_neg tooLarge] at resized
    cases resized

end Steps

/-- A reserved tensor never reallocates, along every run of accepted resizes, exactly when
the host bytes of every admitted size are within the bytes it was allocated with. -/
theorem spyreResize_inPlace_iff {sendefs : Sendefs} {storage : ℕ} {size stride : List ℤ}
    {dtype : ScalarType} {dim minSize maxSize granularity : ℤ} {tensor : SpyreTensor}
    (allocated : spyreEmptyReserved sendefs storage size stride dtype dim minSize maxSize
      granularity = .ok tensor) :
    ResizesInPlace sendefs tensor ↔
      HostBytesFit size ⟨minSize, maxSize, granularity⟩ dtype tensor.storageBytes := by
  obtain ⟨rfl, reserves⟩ := spyreEmptyReserved_reserves allocated
  exact ⟨reserves.fit_of_inPlace, reserves.inPlace_of_fit⟩

/-! ## Wide host elements -/

/-- The entries of the DeepTools tables used below. -/
def stickTables : Sendefs where
  dataFormatToStickSize := fun format =>
    if format = .sen169Fp16 then some 64 else if format = .ieeeFp32 then some 32 else none
  getNumElemsInStick := fun format => if format = .ieeeInt32 then 32 else 16
  getSizeInBits := fun format =>
    if format = .sen169Fp16 then 16 else if format = .ieeeInt64 then 64 else 32

/-- A row of 32 integers reserved for four rows. -/
def reservedRows (dtype : ScalarType) : Except String SpyreTensor :=
  spyreEmptyReserved stickTables 0 [1, 32] [32, 1] dtype 0 1 4 1

/-- The tensor that `reservedRows` allocates, on a device format of four bytes. -/
def reservedRowsTensor (dtype : ScalarType) (format : DataFormats) : SpyreTensor where
  dtype := dtype
  sizes := [1, 32]
  strides := [32, 1]
  storageOffset := 0
  storage := 0
  storageBytes := 512
  spyreLayout := ⟨[1, 4, 32], [32, 32, 1], format, [([1], 4), ([0, 2], 32)]⟩
  dmaSizes := [1, 32]
  dmaStrides := [32, 1]
  reservedDims := [(0, ⟨1, 4, 1⟩)]
  sharded := false

/-- Growing `int64` rows to the ceiling is refused: eight bytes for each element on the
host, four on the device. -/
theorem spyreResize_refuses_ceiling :
    reservedRows .long = .ok (reservedRowsTensor .long .ieeeInt32) ∧
      (reservedRowsTensor .long .ieeeInt32).Accepts [4, 32] ∧
      spyreResize stickTables 1 (reservedRowsTensor .long .ieeeInt32) [4, 32] none =
        .error "would require reallocation, which breaks the reservation invariant" ∧
      ¬ ResizesInPlace stickTables (reservedRowsTensor .long .ieeeInt32) := by
  have accepts : (reservedRowsTensor .long .ieeeInt32).Accepts [4, 32] :=
    ⟨[4, 32], by decide +kernel⟩
  have refused : spyreResize stickTables 1 (reservedRowsTensor .long .ieeeInt32) [4, 32] none =
      .error "would require reallocation, which breaks the reservation invariant" := by
    decide +kernel
  refine ⟨by decide +kernel, accepts, refused, fun inPlace => ?_⟩
  obtain ⟨result, resized, -⟩ := inPlace _ .start 1 [4, 32] none accepts List.mem_cons_self
  cases refused.symm.trans resized

/-- Rows of `float32` take as many bytes on the host as on the device. -/
theorem spyreResize_inPlace_float :
    reservedRows .float = .ok (reservedRowsTensor .float .ieeeFp32) ∧
      ResizesInPlace stickTables (reservedRowsTensor .float .ieeeFp32) := by
  have allocated : reservedRows .float = .ok (reservedRowsTensor .float .ieeeFp32) := by
    decide +kernel
  refine ⟨allocated, (spyreResize_inPlace_iff allocated).mpr ?_⟩
  rintro extent ⟨lower, upper, -⟩
  simp only at lower upper
  have cases : extent = 1 ∨ extent = 2 ∨ extent = 3 ∨ extent = 4 := by omega
  rcases cases with rfl | rfl | rfl | rfl
  · exact ⟨128, by decide +kernel, by decide⟩
  · exact ⟨256, by decide +kernel, by decide⟩
  · exact ⟨384, by decide +kernel, by decide⟩
  · exact ⟨512, by decide +kernel, by decide⟩

end TorchSpyre.TensorLayout
