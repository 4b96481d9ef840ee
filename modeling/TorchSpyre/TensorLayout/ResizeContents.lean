import TorchSpyre.TensorLayout.Reserved
import TorchSpyre.TensorLayout.RoundTrip

/-!
# What `resize_` keeps

`resize_` to no more elements either reinterprets the storage under the layout of the new
shape or copies the elements through the host.  The copy keeps the elements in row-major
order; the reinterpretation keeps them where both layouts put them at the same place.
-/

namespace TorchSpyre.TensorLayout

open Lib

/-! ## Row-major strides -/

theorem vector_computeHostStride (sizes : List ℤ) (dim : Fin sizes.length) :
    vector sizes.length (computeHostStride sizes) dim = stride (vector sizes.length sizes) dim := by
  induction sizes with
  | nil => exact dim.elim0
  | cons size rest inductionHypothesis =>
      cases dim using Fin.cases with
      | zero =>
          have outermost := Fin.prod_Ioi_zero (vector (rest.length + 1) (size :: rest))
          exact (prod_vector rest).symm.trans outermost.symm
      | succ dim =>
          have inner := Fin.prod_Ioi_succ (vector (rest.length + 1) (size :: rest)) dim
          exact (inductionHypothesis dim).trans inner.symm

theorem computeHostStride_length (sizes : List ℤ) :
    (computeHostStride sizes).length = sizes.length := by
  induction sizes with
  | nil => rfl
  | cons size rest inductionHypothesis => exact congrArg Nat.succ inductionHypothesis

theorem contiguousStrides_eq {sizes : List ℤ} (positive : ∀ size ∈ sizes, 0 < size) :
    contiguousStrides sizes = computeHostStride sizes := by
  induction sizes with
  | nil => rfl
  | cons size rest inductionHypothesis =>
      have restPos : ∀ size ∈ rest, 0 < size := fun size member =>
        positive size (List.mem_cons_of_mem _ member)
      have same : rest.map (fun size => max size 1) = rest := by
        refine (List.map_congr_left fun size member => ?_).trans (List.map_id rest)
        have bound := restPos size member
        exact max_eq_left bound
      unfold contiguousStrides computeHostStride
      rw [same, inductionHypothesis restPos]

theorem contiguous_computeHostStride (sizes : List ℤ) :
    Contiguous (vector sizes.length sizes) (vector sizes.length (computeHostStride sizes)) :=
  fun dim _ => vector_computeHostStride sizes dim

theorem contiguous_of_isContiguous {sizes strides : List ℤ} (sameLength : strides.length = sizes.length)
    (positive : ∀ size ∈ sizes, 0 < size) (contiguous : isContiguous sizes strides) :
    Contiguous (vector sizes.length sizes) (vector sizes.length strides) := by
  have nonzero : sizes.prod ≠ 0 := fun isZero =>
    absurd (List.prod_eq_zero_iff.mp isZero) fun member => absurd (positive 0 member) (lt_irrefl 0)
  have entries := (of_decide_eq_true contiguous).resolve_left nonzero
  rw [List.all_eq_true, contiguousStrides_eq positive] at entries
  intro dim wide
  rw [← vector_computeHostStride]
  have inStrides : dim.val < strides.length := by
    rw [sameLength]
    exact dim.isLt
  have inHost : dim.val < (computeHostStride sizes).length := by
    rw [computeHostStride_length]
    exact dim.isLt
  have listed : ((sizes[dim.val], strides[dim.val]), (computeHostStride sizes)[dim.val]) ∈
      (sizes.zip strides).zip (computeHostStride sizes) := by
    rw [List.mem_iff_getElem]
    refine ⟨dim.val, by simp [inStrides, inHost], ?_⟩
    rw [List.getElem_zip, List.getElem_zip]
  unfold vector at wide ⊢
  rw [List.getD_eq_getElem _ _ dim.isLt] at wide
  rw [List.getD_eq_getElem _ _ inStrides, List.getD_eq_getElem _ _ inHost]
  exact (of_decide_eq_true (entries _ listed)).resolve_left wide

/-! ## Contents of a tensor -/

/-- The host values of a tensor, read back through its layout. -/
def ReadsBack {Value : Type} (tensor : SpyreTensor) (device host : ℤ → Value) : Prop :=
  ∃ toHost before,
    layoutStrideInfos tensor.dmaSizes tensor.dmaStrides tensor.spyreLayout 0 0 false = .ok toHost ∧
      Copied (movesOf toHost) device before host

/-- The layout puts a row-major element at a device position. -/
def PlacedAt (sizes strides : List ℤ) (layout : SpyreTensorLayout) (address position : ℤ) : Prop :=
  ∃ toDevice, layoutStrideInfos sizes strides layout 0 0 true = .ok toDevice ∧
    (address, position) ∈ movesOf toDevice

/-- A contiguous tensor without a reservation, with all of its storage and the layout of an
accepted `dim_order`. -/
structure Whole (sendefs : Sendefs) (tensor : SpyreTensor) : Prop where
  unreserved : tensor.reservedDims = []
  storageOffset : tensor.storageOffset = 0
  sizes_nonneg : ∀ size ∈ tensor.sizes, 0 ≤ size
  sameLength : tensor.strides.length = tensor.sizes.length
  contiguous : isContiguous tensor.sizes tensor.strides
  dmaSizes : tensor.dmaSizes = tensor.sizes
  dmaStrides : tensor.dmaStrides = tensor.strides
  laidOut : ∃ dimOrder, AcceptedOrder tensor.sizes.length dimOrder ∧
    init sendefs tensor.sizes tensor.strides tensor.dtype dimOrder = .ok tensor.spyreLayout

/-- The device memory of a tensor before and after `resize_`: reinterpreted as it is, or
copied through a host tensor that is cut to the new shape. -/
def Moved {Value : Type} (tensor tensor' : SpyreTensor) (device device' : ℤ → Value) : Prop :=
  if tensor'.storage = tensor.storage then device' = device
  else ∃ cpu, ReadsBack tensor device cpu ∧ ∃ toDevice before,
    layoutStrideInfos tensor'.dmaSizes tensor'.dmaStrides tensor'.spyreLayout 0 0 true =
      .ok toDevice ∧ Copied (movesOf toDevice) cpu before device'

/-- Reading the resized tensor back gives the first elements of the old contents. -/
def Preserves (tensor tensor' : SpyreTensor) : Prop :=
  ∀ {Value : Type} {device device' : ℤ → Value}, Moved tensor tensor' device device' →
    (0 < tensor'.sizes.prod → ∃ new, ReadsBack tensor' device' new) ∧
    ∀ old new, ReadsBack tensor device old → ReadsBack tensor' device' new →
      ∀ address, 0 ≤ address → address < tensor'.sizes.prod → new address = old address

section Resize

variable (sendefs : Sendefs)

/-- The storage is large enough for the new shape, and the last dimension does not grow. -/
def Reinterprets (tensor : SpyreTensor) (size : List ℤ) : Prop :=
  ∃ layout deviceBytes cpuBytes, initDefault sendefs size tensor.dtype = .ok layout ∧
    getDeviceSizeInBytes sendefs layout = .ok deviceBytes ∧
    computeStorageNbytesContiguous size (elementSize tensor.dtype) = .ok cpuBytes ∧
    max deviceBytes cpuBytes ≤ tensor.storageBytes ∧
    (size = [] ∨ tensor.sizes = [] ∨ size.getLastD 0 ≤ tensor.sizes.getLastD 0)

/-- Both layouts put the elements of the new shape at the same places. -/
def SamePlaces (tensor : SpyreTensor) (size : List ℤ) : Prop :=
  ∀ layout, initDefault sendefs size tensor.dtype = .ok layout →
    ∀ address, 0 ≤ address → address < size.prod → ∀ position,
      PlacedAt tensor.sizes tensor.strides tensor.spyreLayout address position ↔
        PlacedAt size (contiguousStrides size) layout address position

/-- The tensor `resize_` returns for a shape with no more elements. -/
theorem spyreResize_cases {fresh : ℕ} {tensor tensor' : SpyreTensor} {size : List ℤ}
    {memoryFormat : Option MemoryFormat} (whole : Whole sendefs tensor)
    (fewer : size.prod ≤ tensor.sizes.prod)
    (resized : spyreResize sendefs fresh tensor size memoryFormat = .ok tensor') :
    (tensor.sizes = size ∧ tensor' = tensor) ∨
    (tensor.sizes ≠ size ∧ ∃ layout storageBytes, initDefault sendefs size tensor.dtype = .ok layout ∧
      ((Reinterprets sendefs tensor size ∧ tensor' = { tensor with
          sizes := size
          strides := contiguousStrides size
          spyreLayout := layout
          dmaSizes := size
          dmaStrides := contiguousStrides size }) ∨
      (¬ Reinterprets sendefs tensor size ∧ tensor' = { tensor with
          sizes := size
          strides := contiguousStrides size
          storage := fresh
          storageBytes := storageBytes
          spyreLayout := layout
          dmaSizes := size
          dmaStrides := contiguousStrides size }))) := by
  have unreserved := whole.unreserved
  unfold spyreResize at resized
  split at resized
  next same =>
    cases resized
    exact .inl ⟨same.1, rfl⟩
  next notSame =>
    right
    refine ⟨fun same => notSame ⟨same, whole.contiguous⟩, ?_⟩
    obtain ⟨-, resized⟩ := of_guard resized
    obtain ⟨-, resized⟩ := of_guard resized
    obtain ⟨-, resized⟩ := of_guard resized
    obtain ⟨-, resized⟩ := of_guard resized
    obtain ⟨-, resized⟩ := of_guard resized
    obtain ⟨layoutSize, isLayoutSize, resized⟩ := bind_eq_ok_iff.mp resized
    rw [unreserved] at isLayoutSize
    cases isLayoutSize
    obtain ⟨layout, isLayout, resized⟩ := bind_eq_ok_iff.mp resized
    obtain ⟨deviceBytes, isDevice, resized⟩ := bind_eq_ok_iff.mp resized
    obtain ⟨cpuBytes, isCpu, resized⟩ := bind_eq_ok_iff.mp resized
    refine ⟨layout, max deviceBytes cpuBytes, isLayout, ?_⟩
    simp only [unreserved, fewer, true_or, true_and, decide_eq_true_eq] at resized
    split at resized
    next fits =>
      cases resized
      exact .inl ⟨⟨layout, deviceBytes, cpuBytes, isLayout, isDevice, isCpu, fits⟩, by rw [unreserved]⟩
    next tooLarge =>
      cases resized
      refine .inr ⟨?_, by rw [unreserved]⟩
      rintro ⟨layout', deviceBytes', cpuBytes', isLayout', isDevice', isCpu', fits⟩
      cases isLayout.symm.trans isLayout'
      cases isDevice.symm.trans isDevice'
      cases isCpu.symm.trans isCpu'
      exact tooLarge fits

omit sendefs in
theorem pos_of_prod_pos {sizes : List ℤ} (nonneg : ∀ size ∈ sizes, 0 ≤ size)
    (elements : 0 < sizes.prod) : ∀ size ∈ sizes, 0 < size := by
  intro size member
  refine lt_of_le_of_ne (nonneg size member) fun isZero => ?_
  rw [List.prod_eq_zero_iff.mpr (isZero ▸ member)] at elements
  exact lt_irrefl 0 elements

variable {sendefs}

theorem Whole.copies (several : SticksHoldSeveral sendefs) {tensor : SpyreTensor}
    (whole : Whole sendefs tensor) (elements : 0 < tensor.sizes.prod) :
    ∃ toDevice toHost,
      layoutStrideInfos tensor.sizes tensor.strides tensor.spyreLayout 0 0 true = .ok toDevice ∧
      layoutStrideInfos tensor.sizes tensor.strides tensor.spyreLayout 0 0 false = .ok toHost ∧
      InverseCopies tensor.sizes.prod tensor.spyreLayout.deviceSize.prod (movesOf toDevice)
        (movesOf toHost) := by
  have positive := pos_of_prod_pos whole.sizes_nonneg elements
  obtain ⟨dimOrder, accepted, laidOut⟩ := whole.laidOut
  exact layout_inverseCopies several accepted positive
    (contiguous_of_isContiguous whole.sameLength positive whole.contiguous) laidOut

theorem default_copies (several : SticksHoldSeveral sendefs) {size : List ℤ} {dtype : ScalarType}
    {layout : SpyreTensorLayout} (nonneg : ∀ extent ∈ size, 0 ≤ extent) (elements : 0 < size.prod)
    (laidOut : initDefault sendefs size dtype = .ok layout) :
    ∃ toDevice toHost,
      layoutStrideInfos size (contiguousStrides size) layout 0 0 true = .ok toDevice ∧
      layoutStrideInfos size (contiguousStrides size) layout 0 0 false = .ok toHost ∧
      InverseCopies size.prod layout.deviceSize.prod (movesOf toDevice) (movesOf toHost) := by
  have positive := pos_of_prod_pos nonneg elements
  rw [contiguousStrides_eq positive]
  exact layout_inverseCopies several (.inl (List.Perm.refl _)) positive
    (contiguous_computeHostStride size) laidOut

omit sendefs in
/-- Moves to different places can be made. -/
theorem exists_copied {Value : Type} {moves : Multiset (ℤ × ℤ)} (distinct : (moves.map Prod.snd).Nodup)
    (source before : ℤ → Value) : ∃ after, Copied moves source before after := by
  classical
  refine ⟨fun address => if found : ∃ move ∈ moves, move.2 = address then source found.choose.1
    else before address, fun move member => ?_, fun address absent => ?_⟩
  · have found : ∃ other ∈ moves, other.2 = move.2 := ⟨move, member, rfl⟩
    have same : found.choose = move :=
      Multiset.inj_on_of_nodup_map distinct _ found.choose_spec.1 _ member found.choose_spec.2
    simp only [dif_pos found, same]
  · refine dif_neg ?_
    rintro ⟨move, member, isAddress⟩
    exact absent move member isAddress

omit sendefs in
theorem InverseCopies.nodup_hosts {hostElements deviceElements : ℤ} {toDevice toHost : Multiset (ℤ × ℤ)}
    (copies : InverseCopies hostElements deviceElements toDevice toHost) :
    (toHost.map Prod.snd).Nodup := by
  rw [copies.inverse, Multiset.map_map]
  change (toDevice.map Prod.fst).Nodup
  rw [copies.everyHost]
  exact Finset.nodup _

omit sendefs in
/-- What is read back at an address is what its device position holds. -/
theorem InverseCopies.read {Value : Type} {hostElements deviceElements : ℤ}
    {toDevice toHost : Multiset (ℤ × ℤ)}
    (copies : InverseCopies hostElements deviceElements toDevice toHost)
    {device before host : ℤ → Value} (copied : Copied toHost device before host)
    {move : ℤ × ℤ} (member : move ∈ toDevice) : host move.1 = device move.2 := by
  have swapped : move.swap ∈ toHost := by
    rw [copies.inverse]
    exact Multiset.mem_map_of_mem _ member
  exact copied.1 _ swapped

omit sendefs in
/-- A tensor with inverse descriptions, and where its elements are on the device. -/
structure Readable (tensor : SpyreTensor) (moves : Multiset (ℤ × ℤ)) : Prop where
  infos : ∃ toDevice toHost,
    layoutStrideInfos tensor.dmaSizes tensor.dmaStrides tensor.spyreLayout 0 0 true = .ok toDevice ∧
    layoutStrideInfos tensor.dmaSizes tensor.dmaStrides tensor.spyreLayout 0 0 false = .ok toHost ∧
    moves = movesOf toDevice ∧ InverseCopies tensor.sizes.prod tensor.spyreLayout.deviceSize.prod
      (movesOf toDevice) (movesOf toHost)

namespace Readable

variable {Value : Type} {tensor : SpyreTensor} {moves : Multiset (ℤ × ℤ)}
  (readable : Readable tensor moves)

include readable

omit sendefs in
theorem exists_reads (device : ℤ → Value) : ∃ host, ReadsBack tensor device host := by
  obtain ⟨toDevice, toHost, -, isToHost, -, copies⟩ := readable.infos
  obtain ⟨host, copied⟩ := exists_copied copies.nodup_hosts device fun _ => device 0
  exact ⟨host, toHost, _, isToHost, copied⟩

omit sendefs in
theorem reads {device host : ℤ → Value} (back : ReadsBack tensor device host)
    {address position : ℤ} (member : (address, position) ∈ moves) :
    host address = device position := by
  obtain ⟨toDevice, toHost, -, isToHost, rfl, copies⟩ := readable.infos
  obtain ⟨toHost', before, isToHost', copied⟩ := back
  cases isToHost.symm.trans isToHost'
  exact copies.read copied member

omit sendefs in
theorem exists_place {address : ℤ} (nonneg : 0 ≤ address) (below : address < tensor.sizes.prod) :
    ∃ position, (address, position) ∈ moves := by
  obtain ⟨toDevice, toHost, -, -, rfl, copies⟩ := readable.infos
  obtain ⟨move, member, rfl⟩ := copies.exists_move nonneg below
  exact ⟨move.2, member⟩

omit sendefs in
theorem placed_iff {address position : ℤ} :
    PlacedAt tensor.dmaSizes tensor.dmaStrides tensor.spyreLayout address position ↔
      (address, position) ∈ moves := by
  obtain ⟨toDevice, toHost, isToDevice, -, rfl, copies⟩ := readable.infos
  constructor
  · rintro ⟨toDevice', isToDevice', member⟩
    cases isToDevice.symm.trans isToDevice'
    exact member
  · intro member
    exact ⟨toDevice, isToDevice, member⟩

omit sendefs in
theorem place_unique {address position position' : ℤ} (member : (address, position) ∈ moves)
    (member' : (address, position') ∈ moves) : position = position' := by
  obtain ⟨toDevice, toHost, -, -, rfl, copies⟩ := readable.infos
  have distinct : ((movesOf toDevice).map Prod.fst).Nodup := by
    rw [copies.everyHost]
    exact Finset.nodup _
  exact congrArg Prod.snd (Multiset.inj_on_of_nodup_map distinct _ member _ member' rfl)

end Readable

theorem Whole.readable (several : SticksHoldSeveral sendefs) {tensor : SpyreTensor}
    (whole : Whole sendefs tensor) (elements : 0 < tensor.sizes.prod) :
    ∃ moves, Readable tensor moves := by
  obtain ⟨toDevice, toHost, isToDevice, isToHost, copies⟩ := whole.copies several elements
  refine ⟨movesOf toDevice, ⟨toDevice, toHost, ?_, ?_, rfl, copies⟩⟩
  · rw [whole.dmaSizes, whole.dmaStrides]
    exact isToDevice
  · rw [whole.dmaSizes, whole.dmaStrides]
    exact isToHost

/-- Equal places mean equal contents of every memory. -/
theorem preserves_iff_same_places {tensor tensor' : SpyreTensor} {moves moves' : Multiset (ℤ × ℤ)}
    (old : Readable tensor moves) (new : Readable tensor' moves')
    (sameStorage : tensor'.storage = tensor.storage)
    (fewer : tensor'.sizes.prod ≤ tensor.sizes.prod) :
    Preserves tensor tensor' ↔ ∀ address, 0 ≤ address → address < tensor'.sizes.prod →
      ∀ position, (address, position) ∈ moves ↔ (address, position) ∈ moves' := by
  constructor
  · intro preserves address nonneg below
    obtain ⟨position, member⟩ := old.exists_place nonneg (lt_of_lt_of_le below fewer)
    obtain ⟨position', member'⟩ := new.exists_place nonneg below
    -- A memory that holds every position's own number tells the places apart.
    obtain ⟨host, back⟩ := old.exists_reads fun place : ℤ => place
    obtain ⟨host', back'⟩ := new.exists_reads fun place : ℤ => place
    have moved : Moved tensor tensor' (fun place : ℤ => place) fun place => place := by
      unfold Moved
      rw [if_pos sameStorage]
    have same := (preserves moved).2 host host' back back' address nonneg below
    rw [old.reads back member, new.reads back' member'] at same
    intro place
    constructor
    · intro placed
      rw [old.place_unique placed member, ← same]
      exact member'
    · intro placed
      rw [new.place_unique placed member', same]
      exact member
  · intro same Value device device' moved
    have unchanged : device' = device := by
      unfold Moved at moved
      rwa [if_pos sameStorage] at moved
    refine ⟨fun _ => new.exists_reads device', fun host host' back back' address nonneg below => ?_⟩
    obtain ⟨position, member⟩ := new.exists_place nonneg below
    rw [new.reads back' member, unchanged]
    exact (old.reads back ((same _ nonneg below position).mpr member)).symm

/-- A copy through the host keeps the contents. -/
theorem preserves_of_copy {tensor tensor' : SpyreTensor} {moves moves' : Multiset (ℤ × ℤ)}
    (old : Readable tensor moves) (new : Readable tensor' moves')
    (otherStorage : tensor'.storage ≠ tensor.storage)
    (fewer : tensor'.sizes.prod ≤ tensor.sizes.prod) : Preserves tensor tensor' := by
  intro Value device device' moved
  unfold Moved at moved
  rw [if_neg otherStorage] at moved
  obtain ⟨cpu, backCpu, toDevice, before, isToDevice, copied⟩ := moved
  refine ⟨fun _ => new.exists_reads device', fun host host' back back' address nonneg below => ?_⟩
  obtain ⟨position, member⟩ := old.exists_place nonneg (lt_of_lt_of_le below fewer)
  obtain ⟨position', member'⟩ := new.exists_place nonneg below
  have written : (address, position') ∈ movesOf toDevice := by
    obtain ⟨toDevice', toHost', isToDevice', -, rfl, -⟩ := new.infos
    cases isToDevice.symm.trans isToDevice'
    exact member'
  have sent := copied.1 _ written
  rw [new.reads back' member', sent, old.reads backCpu member, old.reads back member]

end Resize

/-- A half-precision tensor of the given shape in its default layout. -/
def halfTensor (sizes : List ℤ) (storageBytes : ℕ) (layout : SpyreTensorLayout) : SpyreTensor :=
  { dtype := .half
    sizes := sizes
    strides := contiguousStrides sizes
    storageOffset := 0
    storage := 0
    storageBytes := storageBytes
    spyreLayout := layout
    dmaSizes := sizes
    dmaStrides := contiguousStrides sizes
    reservedDims := []
    sharded := false }

/-- Two by two by two elements: four sticks of two elements. -/
def cubeTensor : SpyreTensor :=
  halfTensor [2, 2, 2] 512
    { deviceSize := [2, 1, 2, 64]
      strideMap := [2, 2, 4, 1]
      deviceDtype := .sen169Fp16
      validElements := [([2], 2), ([0], 2), ([1, 3], 2)] }

theorem cubeTensor_whole : Whole floatSticks cubeTensor :=
  { unreserved := rfl
    storageOffset := rfl
    sizes_nonneg := by decide
    sameLength := rfl
    contiguous := by decide
    dmaSizes := rfl
    dmaStrides := rfl
    laidOut := ⟨[0, 1, 2], .inl (List.Perm.refl _), by decide⟩ }

def squareTensor : SpyreTensor :=
  halfTensor [2, 2] 512
    { deviceSize := [1, 2, 64]
      strideMap := [2, 2, 1]
      deviceDtype := .sen169Fp16
      validElements := [([1], 2), ([0, 2], 2)] }

end TorchSpyre.TensorLayout
