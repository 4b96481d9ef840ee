import TorchSpyre.Lib.StridedLoops
import TorchSpyre.TensorLayout.RoundTrip

/-!
# Conversions that are plain copies

A conversion may be dropped in favour of a raw copy when its one loop reads and writes the same
places, and these are all places of the tensor.  The strides, sorted from the innermost one out,
show it: every dimension with more than one element starts where the dimensions before it end.
-/

namespace TorchSpyre.TensorLayout

open Lib StridedLoops

/-! ## The conversion -/

/-- A strided loop as it is handed over: nothing says that its vectors have one length. -/
structure StrideInfoVectors where
  size : List ℤ
  strideSrc : List ℤ
  strideDst : List ℤ
  offsetSrc : ℤ
  offsetDst : ℤ

inductive DataConvertOpFuncs where
  | generalShuffle
  /-- Operations that the runtime does not name. -/
  | specialized (code : ℕ)
  deriving DecidableEq

/-- The fields that decide between a conversion and a raw copy. -/
structure DataConversionInfo (Ea : Type) where
  dataformatSrc : DataFormats
  dataformatDst : DataFormats
  dcOpName : DataConvertOpFuncs
  preInputShape : List ℤ
  postOutputShape : List ℤ
  preExpandDcsi : List StrideInfoVectors
  postSliceDcsi : List StrideInfoVectors
  inputDimwiseEa : List Ea
  outputDimwiseEa : List Ea
  useSpi : Bool
  usePca : Bool
  usePadVal : Bool
  useWli : Bool
  dcsi : List StrideInfoVectors
  outputShape : List ℤ

/-- What `std::sort` by stride may do with pairs of stride and size; ties go either way. -/
structure StrideSort where
  arrange : List (ℤ × ℤ) → List (ℤ × ℤ)
  perm : ∀ dims, (arrange dims).Perm dims
  sorted : ∀ dims, (arrange dims).Pairwise fun first second => first.1 ≤ second.1

/-- A product of 64-bit signed integers; there is none if it overflows. -/
def mulSigned (first second : ℤ) : Option ℤ :=
  if -2 ^ 63 ≤ first * second ∧ first * second < 2 ^ 63 then some (first * second) else none

/-- `numel` after the sorted dimensions, `some none` where they do not cover a range. -/
def denseCount : List (ℤ × ℤ) → ℤ → Option (Option ℤ)
  | [], numel => some (some numel)
  | (stride, size) :: dims, numel =>
      if size < 1 then some none
      else if size = 1 then denseCount dims numel
      else if stride ≠ numel then some none
      else
        match mulSigned numel size with
        | none => none
        | some numel => denseCount dims numel

/-- `none` stands for a product that overflows, where the source has no defined result. -/
def dciIsIdentityCopy {Ea : Type} (sort : StrideSort) (dci : DataConversionInfo Ea) :
    Option Bool :=
  if dci.dataformatSrc ≠ dci.dataformatDst then some false
  else if dci.dcOpName ≠ .generalShuffle then some false
  else if !dci.preInputShape.isEmpty || !dci.postOutputShape.isEmpty then some false
  else if !dci.preExpandDcsi.isEmpty || !dci.postSliceDcsi.isEmpty then some false
  else if !dci.inputDimwiseEa.isEmpty || !dci.outputDimwiseEa.isEmpty then some false
  else if dci.useSpi || dci.usePca || dci.usePadVal || dci.useWli then some false
  else
    match dci.dcsi with
    | [dcsi] =>
        if dcsi.offsetSrc ≠ 0 ∨ dcsi.offsetDst ≠ 0 then some false
        else if dcsi.strideSrc ≠ dcsi.strideDst then some false
        else
          let rank := dcsi.size.length
          if rank = 0 ∨ dcsi.strideSrc.length ≠ rank then some false
          else
            match denseCount (sort.arrange (dcsi.strideSrc.zip dcsi.size)) 1 with
            | none => none
            | some none => some false
            | some (some numel) =>
                (dci.outputShape.foldlM mulSigned 1).map fun volume => decide (volume = numel)
    | _ => some false

/-! ## What an accepted conversion copies -/

/-- The loop over the indices below the sizes. -/
def StrideInfoVectors.loop (info : StrideInfoVectors) :
    DataConversionStrideInfo info.size.length where
  size := vector _ info.size
  strideSrc := vector _ info.strideSrc
  strideDst := vector _ info.strideDst
  offsetSrc := info.offsetSrc
  offsetDst := info.offsetDst

/-- Every place below `volume` is copied to itself, once. -/
noncomputable def identityMoves (volume : ℤ) : Multiset (ℤ × ℤ) :=
  (Finset.Ico 0 volume).val.map fun place => (place, place)

theorem eq_mul_of_mulSigned {first second product : ℤ}
    (defined : mulSigned first second = some product) : product = first * second := by
  unfold mulSigned at defined
  split at defined
  · exact (Option.some.inj defined).symm
  · cases defined

theorem volume_eq_prod {shape : List ℤ} {start volume : ℤ}
    (defined : shape.foldlM mulSigned start = some volume) : volume = start * shape.prod := by
  induction shape generalizing start with
  | nil => simpa using (Option.some.inj defined).symm
  | cons dim shape inductionHypothesis =>
      obtain ⟨product, isProduct, rest⟩ := Option.bind_eq_some_iff.mp defined
      rw [inductionHypothesis rest, eq_mul_of_mulSigned isProduct, List.prod_cons, mul_assoc]

/-- The dimensions that pass carry a range of places on to a longer one. -/
theorem foldl_around_of_denseCount {dims : List (ℤ × ℤ)} {numel total : ℤ} (numelPos : 0 < numel)
    (dense : denseCount dims numel = some (some total)) :
    dims.foldl around (Finset.Ico 0 numel).val = (Finset.Ico 0 total).val := by
  induction dims generalizing numel with
  | nil =>
      have same : numel = total := by simpa [denseCount] using dense
      rw [same, List.foldl_nil]
  | cons dim dims inductionHypothesis =>
      obtain ⟨stride, size⟩ := dim
      rw [List.foldl_cons]
      unfold denseCount at dense
      split at dense
      next => simp at dense
      next large =>
        split at dense
        next single =>
          rw [single, around_one]
          exact inductionHypothesis numelPos dense
        next several =>
          split at dense
          next => simp at dense
          next starts =>
            split at dense
            next => simp at dense
            next product isProduct =>
              have positive : 0 < numel * size := mul_pos numelPos (by omega)
              rw [not_not.mp starts, around_dense numelPos]
              rw [eq_mul_of_mulSigned isProduct] at dense
              exact inductionHypothesis positive dense

theorem visited_of_denseCount (sort : StrideSort) {dims : List (ℤ × ℤ)} {total : ℤ}
    (dense : denseCount (sort.arrange dims) 1 = some (some total)) :
    visited dims = (Finset.Ico 0 total).val := by
  rw [← visited_perm (sort.perm dims), ← foldl_around_of_denseCount one_pos dense]
  rfl

theorem ofFn_vector_pairs {strides sizes : List ℤ} (sameLength : strides.length = sizes.length) :
    (List.ofFn fun dim => (vector sizes.length strides dim, vector sizes.length sizes dim)) =
      strides.zip sizes := by
  apply List.ext_getElem
  · simp [sameLength]
  · intro dim inside inside'
    rw [List.length_zip] at inside'
    have strideListed : dim < strides.length := by omega
    simp [vector, strideListed]

/-- A loop with equal strides copies every visited place to itself. -/
theorem loop_moves {info : StrideInfoVectors} (noOffset : info.offsetSrc = 0 ∧ info.offsetDst = 0)
    (sameStrides : info.strideSrc = info.strideDst)
    (sameLength : info.strideSrc.length = info.size.length) :
    info.loop.moves = (visited (info.strideSrc.zip info.size)).map fun place => (place, place) := by
  rw [← ofFn_vector_pairs sameLength, ← map_box_eq_visited, Multiset.map_map]
  simp [DataConversionStrideInfo.moves, StrideInfoVectors.loop, noOffset.1, noOffset.2,
    ← sameStrides]

/-- What an accepted conversion has passed. -/
theorem accepted_cases {Ea : Type} {sort : StrideSort} {dci : DataConversionInfo Ea}
    (accepted : dciIsIdentityCopy sort dci = some true) :
    ∃ info, dci.dcsi = [info] ∧ (info.offsetSrc = 0 ∧ info.offsetDst = 0) ∧
      info.strideSrc = info.strideDst ∧ info.strideSrc.length = info.size.length ∧
      denseCount (sort.arrange (info.strideSrc.zip info.size)) 1 =
        some (some dci.outputShape.prod) := by
  unfold dciIsIdentityCopy at accepted
  iterate 6
    split at accepted
    · simp at accepted
  split at accepted
  next info single =>
    split at accepted
    next => simp at accepted
    next noOffset =>
      split at accepted
      next => simp at accepted
      next sameStrides =>
        simp only at accepted
        split at accepted
        next => simp at accepted
        next lengths =>
          split at accepted
          next => simp at accepted
          next => simp at accepted
          next numel dense =>
            obtain ⟨volume, defined, same⟩ := Option.map_eq_some_iff.mp accepted
            rw [volume_eq_prod defined, one_mul, decide_eq_true_eq] at same
            rw [not_or, not_not, not_not] at noOffset
            rw [not_or, not_not] at lengths
            exact ⟨info, single, noOffset, not_not.mp sameStrides, lengths.2, same ▸ dense⟩
  next => simp at accepted

theorem mem_identityMoves {volume : ℤ} {move : ℤ × ℤ} :
    move ∈ identityMoves volume ↔ (0 ≤ move.1 ∧ move.1 < volume) ∧ move.1 = move.2 := by
  obtain ⟨origin, target⟩ := move
  unfold identityMoves
  rw [Multiset.mem_map]
  simp only [Finset.mem_val, Finset.mem_Ico, Prod.mk.injEq]
  constructor
  · rintro ⟨place, bounds, rfl, rfl⟩
    exact ⟨bounds, rfl⟩
  · rintro ⟨bounds, same⟩
    exact ⟨origin, bounds, rfl, same⟩

/-- Copying every place of a range to itself is a plain copy of the range. -/
theorem copied_identityMoves_iff {Value : Type} {volume : ℤ} {source before after : ℤ → Value} :
    Copied (identityMoves volume) source before after ↔
      ∀ address, after address =
        if 0 ≤ address ∧ address < volume then source address else before address := by
  constructor
  · rintro ⟨copied, kept⟩ address
    split
    next inside => exact copied (address, address) (mem_identityMoves.2 ⟨inside, rfl⟩)
    next outside =>
      refine kept address fun move member atAddress => outside ?_
      obtain ⟨bounds, same⟩ := mem_identityMoves.1 member
      rwa [← atAddress, ← same]
  · intro plain
    constructor
    · intro move member
      obtain ⟨bounds, same⟩ := mem_identityMoves.1 member
      rw [← same, plain, if_pos bounds]
    · intro address untouched
      rw [plain, if_neg]
      intro inside
      exact untouched (address, address) (mem_identityMoves.2 ⟨inside, rfl⟩) rfl

/-- The one loop of an accepted conversion copies every place of the tensor to itself, once, and
running it is a plain copy. -/
theorem dciIsIdentityCopy_moves {Ea : Type} (sort : StrideSort) (dci : DataConversionInfo Ea)
    (accepted : dciIsIdentityCopy sort dci = some true) :
    ∃ info, dci.dcsi = [info] ∧
      info.strideSrc.length = info.size.length ∧ info.strideDst.length = info.size.length ∧
      info.loop.moves =
        (Finset.Ico 0 dci.outputShape.prod).val.map (fun place => (place, place)) ∧
      ∀ (Value : Type) (source before after : ℤ → Value),
        Copied info.loop.moves source before after ↔
          ∀ address, after address =
            if 0 ≤ address ∧ address < dci.outputShape.prod then source address
            else before address := by
  obtain ⟨info, single, noOffset, sameStrides, sameLength, dense⟩ := accepted_cases accepted
  have moves : info.loop.moves = identityMoves dci.outputShape.prod := by
    rw [loop_moves noOffset sameStrides sameLength, visited_of_denseCount sort dense]
    rfl
  refine ⟨info, single, sameLength, sameStrides ▸ sameLength, moves, ?_⟩
  intro Value source before after
  rw [moves]
  exact copied_identityMoves_iff

def StrideLe (first second : ℤ × ℤ) : Prop := first.1 ≤ second.1

instance : DecidableRel StrideLe := fun first second => Int.decLe first.1 second.1

instance : Std.Total StrideLe := ⟨fun first second => le_total first.1 second.1⟩

instance : IsTrans (ℤ × ℤ) StrideLe := ⟨fun _ _ _ => le_trans⟩

/-- A sort that keeps the order of equal strides. -/
def StrideSort.stable : StrideSort where
  arrange dims := dims.insertionSort StrideLe
  perm dims := List.perm_insertionSort StrideLe dims
  sorted dims := List.pairwise_insertionSort StrideLe dims

/-- Two rows of three places; a dimension of one element has a stride of its own. -/
def spacedRows : DataConversionInfo ℕ where
  dataformatSrc := .ieeeFp32
  dataformatDst := .ieeeFp32
  dcOpName := .generalShuffle
  preInputShape := []
  postOutputShape := []
  preExpandDcsi := []
  postSliceDcsi := []
  inputDimwiseEa := []
  outputDimwiseEa := []
  useSpi := false
  usePca := false
  usePadVal := false
  useWli := false
  dcsi := [{ size := [2, 1, 3], strideSrc := [3, 0, 1], strideDst := [3, 0, 1]
             offsetSrc := 0, offsetDst := 0 }]
  outputShape := [2, 3]

theorem spacedRows_moves : ∃ info, spacedRows.dcsi = [info] ∧
    info.strideSrc.length = info.size.length ∧ info.strideDst.length = info.size.length ∧
    info.loop.moves = (Finset.Ico 0 spacedRows.outputShape.prod).val.map (fun place => (place, place)) ∧
    ∀ (Value : Type) (source before after : ℤ → Value),
      Copied info.loop.moves source before after ↔
        ∀ address, after address =
          if 0 ≤ address ∧ address < spacedRows.outputShape.prod then source address
          else before address :=
  dciIsIdentityCopy_moves .stable spacedRows (by decide +kernel)

end TorchSpyre.TensorLayout
