import Mathlib
import TorchSpyre.SplitPlanning.Distribution

/-!
# The memory span of one core

`get_per_core_span` looks at the origin and at the last point of the first core's block, and
reports the outermost device dimension that differs between the two.
-/

namespace TorchSpyre.SplitPlanning

open Lib

variable {Dim : Type} [DecidableEq Dim]

/-- A device coordinate: a constant and one term for each of its symbols. -/
structure Coordinate (Dim : Type) where
  offset : ℤ
  terms : Dict Dim (ℤ → ℤ)

namespace Coordinate

def value (coordinate : Coordinate Dim) (point : Dim → ℤ) : ℤ :=
  coordinate.offset + (coordinate.terms.entries.map fun entry => entry.2 (point entry.1)).sum

/-- The coordinate with every other symbol replaced by zero. -/
def alone (coordinate : Coordinate Dim) (dim : Dim) (value : ℤ) : ℤ :=
  coordinate.value fun other => if other = dim then value else 0

end Coordinate

/-- A device dimension with the coordinate that indexes it. -/
structure DeviceDim (Dim : Type) where
  size : ℕ
  coordinate : Coordinate Dim

/-- A tensor access, outermost device dimension first; the last one is the stick. -/
structure TensorDep (Dim : Type) where
  itemsize : ℕ
  dims : List (DeviceDim Dim)

/-- `math.prod(device_size[d + 1 :])` -/
def strideElems (inner : List (DeviceDim Dim)) : ℕ := (inner.map DeviceDim.size).prod

section Span

variable (ranges : Ranges Dim) (splits : Dict Dim ℕ)

/-- The range of one core along a symbol. -/
def perCoreRange (dim : Dim) : ℕ := ranges.effectiveSize dim / (splits.lookup dim).getD 1

def perCoreSize (coordinate : Coordinate Dim) : ℤ :=
  let perCoreMax := (coordinate.terms.keys.map fun dim =>
    coordinate.alone dim (perCoreRange ranges splits dim - 1)).sum
  let perCoreMin := (coordinate.terms.keys.map fun dim => coordinate.alone dim 0).sum
  perCoreMax - perCoreMin + 1

def spanFrom (itemsize : ℕ) : List (DeviceDim Dim) → ℤ
  | dim :: next :: inner =>
      if 1 < perCoreSize ranges splits dim.coordinate then
        perCoreSize ranges splits dim.coordinate * strideElems (next :: inner) * itemsize
      else spanFrom itemsize (next :: inner)
  | _ => itemsize

/-- `get_per_core_span` -/
def getPerCoreSpan (tensor : TensorDep Dim) : ℤ := spanFrom ranges splits tensor.itemsize tensor.dims

end Span

/-! ## The two corners -/

/-- The last point of the first core's block. -/
def corner (ranges : Ranges Dim) (splits : Dict Dim ℕ) (dim : Dim) : ℤ :=
  perCoreRange ranges splits dim - 1

theorem sum_alone {entries : List (Dim × (ℤ → ℤ))} (distinct : (entries.map Prod.fst).Nodup)
    {dim : Dim} {term : ℤ → ℤ} (isTerm : (dim, term) ∈ entries) (value : ℤ) :
    (entries.map fun entry => entry.2 (if entry.1 = dim then value else 0)).sum =
      (entries.map fun entry => entry.2 0).sum + (term value - term 0) := by
  induction entries with
  | nil => cases isTerm
  | cons entry entries inductionHypothesis =>
      rw [List.map_cons, List.nodup_cons] at distinct
      simp only [List.map_cons, List.sum_cons]
      rcases List.mem_cons.mp isTerm with rfl | later
      · have rest : (entries.map fun entry => entry.2 (if entry.1 = dim then value else 0)) =
            entries.map fun entry => entry.2 0 := by
          apply List.map_congr_left
          intro other isOther
          have different : other.1 ≠ dim := by
            intro same
            have named := List.mem_map_of_mem (f := Prod.fst) isOther
            rw [same] at named
            exact distinct.1 named
          rw [if_neg different]
        rw [rest, if_pos rfl]
        ring
      · have different : entry.1 ≠ dim := fun same =>
          distinct.1 (same.symm ▸ List.mem_map_of_mem later)
        rw [if_neg different, inductionHypothesis distinct.2 later]
        ring

theorem alone_sub_alone (coordinate : Coordinate Dim) {dim : Dim} {term : ℤ → ℤ}
    (isTerm : (dim, term) ∈ coordinate.terms.entries) (value : ℤ) :
    coordinate.alone dim value - coordinate.alone dim 0 = term value - term 0 := by
  simp only [Coordinate.alone, Coordinate.value]
  rw [sum_alone coordinate.terms.distinct isTerm, sum_alone coordinate.terms.distinct isTerm]
  ring

/-- The reported extent is the difference of the coordinate between the two corners. -/
theorem perCoreSize_eq (ranges : Ranges Dim) (splits : Dict Dim ℕ) (coordinate : Coordinate Dim) :
    perCoreSize ranges splits coordinate =
      coordinate.value (corner ranges splits) - coordinate.value (fun _ => 0) + 1 := by
  have perTerm : (coordinate.terms.entries.map fun entry =>
        coordinate.alone entry.1 (corner ranges splits entry.1) + entry.2 0).sum =
      (coordinate.terms.entries.map fun entry =>
        coordinate.alone entry.1 0 + entry.2 (corner ranges splits entry.1)).sum := by
    congr 1
    apply List.map_congr_left
    intro entry isEntry
    have := alone_sub_alone coordinate isEntry (corner ranges splits entry.1)
    omega
  rw [List.sum_map_add, List.sum_map_add] at perTerm
  simp only [perCoreSize, Dict.keys, List.map_map, Function.comp_def, Coordinate.value]
  simp only [corner] at perTerm ⊢
  omega

/-! ## Strides -/

/-- A point of the iteration space; a range of zero has the origin only. -/
def Inside (ranges : Ranges Dim) (point : Dim → ℤ) : Prop :=
  ∀ dim, 0 ≤ point dim ∧ point dim ≤ (ranges.effectiveSize dim - 1 : ℕ)

/-- The coordinates stay inside the device extents. -/
def WithinExtents (ranges : Ranges Dim) (dims : List (DeviceDim Dim)) : Prop :=
  ∀ dim ∈ dims, ∀ point, Inside ranges point →
    0 ≤ dim.coordinate.value point ∧ dim.coordinate.value point < dim.size

section Strides

variable {ranges : Ranges Dim} {dims : List (DeviceDim Dim)}

theorem inside_origin (ranges : Ranges Dim) : Inside ranges fun _ => 0 :=
  fun _ => ⟨le_rfl, Int.natCast_nonneg _⟩

theorem strideElems_pos (within : WithinExtents ranges dims) : 0 < strideElems dims := by
  rw [strideElems, Nat.pos_iff_ne_zero, Ne, List.prod_eq_zero_iff]
  intro isZero
  obtain ⟨dim, isDim, empty⟩ := List.mem_map.mp isZero
  have bounds := within dim isDim _ (inside_origin ranges)
  omega

theorem WithinExtents.inner {dim : DeviceDim Dim} (within : WithinExtents ranges (dim :: dims)) :
    WithinExtents ranges dims :=
  fun other isOther => within other (List.mem_cons_of_mem _ isOther)

/-- A span over some dimensions is at most what they hold. -/
theorem spanFrom_le {splits : Dict Dim ℕ} (itemsize : ℕ) (within : WithinExtents ranges dims)
    (extents : ∀ dim ∈ dims.dropLast, perCoreSize ranges splits dim.coordinate ≤ dim.size) :
    spanFrom ranges splits itemsize dims ≤ strideElems dims * itemsize := by
  have positive := strideElems_pos within
  induction dims with
  | nil => simp [spanFrom, strideElems]
  | cons dim dims inductionHypothesis =>
      cases dims with
      | nil =>
          show (itemsize : ℤ) ≤ _
          exact_mod_cast Nat.le_mul_of_pos_left itemsize positive
      | cons next inner =>
          have whole : (strideElems (dim :: next :: inner) : ℤ) =
              dim.size * strideElems (next :: inner) := by
            simp [strideElems]
          rw [spanFrom, whole]
          rw [List.dropLast_cons_cons] at extents
          split
          next =>
            apply mul_le_mul_of_nonneg_right _ (Int.natCast_nonneg _)
            exact mul_le_mul_of_nonneg_right (extents dim List.mem_cons_self) (Int.natCast_nonneg _)
          next =>
            have below := inductionHypothesis within.inner
              (fun other isOther => extents other (List.mem_cons_of_mem _ isOther))
              (strideElems_pos within.inner)
            have outer := within dim List.mem_cons_self _ (inside_origin ranges)
            have large : (1 : ℤ) ≤ dim.size := by omega
            refine below.trans (mul_le_mul_of_nonneg_right ?_ (Int.natCast_nonneg _))
            exact le_mul_of_one_le_left (Int.natCast_nonneg _) large

end Strides

/-! ## What a core touches -/

/-- The bytes from the lowest to the highest row that a block of points touches: the outermost
non-stick dimension that varies on the block, times its stride. -/
inductive Touches (block : Set (Dim → ℤ)) (itemsize : ℕ) : List (DeviceDim Dim) → ℤ → Prop where
  | rows {dim next : DeviceDim Dim} {inner : List (DeviceDim Dim)} {first last : Dim → ℤ} :
      first ∈ block → last ∈ block → dim.coordinate.value first < dim.coordinate.value last →
      Touches block itemsize (dim :: next :: inner)
        ((dim.coordinate.value last - dim.coordinate.value first + 1) *
          strideElems (next :: inner) * itemsize)
  | inner {dim next : DeviceDim Dim} {inner : List (DeviceDim Dim)} {bytes : ℤ} :
      (∀ first ∈ block, ∀ last ∈ block,
        dim.coordinate.value first = dim.coordinate.value last) →
      Touches block itemsize (next :: inner) bytes → Touches block itemsize (dim :: next :: inner) bytes

/-- On every block a coordinate varies by no more than between the two corners of the first
block, for each dimension whose outer ones do not grow between these corners. -/
def CornersBound (ranges : Ranges Dim) (splits : Dict Dim ℕ) (blocks : Set (Set (Dim → ℤ))) :
    List (DeviceDim Dim) → Prop
  | dim :: next :: inner =>
      (∀ block ∈ blocks, ∀ first ∈ block, ∀ last ∈ block,
        dim.coordinate.value last - dim.coordinate.value first ≤
          max 0 (dim.coordinate.value (corner ranges splits) - dim.coordinate.value fun _ => 0)) ∧
      (dim.coordinate.value (corner ranges splits) ≤ dim.coordinate.value (fun _ => 0) →
        CornersBound ranges splits blocks (next :: inner))
  | _ => True

section Blocks

variable {ranges : Ranges Dim} {splits : Dict Dim ℕ} {itemsize : ℕ} {dims : List (DeviceDim Dim)}

theorem Touches.le {block : Set (Dim → ℤ)} {bytes : ℤ} (touches : Touches block itemsize dims bytes)
    (inside : ∀ point ∈ block, Inside ranges point) (within : WithinExtents ranges dims) :
    bytes ≤ strideElems dims * itemsize := by
  induction touches with
  | @rows dim next inner first last isFirst isLast grows =>
      have low := within dim List.mem_cons_self first (inside first isFirst)
      have high := within dim List.mem_cons_self last (inside last isLast)
      have whole : (strideElems (dim :: next :: inner) : ℤ) =
          dim.size * strideElems (next :: inner) := by
        simp [strideElems]
      rw [whole]
      apply mul_le_mul_of_nonneg_right _ (Int.natCast_nonneg _)
      apply mul_le_mul_of_nonneg_right _ (Int.natCast_nonneg _)
      omega
  | @inner dim next inner bytes _ _ inductionHypothesis =>
      have outer := within dim List.mem_cons_self _ (inside_origin ranges)
      have whole : (strideElems (dim :: next :: inner) : ℤ) =
          dim.size * strideElems (next :: inner) := by
        simp [strideElems]
      rw [whole]
      have large : (1 : ℤ) ≤ dim.size := by omega
      refine (inductionHypothesis within.inner).trans
        (mul_le_mul_of_nonneg_right ?_ (Int.natCast_nonneg _))
      exact le_mul_of_one_le_left (Int.natCast_nonneg _) large

theorem spanFrom_bounds_iff {blocks : Set (Set (Dim → ℤ))} (positive : 0 < itemsize)
    (inside : ∀ block ∈ blocks, ∀ point ∈ block, Inside ranges point)
    (within : WithinExtents ranges dims)
    (extents : ∀ dim ∈ dims, perCoreSize ranges splits dim.coordinate ≤ dim.size) :
    (∀ block ∈ blocks, ∀ bytes, Touches block itemsize dims bytes →
        bytes ≤ spanFrom ranges splits itemsize dims) ↔
      CornersBound ranges splits blocks dims := by
  induction dims with
  | nil => exact ⟨fun _ => trivial, fun _ _ _ _ touches => by cases touches⟩
  | cons dim dims inductionHypothesis =>
      cases dims with
      | nil => exact ⟨fun _ => trivial, fun _ _ _ _ touches => by cases touches⟩
      | cons next inner =>
          have innerExtents := fun other isOther => extents other (List.mem_cons_of_mem dim isOther)
          have innerIff := inductionHypothesis within.inner innerExtents
          have innerSpan := spanFrom_le itemsize within.inner fun other isOther =>
            innerExtents other (List.mem_of_mem_dropLast isOther)
          have isSize := perCoreSize_eq ranges splits dim.coordinate
          have stridePositive : (0 : ℤ) < strideElems (next :: inner) := by
            exact_mod_cast strideElems_pos within.inner
          have bytesPositive : (0 : ℤ) < strideElems (next :: inner) * itemsize := by positivity
          rw [CornersBound, spanFrom]
          constructor
          · intro bounded
            have bound : ∀ block ∈ blocks, ∀ first ∈ block, ∀ last ∈ block,
                dim.coordinate.value last - dim.coordinate.value first ≤ max 0
                  (dim.coordinate.value (corner ranges splits) - dim.coordinate.value fun _ => 0) := by
              intro block isBlock first isFirst last isLast
              by_cases grows : dim.coordinate.value first < dim.coordinate.value last
              · have fits := bounded block isBlock _ (.rows isFirst isLast grows)
                split at fits
                next =>
                  rw [mul_assoc, mul_assoc, mul_le_mul_iff_left₀ bytesPositive] at fits
                  omega
                next => nlinarith
              · omega
            refine ⟨bound, fun flat => innerIff.mp fun block isBlock bytes touches => ?_⟩
            have constant : ∀ first ∈ block, ∀ last ∈ block,
                dim.coordinate.value first = dim.coordinate.value last := by
              intro first isFirst last isLast
              have forth := bound block isBlock first isFirst last isLast
              have back := bound block isBlock last isLast first isFirst
              omega
            have fits := bounded block isBlock bytes (.inner constant touches)
            rwa [if_neg (by omega)] at fits
          · rintro ⟨bound, later⟩ block isBlock bytes touches
            cases touches with
            | @rows _ _ _ first last isFirst isLast grows =>
                have variation := bound block isBlock first isFirst last isLast
                rw [if_pos (by omega), mul_assoc, mul_assoc]
                exact mul_le_mul_of_nonneg_right (by omega) bytesPositive.le
            | @inner _ _ _ _ constant touches =>
                split
                next varies =>
                  have below := touches.le (inside block isBlock) within.inner
                  refine below.trans ?_
                  rw [mul_assoc]
                  exact le_mul_of_one_le_left bytesPositive.le varies.le
                next flat => exact innerIff.mpr (later (by omega)) block isBlock bytes touches

end Blocks

/-! ## Larger splits -/

/-- The terms of the non-stick coordinates do not decrease. -/
def NonDecreasing (dims : List (DeviceDim Dim)) : Prop :=
  ∀ dim ∈ dims.dropLast, ∀ entry ∈ dim.coordinate.terms.entries, Monotone entry.2

section Larger

variable {ranges : Ranges Dim} {splits larger : Dict Dim ℕ} {dims : List (DeviceDim Dim)}

omit [DecidableEq Dim] in
theorem value_mono {coordinate : Coordinate Dim}
    (monotone : ∀ entry ∈ coordinate.terms.entries, Monotone entry.2) {low high : Dim → ℤ}
    (below : ∀ dim, low dim ≤ high dim) : coordinate.value low ≤ coordinate.value high := by
  apply Int.add_le_add_left
  apply List.sum_le_sum
  intro entry isEntry
  exact monotone entry isEntry (below entry.1)

theorem perCoreSize_mono {coordinate : Coordinate Dim}
    (monotone : ∀ entry ∈ coordinate.terms.entries, Monotone entry.2)
    (smaller : ∀ dim, perCoreRange ranges larger dim ≤ perCoreRange ranges splits dim) :
    perCoreSize ranges larger coordinate ≤ perCoreSize ranges splits coordinate := by
  have below : coordinate.value (corner ranges larger) ≤ coordinate.value (corner ranges splits) := by
    apply value_mono monotone
    intro dim
    have := smaller dim
    rw [corner, corner]
    omega
  rw [perCoreSize_eq, perCoreSize_eq]
  omega

/-- Clamped at zero the corner is a point of the iteration space. -/
theorem perCoreSize_le_of_monotone {dim : DeviceDim Dim}
    (monotone : ∀ entry ∈ dim.coordinate.terms.entries, Monotone entry.2)
    (within : ∀ point, Inside ranges point →
      0 ≤ dim.coordinate.value point ∧ dim.coordinate.value point < dim.size) :
    perCoreSize ranges splits dim.coordinate ≤ dim.size := by
  have inside : Inside ranges fun dim => max 0 (corner ranges splits dim) := by
    intro dim
    have below : perCoreRange ranges splits dim ≤ ranges.effectiveSize dim := Nat.div_le_self _ _
    simp only [corner]
    omega
  have clamped : dim.coordinate.value (corner ranges splits) ≤
      dim.coordinate.value fun dim => max 0 (corner ranges splits dim) :=
    value_mono monotone fun dim => le_max_right _ _
  have low := within _ (inside_origin ranges)
  have high := within _ inside
  rw [perCoreSize_eq]
  omega

/-- Smaller per-core ranges have a smaller span, also where a dimension collapses. -/
theorem spanFrom_mono (itemsize : ℕ) (within : WithinExtents ranges dims)
    (monotone : NonDecreasing dims)
    (smaller : ∀ dim, perCoreRange ranges larger dim ≤ perCoreRange ranges splits dim) :
    spanFrom ranges larger itemsize dims ≤ spanFrom ranges splits itemsize dims := by
  induction dims with
  | nil => exact le_rfl
  | cons dim dims inductionHypothesis =>
      cases dims with
      | nil => exact le_rfl
      | cons next inner =>
          rw [NonDecreasing, List.dropLast_cons_cons] at monotone
          have here := monotone dim List.mem_cons_self
          have innerMonotone : NonDecreasing (next :: inner) := fun other isOther =>
            monotone other (List.mem_cons_of_mem _ isOther)
          have shrinks : perCoreSize ranges larger dim.coordinate ≤
              perCoreSize ranges splits dim.coordinate := perCoreSize_mono here smaller
          rw [spanFrom, spanFrom]
          split
          next varies =>
            rw [if_pos (varies.trans_le shrinks)]
            apply mul_le_mul_of_nonneg_right _ (Int.natCast_nonneg _)
            exact mul_le_mul_of_nonneg_right shrinks (Int.natCast_nonneg _)
          next =>
            split
            next varied =>
              have below : spanFrom ranges larger itemsize (next :: inner) ≤
                  strideElems (next :: inner) * itemsize := by
                apply spanFrom_le itemsize within.inner
                intro other isOther
                exact perCoreSize_le_of_monotone (innerMonotone other isOther)
                  (within.inner other (List.mem_of_mem_dropLast isOther))
              refine below.trans ?_
              rw [mul_assoc]
              exact le_mul_of_one_le_left (by positivity) varied.le
            next => exact inductionHypothesis within.inner innerMonotone

end Larger

/-! ## The blocks of the cores -/

section Cores

variable (ranges : Ranges Dim) (splits : Dict Dim ℕ) (stickElems : Dict Dim ℕ+)

/-- What a split factor divides: the range of a variable, or its stick count. -/
def splitBasis (dim : Dim) : ℕ :=
  match stickElems.lookup dim with
  | none => ranges.effectiveSize dim
  | some elems => (ranges.effectiveSize dim + elems - 1) / elems

/-- The elements of one block, whole sticks for a stick variable. -/
def blockWidth (dim : Dim) : ℕ :=
  splitBasis ranges stickElems dim / (splits.lookup dim).getD 1 *
    ((stickElems.lookup dim).map PNat.val).getD 1

def coreBlock (slots : Dim → ℕ) : Set (Dim → ℤ) :=
  { point | ∀ dim, (slots dim * blockWidth ranges splits stickElems dim : ℕ) ≤ point dim ∧
    point dim < ((slots dim + 1) * blockWidth ranges splits stickElems dim : ℕ) ∧
    point dim < ranges.effectiveSize dim }

/-- A core is the slot it has along each variable. -/
def coreBlocks : Set (Set (Dim → ℤ)) :=
  { block | ∃ slots : Dim → ℕ, (∀ dim, slots dim < (splits.lookup dim).getD 1) ∧
    block = coreBlock ranges splits stickElems slots }

variable {ranges splits stickElems}

theorem splitBasis_le (dim : Dim) :
    splitBasis ranges stickElems dim ≤ ranges.effectiveSize dim := by
  rw [splitBasis]
  split
  next => exact le_rfl
  next elems _ =>
    have positive := elems.pos
    rw [Nat.div_le_iff_le_mul_add_pred positive]
    have enough := Nat.le_mul_of_pos_left (ranges.effectiveSize dim) positive
    omega

theorem splitBasis_pos {dim : Dim} (positive : 0 < ranges.effectiveSize dim) :
    0 < splitBasis ranges stickElems dim := by
  rw [splitBasis]
  split
  next => exact positive
  next elems _ => exact Nat.div_pos (by omega) elems.pos

/-- With no empty range the far corner of the first block is a point. -/
theorem inside_corner (nonempty : ∀ dim, 0 < ranges.effectiveSize dim)
    (divides : ∀ dim, (splits.lookup dim).getD 1 ∣ splitBasis ranges stickElems dim) :
    Inside ranges (corner ranges splits) := by
  intro dim
  have positive : 0 < splitBasis ranges stickElems dim := splitBasis_pos (nonempty dim)
  have fits := (Nat.le_of_dvd positive (divides dim)).trans (splitBasis_le dim)
  have one : 1 ≤ perCoreRange ranges splits dim :=
    Nat.div_pos fits (Nat.pos_of_dvd_of_pos (divides dim) positive)
  have below : perCoreRange ranges splits dim ≤ ranges.effectiveSize dim := Nat.div_le_self _ _
  rw [corner]
  omega

theorem perCoreSize_le_size {dims : List (DeviceDim Dim)} (within : WithinExtents ranges dims)
    (inside : Inside ranges (corner ranges splits)) {dim : DeviceDim Dim} (isDim : dim ∈ dims) :
    perCoreSize ranges splits dim.coordinate ≤ dim.size := by
  have low := within dim isDim _ (inside_origin ranges)
  have high := within dim isDim _ inside
  rw [perCoreSize_eq]
  omega

theorem cornersBound_of_empty {blocks : Set (Set (Dim → ℤ))}
    (empty : ∀ block ∈ blocks, ∀ point, point ∉ block) (dims : List (DeviceDim Dim)) :
    CornersBound ranges splits blocks dims := by
  induction dims with
  | nil => trivial
  | cons dim dims inductionHypothesis =>
      cases dims with
      | nil => trivial
      | cons next inner =>
          refine ⟨fun block isBlock first isFirst => ?_, fun _ => inductionHypothesis⟩
          exact absurd isFirst (empty block isBlock first)

omit [DecidableEq Dim] in
theorem Touches.nonempty {block : Set (Dim → ℤ)} {itemsize : ℕ} {dims : List (DeviceDim Dim)}
    {bytes : ℤ} (touches : Touches block itemsize dims bytes) : ∃ point, point ∈ block := by
  induction touches with
  | rows isFirst _ _ => exact ⟨_, isFirst⟩
  | inner _ _ inductionHypothesis => exact inductionHypothesis

end Cores

/-- Twelve rows of a tensor viewed as three by four, four ways split. -/
def rowRanges : Ranges String := ⟨⟨[("row", 12), ("lane", 64)], by decide⟩, Dict.empty⟩

def rowSplits : Dict String ℕ := ⟨[("row", 4)], by decide⟩

def coordinateOf (dim : String) (term : ℤ → ℤ) : Coordinate String :=
  ⟨0, ⟨[(dim, term)], List.nodup_singleton dim⟩⟩

def straddling : TensorDep String where
  itemsize := 2
  dims := [⟨3, coordinateOf "row" (· / 4)⟩, ⟨4, coordinateOf "row" (· % 4)⟩,
    ⟨64, coordinateOf "lane" id⟩]

theorem rowSplits_divides (dim : String) :
    (rowSplits.lookup dim).getD 1 ∣ splitBasis rowRanges Dict.empty dim := by
  by_cases isRow : dim = "row"
  · subst isRow
    decide
  · have unsplit : rowSplits.lookup dim = none := by
      simp [rowSplits, Dict.lookup, List.lookup_cons, beq_false_of_ne isRow]
    rw [unsplit]
    exact one_dvd _

theorem straddling_within : WithinExtents rowRanges straddling.dims := by
  intro dim isDim point inside
  have row := inside "row"
  have lane := inside "lane"
  have rowSize : rowRanges.effectiveSize "row" = 12 := by decide
  have laneSize : rowRanges.effectiveSize "lane" = 64 := by decide
  rw [rowSize] at row
  rw [laneSize] at lane
  simp only [straddling, List.mem_cons, List.not_mem_nil, or_false] at isDim
  rcases isDim with rfl | rfl | rfl
  · simp [Coordinate.value, coordinateOf]
    omega
  · simp [Coordinate.value, coordinateOf]
    omega
  · simp [Coordinate.value, coordinateOf]
    omega

theorem rowWidth (dim : String) : blockWidth rowRanges rowSplits Dict.empty dim =
    if dim = "row" then 3 else rowRanges.effectiveSize dim := by
  by_cases isRow : dim = "row"
  · subst isRow
    decide
  · have unsplit : rowSplits.lookup dim = none := by
      simp [rowSplits, Dict.lookup, List.lookup_cons, beq_false_of_ne isRow]
    simp [blockWidth, splitBasis, unsplit, isRow]

theorem rowRanges_pos (dim : String) : 0 < rowRanges.effectiveSize dim := by
  by_cases isRow : dim = "row"
  · subst isRow
    decide
  · by_cases isLane : dim = "lane"
    · subst isLane
      decide
    · simp [Ranges.effectiveSize, rowRanges, Dict.lookup, List.lookup_cons, beq_false_of_ne isRow,
        beq_false_of_ne isLane, Dict.empty]

/-- Rows addressed one by one. -/
def straight : TensorDep String where
  itemsize := 2
  dims := [⟨12, coordinateOf "row" id⟩, ⟨64, coordinateOf "lane" id⟩]

end TorchSpyre.SplitPlanning
