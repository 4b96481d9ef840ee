import Mathlib
import TorchSpyre.Lib.Order

/-!
# Boxes and dense layouts

A box of points with integer coordinates, the dense layout of a box in row-major order,
and the partition of a box by a grid of equal boxes.
-/

namespace Lib

variable {rank : ℕ}

/-! ## Boxes -/

def box (start width : Fin rank → ℤ) : Finset (Fin rank → ℤ) :=
  letI := intOrder
  Fintype.piFinset fun axis => Finset.Ico (start axis) (start axis + width axis)

section Box

variable {start width start' width' point : Fin rank → ℤ}

theorem mem_box : point ∈ box start width ↔
    ∀ axis, start axis ≤ point axis ∧ point axis < start axis + width axis := by
  simp [box, Fintype.mem_piFinset]

theorem card_box (nonneg : ∀ axis, 0 ≤ width axis) :
    ((box start width).card : ℤ) = ∏ axis, width axis := by
  unfold box
  rw [Fintype.card_piFinset, Nat.cast_prod]
  apply Finset.prod_congr rfl
  intro axis _
  rw [Int.card_Ico, add_sub_cancel_left, Int.toNat_of_nonneg (nonneg axis)]

/-- The boxes overlap along every axis. -/
def Overlaps (start width start' width' : Fin rank → ℤ) : Prop :=
  ∀ axis, start axis < start' axis + width' axis ∧ start' axis < start axis + width axis

/-- What two boxes have in common. -/
theorem box_inter :
    box start width ∩ box start' width' =
      box (fun axis => max (start axis) (start' axis)) fun axis =>
        min (start axis + width axis) (start' axis + width' axis) -
          max (start axis) (start' axis) := by
  ext point
  rw [Finset.mem_inter, mem_box, mem_box, mem_box, ← forall_and]
  apply forall_congr'
  intro axis
  omega

theorem overlaps_of_mem (inside : point ∈ box start width) (inside' : point ∈ box start' width') :
    Overlaps start width start' width' := by
  intro axis
  have bounds := mem_box.1 inside axis
  have bounds' := mem_box.1 inside' axis
  omega

theorem corner_mem_box (nonempty : ∀ axis, 0 < width axis) : start ∈ box start width := by
  refine mem_box.2 fun axis => ?_
  have wide := nonempty axis
  omega

theorem sub_mem_box (inside : point ∈ box start width) : point - start ∈ box 0 width := by
  refine mem_box.2 fun axis => ?_
  have bounds := mem_box.1 inside axis
  simp only [Pi.zero_apply, Pi.sub_apply]
  omega

/-- A box read with its axes in reverse. -/
theorem box_rev (width : Fin rank → ℤ) :
    box 0 (fun axis => width axis.rev) =
      (box 0 width).map ⟨fun point axis => point axis.rev, fun point point' same => by
        funext axis
        have atRev := congrFun same axis.rev
        rwa [Fin.rev_rev] at atRev⟩ := by
  ext point
  rw [Finset.mem_map]
  constructor
  · intro inside
    refine ⟨fun axis => point axis.rev, mem_box.2 fun axis => ?_, ?_⟩
    · have bounds := mem_box.1 inside axis.rev
      rwa [Fin.rev_rev] at bounds
    · funext axis
      change point axis.rev.rev = point axis
      rw [Fin.rev_rev]
  · rintro ⟨point, inside, rfl⟩
    exact mem_box.2 fun axis => mem_box.1 inside axis.rev

/-- A box moved to another corner. -/
theorem box_add (start width : Fin rank → ℤ) :
    box start width = (box 0 width).map (addRightEmbedding start) := by
  ext point
  rw [Finset.mem_map]
  constructor
  · intro inside
    exact ⟨point - start, sub_mem_box inside, sub_add_cancel point start⟩
  · rintro ⟨point, inside, rfl⟩
    refine mem_box.2 fun axis => ?_
    have bounds := mem_box.1 inside axis
    simp only [Pi.zero_apply, zero_add] at bounds
    change start axis ≤ point axis + start axis ∧ point axis + start axis < _
    omega

end Box

/-! ## Dense layouts -/

/-- How far apart neighbours along an axis are. -/
def stride (shape : Fin rank → ℤ) (axis : Fin rank) : ℤ := ∏ inner ∈ Finset.Ioi axis, shape inner

def offset (shape index : Fin rank → ℤ) : ℤ := ∑ axis, index axis * stride shape axis

theorem offset_succ {rank : ℕ} (shape index : Fin (rank + 1) → ℤ) :
    offset shape index =
      index 0 * (∏ axis, Fin.tail shape axis) + offset (Fin.tail shape) (Fin.tail index) := by
  unfold offset stride
  rw [Fin.sum_univ_succ, Fin.prod_Ioi_zero]
  congr 1
  apply Finset.sum_congr rfl
  intro axis _
  rw [Fin.prod_Ioi_succ]
  rfl

theorem stride_pos {shape : Fin rank → ℤ} (positive : ∀ axis, 0 < shape axis) (axis : Fin rank) :
    0 < stride shape axis :=
  Finset.prod_pos fun inner _ => positive inner

/-- Strides shrink from a dimension to a later one that is not of size 1. -/
theorem stride_lt_stride {shape : Fin rank → ℤ} (positive : ∀ axis, 0 < shape axis)
    {outer inner : Fin rank} (later : outer < inner) (wide : shape inner ≠ 1) :
    stride shape inner < stride shape outer := by
  have innerPos := stride_pos positive inner
  have factor : shape inner * stride shape inner ∣ stride shape outer := by
    unfold stride
    rw [← Finset.prod_insert Finset.notMem_Ioi_self]
    apply Finset.prod_dvd_prod_of_subset
    intro axis member
    rcases Finset.mem_insert.mp member with rfl | beyond
    · exact Finset.mem_Ioi.mpr later
    · exact Finset.mem_Ioi.mpr (lt_trans later (Finset.mem_Ioi.mp beyond))
  have bound := Int.le_of_dvd (stride_pos positive outer) factor
  have widePos := positive inner
  have double : 2 * stride shape inner ≤ shape inner * stride shape inner :=
    mul_le_mul_of_nonneg_right (by omega) (le_of_lt innerPos)
  omega

theorem offset_add (shape index index' : Fin rank → ℤ) :
    offset shape (index + index') = offset shape index + offset shape index' := by
  unfold offset
  rw [← Finset.sum_add_distrib]
  apply Finset.sum_congr rfl
  intro axis _
  rw [Pi.add_apply, add_mul]

theorem offset_nonneg {shape index : Fin rank → ℤ} (positive : ∀ axis, 0 < shape axis)
    (nonneg : ∀ axis, 0 ≤ index axis) : 0 ≤ offset shape index :=
  Finset.sum_nonneg fun axis _ => mul_nonneg (nonneg axis) (le_of_lt (stride_pos positive axis))

/-! ## Blocks of an axis -/

section Blocks

variable {shape inner : Fin rank → ℤ} {split : Fin rank}
  (others : ∀ axis, axis ≠ split → shape axis = inner axis)

include others

theorem stride_eq_of_split_le {axis : Fin rank} (behind : split ≤ axis) :
    stride shape axis = stride inner axis := by
  apply Finset.prod_congr rfl
  intro other member
  exact others other (behind.trans_lt (Finset.mem_Ioi.mp member)).ne'

/-- An axis outside the one that is cut, with its stride kept, is of size 1. -/
theorem eq_one_of_stride_eq (positive : ∀ axis, 0 < inner axis)
    (different : shape split ≠ inner split)
    (kept : ∀ axis, 1 < inner axis → stride shape axis = stride inner axis) {axis : Fin rank}
    (outside : axis < split) : inner axis = 1 := by
  have listed : split ∈ Finset.Ioi axis := Finset.mem_Ioi.mpr outside
  by_contra notOne
  have wide : 1 < inner axis := lt_of_le_of_ne (positive axis) (Ne.symm notOne)
  have same := kept axis wide
  unfold stride at same
  have rest : ∏ other ∈ (Finset.Ioi axis).erase split, shape other =
      ∏ other ∈ (Finset.Ioi axis).erase split, inner other :=
    Finset.prod_congr rfl fun other member => others other (Finset.ne_of_mem_erase member)
  rw [← Finset.mul_prod_erase _ _ listed, ← Finset.mul_prod_erase _ inner listed, rest] at same
  have nonzero : ∏ other ∈ (Finset.Ioi axis).erase split, inner other ≠ 0 :=
    (Finset.prod_pos fun other _ => positive other).ne'
  exact different (mul_right_cancel₀ nonzero same)

/-- The blocks of an axis inside axes of size 1 follow one another. -/
theorem offset_block (outside : ∀ axis, axis < split → inner axis = 1) {index : Fin rank → ℤ}
    (inside : index ∈ box 0 inner) (block : ℤ) :
    offset shape (Function.update index split (index split + block * inner split)) =
      block * ∏ axis, inner axis + offset inner index := by
  have bounds := mem_box.mp inside
  simp only [Pi.zero_apply, zero_add] at bounds
  have whole : ∏ axis, inner axis = inner split * stride inner split := by
    unfold stride
    rw [← Finset.prod_insert Finset.notMem_Ioi_self]
    symm
    apply Finset.prod_subset (Finset.subset_univ _)
    intro axis _ notListed
    rw [Finset.mem_insert, Finset.mem_Ioi, not_or, not_lt] at notListed
    exact outside axis (lt_of_le_of_ne notListed.2 notListed.1)
  have terms : ∀ axis, Function.update index split (index split + block * inner split) axis *
        stride shape axis =
      index axis * stride inner axis +
        if axis = split then block * (inner split * stride inner split) else 0 := by
    intro axis
    by_cases atSplit : axis = split
    · subst atSplit
      rw [Function.update_self, if_pos rfl, stride_eq_of_split_le others le_rfl]
      ring
    · rw [Function.update_of_ne atSplit, if_neg atSplit, add_zero]
      rcases lt_or_gt_of_ne atSplit with before | behind
      · have bound := bounds axis
        have one := outside axis before
        have zero : index axis = 0 := by omega
        rw [zero, zero_mul, zero_mul]
      · rw [stride_eq_of_split_le others behind.le]
  unfold offset
  rw [Finset.sum_congr rfl fun axis _ => terms axis, Finset.sum_add_distrib,
    Finset.sum_ite_eq' Finset.univ split, if_pos (Finset.mem_univ split), whole, add_comm]

end Blocks

/-- An index at the start of the last axis has its place at a multiple of that axis. -/
theorem dvd_offset {shape index : Fin rank → ℤ} {last : Fin rank} (isLast : last.val + 1 = rank)
    (atStart : index last = 0) : shape last ∣ offset shape index := by
  apply Finset.dvd_sum
  intro axis _
  by_cases same : axis = last
  · rw [same, atStart, zero_mul]
    exact dvd_zero _
  · have inner : last ∈ Finset.Ioi axis := by
      rw [Finset.mem_Ioi, Fin.lt_def]
      have bound := axis.isLt
      have distinct : axis.val ≠ last.val := fun equal => same (Fin.ext equal)
      omega
    exact Dvd.dvd.mul_left (Finset.dvd_prod_of_mem shape inner) _

/-- An index inside the shape has its place before the end. -/
theorem offset_lt {rank : ℕ} {shape index : Fin rank → ℤ} (inside : index ∈ box 0 shape) :
    offset shape index < ∏ axis, shape axis := by
  induction rank with
  | zero => simp [offset]
  | succ rank inductionHypothesis =>
      have bounds := mem_box.mp inside
      have tailInside : Fin.tail index ∈ box 0 (Fin.tail shape) :=
        mem_box.mpr fun axis => bounds axis.succ
      have below := inductionHypothesis tailInside
      have first := bounds 0
      simp only [Pi.zero_apply, zero_add] at first
      have nonneg : 0 ≤ ∏ axis, Fin.tail shape axis := by
        apply Finset.prod_nonneg
        intro axis _
        have bound := bounds axis.succ
        simp only [Pi.zero_apply, zero_add] at bound
        exact le_of_lt (lt_of_le_of_lt bound.1 bound.2)
      rw [offset_succ, Fin.prod_univ_succ]
      have row : (index 0 + 1) * (∏ axis, Fin.tail shape axis) ≤
          shape 0 * ∏ axis, Fin.tail shape axis :=
        mul_le_mul_of_nonneg_right (by omega) nonneg
      have expanded : (index 0 + 1) * (∏ axis, Fin.tail shape axis) =
          index 0 * (∏ axis, Fin.tail shape axis) + ∏ axis, Fin.tail shape axis := by ring
      change _ < shape 0 * ∏ axis, Fin.tail shape axis
      linarith

/-- A dense layout puts different points at different places. -/
theorem offset_injective {rank : ℕ} {shape index index' : Fin rank → ℤ}
    (inside : index ∈ box 0 shape) (inside' : index' ∈ box 0 shape)
    (same : offset shape index = offset shape index') : index = index' := by
  induction rank with
  | zero => exact Subsingleton.elim _ _
  | succ rank inductionHypothesis =>
      have bounds := mem_box.mp inside
      have bounds' := mem_box.mp inside'
      have tailInside : Fin.tail index ∈ box 0 (Fin.tail shape) :=
        mem_box.mpr fun axis => bounds axis.succ
      have tailInside' : Fin.tail index' ∈ box 0 (Fin.tail shape) :=
        mem_box.mpr fun axis => bounds' axis.succ
      have positive : ∀ axis, 0 < Fin.tail shape axis := by
        intro axis
        have bound := mem_box.mp tailInside axis
        simp only [Pi.zero_apply, zero_add] at bound
        exact lt_of_le_of_lt bound.1 bound.2
      have nonneg := offset_nonneg positive fun axis => (mem_box.mp tailInside axis).1
      have nonneg' := offset_nonneg positive fun axis => (mem_box.mp tailInside' axis).1
      have below := offset_lt tailInside
      have below' := offset_lt tailInside'
      rw [offset_succ, offset_succ] at same
      -- Quotient and remainder by the size of a row determine head and tail.
      have sameHead : index 0 = index' 0 := by
        have quotient := congrArg (· / ∏ axis, Fin.tail shape axis) same
        have rowPos : 0 < ∏ axis, Fin.tail shape axis := Finset.prod_pos fun axis _ => positive axis
        rw [add_comm, add_comm (index' 0 * _), Int.add_mul_ediv_right _ _ (ne_of_gt rowPos),
          Int.add_mul_ediv_right _ _ (ne_of_gt rowPos), Int.ediv_eq_zero_of_lt nonneg below,
          Int.ediv_eq_zero_of_lt nonneg' below', zero_add, zero_add] at quotient
        exact quotient
      rw [sameHead, add_right_inj] at same
      have sameTail := inductionHypothesis tailInside tailInside' same
      funext axis
      cases axis using Fin.cases with
      | zero => exact sameHead
      | succ axis => exact congrFun sameTail axis

/-! ## Grids -/

section Grid

variable {splits size : Fin rank → ℤ}

/-- The box of a grid slot. -/
def slotBox (size slot : Fin rank → ℤ) : Finset (Fin rank → ℤ) :=
  box (fun axis => slot axis * size axis) size

theorem mem_slotBox (positive : ∀ axis, 0 < size axis) {slot point : Fin rank → ℤ} :
    point ∈ slotBox size slot ↔ slot = fun axis => point axis / size axis := by
  unfold slotBox
  rw [mem_box, funext_iff]
  apply forall_congr'
  intro axis
  constructor
  · rintro ⟨lower, upper⟩
    symm
    rw [Int.ediv_eq_iff_of_pos (positive axis)]
    constructor
    · linarith
    · linarith
  · intro isSlot
    rw [isSlot]
    have quotient := Int.mul_ediv_add_emod (point axis) (size axis)
    have remainder := Int.emod_nonneg (point axis) (ne_of_gt (positive axis))
    have bound := Int.emod_lt_of_pos (point axis) (positive axis)
    rw [mul_comm] at quotient
    constructor
    · linarith
    · linarith

/-- Every point of the whole is in the box of a slot. -/
theorem slot_mem_box (positive : ∀ axis, 0 < size axis) {point : Fin rank → ℤ}
    (inside : point ∈ box 0 fun axis => splits axis * size axis) :
    (fun axis => point axis / size axis) ∈ box 0 splits := by
  refine mem_box.mpr fun axis => ?_
  have bounds := mem_box.mp inside axis
  simp only [Pi.zero_apply, zero_add] at bounds ⊢
  exact ⟨Int.ediv_nonneg bounds.1 (le_of_lt (positive axis)),
    Int.ediv_lt_of_lt_mul (positive axis) bounds.2⟩

/-- The slots of a grid cut every part of the whole into pieces. -/
theorem card_eq_sum_slots (positive : ∀ axis, 0 < size axis) {part : Finset (Fin rank → ℤ)}
    (inside : part ⊆ box 0 fun axis => splits axis * size axis) :
    part.card = ∑ slot ∈ box 0 splits, (slotBox size slot ∩ part).card := by
  rw [Finset.card_eq_sum_card_fiberwise fun point inPart =>
    slot_mem_box positive (inside inPart)]
  apply Finset.sum_congr rfl
  intro slot _
  congr 1
  ext point
  rw [Finset.mem_filter, Finset.mem_inter, mem_slotBox positive, and_comm]
  exact and_congr_left' eq_comm

theorem slotBox_subset {slot : Fin rank → ℤ} (nonneg : ∀ axis, 0 ≤ size axis)
    (inside : slot ∈ box 0 splits) :
    slotBox size slot ⊆ box 0 fun axis => splits axis * size axis := by
  intro point inSlot
  refine mem_box.mpr fun axis => ?_
  have bounds := mem_box.mp inSlot axis
  have slotBounds := mem_box.mp inside axis
  simp only [Pi.zero_apply, zero_add] at slotBounds ⊢
  have lower : 0 ≤ slot axis * size axis := mul_nonneg slotBounds.1 (nonneg axis)
  have upper : (slot axis + 1) * size axis ≤ splits axis * size axis :=
    mul_le_mul_of_nonneg_right (by omega) (nonneg axis)
  have expanded : (slot axis + 1) * size axis = slot axis * size axis + size axis := by ring
  constructor
  · linarith
  · linarith

end Grid

end Lib
