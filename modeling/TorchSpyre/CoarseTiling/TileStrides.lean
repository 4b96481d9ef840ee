import Mathlib
import TorchSpyre.Lib.NestedStrides
import TorchSpyre.Lib.Outcome
import TorchSpyre.Lib.Symbolic

/-!
# Tile strides

A tensor of nested strides is cut into tiles.  Dims of size one or stride zero are irregular: they
take no part in the running tile count.  Sizes, strides and shape symbols stand for numbers.
-/

namespace TorchSpyre.CoarseTiling

open Lib Lib.NestedStrides Lib.Symbolic

inductive TileError where
  | sizesNotDivided
  | strideNotDivisible (stride dim runningTileCount : ℕ)
  | offsetNotExpressible (offset : ℕ)
  | multipleVariables (term : Expr) (names : List Symbol)
  | repeatedVariable (name : Symbol)
  | modularIndexing (term : Expr)
  | notMonomial (term : Expr)
  | repeatedFactor (name : Symbol) (term : Expr)
  | coefficient (term : Expr)
  | offset
  /-- `ZeroDivisionError` -/
  | zeroDivision
  deriving DecidableEq

variable {rank : ℕ}

/-- The dims of a tensor are numbered below its rank. -/
abbrev Dims (rank : ℕ) := Fin rank → ℕ

def Regular (size stride : Dims rank) (dim : Fin rank) : Prop := size dim ≠ 1 ∧ stride dim ≠ 0

instance (size stride : Dims rank) (dim : Fin rank) : Decidable (Regular size stride dim) :=
  inferInstanceAs (Decidable (_ ∧ _))

def regularDims (size stride : Dims rank) : List (Fin rank) :=
  (List.finRange rank).filter fun dim => Regular size stride dim

/-- The regular dims in increasing stride order; dims of one stride stay in dim order. -/
def strideOrder (size stride : Dims rank) : List (Fin rank) :=
  (regularDims size stride).insertionSort fun first second => stride first ≤ stride second

def checkDivides (size tileSize : Dims rank) : List (Fin rank) → Except TileError Unit
  | [] => .ok ()
  | dim :: dims =>
      if tileSize dim = 0 then .error .zeroDivision
      else if size dim % tileSize dim ≠ 0 then .error .sizesNotDivided
      else checkDivides size tileSize dims

def strideStep (size stride tileSize : Dims rank) (state : ℕ × Dims rank) (dim : Fin rank) :
    Except TileError (ℕ × Dims rank) :=
  if state.1 = 0 then .error .zeroDivision
  else if stride dim % state.1 ≠ 0 then .error (.strideNotDivisible (stride dim) dim state.1)
  else .ok (state.1 * (size dim / tileSize dim),
    if tileSize dim > 1 then Function.update state.2 dim (stride dim / state.1) else state.2)

def computeTileStride (size stride tileSize : Dims rank) : Except TileError (Dims rank) := do
  checkDivides size tileSize (List.finRange rank)
  let state ← (strideOrder size stride).foldlM (strideStep size stride tileSize) (1, fun _ => 0)
  return state.2

/-! ## What a stride pass returns -/

section Pass

variable {size stride tileSize tileStride : Dims rank} {dim : Fin rank}

theorem mem_strideOrder : dim ∈ strideOrder size stride ↔ Regular size stride dim := by
  simp [strideOrder, regularDims]

theorem nodup_strideOrder (size stride : Dims rank) : (strideOrder size stride).Nodup := by
  apply (List.perm_insertionSort _ _).nodup_iff.mpr
  exact (List.nodup_finRange rank).filter _

theorem strideOrder_pos (size stride : Dims rank) : ∀ dim ∈ strideOrder size stride, 0 < stride dim :=
  fun _ listed => Nat.pos_of_ne_zero (mem_strideOrder.1 listed).2

/-- The number of tiles along a dim. -/
def tileCount (size tileSize : Dims rank) (dim : Fin rank) : ℕ := size dim / tileSize dim

theorem checkDivides_eq_ok_iff {dims : List (Fin rank)} :
    checkDivides size tileSize dims = .ok () ↔
      ∀ dim ∈ dims, 0 < tileSize dim ∧ tileSize dim ∣ size dim := by
  induction dims with
  | nil => simp [checkDivides]
  | cons dim dims inductionHypothesis =>
      rw [checkDivides, List.forall_mem_cons, ← inductionHypothesis]
      split
      next zero => simp [zero]
      next nonzero =>
        split
        next undivided =>
          have notDivides : ¬ tileSize dim ∣ size dim :=
            fun divides => undivided (Nat.mod_eq_zero_of_dvd divides)
          simp [notDivides]
        next divided =>
          have divides : tileSize dim ∣ size dim := Nat.dvd_of_mod_eq_zero (not_not.mp divided)
          simp [divides, Nat.pos_of_ne_zero nonzero]

theorem foldlM_strideStep {order : List (Fin rank)} {running : ℕ} {before : Dims rank}
    {final : ℕ × Dims rank} (distinct : order.Nodup)
    (returned : order.foldlM (strideStep size stride tileSize) (running, before) = .ok final) :
    Exact stride (tileCount size tileSize) running order ∧
      ∀ dim, final.2 dim = if dim ∈ order ∧ 1 < tileSize dim then
        shrunk stride (tileCount size tileSize) running order dim else before dim := by
  induction order generalizing running before with
  | nil =>
      cases returned
      exact ⟨trivial, fun dim => by simp⟩
  | cons inner rest inductionHypothesis =>
      rw [List.nodup_cons] at distinct
      rw [List.foldlM_cons, strideStep] at returned
      split at returned
      next => cases returned
      next =>
        split at returned
        next => cases returned
        next divided =>
          obtain ⟨exact, strides⟩ := inductionHypothesis distinct.2 returned
          refine ⟨⟨Nat.dvd_of_mod_eq_zero (not_not.mp divided), exact⟩, ?_⟩
          intro dim
          rw [strides dim]
          by_cases same : dim = inner
          · subst same
            by_cases tiled : 1 < tileSize dim <;> simp [distinct.1, tiled, shrunk]
          · by_cases tiled : 1 < tileSize inner <;>
              simp [same, tiled, shrunk_cons_of_ne same, tileCount]

/-- Tile strides and why they were returned. -/
theorem computeTileStride_spec (returned : computeTileStride size stride tileSize = .ok tileStride) :
    (∀ dim, 0 < tileSize dim ∧ tileSize dim ∣ size dim) ∧
      Exact stride (tileCount size tileSize) 1 (strideOrder size stride) ∧
      ∀ dim, tileStride dim = if Regular size stride dim ∧ 1 < tileSize dim then
        shrunk stride (tileCount size tileSize) 1 (strideOrder size stride) dim else 0 := by
  obtain ⟨passed, checked, returned⟩ := bind_eq_ok_iff.mp returned
  obtain ⟨final, folded, isFinal⟩ := bind_eq_ok_iff.mp returned
  cases isFinal
  obtain ⟨exact, strides⟩ := foldlM_strideStep (nodup_strideOrder size stride) folded
  refine ⟨fun dim => checkDivides_eq_ok_iff.1 checked dim (List.mem_finRange dim), exact, ?_⟩
  simpa only [mem_strideOrder] using strides

end Pass

/-! ## Offsets of a nested tensor -/

/-- The regular dims, in stride order, each step over the one before. -/
def WellNested (size stride : Dims rank) : Prop := Nested stride size (strideOrder size stride)

instance (size stride : Dims rank) : Decidable (WellNested size stride) :=
  inferInstanceAs (Decidable (List.IsChain _ _))

def offsetOf (stride coordinates : Dims rank) : ℕ := total stride (List.finRange rank) coordinates

section Offsets

variable {size stride : Dims rank}

theorem offsetOf_eq_total {coordinates : Dims rank} (below : ∀ dim, coordinates dim < size dim) :
    offsetOf stride coordinates = total stride (strideOrder size stride) coordinates := by
  have sorted := @total_perm _ stride _ _
    (List.perm_insertionSort (fun first second => stride first ≤ stride second)
      (regularDims size stride)) coordinates
  rw [offsetOf, strideOrder, sorted, regularDims, total_filter]
  intro dim _ irregular
  have cases : size dim = 1 ∨ stride dim = 0 := by
    have notBoth := of_decide_eq_false irregular
    rwa [Regular, not_and_or, not_not, not_not] at notBoth
  rcases cases with one | zero
  · have origin : coordinates dim = 0 := Nat.lt_one_iff.mp (one ▸ below dim)
    rw [origin, Nat.zero_mul]
  · rw [zero, Nat.mul_zero]

theorem offsetOf_eq_iff {first second : Dims rank} (nested : WellNested size stride)
    (firstBelow : ∀ dim, first dim < size dim) (secondBelow : ∀ dim, second dim < size dim) :
    offsetOf stride first = offsetOf stride second ↔
      ∀ dim, Regular size stride dim → first dim = second dim := by
  rw [offsetOf_eq_total firstBelow, offsetOf_eq_total secondBelow]
  constructor
  · intro same dim regular
    have apart := nested.pairwise fun dim _ => Nat.zero_lt_of_lt (firstBelow dim)
    exact eq_of_total (nodup_strideOrder size stride) apart (strideOrder_pos size stride)
      (fun dim _ => firstBelow dim) (fun dim _ => secondBelow dim) same dim
      (mem_strideOrder.2 regular)
  · intro same
    exact total_congr fun dim listed => same dim (mem_strideOrder.1 listed)

end Offsets

/-! ## The strides of the tiles -/

section Tiles

variable {size stride tileSize tileStride : Dims rank}

theorem tileSize_mul_tileCount (divides : ∀ dim, 0 < tileSize dim ∧ tileSize dim ∣ size dim)
    (dim : Fin rank) : tileSize dim * tileCount size tileSize dim = size dim :=
  Nat.mul_div_cancel' (divides dim).2

theorem one_lt_tileSize {dim : Fin rank}
    (divides : ∀ dim, 0 < tileSize dim ∧ tileSize dim ∣ size dim) :
    1 < tileSize dim ↔ tileSize dim ≠ 1 := by
  have positive := (divides dim).1
  omega

/-- A dim of a tile is regular when it is one of the tensor and the tile spans more than one. -/
theorem regular_tile (returned : computeTileStride size stride tileSize = .ok tileStride)
    (dim : Fin rank) :
    Regular tileSize tileStride dim ↔ Regular size stride dim ∧ tileSize dim ≠ 1 := by
  obtain ⟨divides, exact, strides⟩ := computeTileStride_spec returned
  rw [← one_lt_tileSize divides]
  constructor
  · rintro ⟨notOne, nonzero⟩
    rw [strides dim] at nonzero
    by_contra untiled
    exact nonzero (if_neg untiled)
  · intro tiled
    have positive := shrunk_pos exact (strideOrder_pos size stride) dim (mem_strideOrder.2 tiled.1)
    rw [Regular, strides dim, if_pos tiled]
    exact ⟨tiled.2.ne', positive.ne'⟩

/-- The shrunk strides increase strictly along the dims that a tile spans. -/
theorem tile_nested (nested : WellNested size stride)
    (returned : computeTileStride size stride tileSize = .ok tileStride) :
    ((strideOrder size stride).filter fun dim => tileSize dim ≠ 1).Pairwise fun inner outer =>
      tileStride inner * tileSize inner ≤ tileStride outer := by
  obtain ⟨divides, exact, strides⟩ := computeTileStride_spec returned
  have shrunken := nested_shrunk nested (nodup_strideOrder size stride) exact
    (strideOrder_pos size stride) fun dim _ => tileSize_mul_tileCount divides dim
  have apart := (shrunken.pairwise fun dim _ => (divides dim).1).filter fun dim => tileSize dim ≠ 1
  refine apart.imp_of_mem ?_
  intro inner outer innerListed outerListed step
  simp only [List.mem_filter, mem_strideOrder, decide_eq_true_eq, ← one_lt_tileSize divides]
    at innerListed outerListed
  rwa [strides inner, strides outer, if_pos innerListed, if_pos outerListed]

/-- The dims of the tiles keep their order. -/
theorem strideOrder_tile (nested : WellNested size stride)
    (returned : computeTileStride size stride tileSize = .ok tileStride) :
    strideOrder tileSize tileStride =
      (strideOrder size stride).filter fun dim => tileSize dim ≠ 1 := by
  obtain ⟨divides, -, -⟩ := computeTileStride_spec returned
  have strict : ((strideOrder size stride).filter fun dim => tileSize dim ≠ 1).Pairwise
      fun inner outer => tileStride inner < tileStride outer := by
    refine (tile_nested nested returned).imp_of_mem ?_
    intro inner outer innerListed outerListed step
    have regular : Regular tileSize tileStride inner := by
      simpa [mem_strideOrder, regular_tile returned] using innerListed
    have tiled : 1 < tileSize inner := (one_lt_tileSize divides).mpr regular.1
    have positive := Nat.pos_of_ne_zero regular.2
    exact ((Nat.lt_mul_iff_one_lt_right positive).mpr tiled).trans_le step
  have sorted : (strideOrder tileSize tileStride).Pairwise
      fun first second => tileStride first ≤ tileStride second :=
    List.pairwise_insertionSort _ _
  have permuted : (strideOrder tileSize tileStride).Perm
      ((strideOrder size stride).filter fun dim => tileSize dim ≠ 1) := by
    rw [List.perm_ext_iff_of_nodup (nodup_strideOrder _ _) ((nodup_strideOrder _ _).filter _)]
    intro dim
    simp [mem_strideOrder, regular_tile returned]
  refine List.Perm.eq_of_pairwise ?_ sorted (strict.imp Nat.le_of_lt) permuted
  intro first second firstListed secondListed ahead behind
  have equal : tileStride first = tileStride second := Nat.le_antisymm ahead behind
  have distinct := @List.Pairwise.forall_of_forall_of_flip _ _
    (fun inner outer => tileStride inner = tileStride outer → inner = outer) (fun _ _ _ => rfl)
    (strict.imp fun less same => absurd same less.ne) (strict.imp fun less same => absurd same less.ne')
  exact distinct (permuted.mem_iff.mp firstListed) secondListed equal

theorem wellNested_tile (nested : WellNested size stride)
    (returned : computeTileStride size stride tileSize = .ok tileStride) :
    WellNested tileSize tileStride := by
  rw [WellNested, strideOrder_tile nested returned]
  exact (tile_nested nested returned).isChain

/-- Tiling the tiles is tiling once, by as many tiles in all. -/
theorem computeTileStride_twice {innerSize innerStride direct : Dims rank}
    (nested : WellNested size stride)
    (outer : computeTileStride size stride tileSize = .ok tileStride)
    (inner : computeTileStride tileSize tileStride innerSize = .ok innerStride)
    (once : computeTileStride size stride innerSize = .ok direct) : innerStride = direct := by
  obtain ⟨outerDivides, -, outerStrides⟩ := computeTileStride_spec outer
  obtain ⟨innerDivides, -, innerStrides⟩ := computeTileStride_spec inner
  obtain ⟨-, -, directStrides⟩ := computeTileStride_spec once
  have untouched : ∀ dim, tileSize dim = 1 → innerSize dim = 1 := by
    intro dim one
    have divides := (innerDivides dim).2
    rw [one] at divides
    exact Nat.dvd_one.mp divides
  have product : ∀ dim ∈ strideOrder size stride,
      tileCount size tileSize dim * tileCount tileSize innerSize dim =
        tileCount size innerSize dim := by
    intro dim _
    rw [tileCount, tileCount, Nat.div_mul_div_comm (outerDivides dim).2 (innerDivides dim).2,
      Nat.mul_comm (tileSize dim), Nat.mul_div_mul_right _ _ (outerDivides dim).1]
    rfl
  have dropped : ∀ dim ∈ strideOrder size stride, decide (tileSize dim ≠ 1) = false →
      tileCount tileSize innerSize dim = 1 := by
    intro dim _ one
    have isOne : tileSize dim = 1 := by simpa using one
    simp [tileCount, isOne, untouched dim isOne]
  have cutOnce : ∀ dim ∈ strideOrder size stride, decide (tileSize dim ≠ 1) → tileStride dim =
      shrunk stride (tileCount size tileSize) 1 (strideOrder size stride) dim := by
    intro dim listed tiled
    rw [outerStrides dim, if_pos]
    exact ⟨mem_strideOrder.mp listed, (one_lt_tileSize outerDivides).mpr (of_decide_eq_true tiled)⟩
  funext dim
  rw [innerStrides dim, directStrides dim, strideOrder_tile nested outer]
  by_cases tiled : 1 < innerSize dim
  · have spans : tileSize dim ≠ 1 := fun one => tiled.ne' (untouched dim one)
    by_cases regular : Regular size stride dim
    · rw [if_pos ⟨(regular_tile outer dim).mpr ⟨regular, spans⟩, tiled⟩, if_pos ⟨regular, tiled⟩]
      exact shrunk_shrunk (nodup_strideOrder size stride) product dropped cutOnce dim
        (mem_strideOrder.mpr regular) (decide_eq_true spans)
    · simp [regular, regular_tile outer]
  · simp [tiled]

end Tiles

end TorchSpyre.CoarseTiling
