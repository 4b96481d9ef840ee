import Mathlib
import TorchSpyre.Lib.Box

/-!
# Places visited by nested strided loops

Nested loops, each with a stride and a size, visit one place in every round.  The places, counted
with their rounds, do not depend on the order of the loops, and loops of one round add nothing.
Loops that each start where the loops before them end visit every place from zero on, once.
-/

namespace Lib.StridedLoops

/-- One more loop, of a stride and a size, around the loops that visit `places`. -/
def around (places : Multiset ℤ) (loop : ℤ × ℤ) : Multiset ℤ :=
  letI := intOrder
  ((Finset.Ico 0 loop.2).val ×ˢ places).map fun round => round.1 * loop.1 + round.2

theorem map_product {Outer Inner Place : Type*} (outer : Multiset Outer) (inner : Multiset Inner)
    (place : Outer × Inner → Place) :
    (outer ×ˢ inner).map place = outer.bind fun index => inner.map fun rest => place (index, rest) := by
  simp only [SProd.sprod, Multiset.product, Multiset.map_bind, Multiset.map_map, Function.comp_def]

theorem around_eq_bind (places : Multiset ℤ) (loop : ℤ × ℤ) :
    around places loop = (Finset.Ico 0 loop.2).val.bind fun index =>
      places.map fun place => index * loop.1 + place :=
  map_product _ _ _

instance : RightCommutative around where
  right_comm places first second := by
    simp only [around_eq_bind, Multiset.map_bind, Multiset.map_map, Function.comp_def]
    rw [Multiset.bind_bind]
    simp only [add_left_comm]

theorem around_one (places : Multiset ℤ) (stride : ℤ) : around places (stride, 1) = places := by
  have round : Finset.Ico (0 : ℤ) 1 = {0} := by decide
  simp [around_eq_bind, round]

/-- A loop that starts where the places before it end. -/
theorem around_dense {count : ℤ} (countPos : 0 < count) (size : ℤ) :
    around (Finset.Ico 0 count).val (count, size) = (Finset.Ico 0 (count * size)).val := by
  have apart : Set.InjOn (fun round : ℤ × ℤ => round.1 * count + round.2)
      (Finset.Ico 0 size ×ˢ Finset.Ico 0 count : Finset (ℤ × ℤ)) := by
    rintro ⟨index, place⟩ inside ⟨index', place'⟩ inside' same
    simp only [Finset.coe_product, Set.mem_prod, Finset.mem_coe, Finset.mem_Ico] at inside inside'
    have quotient := congrArg (· / count) same
    simp only [add_comm (_ * count), Int.add_mul_ediv_right _ _ countPos.ne',
      Int.ediv_eq_zero_of_lt inside.2.1 inside.2.2,
      Int.ediv_eq_zero_of_lt inside'.2.1 inside'.2.2, zero_add] at quotient
    subst quotient
    simpa using same
  have places : (Finset.Ico 0 size ×ˢ Finset.Ico 0 count).image
      (fun round : ℤ × ℤ => round.1 * count + round.2) = Finset.Ico 0 (count * size) := by
    ext place
    simp only [Finset.mem_image, Finset.mem_product, Finset.mem_Ico, Prod.exists]
    constructor
    · rintro ⟨index, inner, ⟨indexBounds, innerBounds⟩, rfl⟩
      refine ⟨add_nonneg (mul_nonneg indexBounds.1 countPos.le) innerBounds.1, ?_⟩
      calc index * count + inner < index * count + count := by linarith
        _ = count * (index + 1) := by ring
        _ ≤ count * size := mul_le_mul_of_nonneg_left indexBounds.2 countPos.le
    · rintro ⟨nonneg, below⟩
      refine ⟨place / count, place % count, ⟨⟨Int.ediv_nonneg nonneg countPos.le, ?_⟩,
        Int.emod_nonneg _ countPos.ne', Int.emod_lt_of_pos _ countPos⟩, ?_⟩
      · exact Int.ediv_lt_of_lt_mul countPos (mul_comm size count ▸ below)
      · rw [mul_comm]
        exact Int.mul_ediv_add_emod place count
  rw [← places, Finset.image_val_of_injOn apart]
  rfl

/-- The places that the loops visit, one for each round. -/
def visited (loops : List (ℤ × ℤ)) : Multiset ℤ := loops.foldl around {0}

theorem visited_perm {loops loops' : List (ℤ × ℤ)} (same : loops.Perm loops') :
    visited loops = visited loops' :=
  same.foldl_eq {0}

theorem visited_cons (loop : ℤ × ℤ) (loops : List (ℤ × ℤ)) :
    visited (loop :: loops) = around (visited loops) loop := by
  rw [visited_perm (List.perm_append_singleton loop loops).symm]
  simp [visited]

/-! ## Loops over a box -/

theorem box_succ {rank : ℕ} (size : Fin (rank + 1) → ℤ) :
    box 0 size = (Finset.Ico 0 (size 0) ×ˢ box 0 (Fin.tail size)).map
      (Fin.consEquiv fun _ => ℤ).toEmbedding := by
  have split := Finset.filter_piFinset_eq_map_consEquiv (fun axis => Finset.Ico 0 (size axis))
    fun _ => True
  simp only [Finset.filter_true] at split
  simpa [box, Fin.tail_def] using split

/-- The points of a box, each at the sum of its strides. -/
theorem map_box_eq_visited {rank : ℕ} (stride size : Fin rank → ℤ) :
    (box 0 size).val.map (fun index => ∑ axis, index axis * stride axis) =
      visited (List.ofFn fun axis => (stride axis, size axis)) := by
  induction rank with
  | zero => simp [box, visited]
  | succ rank inductionHypothesis =>
      have rest := inductionHypothesis (Fin.tail stride) (Fin.tail size)
      rw [List.ofFn_succ, visited_cons]
      change _ = around (visited (List.ofFn fun axis => (Fin.tail stride axis, Fin.tail size axis))) _
      rw [← rest, box_succ, around_eq_bind, Finset.map_val, Multiset.map_map, Finset.product_val,
        map_product]
      simp [Fin.sum_univ_succ, Fin.tail]

end Lib.StridedLoops
