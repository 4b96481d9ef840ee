import Mathlib

/-!
# Shares of a mixed-radix range

A range is a product of segments, listed innermost first; each segment has an
extent and is cut into equal shares.  A slot owns one share of every segment,
read off the slot's own mixed-radix digits.  The points a slot owns form one
contiguous block of the range exactly when every segment outside a split one is
cut into single values.
-/

namespace Lib.MixedRadix

structure Segment where
  factor : ℕ
  extent : ℕ
  factorPos : 0 < factor
  extentPos : 0 < extent
  divides : factor ∣ extent

namespace Segment

def share (segment : Segment) : ℕ := segment.extent / segment.factor

theorem factor_mul_share (segment : Segment) : segment.factor * segment.share = segment.extent :=
  Nat.mul_div_cancel' segment.divides

theorem share_pos (segment : Segment) : 0 < segment.share :=
  Nat.div_pos (Nat.le_of_dvd segment.extentPos segment.divides) segment.factorPos

/-- The segment is cut into single values. -/
def Whole (segment : Segment) : Prop := segment.factor = segment.extent

theorem share_eq_one_iff (segment : Segment) : segment.share = 1 ↔ segment.Whole := by
  have product := segment.factor_mul_share
  constructor
  · intro one
    rwa [one, mul_one] at product
  · intro whole
    rw [Whole] at whole
    apply Nat.eq_of_mul_eq_mul_left segment.factorPos
    rw [product, mul_one, whole]

end Segment

def count (segments : List Segment) : ℕ := (segments.map Segment.factor).prod

def extent (segments : List Segment) : ℕ := (segments.map Segment.extent).prod

def width (segments : List Segment) : ℕ := (segments.map Segment.share).prod

/-- Every digit of the value lies in the slot's share of its segment. -/
def Owned : List Segment → ℕ → ℕ → Prop
  | [], _, _ => True
  | segment :: outer, slot, value =>
      value % segment.extent / segment.share = slot % segment.factor ∧
        Owned outer (slot / segment.factor) (value / segment.extent)

/-- Each slot owns one contiguous block. -/
def Blocks (segments : List Segment) : Prop :=
  ∀ slot < count segments, ∀ value < extent segments,
    Owned segments slot value ↔ value / width segments = slot

theorem count_mul_width (segments : List Segment) :
    count segments * width segments = extent segments := by
  induction segments with
  | nil => rfl
  | cons segment outer inductionHypothesis =>
      simp only [count, width, extent, List.map_cons, List.prod_cons] at inductionHypothesis ⊢
      rw [mul_mul_mul_comm, inductionHypothesis, segment.factor_mul_share]

theorem width_pos (segments : List Segment) : 0 < width segments := by
  apply List.prod_pos
  intro share found
  obtain ⟨segment, -, rfl⟩ := List.mem_map.mp found
  exact segment.share_pos

theorem count_pos (segments : List Segment) : 0 < count segments := by
  apply List.prod_pos
  intro factor found
  obtain ⟨segment, -, rfl⟩ := List.mem_map.mp found
  exact segment.factorPos

theorem width_eq_one_iff (segments : List Segment) :
    width segments = 1 ↔ ∀ segment ∈ segments, segment.Whole := by
  induction segments with
  | nil => simp [width]
  | cons segment outer inductionHypothesis =>
      rw [List.forall_mem_cons, ← inductionHypothesis, ← segment.share_eq_one_iff]
      exact mul_eq_one

/-- A whole split inside whole segments is the digit itself. -/
theorem digit_eq_iff (segment : Segment) (slot value : ℕ) :
    (value % segment.extent / segment.share = slot % segment.factor ∧
      value / segment.extent = slot / segment.factor) ↔ value / segment.share = slot := by
  have product := segment.factor_mul_share
  have sharePositive := segment.share_pos
  have quotient : value / segment.extent = value / segment.share / segment.factor := by
    rw [Nat.div_div_eq_div_mul, mul_comm, product]
  have remainder : value % segment.extent / segment.share = value / segment.share % segment.factor := by
    rw [← product, mul_comm segment.factor, Nat.mod_mul_right_div_self]
  rw [quotient, remainder]
  constructor
  · rintro ⟨low, high⟩
    rw [← Nat.div_add_mod (value / segment.share) segment.factor, low, high, Nat.div_add_mod]
  · rintro rfl
    exact ⟨rfl, rfl⟩

theorem blocks_of_whole {segment : Segment} {outer : List Segment}
    (whole : ∀ other ∈ outer, other.Whole) (blocks : Blocks outer) : Blocks (segment :: outer) := by
  intro slot slotBelow value valueBelow
  have one : width outer = 1 := (width_eq_one_iff outer).mpr whole
  have total : width (segment :: outer) = segment.share := by
    rw [width, List.map_cons, List.prod_cons]
    exact (congrArg (segment.share * ·) one).trans (mul_one _)
  have slotOuter : slot / segment.factor < count outer := Nat.div_lt_of_lt_mul slotBelow
  have valueOuter : value / segment.extent < extent outer := Nat.div_lt_of_lt_mul valueBelow
  rw [Owned, blocks _ slotOuter _ valueOuter, one, Nat.div_one, total]
  exact digit_eq_iff segment slot value

theorem blocks_of_unsplit {segment : Segment} {outer : List Segment}
    (unsplit : segment.factor = 1) (blocks : Blocks outer) : Blocks (segment :: outer) := by
  intro slot slotBelow value valueBelow
  have slotOuter : slot < count outer := by
    rw [count, List.map_cons, List.prod_cons, unsplit, one_mul] at slotBelow
    exact slotBelow
  have valueOuter : value / segment.extent < extent outer := Nat.div_lt_of_lt_mul valueBelow
  have share : segment.share = segment.extent := by rw [Segment.share, unsplit, Nat.div_one]
  have total : width (segment :: outer) = segment.extent * width outer := by
    rw [width, List.map_cons, List.prod_cons, share]
    rfl
  rw [Owned, unsplit, Nat.div_one, blocks _ slotOuter _ valueOuter, total, share, Nat.mod_one,
    Nat.div_div_eq_div_mul]
  have digit : value % segment.extent / segment.extent = 0 :=
    Nat.div_eq_of_lt (Nat.mod_lt _ segment.extentPos)
  exact and_iff_right digit

/-- A split segment inside one that is not cut into single values breaks the first block. -/
theorem whole_of_blocks {segment : Segment} {outer : List Segment} (split : 1 < segment.factor)
    (blocks : Blocks (segment :: outer)) : ∀ other ∈ outer, other.Whole := by
  rw [← width_eq_one_iff]
  by_contra notOne
  have wide : 1 < width outer := lt_of_le_of_ne (width_pos outer) (Ne.symm notOne)
  have product := segment.factor_mul_share
  have sharePositive := segment.share_pos
  have shareBelow : segment.share < segment.extent := by
    rw [← product]
    exact (Nat.lt_mul_iff_one_lt_left sharePositive).mpr split
  have total : width (segment :: outer) = segment.share * width outer := rfl
  have first := blocks 0 (count_pos _) segment.share (by
    calc segment.share < segment.extent := shareBelow
      _ ≤ segment.extent * extent outer := by
        apply Nat.le_mul_of_pos_right
        rw [← count_mul_width]
        exact Nat.mul_pos (count_pos outer) (width_pos outer))
  have inBlock : segment.share / width (segment :: outer) = 0 := by
    apply Nat.div_eq_of_lt
    rw [total]
    exact (Nat.lt_mul_iff_one_lt_right sharePositive).mpr wide
  obtain ⟨digit, -⟩ := first.mpr inBlock
  rw [Nat.mod_eq_of_lt shareBelow, Nat.div_self sharePositive, Nat.zero_mod] at digit
  cases digit

theorem blocks_tail {segment : Segment} {outer : List Segment} (unsplit : segment.factor = 1)
    (blocks : Blocks (segment :: outer)) : Blocks outer := by
  intro slot slotBelow value valueBelow
  have extentPositive := segment.extentPos
  have share : segment.share = segment.extent := by rw [Segment.share, unsplit, Nat.div_one]
  have here := blocks slot (by
    rw [count, List.map_cons, List.prod_cons, unsplit, one_mul]
    exact slotBelow) (segment.extent * value) (Nat.mul_lt_mul_of_pos_left valueBelow extentPositive)
  have total : width (segment :: outer) = segment.extent * width outer := by
    rw [width, List.map_cons, List.prod_cons, share]
    rfl
  rw [Owned, unsplit, Nat.mul_mod_right, Nat.zero_div, Nat.mod_one, Nat.div_one,
    Nat.mul_div_cancel_left _ extentPositive, total, Nat.mul_div_mul_left _ _ extentPositive] at here
  exact (and_iff_right rfl).symm.trans here

theorem blocks_iff (segments : List Segment) :
    Blocks segments ↔ segments.Pairwise fun inner outer => 1 < inner.factor → outer.Whole := by
  induction segments with
  | nil =>
      refine iff_of_true ?_ .nil
      intro slot slotBelow value valueBelow
      simp only [count, extent, List.map_nil, List.prod_nil, Nat.lt_one_iff] at slotBelow valueBelow
      simp [Owned, width, slotBelow, valueBelow]
  | cons segment outer inductionHypothesis =>
      rw [List.pairwise_cons, ← inductionHypothesis]
      constructor
      · intro blocks
        by_cases split : 1 < segment.factor
        · have whole := whole_of_blocks split blocks
          refine ⟨fun other listed _ => whole other listed, ?_⟩
          apply inductionHypothesis.mpr
          exact List.pairwise_of_forall_mem_list fun _ _ other listed _ => whole other listed
        · have unsplit : segment.factor = 1 :=
            Nat.le_antisymm (not_lt.mp split) segment.factorPos
          exact ⟨fun _ _ isSplit => absurd isSplit split, blocks_tail unsplit blocks⟩
      · rintro ⟨whole, blocks⟩
        by_cases split : 1 < segment.factor
        · exact blocks_of_whole (fun other listed => whole other listed split) blocks
        · have unsplit : segment.factor = 1 :=
            Nat.le_antisymm (not_lt.mp split) segment.factorPos
          exact blocks_of_unsplit unsplit blocks

end Lib.MixedRadix
