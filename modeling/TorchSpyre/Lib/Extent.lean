import Mathlib

/-!
# Half-open extents of a linear address space

An extent is an `(offset, size)` pair standing for the addresses
`offset ≤ point < offset + size`.  A list of extents tiles `[0, stop)` when
every point below `stop` is covered exactly once and no other point is covered.
Counting how often a point is covered keeps splitting, removing and appending
an extent local: each changes the count at a point by a known amount.
-/

namespace Lib

structure Extent where
  offset : ℤ
  size : ℤ
  deriving DecidableEq, Repr

namespace Extent

/-- First address past the extent. -/
def stop (extent : Extent) : ℤ := extent.offset + extent.size

def Contains (extent : Extent) (point : ℤ) : Prop :=
  extent.offset ≤ point ∧ point < extent.offset + extent.size

instance (extent : Extent) (point : ℤ) : Decidable (extent.Contains point) :=
  inferInstanceAs (Decidable (_ ∧ _))

/-- No address belongs to both extents. -/
def Disjoint (first second : Extent) : Prop :=
  ∀ point, first.Contains point → ¬ second.Contains point

theorem Disjoint.symm {first second : Extent} (disjoint : first.Disjoint second) :
    second.Disjoint first :=
  fun point inSecond inFirst => disjoint point inFirst inSecond

theorem disjoint_of_stop_le {first second : Extent}
    (below : first.stop ≤ second.offset) : first.Disjoint second := by
  intro point inFirst inSecond
  unfold Contains at inFirst inSecond
  unfold stop at below
  omega

theorem disjoint_iff_of_pos {first second : Extent}
    (firstPositive : 0 < first.size) (secondPositive : 0 < second.size) :
    first.Disjoint second ↔ first.stop ≤ second.offset ∨ second.stop ≤ first.offset := by
  constructor
  · intro disjoint
    by_contra overlapping
    rw [not_or, not_le, not_le] at overlapping
    unfold stop at overlapping
    -- The larger of the two offsets would lie in both extents.
    refine disjoint (max first.offset second.offset) ?_ ?_ <;>
      (unfold Contains; omega)
  · rintro (below | below)
    · exact disjoint_of_stop_le below
    · exact (disjoint_of_stop_le below).symm

theorem disjoint_of_subset {first second third : Extent}
    (lower : third.offset ≤ first.offset) (upper : first.stop ≤ third.stop)
    (disjoint : third.Disjoint second) : first.Disjoint second := by
  intro point inFirst
  apply disjoint point
  unfold Contains at inFirst ⊢
  unfold stop at upper
  omega

/-- How many of the extents contain a point. -/
def cover (extents : List Extent) (point : ℤ) : ℕ :=
  extents.countP fun extent => decide (extent.Contains point)

@[simp]
theorem cover_nil (point : ℤ) : cover [] point = 0 := rfl

@[simp]
theorem cover_cons (extent : Extent) (extents : List Extent) (point : ℤ) :
    cover (extent :: extents) point =
      cover extents point + if extent.Contains point then 1 else 0 := by
  simp [cover, List.countP_cons]

@[simp]
theorem cover_append (first second : List Extent) (point : ℤ) :
    cover (first ++ second) point = cover first point + cover second point :=
  List.countP_append

theorem cover_perm {first second : List Extent} (permuted : first.Perm second) (point : ℤ) :
    cover first point = cover second point :=
  permuted.countP_eq _

theorem one_le_cover {extents : List Extent} {extent : Extent} (membership : extent ∈ extents)
    {point : ℤ} (contained : extent.Contains point) : 1 ≤ cover extents point :=
  List.countP_pos_iff.mpr ⟨extent, membership, decide_eq_true contained⟩

/-- Every point of `[0, stop)` is covered exactly once, and no other point is. -/
def Tiles (extents : List Extent) (stop : ℤ) : Prop :=
  ∀ point, cover extents point = if 0 ≤ point ∧ point < stop then 1 else 0

theorem Tiles.perm {first second : List Extent} {stop : ℤ} (tiles : Tiles first stop)
    (permuted : first.Perm second) : Tiles second stop := by
  intro point
  rw [← cover_perm permuted]
  exact tiles point

theorem Tiles.exists_iff {extents : List Extent} {stop : ℤ} (tiles : Tiles extents stop)
    (point : ℤ) : (∃ extent ∈ extents, extent.Contains point) ↔ 0 ≤ point ∧ point < stop := by
  have counted := tiles point
  constructor
  · rintro ⟨extent, membership, contained⟩
    have positive := one_le_cover membership contained
    by_contra outside
    rw [if_neg outside] at counted
    omega
  · intro inside
    rw [if_pos inside] at counted
    rcases List.countP_pos_iff.mp (counted ▸ Nat.one_pos : 0 < cover extents point) with
      ⟨extent, membership, contained⟩
    exact ⟨extent, membership, of_decide_eq_true contained⟩

theorem pairwise_disjoint_of_cover_le_one {extents : List Extent}
    (covered : ∀ point, cover extents point ≤ 1) : extents.Pairwise Disjoint := by
  induction extents with
  | nil => exact List.Pairwise.nil
  | cons head tail inductionHypothesis =>
      refine List.Pairwise.cons ?_ (inductionHypothesis fun point => ?_)
      · intro other membership point inHead inOther
        have counted := covered point
        have positive := one_le_cover membership inOther
        rw [cover_cons, if_pos inHead] at counted
        omega
      · have counted := covered point
        rw [cover_cons] at counted
        omega

theorem Tiles.pairwise_disjoint {extents : List Extent} {stop : ℤ}
    (tiles : Tiles extents stop) : extents.Pairwise Disjoint := by
  apply pairwise_disjoint_of_cover_le_one
  intro point
  rw [tiles point]
  split <;> omega

/-- Cutting an extent in two leaves the coverage of every point unchanged. -/
theorem cover_split (offset taken size : ℤ) (nonnegative : 0 ≤ taken) (fits : taken ≤ size)
    (extents : List Extent) (point : ℤ) :
    cover (⟨offset, taken⟩ :: ⟨offset + taken, size - taken⟩ :: extents) point =
      cover (⟨offset, size⟩ :: extents) point := by
  simp only [cover_cons]
  split_ifs <;> simp only [Contains, not_and_or, not_le, not_lt] at * <;> omega

/-- Appending the extent that starts where a tiling stops extends the tiling. -/
theorem Tiles.extend {extents : List Extent} {stop : ℤ} (tiles : Tiles extents stop)
    (size : ℤ) (stopNonnegative : 0 ≤ stop) (sizeNonnegative : 0 ≤ size) :
    Tiles (⟨stop, size⟩ :: extents) (stop + size) := by
  intro point
  rw [cover_cons, tiles point]
  split_ifs <;> simp only [Contains, not_and_or, not_le, not_lt] at * <;> omega

/-! ## Looking an address up -/

section Lookup

variable {Item : Type*} (extent : Item → Extent) {items : List Item} {point : ℤ}

/-- The last item that starts at or before a point, when it reaches the point. -/
def lookup (items : List Item) (point : ℤ) : Option Item :=
  (items.takeWhile fun item => decide ((extent item).offset ≤ point)).getLast?.filter fun item =>
    decide (point - (extent item).offset < (extent item).size)

/-- Items in the order of their addresses. -/
def Ordered (items : List Item) : Prop :=
  items.Pairwise fun lower upper => (extent lower).stop ≤ (extent upper).offset

variable {extent}

/-- Of disjoint items, the ones starting lower come first. -/
theorem ordered_of_disjoint (positive : ∀ item ∈ items, 0 < (extent item).size)
    (sorted : items.Pairwise fun lower upper => (extent lower).offset < (extent upper).offset)
    (disjoint : items.Pairwise fun first second => (extent first).Disjoint (extent second)) :
    Ordered extent items := by
  refine (sorted.and disjoint).imp_of_mem ?_
  rintro lower upper lowerIn upperIn ⟨below, apart⟩
  rcases (disjoint_iff_of_pos (positive lower lowerIn) (positive upper upperIn)).mp apart with before | after
  · exact before
  · have upperPositive := positive upper upperIn
    unfold stop at after
    omega

/-- The last item starting at or before a point is the only one that can contain it. -/
theorem lookup_eq_some_iff (positive : ∀ item ∈ items, 0 < (extent item).size)
    (ordered : Ordered extent items) {item : Item} :
    lookup extent items point = some item ↔ item ∈ items ∧ (extent item).Contains point := by
  unfold lookup
  rw [Option.filter_eq_some_iff, decide_eq_true_eq]
  constructor
  · rintro ⟨isLast, reaches⟩
    have inPrefix := List.mem_of_getLast? isLast
    have starts : (extent item).offset ≤ point := by
      simpa using List.mem_takeWhile_imp inPrefix
    exact ⟨(List.takeWhile_prefix _).subset inPrefix, starts, by omega⟩
  · rintro ⟨inside, starts, reaches⟩
    refine ⟨?_, by omega⟩
    obtain ⟨front, back, rfl⟩ := List.append_of_mem inside
    obtain ⟨-, backOrdered, before⟩ := List.pairwise_append.mp ordered
    have frontStarts : ∀ other ∈ front, decide ((extent other).offset ≤ point) = true := by
      intro other inFront
      have ends := before other inFront item List.mem_cons_self
      have otherPositive := positive other (List.mem_append_left _ inFront)
      unfold stop at ends
      exact decide_eq_true (by omega)
    -- The item after it starts past the point.
    have stops : back.takeWhile (fun other => decide ((extent other).offset ≤ point)) = [] := by
      cases back with
      | nil => rfl
      | cons next rest =>
          have starts := (List.pairwise_cons.mp backOrdered).1 next List.mem_cons_self
          unfold stop at starts
          exact List.takeWhile_cons_of_neg (by rw [decide_eq_true_eq]; omega)
    rw [List.takeWhile_append_of_pos frontStarts,
      List.takeWhile_cons_of_pos (p := fun other => decide ((extent other).offset ≤ point))
        (decide_eq_true starts), stops]
    exact List.getLast?_concat

end Lookup

end Extent

end Lib
