import TorchSpyre.Lib.Linear
import TorchSpyre.Ownership.Rectangles

/-!
# The bounds of a loop partition are attained

The end points of a partition decide its bounds: inside one period of the modulus the digit is
monotone, and a partition that reaches into the next period meets both ends of a period.
-/

namespace TorchSpyre.Ownership

open Lib Lib.Symbolic Views

/-- The least and the greatest value of the coordinate on a range of the loop. -/
structure Extremes (start stop : ℕ) (coordinate : Expr) (bound : ℤ × ℤ) : Prop where
  between : Bounds start stop coordinate bound
  least : ∃ value, start ≤ value ∧ value < stop ∧ coordinate.eval (fun _ => value) = bound.1
  greatest : ∃ value, start ≤ value ∧ value < stop ∧ coordinate.eval (fun _ => value) = bound.2

/-! ## Bounds from the end points -/

/-- A range that leaves a period of the modulus contains the last point of the period and the first
point of the next one. -/
theorem exists_ends_of_period {first last modulus : ℕ} (positive : 0 < modulus)
    (ordered : first ≤ last) (leaves : first / modulus ≠ last / modulus) :
    (∃ value, first ≤ value ∧ value ≤ last ∧ value % modulus = 0) ∧
      ∃ value, first ≤ value ∧ value ≤ last ∧ value % modulus = modulus - 1 := by
  have later : first / modulus + 1 ≤ last / modulus :=
    lt_of_le_of_ne (Nat.div_le_div_right ordered) leaves
  have boundary : (first / modulus + 1) * modulus ≤ last :=
    (Nat.mul_le_mul_right modulus later).trans (Nat.div_mul_le_self last modulus)
  have beyond : first < (first / modulus + 1) * modulus := by
    rw [Nat.mul_comm]
    exact Nat.lt_mul_div_succ first positive
  constructor
  · exact ⟨(first / modulus + 1) * modulus, beyond.le, boundary, Nat.mul_mod_left _ _⟩
  · refine ⟨first / modulus * modulus + (modulus - 1), ?_, ?_, ?_⟩
    · rw [Nat.succ_mul] at beyond
      omega
    · rw [Nat.succ_mul] at boundary
      omega
    · rw [Nat.mul_comm, Nat.mul_add_mod]
      exact Nat.mod_eq_of_lt (Nat.sub_lt positive Nat.one_pos)

theorem LoopTerm.bounds_attained (term : LoopTerm) (modPositive : 0 < term.mod) {first last : ℕ}
    (ordered : first ≤ last) :
    (∃ value, first ≤ value ∧ value ≤ last ∧
      term.num * (value % term.mod / term.den : ℕ) + term.offset = (term.bounds first last).1) ∧
    ∃ value, first ≤ value ∧ value ≤ last ∧
      term.num * (value % term.mod / term.den : ℕ) + term.offset = (term.bounds first last).2 := by
  have corners : ∃ low high : ℕ, term.bounds first last =
      (min (term.num * (low % term.mod / term.den : ℕ) + term.offset)
          (term.num * (high % term.mod / term.den : ℕ) + term.offset),
        max (term.num * (low % term.mod / term.den : ℕ) + term.offset)
          (term.num * (high % term.mod / term.den : ℕ) + term.offset)) ∧
      first ≤ low ∧ low ≤ last ∧ first ≤ high ∧ high ≤ last := by
    by_cases leaves : first / term.mod ≠ last / term.mod
    · obtain ⟨⟨low, lowAbove, lowBelow, isLow⟩, high, highAbove, highBelow, isHigh⟩ :=
        exists_ends_of_period modPositive ordered leaves
      refine ⟨low, high, ?_, lowAbove, lowBelow, highAbove, highBelow⟩
      simp [LoopTerm.bounds, leaves, isLow, isHigh]
    · refine ⟨first, last, ?_, le_rfl, ordered, ordered, le_rfl⟩
      simp only [LoopTerm.bounds, leaves, if_false]
  obtain ⟨low, high, isBounds, lowAbove, lowBelow, highAbove, highBelow⟩ := corners
  rw [isBounds]
  constructor
  · rcases min_choice (term.num * (low % term.mod / term.den : ℕ) + term.offset)
      (term.num * (high % term.mod / term.den : ℕ) + term.offset) with isLow | isHigh
    · exact ⟨low, lowAbove, lowBelow, isLow.symm⟩
    · exact ⟨high, highAbove, highBelow, isHigh.symm⟩
  · rcases max_choice (term.num * (low % term.mod / term.den : ℕ) + term.offset)
      (term.num * (high % term.mod / term.den : ℕ) + term.offset) with isLow | isHigh
    · exact ⟨low, lowAbove, lowBelow, isLow.symm⟩
    · exact ⟨high, highAbove, highBelow, isHigh.symm⟩

theorem extremes_of_loopTerm {sympy : Sympy} {extent start stop : ℕ} {coordinate : Expr} {size : ℕ}
    {term : LoopTerm} (accepted : loopTerm sympy extent coordinate size = .ok term)
    (inhabited : start < stop) (inside : stop ≤ extent) :
    Extremes start stop coordinate (term.bounds start (stop - 1)) := by
  obtain ⟨modPositive, evaluated⟩ := loopTerm_eval accepted
  obtain ⟨⟨low, lowAbove, lowBelow, isLow⟩, high, highAbove, highBelow, isHigh⟩ :=
    term.bounds_attained modPositive (Nat.le_sub_one_of_lt inhabited)
  have lowInside : low < stop := by omega
  have highInside : high < stop := by omega
  refine ⟨bounds_of_loopTerm accepted inside, ⟨low, lowAbove, lowInside, ?_⟩,
    ⟨high, highAbove, highInside, ?_⟩⟩
  · rw [evaluated _ (lowInside.trans_le inside), ← isLow]
  · rw [evaluated _ (highInside.trans_le inside), ← isHigh]

/-! ## Bounds from the points -/

/-- Each bound is an entry of some row, in the bound's column. -/
def Attained (rows : List (List ℤ)) (bounds : List (ℤ × ℤ)) : Prop :=
  ∀ (position : ℕ) (bound : ℤ × ℤ), bounds[position]? = some bound →
    (∃ row ∈ rows, row[position]? = some bound.1) ∧ ∃ row ∈ rows, row[position]? = some bound.2

theorem Attained.widen {rows : List (List ℤ)} {bounds : List (ℤ × ℤ)} (attained : Attained rows bounds)
    (row : List ℤ) : Attained (rows ++ [row]) (widen bounds row) := by
  intro position bound found
  rw [Ownership.widen, List.getElem?_zipWith] at found
  cases boundAt : bounds[position]? with
  | none => simp [boundAt] at found
  | some before =>
      cases valueAt : row[position]? with
      | none => simp [boundAt, valueAt] at found
      | some value =>
          simp only [boundAt, valueAt, Option.some.injEq] at found
          subst found
          obtain ⟨⟨lowRow, lowListed, isLow⟩, highRow, highListed, isHigh⟩ := attained position before boundAt
          constructor
          · rcases min_choice before.1 value with kept | taken
            · exact ⟨lowRow, List.mem_append_left _ lowListed, by simp [kept, isLow]⟩
            · exact ⟨row, by simp, by simp [taken, valueAt]⟩
          · rcases max_choice before.2 value with kept | taken
            · exact ⟨highRow, List.mem_append_left _ highListed, by simp [kept, isHigh]⟩
            · exact ⟨row, by simp, by simp [taken, valueAt]⟩

theorem columnBounds_attained (rows : List (List ℤ)) : Attained rows (columnBounds rows) := by
  cases rows with
  | nil => exact fun position bound found => by simp [columnBounds] at found
  | cons start rows =>
      have folded : ∀ (later seen : List (List ℤ)) (bounds : List (ℤ × ℤ)), Attained seen bounds →
          Attained (seen ++ later) (later.foldl widen bounds) := by
        intro later
        induction later with
        | nil => exact fun seen bounds attained => by simpa using attained
        | cons row later inductionHypothesis =>
            intro seen bounds attained
            simpa using inductionHypothesis _ _ (attained.widen row)
      apply folded rows [start]
      intro position bound found
      rw [List.getElem?_map, Option.map_eq_some_iff] at found
      obtain ⟨value, valueAt, rfl⟩ := found
      exact ⟨⟨start, by simp, valueAt⟩, ⟨start, by simp, valueAt⟩⟩

theorem extremes_of_enumerated {coordinates : List Expr} {start width : ℕ} {rectangles : Bool}
    {bounds : List (ℤ × ℤ)} (inhabited : 0 < width)
    (succeeds : enumeratedBounds coordinates start width rectangles = .ok bounds) :
    List.Forall₂ (Extremes start (start + width)) coordinates bounds := by
  have contains := enumeratedBounds_bound inhabited succeeds
  obtain ⟨rows, listed, succeeds⟩ := bind_eq_ok_iff.mp succeeds
  obtain ⟨-, succeeds⟩ := of_guard succeeds
  cases succeeds
  obtain ⟨count, tuples⟩ := pointRows_tuple listed
  obtain ⟨sameLength, between⟩ := List.forall₂_iff_get.mp contains
  have pointOf : ∀ {position : ℕ} (inCoordinates : position < coordinates.length) {row : List ℤ}
      {entry : ℤ}, row ∈ rows → row[position]? = some entry → ∃ value, start ≤ value ∧
        value < start + width ∧ coordinates[position].eval (fun _ => value) = entry := by
    intro position inCoordinates row entry listed found
    obtain ⟨step, inside, rfl⟩ := List.getElem_of_mem listed
    obtain ⟨inRow, rfl⟩ := List.getElem?_eq_some_iff.mp found
    refine ⟨start + step, Nat.le_add_right _ _, by omega, ?_⟩
    exact (List.forall₂_iff_get.mp (tuples step inside)).2 position inCoordinates inRow
  refine List.forall₂_iff_get.mpr ⟨sameLength, ?_⟩
  intro position inCoordinates inBounds
  obtain ⟨⟨lowRow, lowListed, isLow⟩, highRow, highListed, isHigh⟩ :=
    columnBounds_attained rows position _ (List.getElem?_eq_getElem inBounds)
  exact ⟨between position inCoordinates inBounds, pointOf inCoordinates lowListed isLow,
    pointOf inCoordinates highListed isHigh⟩

/-! ## Regions -/

theorem partitionBounds_extremes {sympy : Sympy} {extent : ℕ} {coordinates : List Expr}
    {deviceExtents : List ℕ} {rectangles analytic : Bool} {terms : List LoopTerm} {width slot : ℕ}
    {bounds : List (ℤ × ℤ)} (sameLength : coordinates.length = deviceExtents.length)
    (inhabited : 0 < width) (inside : (slot + 1) * width ≤ extent)
    (accepted : loopTerms sympy extent coordinates deviceExtents = .ok terms)
    (usable : analytic = true → terms ≠ [])
    (bounded : partitionBounds terms analytic coordinates rectangles width slot = .ok bounds) :
    List.Forall₂ (Extremes (slot * width) ((slot + 1) * width)) coordinates bounds := by
  unfold partitionBounds at bounded
  split at bounded
  next chosen =>
    cases bounded
    have started : slot * width < (slot + 1) * width := by
      rw [Nat.succ_mul]
      exact Nat.lt_add_of_pos_right inhabited
    exact forall₂_of_loopTerms sameLength accepted (usable chosen)
      fun _ _ _ parsed => extremes_of_loopTerm parsed started inside
  next =>
    have extremes := extremes_of_enumerated inhabited bounded
    rwa [← Nat.succ_mul] at extremes

/-- The bounds of every partition are attained on every axis, and with rectangles asked for the
partition's points are the points of the rectangle, each once. -/
theorem loopRegions_exact {sympy : Sympy} {extent : ℕ} {coordinates : List Expr}
    {deviceExtents : List ℕ} {split : ℕ} {rectangles : Bool} {regions : List (List (ℤ × ℤ))}
    (sameLength : coordinates.length = deviceExtents.length) (inhabited : 0 < extent / split)
    (succeeds : loopRegions sympy extent coordinates deviceExtents split rectangles = .ok regions) :
    regions.length = split ∧ ∀ slot bounds, regions[slot]? = some bounds →
      List.Forall₂ (Extremes (slot * (extent / split)) ((slot + 1) * (extent / split))) coordinates
        bounds ∧
      (rectangles = true →
        Fills coordinates (slot * (extent / split)) ((slot + 1) * (extent / split)) bounds) := by
  refine ⟨(loopRegions_regions sameLength inhabited succeeds).1, ?_⟩
  intro slot bounds found
  constructor
  · obtain ⟨terms, accepted, succeeds⟩ := bind_eq_ok_iff.mp succeeds
    obtain ⟨slots, paired⟩ := List.forall₂_iff_get.mp (forall₂_of_mapM succeeds)
    rw [List.length_range] at slots
    obtain ⟨inRegions, rfl⟩ := List.getElem?_eq_some_iff.mp found
    have computed := paired slot (by rw [List.length_range, slots]; exact inRegions) inRegions
    rw [List.get_eq_getElem, List.getElem_range] at computed
    obtain ⟨bounds, bounded, computed⟩ := bind_eq_ok_iff.mp computed
    obtain ⟨-, computed⟩ := of_guard computed
    obtain ⟨-, computed⟩ := of_guard computed
    have isBounds : bounds = regions[slot] := Except.ok.inj computed
    rw [← isBounds]
    refine partitionBounds_extremes sameLength inhabited ?_ accepted ?_ bounded
    · calc (slot + 1) * (extent / split) ≤ split * (extent / split) :=
            Nat.mul_le_mul_right _ (slots ▸ inRegions)
        _ ≤ extent := Nat.mul_div_le extent split
    · rintro analytic rfl
      cases analytic
  · rintro rfl
    rw [Nat.succ_mul]
    exact loopRegions_fill sameLength inhabited succeeds found

/-- An axis walked backwards, in three partitions. -/
theorem loopRegions_exact_backwards :
    let backwards : Expr := .add (.mul (.const (-1)) (.sym loopPoint)) (.const 23)
    loopTerms affineSympy 24 [backwards] [24] = .ok [⟨-1, 1, 24, 23⟩] ∧
    loopRegions affineSympy 24 [backwards] [24] 3 true = .ok [[(16, 23)], [(8, 15)], [(0, 7)]] ∧
    List.Forall₂ (Extremes 8 16) [backwards] [(8, 15)] ∧ Fills [backwards] 8 16 [(8, 15)] := by
  intro backwards
  have returned : loopRegions affineSympy 24 [backwards] [24] 3 true =
      .ok [[(16, 23)], [(8, 15)], [(0, 7)]] := by
    decide +kernel
  obtain ⟨-, exact⟩ := loopRegions_exact rfl (by decide) returned
  obtain ⟨extremes, fills⟩ := exact 1 [(8, 15)] rfl
  exact ⟨by decide +kernel, returned, extremes, fills rfl⟩

end TorchSpyre.Ownership
