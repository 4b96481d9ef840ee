import Mathlib
import TorchSpyre.Lib.Positional
import TorchSpyre.Ownership.LoopRegions

/-!
# Partitions that fill their rectangles

When rectangles are asked for, the points of a partition have distinct
coordinates, because the digits determine the loop value or because the points
were compared, and the bounds enclose as many points as the partition has.  So
the partition fills the rectangle of its bounds.
-/

namespace TorchSpyre.Ownership

open Lib Lib.Symbolic Lib.Positional

/-- The coordinates of one loop value. -/
def Tuple (coordinates : List Expr) (value : ℕ) (tuple : List ℤ) : Prop :=
  List.Forall₂ (fun (coordinate : Expr) (entry : ℤ) => coordinate.eval (fun _ => value) = entry)
    coordinates tuple

theorem Tuple.unique {coordinates : List Expr} {value : ℕ} {first second : List ℤ}
    (isFirst : Tuple coordinates value first) (isSecond : Tuple coordinates value second) :
    first = second := by
  induction isFirst generalizing second with
  | nil =>
      cases isSecond
      rfl
  | cons here _ inductionHypothesis =>
      cases isSecond with
      | cons there rest =>
          rw [inductionHypothesis rest]
          congr 1
          exact_mod_cast here.symm.trans there

/-- Different loop values of a range have different coordinates. -/
def Distinct (coordinates : List Expr) (start stop : ℕ) : Prop :=
  ∀ first second tuple, start ≤ first → first < stop → start ≤ second → second < stop →
    Tuple coordinates first tuple → Tuple coordinates second tuple → first = second

/-! ## Digits that determine the loop value -/

theorem mod_eq_of_digit {first second known den mod : ℕ} (same : first % known = second % known)
    (divides : den ∣ known) (multiple : known ∣ mod)
    (digit : first % mod / den = second % mod / den) : first % mod = second % mod := by
  have remainder : first % mod % den = second % mod % den := by
    rw [Nat.mod_mod_of_dvd _ (divides.trans multiple), Nat.mod_mod_of_dvd _ (divides.trans multiple),
      ← Nat.mod_mod_of_dvd first divides, same, Nat.mod_mod_of_dvd _ divides]
  rw [← Nat.div_add_mod (first % mod) den, digit, remainder, Nat.div_add_mod]

/-- Loop values with the same digits agree up to the known modulus. -/
theorem mod_knownModulus {terms : List LoopTerm} {first second : ℕ}
    (digits : ∀ term ∈ terms, first % term.mod / term.den = second % term.mod / term.den) :
    first % knownModulus terms = second % knownModulus terms := by
  have folded : ∀ (later : List LoopTerm) (known : ℕ),
      (∀ term ∈ later, first % term.mod / term.den = second % term.mod / term.den) →
      first % known = second % known →
      first % (later.foldl (fun known term =>
        if known % term.den = 0 ∧ term.mod % known = 0 then term.mod else known) known) =
      second % (later.foldl (fun known term =>
        if known % term.den = 0 ∧ term.mod % known = 0 then term.mod else known) known) := by
    intro later
    induction later with
    | nil => exact fun _ _ same => same
    | cons term later inductionHypothesis =>
        intro known agree same
        rw [List.forall_mem_cons] at agree
        apply inductionHypothesis _ agree.2
        dsimp only
        split
        next chained =>
          exact mod_eq_of_digit same (Nat.dvd_of_mod_eq_zero chained.1)
            (Nat.dvd_of_mod_eq_zero chained.2) agree.1
        next => exact same
  apply folded
  · intro term listed
    exact digits term (List.mem_mergeSort.mp listed)
  · rw [Nat.mod_one, Nat.mod_one]

theorem loopTerm_num_ne_zero {sympy : Sympy} {extent : ℕ} {coordinate : Expr} {size : ℕ}
    {term : LoopTerm} (accepted : loopTerm sympy extent coordinate size = .ok term) :
    term.num ≠ 0 := by
  simp only [loopTerm] at accepted
  split at accepted
  next => cases accepted
  next =>
    split at accepted
    next => cases accepted
    next =>
      obtain ⟨usable, accepted⟩ := of_guard accepted
      obtain ⟨-, accepted⟩ := of_guard accepted
      cases accepted
      exact fun zero => usable (.inl zero)

theorem digit_of_coordinate {sympy : Sympy} {extent : ℕ} {coordinate : Expr} {size : ℕ}
    {term : LoopTerm} (accepted : loopTerm sympy extent coordinate size = .ok term)
    {first second : ℕ} (firstInside : first < extent) (secondInside : second < extent) {entry : ℤ}
    (firstEntry : coordinate.eval (fun _ => first) = entry)
    (secondEntry : coordinate.eval (fun _ => second) = entry) :
    first % term.mod / term.den = second % term.mod / term.den := by
  obtain ⟨-, evaluated⟩ := loopTerm_eval accepted
  rw [evaluated (fun _ => first) firstInside, Int.cast_inj] at firstEntry
  rw [evaluated (fun _ => second) secondInside, Int.cast_inj] at secondEntry
  have scaled := firstEntry.trans secondEntry.symm
  have product := mul_left_cancel₀ (loopTerm_num_ne_zero accepted) (add_right_cancel scaled)
  exact_mod_cast product

/-- With a known modulus that covers the loop, coordinates determine the loop value. -/
theorem distinct_of_knownModulus {sympy : Sympy} {extent : ℕ} {coordinates : List Expr}
    {deviceExtents : List ℕ} {terms : List LoopTerm}
    (accepted : loopTerms sympy extent coordinates deviceExtents = .ok terms) (usable : terms ≠ [])
    (covers : extent ≤ knownModulus terms) : Distinct coordinates 0 extent := by
  intro first second tuple _ firstInside _ secondInside isFirst isSecond
  have digits : ∀ term ∈ terms,
      first % term.mod / term.den = second % term.mod / term.den := by
    unfold loopTerms at accepted
    split at accepted
    next parsed =>
      cases accepted
      have paired := forall₂_of_mapM parsed
      clear parsed usable covers
      intro term listed
      obtain ⟨⟨coordinate, size⟩, isPair, isTerm⟩ := exists_left_of_forall₂ paired listed
      have isCoordinate := (List.of_mem_zip isPair).1
      obtain ⟨position, inside, rfl⟩ := List.getElem_of_mem isCoordinate
      obtain ⟨firstLength, firstAt⟩ := List.forall₂_iff_get.mp isFirst
      obtain ⟨-, secondAt⟩ := List.forall₂_iff_get.mp isSecond
      have inTuple : position < tuple.length := firstLength ▸ inside
      exact digit_of_coordinate isTerm firstInside secondInside (firstAt position inside inTuple)
        (secondAt position inside inTuple)
    next => cases accepted
    next =>
      cases accepted
      exact absurd rfl usable
  have same := mod_knownModulus digits
  rwa [Nat.mod_eq_of_lt (firstInside.trans_le covers),
    Nat.mod_eq_of_lt (secondInside.trans_le covers)] at same

/-! ## Points that were compared -/

theorem tuple_of_integerAt {coordinates : List Expr} {value : ℕ} {row : List ℤ}
    (evaluated : List.Forall₂
      (fun coordinate entry => coordinate.integerAt loopPoint value = some entry) coordinates row) :
    Tuple coordinates value row :=
  evaluated.imp fun _ _ found => Expr.eval_of_integerAt found rfl

theorem pointRows_tuple {coordinates : List Expr} {start width : ℕ} {rows : List (List ℤ)}
    (succeeds : pointRows coordinates start width = .ok rows) :
    rows.length = width ∧ ∀ step, ∀ inside : step < rows.length,
      Tuple coordinates (start + step) rows[step] := by
  obtain ⟨sameLength, paired⟩ := List.forall₂_iff_get.mp (forall₂_of_mapM succeeds)
  rw [List.length_range] at sameLength
  refine ⟨sameLength.symm, ?_⟩
  intro step inside
  have mapped := paired step (by rw [List.length_range, sameLength]; exact inside) inside
  rw [List.get_eq_getElem, List.getElem_range] at mapped
  apply tuple_of_integerAt
  refine (forall₂_of_mapM mapped).imp ?_
  intro coordinate entry stepped
  split at stepped
  next => cases stepped
  next value found =>
    cases stepped
    exact found

theorem distinct_of_enumerated {coordinates : List Expr} {start width : ℕ}
    {bounds : List (ℤ × ℤ)}
    (succeeds : enumeratedBounds coordinates start width true = .ok bounds) :
    Distinct coordinates start (start + width) := by
  obtain ⟨rows, listed, succeeds⟩ := bind_eq_ok_iff.mp succeeds
  obtain ⟨compared, -⟩ := of_guard succeeds
  obtain ⟨length, tuples⟩ := pointRows_tuple listed
  have unrepeated : rows.dedup = rows := by
    apply (List.dedup_sublist rows).eq_of_length
    rw [length]
    by_contra repeats
    exact compared ⟨rfl, repeats⟩
  have nodup : rows.Nodup := unrepeated ▸ List.nodup_dedup rows
  intro first second tuple above below aboveToo belowToo isFirst isSecond
  obtain ⟨step, rfl⟩ := Nat.exists_eq_add_of_le above
  obtain ⟨other, rfl⟩ := Nat.exists_eq_add_of_le aboveToo
  have stepInside : step < rows.length := by omega
  have otherInside : other < rows.length := by omega
  have sameRow : rows[step] = rows[other] :=
    ((tuples step stepInside).unique isFirst).trans
      ((tuples other otherInside).unique isSecond).symm
  rw [(nodup.getElem_inj_iff).mp sameRow]

/-! ## Full rectangles -/

/-- The points of the range are the points of the rectangle, each once. -/
structure Fills (coordinates : List Expr) (start stop : ℕ) (bounds : List (ℤ × ℤ)) : Prop where
  exact : ∀ tuple, Covers bounds tuple ↔
    ∃ value, start ≤ value ∧ value < stop ∧ Tuple coordinates value tuple
  distinct : Distinct coordinates start stop
  volume : (bounds.map fun bound => bound.2 - bound.1 + 1).prod = ((stop - start : ℕ) : ℤ)

/-- A tuple between the bounds, counted from the lower ones. -/
def offsets (bounds : List (ℤ × ℤ)) (tuple : List ℤ) : List ℕ :=
  List.zipWith (fun bound entry => (entry - bound.1).toNat) bounds tuple

theorem digits_offsets {bounds : List (ℤ × ℤ)} {tuple : List ℤ} (covers : Covers bounds tuple) :
    Digits (bounds.map fun bound => (bound.2 - bound.1 + 1).toNat) (offsets bounds tuple) := by
  induction covers with
  | nil => exact .nil
  | @cons bound entry _ _ between _ inductionHypothesis =>
      refine .cons ?_ inductionHypothesis
      change (entry - bound.1).toNat < (bound.2 - bound.1 + 1).toNat
      omega

theorem offsets_injective {bounds : List (ℤ × ℤ)} {first second : List ℤ}
    (firstCovers : Covers bounds first) (secondCovers : Covers bounds second)
    (same : offsets bounds first = offsets bounds second) : first = second := by
  induction firstCovers generalizing second with
  | nil =>
      cases secondCovers
      rfl
  | cons between _ inductionHypothesis =>
      cases secondCovers with
      | cons betweenToo rest =>
          simp only [offsets, List.zipWith_cons_cons, List.cons.injEq] at same
          rw [inductionHypothesis rest same.2]
          congr 1
          omega

theorem Region.exists_tuple {coordinates : List Expr} {deviceExtents : List ℕ} {start stop : ℕ}
    {bounds : List (ℤ × ℤ)} (region : Region coordinates deviceExtents start stop bounds)
    {value : ℕ} (above : start ≤ value) (below : value < stop) :
    ∃ tuple, Tuple coordinates value tuple ∧ Covers bounds tuple := by
  have contains := region.contains
  clear region
  induction contains with
  | nil => exact ⟨[], .nil, .nil⟩
  | cons bounded _ inductionHypothesis =>
      obtain ⟨tuple, isTuple, covers⟩ := inductionHypothesis
      obtain ⟨entry, evaluated, between⟩ := bounded (fun _ => value) above below
      exact ⟨entry :: tuple, .cons evaluated isTuple, .cons between covers⟩

/-- Distinct points, as many as the rectangle has, fill it. -/
theorem Region.fills {coordinates : List Expr} {deviceExtents : List ℕ} {start width : ℕ}
    {bounds : List (ℤ × ℤ)}
    (region : Region coordinates deviceExtents start (start + width) bounds) (inhabited : 0 < width)
    (distinct : Distinct coordinates start (start + width))
    (volume : (bounds.map fun bound => bound.2 - bound.1 + 1).prod = (width : ℤ)) :
    Fills coordinates start (start + width) bounds := by
  refine ⟨?_, distinct, by rw [Nat.add_sub_cancel_left, volume]⟩
  intro tuple
  obtain ⟨corner, -, cornerCovers⟩ := region.exists_tuple le_rfl (by omega)
  have sides : ∀ bound ∈ bounds, 0 ≤ bound.2 - bound.1 + 1 := by
    intro bound listed
    obtain ⟨entry, -, between⟩ := exists_right_of_forall₂ cornerCovers listed
    omega
  have count : (bounds.map fun bound => (bound.2 - bound.1 + 1).toNat).prod = width := by
    have cast : (((bounds.map fun bound => (bound.2 - bound.1 + 1).toNat).prod : ℕ) : ℤ) =
        (bounds.map fun bound => bound.2 - bound.1 + 1).prod := by
      rw [Nat.cast_list_prod, List.map_map]
      congr 1
      apply List.map_congr_left
      intro bound listed
      exact Int.toNat_of_nonneg (sides bound listed)
    rw [volume] at cast
    exact_mod_cast cast
  constructor
  · intro covers
    have reached : ∀ step, ∃ tuple, step < width →
        Tuple coordinates (start + step) tuple ∧ Covers bounds tuple := by
      intro step
      by_cases inside : step < width
      · obtain ⟨tuple, found⟩ := region.exists_tuple (Nat.le_add_right start step)
          (Nat.add_lt_add_left inside start)
        exact ⟨tuple, fun _ => found⟩
      · exact ⟨[], fun isInside => absurd isInside inside⟩
    choose tuples found using reached
    have injective : ∀ first < width, ∀ second < width,
        offsets bounds (tuples first) = offsets bounds (tuples second) → first = second := by
      intro first firstInside second secondInside same
      obtain ⟨isFirst, firstCovers⟩ := found first firstInside
      obtain ⟨isSecond, secondCovers⟩ := found second secondInside
      rw [← offsets_injective firstCovers secondCovers same] at isSecond
      exact Nat.add_left_cancel (distinct _ _ _ (Nat.le_add_right _ _)
        (Nat.add_lt_add_left firstInside _) (Nat.le_add_right _ _)
        (Nat.add_lt_add_left secondInside _) isFirst isSecond)
    rw [← count] at injective
    obtain ⟨step, inside, same⟩ := exists_of_injective
      (fun step inside => digits_offsets (found step (count ▸ inside)).2) injective
      (digits_offsets covers)
    rw [count] at inside
    obtain ⟨isTuple, tupleCovers⟩ := found step inside
    rw [offsets_injective tupleCovers covers same] at isTuple
    exact ⟨start + step, Nat.le_add_right _ _, Nat.add_lt_add_left inside _, isTuple⟩
  · rintro ⟨value, above, below, isTuple⟩
    obtain ⟨own, isOwn, covers⟩ := region.exists_tuple above below
    rw [isTuple.unique isOwn]
    exact covers

/-- With rectangles asked for, every partition fills the rectangle of its bounds. -/
theorem loopRegions_fill {sympy : Sympy} {extent : ℕ} {coordinates : List Expr}
    {deviceExtents : List ℕ} {split : ℕ} {regions : List (List (ℤ × ℤ))}
    (sameLength : coordinates.length = deviceExtents.length) (inhabited : 0 < extent / split)
    (succeeds : loopRegions sympy extent coordinates deviceExtents split true = .ok regions)
    {slot : ℕ} {bounds : List (ℤ × ℤ)} (found : regions[slot]? = some bounds) :
    Fills coordinates (slot * (extent / split)) (slot * (extent / split) + extent / split)
      bounds := by
  obtain ⟨-, regionAt⟩ := loopRegions_regions sameLength inhabited succeeds
  have region := regionAt slot bounds found
  rw [Nat.succ_mul] at region
  obtain ⟨terms, accepted, succeeds⟩ := bind_eq_ok_iff.mp succeeds
  obtain ⟨slots, paired⟩ := List.forall₂_iff_get.mp (forall₂_of_mapM succeeds)
  rw [List.length_range] at slots
  obtain ⟨inRegions, rfl⟩ := List.getElem?_eq_some_iff.mp found
  have computed := paired slot (by rw [List.length_range, slots]; exact inRegions) inRegions
  rw [List.get_eq_getElem, List.getElem_range] at computed
  obtain ⟨bounds, bounded, computed⟩ := bind_eq_ok_iff.mp computed
  obtain ⟨-, computed⟩ := of_guard computed
  obtain ⟨volume, computed⟩ := of_guard computed
  have isBounds := Except.ok.inj computed
  rw [List.get_eq_getElem] at isBounds
  rw [← isBounds] at region ⊢
  have full : (bounds.map fun bound => bound.2 - bound.1 + 1).prod = ((extent / split : ℕ) : ℤ) := by
    by_contra differs
    exact volume ⟨rfl, differs⟩
  apply region.fills inhabited _ full
  unfold partitionBounds at bounded
  split at bounded
  next analytic =>
    simp only [Bool.not_true, Bool.false_or, Bool.and_eq_true, Bool.not_eq_true',
      List.isEmpty_eq_false_iff, decide_eq_true_eq] at analytic
    have everywhere := distinct_of_knownModulus accepted analytic.1 analytic.2
    have inside : slot * (extent / split) + extent / split ≤ extent := by
      calc slot * (extent / split) + extent / split = (slot + 1) * (extent / split) := by ring
        _ ≤ split * (extent / split) := Nat.mul_le_mul_right _ (slots ▸ inRegions)
        _ ≤ extent := Nat.mul_div_le extent split
    intro first second tuple _ firstBelow _ secondBelow
    exact everywhere first second tuple (Nat.zero_le _) (firstBelow.trans_le inside)
      (Nat.zero_le _) (secondBelow.trans_le inside)
  next => exact distinct_of_enumerated bounded

end TorchSpyre.Ownership
