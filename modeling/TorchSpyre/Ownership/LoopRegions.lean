import Mathlib
import TorchSpyre.Ownership.Mapping
import TorchSpyre.Views.Term

/-!
# Bounds of a coordinate on the partitions of a loop

`_loop_regions` cuts a loop into equal contiguous partitions and bounds each
coordinate on each of them: from a term `num * ((p % mod) // den) + offset` that
is checked against the coordinate, or by enumerating the points.
-/

namespace TorchSpyre.Ownership

open Lib Lib.Symbolic Views

def loopPoint : Symbol := "direct_axis_loop"

structure LoopTerm where
  num : ℤ
  den : ℕ
  mod : ℕ
  offset : ℤ
  deriving DecidableEq

inductive LoopTermError where
  | term (cause : TermError)
  | notInteger
  | normalizationChanges
  deriving DecidableEq

def LoopTerm.expr (term : LoopTerm) : Expr :=
  .add (.mul (.const term.num)
    (.floor (.mul (.const (1 / term.den)) (.mod (.sym loopPoint) term.mod.toPNat'))))
    (.const term.offset)

def loopTerm (sympy : Sympy) (extent : ℕ) (coordinate : Expr) (size : ℕ) :
    Except LoopTermError LoopTerm :=
  let expr := sympy.auto coordinate.stripFloors
  let offset := sympy.auto (expr.replaceSymbol loopPoint (.const 0))
  match Term.fromCoordinate (sympy.auto (expr.sub offset)) loopPoint extent size with
  | .error cause => .error (.term cause)
  | .ok term =>
      match offset.asInteger with
      | none => .error .notInteger
      | some offset =>
          if term.num = 0 ∨ term.den = 0 ∨ term.mod = 0 then .error .notInteger
          else
            let rebuilt : LoopTerm := ⟨term.num, term.den, term.mod, offset⟩
            let delta := (coordinate.spellFloorDiv.sub rebuilt.expr).dropMod loopPoint extent
            if sympy.simplify delta ≠ .const 0 then .error .normalizationChanges
            else .ok rebuilt

/-- The terms of all coordinates, or none: then the points are enumerated. -/
def loopTerms (sympy : Sympy) (extent : ℕ) (coordinates : List Expr) (deviceExtents : List ℕ) :
    Except RegionError (List LoopTerm) :=
  match (coordinates.zip deviceExtents).mapM
      fun (coordinate, size) => loopTerm sympy extent coordinate size with
  | .ok terms => .ok terms
  | .error (.term .noNumerator) => .error .noNumerator
  | .error _ => .ok []

/-- The modulus up to which the digits determine the loop value. -/
def knownModulus (terms : List LoopTerm) : ℕ :=
  (terms.mergeSort fun first second => first.den ≤ second.den).foldl
    (fun known term => if known % term.den = 0 ∧ term.mod % known = 0 then term.mod else known) 1

def LoopTerm.bounds (term : LoopTerm) (first last : ℕ) : ℤ × ℤ :=
  let (low, high) :=
    if first / term.mod ≠ last / term.mod then (0, (term.mod - 1) / term.den)
    else (first % term.mod / term.den, last % term.mod / term.den)
  (min (term.num * (low : ℕ) + term.offset) (term.num * (high : ℕ) + term.offset),
    max (term.num * (low : ℕ) + term.offset) (term.num * (high : ℕ) + term.offset))

/-- The coordinates at each point of a partition. -/
def pointRows (coordinates : List Expr) (first width : ℕ) : Except RegionError (List (List ℤ)) :=
  (List.range width).mapM fun step => coordinates.mapM fun coordinate =>
    match coordinate.integerAt loopPoint (first + step) with
    | none => .error .notIntegral
    | some value => .ok value

def widen (bounds : List (ℤ × ℤ)) (row : List ℤ) : List (ℤ × ℤ) :=
  List.zipWith (fun bound value => (min bound.1 value, max bound.2 value)) bounds row

/-- The least and the greatest entry of each column. -/
def columnBounds : List (List ℤ) → List (ℤ × ℤ)
  | [] => []
  | row :: rows => rows.foldl widen (row.map fun value => (value, value))

def enumeratedBounds (coordinates : List Expr) (first width : ℕ) (rectangles : Bool) :
    Except RegionError (List (ℤ × ℤ)) := do
  let rows ← pointRows coordinates first width
  if rectangles ∧ rows.dedup.length ≠ width then .error .repeatsElement
  else .ok (columnBounds rows)

def partitionBounds (terms : List LoopTerm) (analytic : Bool) (coordinates : List Expr)
    (rectangles : Bool) (width slot : ℕ) : Except RegionError (List (ℤ × ℤ)) :=
  if analytic then
    .ok (terms.map fun term => term.bounds (slot * width) ((slot + 1) * width - 1))
  else enumeratedBounds coordinates (slot * width) width rectangles

def loopRegion (terms : List LoopTerm) (analytic : Bool) (coordinates : List Expr)
    (deviceExtents : List ℕ) (rectangles : Bool) (width slot : ℕ) :
    Except RegionError (List (ℤ × ℤ)) := do
  let bounds ← partitionBounds terms analytic coordinates rectangles width slot
  if (bounds.zip deviceExtents).any fun (bound, size) => bound.1 < 0 ∨ (size : ℤ) ≤ bound.2 then
    .error .offAxis
  else if rectangles ∧ (bounds.map fun bound => bound.2 - bound.1 + 1).prod ≠ (width : ℤ) then
    .error .notRectangle
  else .ok bounds

/-- `_loop_regions` -/
def loopRegions (sympy : Sympy) (extent : ℕ) (coordinates : List Expr) (deviceExtents : List ℕ)
    (split : ℕ) (rectangles : Bool) : Except RegionError (List (List (ℤ × ℤ))) := do
  let terms ← loopTerms sympy extent coordinates deviceExtents
  let analytic := !terms.isEmpty && (!rectangles || decide (extent ≤ knownModulus terms))
  (List.range split).mapM
    (loopRegion terms analytic coordinates deviceExtents rectangles (extent / split))

/-! ## Terms -/

theorem LoopTerm.eval_expr (term : LoopTerm) (modPositive : 0 < term.mod) (point : Point) :
    term.expr.eval point =
      ((term.num * (point loopPoint % term.mod / term.den : ℕ) + term.offset : ℤ) : ℚ) := by
  have remainder : (Expr.mod (.sym loopPoint) term.mod.toPNat').eval point =
      (point loopPoint % term.mod : ℕ) := by
    have evaluated := @Expr.eval_mod_of_nat (.sym loopPoint) point _ term.mod.toPNat' rfl
    rwa [Nat.toPNat'_coe, if_pos modPositive] at evaluated
  have digit := Expr.eval_floor_quotient term.den remainder
  simp only [LoopTerm.expr, Expr.eval] at digit ⊢
  rw [digit, Int.cast_add, Int.cast_mul, Int.cast_natCast]

/-- An accepted term is the coordinate at every point of the loop. -/
theorem loopTerm_eval {sympy : Sympy} {extent : ℕ} {coordinate : Expr} {size : ℕ}
    {term : LoopTerm} (accepted : loopTerm sympy extent coordinate size = .ok term) :
    0 < term.mod ∧ ∀ point : Point, point loopPoint < extent → coordinate.eval point =
      ((term.num * (point loopPoint % term.mod / term.den : ℕ) + term.offset : ℤ) : ℚ) := by
  simp only [loopTerm] at accepted
  split at accepted
  next => cases accepted
  next parsed _ =>
    split at accepted
    next => cases accepted
    next offset _ =>
      obtain ⟨usable, accepted⟩ := of_guard accepted
      obtain ⟨vanishes, accepted⟩ := of_guard accepted
      cases accepted
      rw [not_not] at vanishes
      rw [not_or, not_or] at usable
      have modPositive := Nat.pos_of_ne_zero usable.2.2
      refine ⟨modPositive, ?_⟩
      intro point below
      have delta := sympy.simplify_eval ((coordinate.spellFloorDiv.sub
        (LoopTerm.expr ⟨parsed.num, parsed.den, parsed.mod, offset⟩)).dropMod loopPoint extent) point
      rw [vanishes, Expr.eval_dropMod below, Expr.eval_sub, Expr.eval_spellFloorDiv] at delta
      rw [sub_eq_zero.mp delta.symm]
      exact LoopTerm.eval_expr _ modPositive point

theorem scaled_between {num offset : ℤ} {low value high : ℕ} (above : low ≤ value)
    (below : value ≤ high) :
    min (num * low + offset) (num * high + offset) ≤ num * value + offset ∧
      num * value + offset ≤ max (num * low + offset) (num * high + offset) := by
  have aboveInt : (low : ℤ) ≤ value := Int.ofNat_le.mpr above
  have belowInt : (value : ℤ) ≤ high := Int.ofNat_le.mpr below
  rcases le_total 0 num with nonnegative | nonpositive
  · have fromLow := mul_le_mul_of_nonneg_left aboveInt nonnegative
    have toHigh := mul_le_mul_of_nonneg_left belowInt nonnegative
    omega
  · have fromLow := mul_le_mul_of_nonpos_left aboveInt nonpositive
    have toHigh := mul_le_mul_of_nonpos_left belowInt nonpositive
    omega

/-- Inside one period of the modulus the digit is monotone; across periods it takes any value. -/
theorem LoopTerm.bounds_contain (term : LoopTerm) (modPositive : 0 < term.mod)
    {first value last : ℕ} (above : first ≤ value) (below : value ≤ last) :
    (term.bounds first last).1 ≤ term.num * (value % term.mod / term.den : ℕ) + term.offset ∧
      term.num * (value % term.mod / term.den : ℕ) + term.offset ≤ (term.bounds first last).2 := by
  unfold LoopTerm.bounds
  by_cases samePeriod : first / term.mod = last / term.mod
  · simp only [ne_eq, samePeriod, not_true_eq_false, ↓reduceIte]
    have firstPeriod := Nat.div_le_div_right (c := term.mod) above
    have lastPeriod := Nat.div_le_div_right (c := term.mod) below
    have fromFirst : first % term.mod ≤ value % term.mod := by
      rw [Nat.mod_eq_sub_div_mul, Nat.mod_eq_sub_div_mul,
        show value / term.mod = first / term.mod by omega]
      omega
    have toLast : value % term.mod ≤ last % term.mod := by
      rw [Nat.mod_eq_sub_div_mul, Nat.mod_eq_sub_div_mul,
        show value / term.mod = last / term.mod by omega]
      omega
    apply scaled_between
    · exact Nat.div_le_div_right fromFirst
    · exact Nat.div_le_div_right toLast
  · simp only [ne_eq, samePeriod, not_false_eq_true, ↓reduceIte]
    apply scaled_between
    · exact Nat.zero_le _
    · apply Nat.div_le_div_right
      exact Nat.le_sub_one_of_lt (Nat.mod_lt _ modPositive)

/-! ## Regions -/

/-- The value of the coordinate stays between the bounds on a range of the loop. -/
def Bounds (first stop : ℕ) (coordinate : Expr) (bound : ℤ × ℤ) : Prop :=
  ∀ point : Point, first ≤ point loopPoint → point loopPoint < stop →
    ∃ value : ℤ, coordinate.eval point = value ∧ bound.1 ≤ value ∧ value ≤ bound.2

theorem bounds_of_loopTerm {sympy : Sympy} {extent first stop : ℕ} {coordinate : Expr} {size : ℕ}
    {term : LoopTerm} (accepted : loopTerm sympy extent coordinate size = .ok term)
    (inside : stop ≤ extent) : Bounds first stop coordinate (term.bounds first (stop - 1)) := by
  intro point above below
  obtain ⟨modPositive, evaluated⟩ := loopTerm_eval accepted
  refine ⟨_, evaluated point (below.trans_le inside), ?_⟩
  exact term.bounds_contain modPositive above (Nat.le_sub_one_of_lt below)

/-- What holds of every accepted term holds of all coordinates. -/
theorem forall₂_of_loopTerms {sympy : Sympy} {extent : ℕ} {coordinates : List Expr}
    {deviceExtents : List ℕ} {terms : List LoopTerm} {related : Expr → ℤ × ℤ → Prop}
    {boundsOf : LoopTerm → ℤ × ℤ} (sameLength : coordinates.length = deviceExtents.length)
    (accepted : loopTerms sympy extent coordinates deviceExtents = .ok terms) (analytic : terms ≠ [])
    (each : ∀ coordinate size term, loopTerm sympy extent coordinate size = .ok term →
      related coordinate (boundsOf term)) :
    List.Forall₂ related coordinates (terms.map boundsOf) := by
  unfold loopTerms at accepted
  split at accepted
  next parsed =>
    cases accepted
    have paired := forall₂_of_mapM parsed
    clear parsed analytic
    induction coordinates generalizing deviceExtents terms with
    | nil =>
        cases paired
        exact .nil
    | cons coordinate coordinates inductionHypothesis =>
        cases deviceExtents with
        | nil => cases sameLength
        | cons size sizes =>
            cases paired with
            | cons accepted paired =>
                exact .cons (each coordinate size _ accepted)
                  (inductionHypothesis (Nat.succ.inj sameLength) paired)
  next => cases accepted
  next =>
    cases accepted
    exact absurd rfl analytic

theorem forall₂_bounds_of_loopTerms {sympy : Sympy} {extent first stop : ℕ}
    {coordinates : List Expr} {deviceExtents : List ℕ} {terms : List LoopTerm}
    (sameLength : coordinates.length = deviceExtents.length) (inside : stop ≤ extent)
    (accepted : loopTerms sympy extent coordinates deviceExtents = .ok terms)
    (analytic : terms ≠ []) :
    List.Forall₂ (Bounds first stop) coordinates
      (terms.map fun term => term.bounds first (stop - 1)) :=
  forall₂_of_loopTerms sameLength accepted analytic
    fun _ _ _ parsed => bounds_of_loopTerm parsed inside

def Covers (bounds : List (ℤ × ℤ)) (row : List ℤ) : Prop :=
  List.Forall₂ (fun bound value => bound.1 ≤ value ∧ value ≤ bound.2) bounds row

theorem Covers.widen {bounds : List (ℤ × ℤ)} {row added : List ℤ} (covers : Covers bounds row)
    (sameLength : added.length = row.length) :
    Covers (widen bounds added) row ∧ Covers (Ownership.widen bounds added) added := by
  induction covers generalizing added with
  | nil =>
      cases added with
      | nil => exact ⟨.nil, .nil⟩
      | cons _ _ => cases sameLength
  | cons between _ inductionHypothesis =>
      cases added with
      | nil => cases sameLength
      | cons value added =>
          obtain ⟨kept, gained⟩ := inductionHypothesis (Nat.succ.inj sameLength)
          constructor
          · exact .cons ⟨(min_le_left _ _).trans between.1, between.2.trans (le_max_left _ _)⟩ kept
          · exact .cons ⟨min_le_right _ _, le_max_right _ _⟩ gained

theorem columnBounds_cover {rows : List (List ℤ)} {length : ℕ}
    (sameLength : ∀ row ∈ rows, row.length = length) {row : List ℤ} (listed : row ∈ rows) :
    Covers (columnBounds rows) row := by
  have folded : ∀ (later seen : List (List ℤ)) (bounds : List (ℤ × ℤ)),
      (∀ row ∈ later, row.length = length) → (∀ row ∈ seen, row.length = length) →
      (∀ row ∈ seen, Covers bounds row) → (∃ row, row ∈ seen) →
      ∀ row ∈ seen ++ later, Covers (later.foldl widen bounds) row := by
    intro later
    induction later with
    | nil =>
        intro seen bounds _ _ covered _ row listed
        rw [List.append_nil] at listed
        exact covered row listed
    | cons added later inductionHypothesis =>
        intro seen bounds laterLength seenLength covered inhabited row listed
        apply inductionHypothesis (seen ++ [added]) (widen bounds added)
        · exact fun row found => laterLength row (List.mem_cons_of_mem _ found)
        · intro row found
          rcases List.mem_append.mp found with found | found
          · exact seenLength row found
          · exact laterLength row (by rw [List.mem_singleton.mp found]; exact List.mem_cons_self)
        · intro row found
          have addedLength := laterLength added List.mem_cons_self
          rcases List.mem_append.mp found with found | found
          · exact ((covered row found).widen (addedLength.trans (seenLength row found).symm)).1
          · obtain ⟨witness, before⟩ := inhabited
            rw [List.mem_singleton.mp found]
            exact ((covered witness before).widen
              (addedLength.trans (seenLength witness before).symm)).2
        · obtain ⟨witness, before⟩ := inhabited
          exact ⟨witness, List.mem_append_left _ before⟩
        · rw [List.append_assoc]
          exact listed
  cases rows with
  | nil => cases listed
  | cons start rows =>
      apply folded rows [start] _ (fun row found => sameLength row (List.mem_cons_of_mem _ found))
      · intro row found
        exact sameLength row (by rw [List.mem_singleton.mp found]; exact List.mem_cons_self)
      · intro row found
        rw [List.mem_singleton.mp found]
        unfold Covers
        rw [List.forall₂_map_left_iff]
        exact List.forall₂_same.mpr fun value _ => ⟨le_rfl, le_rfl⟩
      · exact ⟨start, List.mem_singleton_self start⟩
      · exact listed

theorem pointRows_value {coordinates : List Expr} {first width : ℕ} {rows : List (List ℤ)}
    (succeeds : pointRows coordinates first width = .ok rows) :
    (∀ row ∈ rows, row.length = coordinates.length) ∧
      ∀ value, first ≤ value → value < first + width → ∃ row ∈ rows,
        List.Forall₂ (fun coordinate entry => coordinate.integerAt loopPoint value = some entry)
          coordinates row := by
  have evaluated : ∀ {step : ℕ} {row : List ℤ},
      (coordinates.mapM fun coordinate =>
        match coordinate.integerAt loopPoint (first + step) with
        | none => .error .notIntegral
        | some value => .ok value) = Except.ok (ε := RegionError) row →
      List.Forall₂ (fun coordinate entry => coordinate.integerAt loopPoint (first + step) = some entry)
        coordinates row := by
    intro step row mapped
    apply (forall₂_of_mapM mapped).imp
    intro coordinate entry stepped
    split at stepped
    next => cases stepped
    next value found =>
      cases stepped
      exact found
  constructor
  · intro row listed
    obtain ⟨step, -, mapped⟩ := exists_of_mem_mapM succeeds listed
    exact (evaluated mapped).length_eq.symm
  · intro value above below
    obtain ⟨sameLength, paired⟩ := List.forall₂_iff_get.mp (forall₂_of_mapM succeeds)
    rw [List.length_range] at sameLength
    have inRange : value - first < rows.length := by omega
    have mapped := paired (value - first) (by rw [List.length_range, sameLength]; exact inRange) inRange
    rw [List.get_eq_getElem, List.getElem_range] at mapped
    refine ⟨_, List.get_mem rows ⟨value - first, inRange⟩, ?_⟩
    have found := evaluated mapped
    rwa [Nat.add_sub_cancel' above] at found

theorem enumeratedBounds_bound {coordinates : List Expr} {first width : ℕ} {rectangles : Bool}
    {bounds : List (ℤ × ℤ)} (inhabited : 0 < width)
    (succeeds : enumeratedBounds coordinates first width rectangles = .ok bounds) :
    List.Forall₂ (Bounds first (first + width)) coordinates bounds := by
  obtain ⟨rows, listed, succeeds⟩ := bind_eq_ok_iff.mp succeeds
  obtain ⟨-, succeeds⟩ := of_guard succeeds
  cases succeeds
  obtain ⟨lengths, evaluated⟩ := pointRows_value listed
  have covers : ∀ value, first ≤ value → value < first + width → ∃ row,
      Covers (columnBounds rows) row ∧ List.Forall₂
        (fun coordinate entry => coordinate.integerAt loopPoint value = some entry)
          coordinates row := by
    intro value above below
    obtain ⟨row, found, values⟩ := evaluated value above below
    exact ⟨row, columnBounds_cover lengths found, values⟩
  obtain ⟨start, startCovers, startValues⟩ := covers first le_rfl (by omega)
  apply List.forall₂_iff_get.mpr
  refine ⟨startValues.length_eq.trans startCovers.length_eq.symm, ?_⟩
  intro position inCoordinates inBounds point above below
  obtain ⟨row, rowCovers, values⟩ := covers (point loopPoint) above below
  obtain ⟨sameLength, valueAt⟩ := List.forall₂_iff_get.mp values
  obtain ⟨-, boundAt⟩ := List.forall₂_iff_get.mp rowCovers
  have inRow : position < row.length := sameLength ▸ inCoordinates
  exact ⟨_, Expr.eval_of_integerAt (valueAt position inCoordinates inRow) rfl,
    boundAt position inBounds inRow⟩

theorem onAxis_of_guard {bounds : List (ℤ × ℤ)} {deviceExtents : List ℕ}
    (sameLength : bounds.length = deviceExtents.length)
    (onAxis : ¬ ((bounds.zip deviceExtents).any
      fun (bound, size) => bound.1 < 0 ∨ (size : ℤ) ≤ bound.2) = true) :
    List.Forall₂ (fun (bound : ℤ × ℤ) (size : ℕ) => 0 ≤ bound.1 ∧ bound.2 < size) bounds
      deviceExtents := by
  rw [List.forall₂_iff_zip]
  refine ⟨sameLength, ?_⟩
  intro bound size paired
  by_contra outside
  apply onAxis
  rw [List.any_eq_true]
  refine ⟨(bound, size), paired, ?_⟩
  rw [not_and_or, not_le, not_lt] at outside
  exact decide_eq_true outside

/-- What the bounds of one partition say. -/
structure Region (coordinates : List Expr) (deviceExtents : List ℕ) (first stop : ℕ)
    (bounds : List (ℤ × ℤ)) : Prop where
  contains : List.Forall₂ (Bounds first stop) coordinates bounds
  onAxis : List.Forall₂ (fun (bound : ℤ × ℤ) (size : ℕ) => 0 ≤ bound.1 ∧ bound.2 < size) bounds
    deviceExtents

theorem loopRegion_region {sympy : Sympy} {extent : ℕ} {coordinates : List Expr}
    {deviceExtents : List ℕ} {rectangles : Bool} {terms : List LoopTerm} {analytic : Bool}
    {width slot : ℕ} {bounds : List (ℤ × ℤ)}
    (sameLength : coordinates.length = deviceExtents.length) (inhabited : 0 < width)
    (inside : (slot + 1) * width ≤ extent)
    (accepted : loopTerms sympy extent coordinates deviceExtents = .ok terms)
    (usable : analytic = true → terms ≠ [])
    (succeeds : loopRegion terms analytic coordinates deviceExtents rectangles width slot =
      .ok bounds) :
    Region coordinates deviceExtents (slot * width) ((slot + 1) * width) bounds := by
  obtain ⟨found, bounded, succeeds⟩ := bind_eq_ok_iff.mp succeeds
  obtain ⟨onAxis, succeeds⟩ := of_guard succeeds
  obtain ⟨-, succeeds⟩ := of_guard succeeds
  cases succeeds
  have contains : List.Forall₂ (Bounds (slot * width) ((slot + 1) * width)) coordinates bounds := by
    unfold partitionBounds at bounded
    split at bounded
    next chosen =>
      cases bounded
      exact forall₂_bounds_of_loopTerms sameLength inside accepted (usable chosen)
    next =>
      have bound := enumeratedBounds_bound inhabited bounded
      rwa [← Nat.succ_mul] at bound
  exact ⟨contains, onAxis_of_guard (contains.length_eq.symm.trans sameLength) onAxis⟩

theorem loopRegions_regions {sympy : Sympy} {extent : ℕ} {coordinates : List Expr}
    {deviceExtents : List ℕ} {split : ℕ} {rectangles : Bool} {regions : List (List (ℤ × ℤ))}
    (sameLength : coordinates.length = deviceExtents.length) (inhabited : 0 < extent / split)
    (succeeds : loopRegions sympy extent coordinates deviceExtents split rectangles = .ok regions) :
    regions.length = split ∧ ∀ slot bounds, regions[slot]? = some bounds →
      Region coordinates deviceExtents (slot * (extent / split))
        ((slot + 1) * (extent / split)) bounds := by
  obtain ⟨terms, accepted, succeeds⟩ := bind_eq_ok_iff.mp succeeds
  obtain ⟨slots, paired⟩ := List.forall₂_iff_get.mp (forall₂_of_mapM succeeds)
  rw [List.length_range] at slots
  refine ⟨slots.symm, ?_⟩
  intro slot bounds found
  obtain ⟨inRegions, rfl⟩ := List.getElem?_eq_some_iff.mp found
  have region := paired slot (by rw [List.length_range, slots]; exact inRegions) inRegions
  rw [List.get_eq_getElem, List.getElem_range] at region
  apply loopRegion_region sameLength inhabited _ accepted _ region
  · calc (slot + 1) * (extent / split) ≤ split * (extent / split) :=
          Nat.mul_le_mul_right _ (slots ▸ inRegions)
      _ ≤ extent := Nat.mul_div_le extent split
  · rintro analytic rfl
    cases analytic

end TorchSpyre.Ownership
