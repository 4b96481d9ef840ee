import Mathlib
import TorchSpyre.Lib.Linear
import TorchSpyre.Ownership.CanonicalOwner
import TorchSpyre.Ownership.Rectangles

/-!
# Decomposed partitions are exact

A decomposition gives each core exactly the points of its partition.  Whether the
partitions are disjoint is decided by the length of the loop: the enumeration
compares points inside a partition only, so a loop that is longer than the axes
it drives passes over the same rectangles again.
-/

namespace TorchSpyre.Ownership

open Lib Lib.Symbolic Lib.Positional

theorem synthetic_injective : Function.Injective synthetic := by
  intro first second same
  exact Nat.repr_injective ((String.append_right_inj _).mp same)

/-! ## What was checked -/

section Checked

variable {sympy : Sympy} {fusedSymbol : Symbol} {fusedSplit : ℕ} {fusedSlotExpr : Expr}
  {ownership : TensorWorkDivision} {loopExtents : IterationSpace} {deviceSize : List ℕ}
  {deviceCoordinates : List Expr} {numCores : ℕ} {splits : List (ℕ × ℕ)} {slots : List (ℕ × Expr)}

/-- The regions behind a decomposition. -/
structure Decomposed (sympy : Sympy) (fusedSymbol : Symbol) (fusedSplit : ℕ) (fusedSlotExpr : Expr)
    (ownership : TensorWorkDivision) (driven : List DrivenAxis) (numCores extent : ℕ)
    (splits : List (ℕ × ℕ)) (slots : List (ℕ × Expr)) (regions : List (List (ℤ × ℤ))) : Prop where
  large : 1 < fusedSplit
  positive : 0 < extent
  divides : fusedSplit ∣ extent
  owner : ownerIsCanonical sympy fusedSymbol fusedSplit fusedSlotExpr ownership numCores = true
  found : loopRegions sympy extent
    (driven.map fun axis =>
      sympy.auto (axis.coordinate.replaceSymbol fusedSymbol (.sym loopPoint)))
    (driven.map DrivenAxis.size) fusedSplit true = .ok regions
  returned : matchRectangles sympy fusedSplit fusedSlotExpr driven regions = .ok (splits, slots)

theorem decomposed (returned : decomposeFusedSplitView sympy fusedSymbol fusedSplit fusedSlotExpr
      ownership loopExtents deviceSize deviceCoordinates numCores = .ok (splits, slots)) :
    ∃ extent regions, loopExtents.extent fusedSymbol = some extent ∧
      Decomposed sympy fusedSymbol fusedSplit fusedSlotExpr ownership
        (drivenAxes fusedSymbol deviceSize deviceCoordinates) numCores extent splits slots
        regions := by
  unfold decomposeFusedSplitView at returned
  obtain ⟨cores, returned⟩ := of_guard returned
  obtain ⟨-, returned⟩ := of_guard returned
  split at returned
  next => cases returned
  next extent concrete =>
    obtain ⟨divisible, returned⟩ := of_guard returned
    obtain ⟨-, returned⟩ := of_guard returned
    obtain ⟨-, returned⟩ := of_guard returned
    obtain ⟨owner, returned⟩ := of_guard returned
    obtain ⟨-, returned⟩ := of_guard returned
    obtain ⟨-, rectangles⟩ := of_guard returned
    split at rectangles
    next => cases rectangles
    next regions found =>
      rw [not_or, not_le] at cores divisible
      obtain ⟨length, rfl⟩ := Int.eq_ofNat_of_zero_le divisible.1.le
      have positive : 0 < length := by exact_mod_cast divisible.1
      refine ⟨length, regions, ?_, cores.1, positive, ?_, ?_, found, rectangles⟩
      · rw [IterationSpace.extent, concrete]
        simp [positive]
      · have remainder := not_not.mp divisible.2
        exact Nat.dvd_of_mod_eq_zero (by exact_mod_cast remainder)
      · exact eq_true_of_ne_false owner

theorem physicalOrder_eq_ok {cut : List CutAxis} {expected : List (List (Symbol × ℕ))}
    {orders : List (List CutAxis)} {mapping : List (Symbol × Expr)}
    (returned : physicalOrder cut fusedSplit expected orders = .ok mapping) :
    ∃ order ∈ orders, coreToSliceMapping (order.map fun axis => synthetic axis.axis)
        (order.map CutAxis.factor) fusedSplit none = .ok mapping ∧
      ownerSlots mapping (cut.map fun axis => (synthetic axis.axis, axis.factor)) fusedSplit =
        .ok expected := by
  induction orders with
  | nil => cases returned
  | cons order orders inductionHypothesis =>
      rw [physicalOrder] at returned
      split at returned
      next => cases returned
      next mapping sliced =>
        split at returned
        next => cases returned
        next rows owned =>
          split at returned
          next same =>
            cases returned
            exact ⟨order, List.mem_cons_self, sliced, same ▸ owned⟩
          next =>
            obtain ⟨later, listed, found⟩ := inductionHypothesis returned
            exact ⟨later, List.mem_cons_of_mem _ listed, found⟩

/-- The axes cut as the rectangles are, and the order of the axes that numbers the rectangles. -/
structure Matched (sympy : Sympy) (fusedSplit : ℕ) (fusedSlotExpr : Expr) (driven : List DrivenAxis)
    (regions : List (List (ℤ × ℤ))) (splits : List (ℕ × ℕ)) (slots : List (ℕ × Expr))
    (shape : List ℤ) (order : List CutAxis) (mapping : List (Symbol × Expr)) : Prop where
  shapes : ∀ bounds ∈ regions, shapeOf bounds = shape
  divides : ∀ axis ∈ cutAxes driven shape, axis.width ∣ axis.size
  aligned : ∀ bounds ∈ regions, ∀ pair ∈ (cutAxes driven shape).zip bounds,
    pair.1.width ∣ pair.2.1.toNat
  permuted : order.Perm (cutAxes driven shape)
  sliced : coreToSliceMapping (order.map fun axis => synthetic axis.axis)
    (order.map CutAxis.factor) fusedSplit none = .ok mapping
  owned : ownerSlots mapping
    ((cutAxes driven shape).map fun axis => (synthetic axis.axis, axis.factor)) fusedSplit =
      .ok (regions.map (expectedRow (cutAxes driven shape)))
  splitsEq : splits = splitDims (cutAxes driven shape)
  slotsEq : slots = physicalSlots sympy fusedSlotExpr mapping (cutAxes driven shape)

theorem matched {driven : List DrivenAxis} {regions : List (List (ℤ × ℤ))}
    (returned : matchRectangles sympy fusedSplit fusedSlotExpr driven regions =
      .ok (splits, slots)) :
    ∃ shape order mapping,
      Matched sympy fusedSplit fusedSlotExpr driven regions splits slots shape order mapping := by
  unfold matchRectangles at returned
  split at returned
  next => cases returned
  next bounds others =>
    obtain ⟨shapes, returned⟩ := of_guard returned
    obtain ⟨divides, returned⟩ := of_guard returned
    obtain ⟨-, returned⟩ := of_guard returned
    obtain ⟨aligned, returned⟩ := of_guard returned
    obtain ⟨mapping, searched, returned⟩ := bind_eq_ok_iff.mp returned
    cases returned
    obtain ⟨order, listed, sliced, owned⟩ := physicalOrder_eq_ok searched
    refine ⟨shapeOf bounds, order, mapping, ?_, ?_, ?_, (mem_permutationsOf rfl).mp listed, sliced,
      owned, rfl, rfl⟩
    · simpa using shapes
    · intro axis isAxis
      apply Nat.dvd_of_mod_eq_zero
      by_contra remainder
      exact divides (List.any_eq_true.mpr ⟨axis, isAxis, decide_eq_true remainder⟩)
    · intro region isRegion pair isPair
      apply Nat.dvd_of_mod_eq_zero
      by_contra remainder
      apply aligned
      refine List.any_eq_true.mpr ⟨region, isRegion, ?_⟩
      exact List.any_eq_true.mpr ⟨pair, isPair, decide_eq_true remainder⟩

end Checked

/-! ## Axes -/

theorem axis_of_drivenAxis? {fusedSymbol : Symbol} {entry : (ℕ × Expr) × ℕ} {driven : DrivenAxis}
    (found : drivenAxis? fusedSymbol entry = some driven) : driven.axis = entry.2 := by
  rw [drivenAxis?] at found
  split at found
  next =>
    cases found
    rfl
  next => cases found

theorem drivenAxes_distinct (fusedSymbol : Symbol) (deviceSize : List ℕ)
    (deviceCoordinates : List Expr) :
    ((drivenAxes fusedSymbol deviceSize deviceCoordinates).map DrivenAxis.axis).Nodup := by
  have indices : ((deviceSize.zip deviceCoordinates).zipIdx.map Prod.snd).Nodup := by
    rw [List.zipIdx_map_snd]
    exact List.nodup_range'
  apply List.pairwise_map.mpr
  apply (List.pairwise_map.mp indices).filterMap
  intro first second different one isOne other isOther
  rw [axis_of_drivenAxis? isOne, axis_of_drivenAxis? isOther]
  exact different

theorem map_cutAxes {driven : List DrivenAxis} {shape : List ℤ}
    (sameLength : driven.length = shape.length) :
    (cutAxes driven shape).map CutAxis.toDrivenAxis = driven := by
  induction driven generalizing shape with
  | nil => rfl
  | cons axis driven inductionHypothesis =>
      cases shape with
      | nil => cases sameLength
      | cons width shape =>
          rw [cutAxes, List.zipWith_cons_cons, List.map_cons]
          congr 1
          exact inductionHypothesis (Nat.succ.inj sameLength)

theorem cutAxes_forall₂ {driven : List DrivenAxis} {bounds : List (ℤ × ℤ)}
    (sameLength : driven.length = bounds.length) :
    List.Forall₂ (fun (axis : CutAxis) (bound : ℤ × ℤ) =>
      axis.width = (bound.2 - bound.1 + 1).toNat ∧ axis.factor = axis.size / axis.width)
      (cutAxes driven (shapeOf bounds)) bounds := by
  induction driven generalizing bounds with
  | nil =>
      cases bounds with
      | nil => exact .nil
      | cons _ _ => cases sameLength
  | cons axis driven inductionHypothesis =>
      cases bounds with
      | nil => cases sameLength
      | cons bound bounds =>
          exact .cons ⟨rfl, rfl⟩ (inductionHypothesis (Nat.succ.inj sameLength))

/-- The coordinates over the loop's own symbol and over the scratch symbol have the same values. -/
theorem tuple_scratch_iff {sympy : Sympy} {fusedSymbol : Symbol} {driven : List DrivenAxis}
    {value : ℕ} {tuple : List ℤ} :
    Tuple (driven.map fun axis =>
        sympy.auto (axis.coordinate.replaceSymbol fusedSymbol (.sym loopPoint))) value tuple ↔
      Tuple (driven.map DrivenAxis.coordinate) value tuple := by
  rw [Tuple, Tuple, List.forall₂_map_left_iff, List.forall₂_map_left_iff]
  have same : ∀ axis : DrivenAxis,
      (sympy.auto (axis.coordinate.replaceSymbol fusedSymbol (.sym loopPoint))).eval
        (fun _ => value) = axis.coordinate.eval fun _ => value := by
    intro axis
    rw [sympy.auto_eval, Expr.eval_replaceSymbol, Function.update_eq_self_iff.mpr rfl]
  simp only [same]

/-- The axes in the order of their digits. -/
def named (order : List CutAxis) : List (Symbol × ℕ) :=
  order.map fun axis => (synthetic axis.axis, axis.factor)

/-- The slice of an axis in which a partition lies. -/
def slotAt (order : List CutAxis) (axis : CutAxis) (slot : ℕ) : ℕ :=
  digitOf (named order) (synthetic axis.axis) slot

/-! ## Rectangles of a core -/

/-- What a core owns of an axis: its slice where the axis is split, else the whole axis. -/
def AxisHolds (splits : List (ℕ × ℕ)) (slots : List (ℕ × Expr)) (core : ℕ) (axis : DrivenAxis)
    (entry : ℤ) : Prop :=
  match splits.lookup axis.axis with
  | none => 0 ≤ entry ∧ entry < axis.size
  | some factor => ∃ formula, ∃ slot : ℕ, slots.lookup axis.axis = some formula ∧
      formula.eval (fun _ => core) = slot ∧ InSlice (axis.size / factor : ℕ) slot entry

def Rectangle (driven : List DrivenAxis) (splits : List (ℕ × ℕ)) (slots : List (ℕ × Expr))
    (core : ℕ) (tuple : List ℤ) : Prop :=
  List.Forall₂ (AxisHolds splits slots core) driven tuple

theorem lookup_filter_map {Value : Type} {cut : List CutAxis}
    (distinct : (cut.map fun axis => axis.axis).Nodup) (keep : CutAxis → Bool)
    (value : CutAxis → Value) {axis : CutAxis} (listed : axis ∈ cut) :
    ((cut.filter keep).map fun axis => (axis.axis, value axis)).lookup axis.axis =
      if keep axis then some (value axis) else none := by
  have keys : (((cut.filter keep).map fun axis => (axis.axis, value axis)).map Prod.fst).Nodup := by
    rw [List.map_map]
    exact distinct.sublist ((List.filter_sublist).map _)
  split
  next kept =>
    apply lookup_of_mem keys
    exact List.mem_map.mpr ⟨axis, List.mem_filter.mpr ⟨listed, kept⟩, rfl⟩
  next dropped =>
    apply List.lookup_eq_none_iff.mpr
    intro entry isEntry
    obtain ⟨other, isOther, rfl⟩ := List.mem_map.mp isEntry
    obtain ⟨inCut, kept⟩ := List.mem_filter.mp isOther
    apply bne_iff_ne.mpr
    intro same
    have isSame : axis = other := List.inj_on_of_nodup_map distinct listed inCut same
    exact dropped (isSame ▸ kept)

section Slices

variable {sympy : Sympy} {fusedSymbol : Symbol} {fusedSplit : ℕ} {fusedSlotExpr : Expr}
  {ownership : TensorWorkDivision} {driven : List DrivenAxis} {numCores extent : ℕ}
  {splits : List (ℕ × ℕ)} {slots : List (ℕ × Expr)} {regions : List (List (ℤ × ℤ))}
  {shape : List ℤ} {order : List CutAxis} {mapping : List (Symbol × Expr)}
  (decomposed : Decomposed sympy fusedSymbol fusedSplit fusedSlotExpr ownership driven numCores
    extent splits slots regions)
  (matched : Matched sympy fusedSplit fusedSlotExpr driven regions splits slots shape order mapping)

include matched in
theorem Matched.mapping_eq :
    capacity (named order) ∣ fusedSplit ∧ mapping = sliceFormulas 1 (named order) := by
  have zipped : (order.map fun axis => synthetic axis.axis).zip (order.map CutAxis.factor) =
      named order := List.zip_map'
  obtain ⟨divides, rfl⟩ := coreToSliceMapping_eq_ok matched.sliced
  rw [zipped]
  refine ⟨?_, rfl⟩
  rwa [capacity, named, List.map_map]

include decomposed in
theorem Decomposed.width_pos : 0 < extent / fusedSplit :=
  Nat.div_pos (Nat.le_of_dvd decomposed.positive decomposed.divides)
    (Nat.zero_lt_of_lt decomposed.large)

include decomposed in
theorem Decomposed.region {slot : ℕ} (inside : slot < fusedSplit) :
    ∃ bounds, regions[slot]? = some bounds ∧ driven.length = bounds.length ∧
      Region (driven.map fun axis =>
          sympy.auto (axis.coordinate.replaceSymbol fusedSymbol (.sym loopPoint)))
        (driven.map DrivenAxis.size) (slot * (extent / fusedSplit))
        ((slot + 1) * (extent / fusedSplit)) bounds ∧
      Fills (driven.map fun axis =>
          sympy.auto (axis.coordinate.replaceSymbol fusedSymbol (.sym loopPoint)))
        (slot * (extent / fusedSplit)) (slot * (extent / fusedSplit) + extent / fusedSplit)
        bounds := by
  have sameLength : (driven.map fun axis =>
      sympy.auto (axis.coordinate.replaceSymbol fusedSymbol (.sym loopPoint))).length =
        (driven.map DrivenAxis.size).length := by
    rw [List.length_map, List.length_map]
  obtain ⟨length, regionAt⟩ :=
    loopRegions_regions sameLength decomposed.width_pos decomposed.found
  have present : slot < regions.length := length ▸ inside
  have found : regions[slot]? = some regions[slot] := List.getElem?_eq_getElem present
  have region := regionAt slot _ found
  refine ⟨_, found, ?_, region,
    loopRegions_fill sameLength decomposed.width_pos decomposed.found found⟩
  rw [← region.contains.length_eq, List.length_map]

include decomposed in
theorem Decomposed.ordered {coordinates : List Expr} {deviceExtents : List ℕ} {slot : ℕ}
    {bounds : List (ℤ × ℤ)} (region : Region coordinates deviceExtents
      (slot * (extent / fusedSplit)) ((slot + 1) * (extent / fusedSplit)) bounds) :
    ∀ bound ∈ bounds, 0 ≤ bound.1 ∧ bound.1 ≤ bound.2 := by
  intro bound listed
  have inhabited := decomposed.width_pos
  obtain ⟨tuple, -, covers⟩ := region.exists_tuple le_rfl (by rw [Nat.succ_mul]; omega)
  obtain ⟨entry, -, between⟩ := exists_right_of_forall₂ covers listed
  obtain ⟨size, -, nonnegative, -⟩ := exists_right_of_forall₂ region.onAxis listed
  exact ⟨nonnegative, between.1.trans between.2⟩

variable (distinct : (driven.map DrivenAxis.axis).Nodup)

include decomposed matched in
theorem shape_length : driven.length = shape.length := by
  obtain ⟨bounds, found, sameLength, -, -⟩ :=
    decomposed.region (Nat.zero_lt_of_lt decomposed.large)
  rw [← matched.shapes bounds (List.mem_of_getElem? found), shapeOf, List.length_map, sameLength]

include decomposed matched distinct in
theorem cut_distinct : ((cutAxes driven shape).map fun axis => synthetic axis.axis).Nodup := by
  have axes : (cutAxes driven shape).map (fun axis => synthetic axis.axis) =
      (driven.map DrivenAxis.axis).map synthetic := by
    conv_rhs => rw [← map_cutAxes (shape_length decomposed matched)]
    rw [List.map_map, List.map_map]
    rfl
  rw [axes]
  exact distinct.map synthetic_injective

include decomposed matched distinct in
theorem cut_eq_of_name {first second : CutAxis} (isFirst : first ∈ cutAxes driven shape)
    (isSecond : second ∈ cutAxes driven shape)
    (same : synthetic first.axis = synthetic second.axis) : first = second :=
  List.inj_on_of_nodup_map (cut_distinct decomposed matched distinct) isFirst isSecond same

include decomposed matched distinct in
/-- The owner row of a partition has the slot of each axis, inside its factor. -/
theorem row_slot {slot : ℕ} {bounds : List (ℤ × ℤ)} (found : regions[slot]? = some bounds)
    {axis : CutAxis} {bound : ℤ × ℤ} (paired : (axis, bound) ∈ (cutAxes driven shape).zip bounds) :
    bound.1.toNat / axis.width < axis.factor ∧ ∃ formula,
      mapping.lookup (synthetic axis.axis) = some formula ∧
      formula.eval (fun _ => slot) = (bound.1.toNat / axis.width : ℕ) := by
  obtain ⟨-, -, rowAt⟩ := ownerSlots_rows matched.owned
  have row := rowAt slot (expectedRow (cutAxes driven shape) bounds) (by
    rw [List.getElem?_map, found, Option.map_some])
  have listed : (synthetic axis.axis, bound.1.toNat / axis.width) ∈
      expectedRow (cutAxes driven shape) bounds := by
    rw [expectedRow, ← List.map_uncurry_zip_eq_zipWith]
    exact List.mem_map.mpr ⟨_, paired, rfl⟩
  obtain ⟨formula, split, isFormula, isSplit, below, evaluated⟩ := row.value _ _ listed
  obtain ⟨other, isOther, same⟩ := List.mem_map.mp isSplit
  rw [Prod.mk.injEq] at same
  obtain rfl := cut_eq_of_name decomposed matched distinct isOther (List.of_mem_zip paired).1 same.1
  exact ⟨same.2 ▸ below, formula, isFormula, evaluated⟩

include decomposed matched distinct in
theorem factor_pos {axis : CutAxis} (listed : axis ∈ cutAxes driven shape) : 0 < axis.factor := by
  obtain ⟨bounds, found, sameLength, -, -⟩ :=
    decomposed.region (Nat.zero_lt_of_lt decomposed.large)
  have isShape := matched.shapes bounds (List.mem_of_getElem? found)
  have aligned := cutAxes_forall₂ sameLength
  rw [isShape] at aligned
  obtain ⟨position, inside, rfl⟩ := List.getElem_of_mem listed
  have inBounds : position < bounds.length := aligned.length_eq ▸ inside
  have paired : ((cutAxes driven shape)[position], bounds[position]) ∈
      (cutAxes driven shape).zip bounds := by
    apply List.mem_iff_getElem.mpr
    exact ⟨position, by rw [List.length_zip]; omega, List.getElem_zip⟩
  exact Nat.zero_lt_of_lt (row_slot decomposed matched distinct found paired).1

include decomposed matched distinct in
theorem named_facts : ((named order).map Prod.fst).Nodup ∧ ∀ entry ∈ named order, 0 < entry.2 := by
  constructor
  · rw [named, List.map_map]
    exact (matched.permuted.map _).nodup_iff.mpr (cut_distinct decomposed matched distinct)
  · intro entry listed
    obtain ⟨axis, isAxis, rfl⟩ := List.mem_map.mp listed
    exact factor_pos decomposed matched distinct (matched.permuted.mem_iff.mp isAxis)

include decomposed matched distinct in
/-- A partition lies in one slice of each axis, the digits of its number. -/
theorem bounds_slices {slot : ℕ} {bounds : List (ℤ × ℤ)} (found : regions[slot]? = some bounds)
    (sameLength : driven.length = bounds.length)
    (onAxis : ∀ bound ∈ bounds, 0 ≤ bound.1 ∧ bound.1 ≤ bound.2) :
    List.Forall₂ (fun (axis : CutAxis) (bound : ℤ × ℤ) => 0 < axis.width ∧
      bound.1 = slotAt order axis slot * axis.width ∧
      bound.2 = slotAt order axis slot * axis.width + axis.width - 1)
      (cutAxes driven shape) bounds := by
  have isShape := matched.shapes bounds (List.mem_of_getElem? found)
  have widths := cutAxes_forall₂ sameLength
  rw [isShape] at widths
  refine List.forall₂_iff_zip.mpr ⟨widths.length_eq, ?_⟩
  intro axis bound paired
  obtain ⟨width, -⟩ := (List.forall₂_iff_zip.mp widths).2 paired
  obtain ⟨nonnegative, ordered⟩ := onAxis bound (List.of_mem_zip paired).2
  have isAxis := (List.of_mem_zip paired).1
  obtain ⟨-, formula, isFormula, evaluated⟩ := row_slot decomposed matched distinct found paired
  have isNamed : synthetic axis.axis ∈ (named order).map Prod.fst := by
    rw [named, List.map_map]
    exact List.mem_map.mpr ⟨axis, matched.permuted.mem_iff.mpr isAxis, rfl⟩
  obtain ⟨-, mappingEq⟩ := matched.mapping_eq
  obtain ⟨positions, positive⟩ := named_facts decomposed matched distinct
  obtain ⟨own, isOwn, -, digit⟩ := sliceFormulas_follows positive 1 isNamed
  rw [mappingEq, isOwn] at isFormula
  cases isFormula
  rw [digit, Nat.div_one, Nat.cast_inj] at evaluated
  have divides := matched.aligned bounds (List.mem_of_getElem? found) _ paired
  have start : slotAt order axis slot * axis.width = bound.1.toNat := by
    rw [slotAt, evaluated]
    exact Nat.div_mul_cancel divides
  have startInt : ((slotAt order axis slot : ℕ) : ℤ) * axis.width = bound.1 := by
    rw [← Int.toNat_of_nonneg nonnegative]
    exact_mod_cast start
  refine ⟨by omega, startInt.symm, ?_⟩
  rw [startInt]
  omega

/-- The tuple lies in the partition's slice of each axis. -/
def InSlices (cut order : List CutAxis) (slot : ℕ) (tuple : List ℤ) : Prop :=
  List.Forall₂ (fun (axis : CutAxis) entry => InSlice axis.width (slotAt order axis slot) entry) cut
    tuple

theorem covers_iff_inSlices {cut : List CutAxis} {bounds : List (ℤ × ℤ)} {slot : ℕ}
    (slices : List.Forall₂ (fun (axis : CutAxis) (bound : ℤ × ℤ) => 0 < axis.width ∧
      bound.1 = slotAt order axis slot * axis.width ∧
      bound.2 = slotAt order axis slot * axis.width + axis.width - 1) cut bounds)
    (tuple : List ℤ) : Covers bounds tuple ↔ InSlices cut order slot tuple := by
  induction slices generalizing tuple with
  | nil =>
      constructor
      · rintro ⟨⟩
        exact .nil
      · rintro ⟨⟩
        exact .nil
  | @cons axis bound cut bounds here _ inductionHypothesis =>
      cases tuple with
      | nil => constructor <;> rintro ⟨⟩
      | cons entry tuple =>
          have single : (bound.1 ≤ entry ∧ entry ≤ bound.2) ↔
              InSlice axis.width (slotAt order axis slot) entry := by
            rw [here.2.1, here.2.2, InSlice, add_one_mul]
            omega
          rw [Covers, InSlices, List.forall₂_cons, List.forall₂_cons, single]
          exact and_congr_right fun _ => inductionHypothesis tuple

include decomposed matched distinct in
/-- The points of a partition are those of one slice of each axis, each once. -/
theorem partition_slices {slot : ℕ} (inside : slot < fusedSplit) :
    (∀ tuple, InSlices (cutAxes driven shape) order slot tuple ↔
      ∃ value, slot * (extent / fusedSplit) ≤ value ∧
        value < slot * (extent / fusedSplit) + extent / fusedSplit ∧
        Tuple (driven.map DrivenAxis.coordinate) value tuple) ∧
    Distinct (driven.map DrivenAxis.coordinate) (slot * (extent / fusedSplit))
      (slot * (extent / fusedSplit) + extent / fusedSplit) := by
  obtain ⟨bounds, found, sameLength, region, fills⟩ := decomposed.region inside
  have slices := bounds_slices decomposed matched distinct found sameLength
    (decomposed.ordered region)
  constructor
  · intro tuple
    rw [← covers_iff_inSlices slices, fills.exact]
    simp only [tuple_scratch_iff]
  · intro first second tuple above below aboveToo belowToo isFirst isSecond
    exact fills.distinct first second tuple above below aboveToo belowToo
      (tuple_scratch_iff.mpr isFirst) (tuple_scratch_iff.mpr isSecond)

include decomposed matched in
theorem cut_size {axis : CutAxis} (listed : axis ∈ cutAxes driven shape) :
    axis.width * axis.factor = axis.size := by
  obtain ⟨bounds, found, sameLength, -, -⟩ :=
    decomposed.region (Nat.zero_lt_of_lt decomposed.large)
  have isShape := matched.shapes bounds (List.mem_of_getElem? found)
  have widths := cutAxes_forall₂ sameLength
  rw [isShape] at widths
  obtain ⟨bound, -, -, factor⟩ := exists_right_of_forall₂ widths listed
  rw [factor, Nat.mul_div_cancel' (matched.divides axis listed)]

include decomposed matched distinct in
/-- On the core that owns a partition, the returned slots are the partition's. -/
theorem axisHolds_iff {core slot : ℕ}
    (owns : fusedSlotExpr.eval (fun _ => core) = (slot : ℕ)) {axis : CutAxis}
    (listed : axis ∈ cutAxes driven shape) (entry : ℤ) :
    AxisHolds splits slots core axis.toDrivenAxis entry ↔
      InSlice axis.width (slotAt order axis slot) entry := by
  have axes : ((cutAxes driven shape).map fun axis => axis.axis).Nodup := by
    rw [← map_cutAxes (shape_length decomposed matched), List.map_map] at distinct
    exact distinct
  have positive := factor_pos decomposed matched distinct listed
  have size := cut_size decomposed matched listed
  obtain ⟨namesDistinct, factors⟩ := named_facts decomposed matched distinct
  have isNamed : (synthetic axis.axis, axis.factor) ∈ named order :=
    List.mem_map.mpr ⟨axis, matched.permuted.mem_iff.mpr listed, rfl⟩
  have slotBelow : slotAt order axis slot < axis.factor :=
    digitOf_lt namesDistinct positive isNamed slot
  have splitAt := lookup_filter_map axes (fun axis => decide (1 < axis.factor)) CutAxis.factor listed
  have slotAtAxis := lookup_filter_map axes (fun axis => decide (1 < axis.factor)) (fun axis =>
    sympy.auto (((mapping.lookup (synthetic axis.axis)).getD (.const 0)).replaceSymbol coreId
      fusedSlotExpr)) listed
  rw [AxisHolds, matched.splitsEq, splitDims, splitAt]
  by_cases large : 1 < axis.factor
  · rw [if_pos (decide_eq_true large)] at slotAtAxis ⊢
    obtain ⟨formula, found, -, digit⟩ := sliceFormulas_follows factors 1
      (List.mem_map_of_mem isNamed)
    rw [← matched.mapping_eq.2] at found
    have evaluated : (sympy.auto (((mapping.lookup (synthetic axis.axis)).getD
        (.const 0)).replaceSymbol coreId fusedSlotExpr)).eval (fun _ => core) =
          (slotAt order axis slot : ℕ) := by
      rw [found, Option.getD_some, sympy.auto_eval, Expr.eval_replaceSymbol_of_nat owns, digit,
        Function.update_self, Nat.div_one]
      rfl
    have width : axis.size / axis.factor = axis.width := by
      rw [← size, Nat.mul_div_cancel _ positive]
    rw [matched.slotsEq, physicalSlots, slotAtAxis]
    dsimp only
    rw [width]
    constructor
    · rintro ⟨_, held, same, isHeld, holds⟩
      cases same
      rw [evaluated, Nat.cast_inj] at isHeld
      rwa [isHeld]
    · intro holds
      exact ⟨_, _, rfl, evaluated, holds⟩
  · rw [if_neg (by simpa using large)]
    have single : axis.factor = 1 := by omega
    have zero : slotAt order axis slot = 0 := by omega
    rw [single, Nat.mul_one] at size
    rw [zero, size, InSlice]
    dsimp only
    rw [Nat.cast_zero, zero_mul, zero_add, one_mul]

include decomposed matched distinct in
theorem rectangle_iff {core slot : ℕ}
    (owns : fusedSlotExpr.eval (fun _ => core) = (slot : ℕ)) (tuple : List ℤ) :
    Rectangle driven splits slots core tuple ↔
      InSlices (cutAxes driven shape) order slot tuple := by
  have axes := map_cutAxes (shape_length decomposed matched)
  have holds : ∀ axis ∈ cutAxes driven shape, ∀ entry,
      AxisHolds splits slots core axis.toDrivenAxis entry ↔
        InSlice axis.width (slotAt order axis slot) entry :=
    fun axis listed => axisHolds_iff decomposed matched distinct owns listed
  rw [Rectangle, ← axes, List.forall₂_map_left_iff, InSlices, axes, List.forall₂_iff_zip,
    List.forall₂_iff_zip]
  apply and_congr_right
  intro _
  constructor
  · intro every axis entry paired
    exact (holds axis (List.of_mem_zip paired).1 entry).mp (every paired)
  · intro every axis entry paired
    exact (holds axis (List.of_mem_zip paired).1 entry).mpr (every paired)

/-! ## Partitions apart -/

/-- Partition numbers with the same digits modulo the capacity have the same slices. -/
theorem inSlices_mod_capacity {cut order : List CutAxis} {slot : ℕ} {tuple : List ℤ} :
    InSlices cut order (slot % capacity (named order)) tuple ↔ InSlices cut order slot tuple := by
  simp only [InSlices, slotAt, digitOf_mod_capacity]

include decomposed matched distinct in
/-- When the axes have as many slices as there are partitions, no two partitions share a point. -/
theorem slot_unique (full : capacity (named order) = fusedSplit) {first second : ℕ}
    (firstInside : first < fusedSplit) (secondInside : second < fusedSplit) {tuple : List ℤ}
    (inFirst : InSlices (cutAxes driven shape) order first tuple)
    (inSecond : InSlices (cutAxes driven shape) order second tuple) : first = second := by
  obtain ⟨namesDistinct, factors⟩ := named_facts decomposed matched distinct
  have agree : ∀ entry ∈ named order,
      digitOf (named order) entry.1 first = digitOf (named order) entry.1 second := by
    intro entry listed
    obtain ⟨axis, isAxis, rfl⟩ := List.mem_map.mp listed
    obtain ⟨position, inside, rfl⟩ := List.getElem_of_mem (matched.permuted.mem_iff.mp isAxis)
    obtain ⟨sameLength, firstAt⟩ := List.forall₂_iff_get.mp inFirst
    obtain ⟨-, secondAt⟩ := List.forall₂_iff_get.mp inSecond
    have inTuple : position < tuple.length := sameLength ▸ inside
    exact_mod_cast (firstAt position inside inTuple).unique (secondAt position inside inTuple)
  have below : ∀ entry ∈ named order, digitOf (named order) entry.1 second < entry.2 := by
    intro entry listed
    exact digitOf_lt namesDistinct (factors entry listed) listed second
  obtain ⟨only, -, unique⟩ := existsUnique_digits namesDistinct
    (fun key => digitOf (named order) key second) below
  rw [unique first ⟨full ▸ firstInside, agree⟩]
  exact (unique second ⟨full ▸ secondInside, fun _ _ => rfl⟩).symm

include decomposed in
theorem Decomposed.extent_eq : fusedSplit * (extent / fusedSplit) = extent :=
  Nat.mul_div_cancel' decomposed.divides

include decomposed matched distinct in
/-- The axes have as many slices as there are partitions exactly when they have as many points as
the loop. -/
theorem full_iff :
    capacity (named order) = fusedSplit ↔ (driven.map DrivenAxis.size).prod = extent := by
  obtain ⟨bounds, found, sameLength, region, fills⟩ :=
    decomposed.region (Nat.zero_lt_of_lt decomposed.large)
  have isShape := matched.shapes bounds (List.mem_of_getElem? found)
  have widths : ((cutAxes driven shape).map CutAxis.width).prod = extent / fusedSplit := by
    have slices := bounds_slices decomposed matched distinct found sameLength
      (decomposed.ordered region)
    have sides : (cutAxes driven shape).map (fun axis => (axis.width : ℤ)) =
        bounds.map fun bound => bound.2 - bound.1 + 1 := by
      apply List.forall₂_eq_eq_eq ▸ List.forall₂_map_left_iff.mpr (List.forall₂_map_right_iff.mpr _)
      refine slices.imp ?_
      intro axis bound here
      omega
    have volume := fills.volume
    rw [← sides, Nat.add_sub_cancel_left] at volume
    rw [← Nat.cast_inj (R := ℤ), ← volume, Nat.cast_list_prod, List.map_map]
    rfl
  have factors : ((cutAxes driven shape).map CutAxis.factor).prod = capacity (named order) := by
    rw [capacity, named, List.map_map]
    exact ((matched.permuted.map CutAxis.factor).prod_eq).symm
  have sizes : (driven.map DrivenAxis.size).prod = extent / fusedSplit * capacity (named order) := by
    rw [← widths, ← factors, ← List.prod_map_mul]
    conv_lhs => rw [← map_cutAxes (shape_length decomposed matched), List.map_map]
    congr 1
    apply List.map_congr_left
    intro axis listed
    exact (cut_size decomposed matched listed).symm
  have whole : extent = extent / fusedSplit * fusedSplit := by
    rw [mul_comm, decomposed.extent_eq]
  constructor
  · intro full
    rw [sizes, full, ← whole]
  · intro same
    apply Nat.eq_of_mul_eq_mul_left decomposed.width_pos
    rw [← sizes, same, ← whole]

include decomposed matched distinct in
/-- A loop without a point reached twice has as many points as the axes it drives. -/
theorem full_of_distinct (once : Distinct (driven.map DrivenAxis.coordinate) 0 extent) :
    capacity (named order) = fusedSplit := by
  obtain ⟨-, factors⟩ := named_facts decomposed matched distinct
  have positive := capacity_pos factors
  have width := decomposed.width_pos
  have whole := decomposed.extent_eq
  by_contra short
  have below : capacity (named order) < fusedSplit :=
    lt_of_le_of_ne (Nat.le_of_dvd (Nat.zero_lt_of_lt decomposed.large) matched.mapping_eq.1) short
  obtain ⟨bounds, found, sameLength, region, -⟩ :=
    decomposed.region (Nat.zero_lt_of_lt decomposed.large)
  obtain ⟨tuple, isTuple, -⟩ := region.exists_tuple (Nat.zero_mul _).le (by omega)
  rw [tuple_scratch_iff] at isTuple
  -- The first partition and the one numbered by the capacity are the same slices.
  have here : InSlices (cutAxes driven shape) order 0 tuple :=
    ((partition_slices decomposed matched distinct
      (Nat.zero_lt_of_lt decomposed.large)).1 tuple).mpr
        ⟨0, (Nat.zero_mul _).le, by omega, isTuple⟩
  rw [← Nat.mod_self (capacity (named order)), inSlices_mod_capacity] at here
  obtain ⟨value, above, beyond, again⟩ :=
    ((partition_slices decomposed matched distinct below).1 tuple).mp here
  have inside : capacity (named order) * (extent / fusedSplit) + extent / fusedSplit ≤ extent := by
    calc _ = (capacity (named order) + 1) * (extent / fusedSplit) := (Nat.succ_mul _ _).symm
      _ ≤ fusedSplit * (extent / fusedSplit) := Nat.mul_le_mul_right _ below
      _ = extent := whole
  have same := once 0 value tuple le_rfl decomposed.positive (Nat.zero_le _) (by omega) isTuple again
  have later := Nat.mul_pos positive width
  omega

include decomposed matched distinct in
/-- When no two partitions share a point, no point of the loop is reached twice. -/
theorem distinct_of_full (full : capacity (named order) = fusedSplit) :
    Distinct (driven.map DrivenAxis.coordinate) 0 extent := by
  have width := decomposed.width_pos
  have partitionOf : ∀ value < extent, value / (extent / fusedSplit) < fusedSplit := by
    intro value inside
    apply Nat.div_lt_of_lt_mul
    rwa [mul_comm, decomposed.extent_eq]
  have within : ∀ value, value / (extent / fusedSplit) * (extent / fusedSplit) ≤ value ∧
      value < value / (extent / fusedSplit) * (extent / fusedSplit) + extent / fusedSplit := by
    intro value
    exact ⟨Nat.div_mul_le_self _ _, Nat.lt_div_mul_add width⟩
  intro first second tuple _ firstInside _ secondInside isFirst isSecond
  have firstSlices := partition_slices decomposed matched distinct (partitionOf first firstInside)
  have secondSlices := partition_slices decomposed matched distinct (partitionOf second secondInside)
  have samePartition : first / (extent / fusedSplit) = second / (extent / fusedSplit) :=
    slot_unique decomposed matched distinct full (partitionOf first firstInside)
      (partitionOf second secondInside)
      ((firstSlices.1 tuple).mpr ⟨first, (within first).1, (within first).2, isFirst⟩)
      ((secondSlices.1 tuple).mpr ⟨second, (within second).1, (within second).2, isSecond⟩)
  apply firstSlices.2 first second tuple (within first).1 (within first).2 _ _ isFirst isSecond
  · rw [samePartition]
    exact (within second).1
  · rw [samePartition]
    exact (within second).2

end Slices

/-! ## Soundness -/

/-- Each core has exactly the points of its partition, a point is reached by one loop value only,
and different partitions have different points. -/
structure SoundDecomposition (fusedSplit : ℕ) (fusedSlotExpr : Expr) (driven : List DrivenAxis)
    (numCores extent : ℕ) (splits : List (ℕ × ℕ)) (slots : List (ℕ × Expr)) : Prop where
  exact : ∀ core < numCores, ∃ slot < fusedSplit, fusedSlotExpr.eval (fun _ => core) = (slot : ℕ) ∧
    ∀ tuple, Rectangle driven splits slots core tuple ↔
      ∃ value, slot * (extent / fusedSplit) ≤ value ∧
        value < slot * (extent / fusedSplit) + extent / fusedSplit ∧
        Tuple (driven.map DrivenAxis.coordinate) value tuple
  once : Distinct (driven.map DrivenAxis.coordinate) 0 extent
  disjoint : ∀ first < numCores, ∀ second < numCores,
    fusedSlotExpr.eval (fun _ => first) ≠ fusedSlotExpr.eval (fun _ => second) →
    ∀ tuple, ¬(Rectangle driven splits slots first tuple ∧ Rectangle driven splits slots second tuple)

/-- A decomposition is sound exactly when the driven axes have as many points as the loop. -/
theorem decomposeFusedSplitView_sound_iff {sympy : Sympy} {fusedSymbol : Symbol} {fusedSplit : ℕ}
    {fusedSlotExpr : Expr} {ownership : TensorWorkDivision} {loopExtents : IterationSpace}
    {deviceSize : List ℕ} {deviceCoordinates : List Expr} {numCores : ℕ}
    {splits : List (ℕ × ℕ)} {slots : List (ℕ × Expr)}
    (returned : decomposeFusedSplitView sympy fusedSymbol fusedSplit fusedSlotExpr ownership
      loopExtents deviceSize deviceCoordinates numCores = .ok (splits, slots)) :
    ∃ extent, loopExtents.extent fusedSymbol = some extent ∧
      (SoundDecomposition fusedSplit fusedSlotExpr
          (drivenAxes fusedSymbol deviceSize deviceCoordinates) numCores extent splits slots ↔
        ((drivenAxes fusedSymbol deviceSize deviceCoordinates).map DrivenAxis.size).prod =
          extent) := by
  obtain ⟨extent, regions, concrete, isDecomposed⟩ := decomposed returned
  obtain ⟨shape, order, mapping, isMatched⟩ := matched isDecomposed.returned
  have axes := drivenAxes_distinct fusedSymbol deviceSize deviceCoordinates
  refine ⟨extent, concrete, ?_⟩
  rw [← full_iff isDecomposed isMatched axes]
  constructor
  · intro sound
    exact full_of_distinct isDecomposed isMatched axes sound.once
  · intro full
    refine ⟨?_, distinct_of_full isDecomposed isMatched axes full, ?_⟩
    · intro core inside
      obtain ⟨slot, below, owns⟩ :=
        ownerIsCanonical_bound isDecomposed.large isDecomposed.owner inside
      refine ⟨slot, below, owns, ?_⟩
      intro tuple
      rw [rectangle_iff isDecomposed isMatched axes owns]
      exact (partition_slices isDecomposed isMatched axes below).1 tuple
    · rintro first firstInside second secondInside different tuple ⟨inFirst, inSecond⟩
      obtain ⟨slot, below, owns⟩ :=
        ownerIsCanonical_bound isDecomposed.large isDecomposed.owner firstInside
      obtain ⟨other, otherBelow, otherOwns⟩ :=
        ownerIsCanonical_bound isDecomposed.large isDecomposed.owner secondInside
      rw [rectangle_iff isDecomposed isMatched axes owns] at inFirst
      rw [rectangle_iff isDecomposed isMatched axes otherOwns] at inSecond
      apply different
      rw [owns, otherOwns, slot_unique isDecomposed isMatched axes full below otherBelow inFirst
        inSecond]

/-- A loop of 8 points on 4 points of the device: the third partition has the points of the first
one, and both are given the same rectangle. -/
theorem repeated_unsound :
    let coordinates : List Expr :=
      [.floor (.mul (.const (1 / 2)) (.mod (.sym "x") 4)), .mod (.sym "x") 2]
    let splits : List (ℕ × ℕ) := [(0, 2)]
    let slots : List (ℕ × Expr) := [(0, .mod (.sym coreId) 2)]
    decomposeFusedSplitView affineSympy "x" 4 (.sym coreId)
        ⟨[("x", 4)], [("x", .sym coreId)], some 4⟩ [("x", .const 8)] [2, 2] coordinates 4 =
      .ok (splits, slots) ∧
    Rectangle (drivenAxes "x" [2, 2] coordinates) splits slots 0 [0, 0] ∧
    Rectangle (drivenAxes "x" [2, 2] coordinates) splits slots 2 [0, 0] ∧
    ¬SoundDecomposition 4 (.sym coreId) (drivenAxes "x" [2, 2] coordinates) 4 8 splits slots := by
  intro coordinates splits slots
  have axes : drivenAxes "x" [2, 2] coordinates =
      [⟨0, 2, .floor (.mul (.const (1 / 2)) (.mod (.sym "x") 4))⟩, ⟨1, 2, .mod (.sym "x") 2⟩] := by
    decide +kernel
  have holds : ∀ core : ℕ, core % 2 = 0 →
      Rectangle (drivenAxes "x" [2, 2] coordinates) splits slots core [0, 0] := by
    intro core even
    have slot : (Expr.mod (.sym coreId) 2).eval (fun _ => core) = (0 : ℕ) := by
      rw [Expr.eval_mod_of_nat 2 (show (Expr.sym coreId).eval (fun _ => core) = core from rfl)]
      exact_mod_cast even
    rw [axes]
    refine .cons ?_ (.cons ?_ .nil)
    · exact ⟨_, 0, rfl, slot, by decide⟩
    · exact ⟨le_rfl, by decide⟩
  refine ⟨by decide +kernel, holds 0 rfl, holds 2 rfl, ?_⟩
  intro sound
  apply sound.disjoint 0 (by decide) 2 (by decide) _ [0, 0] ⟨holds 0 rfl, holds 2 rfl⟩
  simp [Expr.eval]

theorem halved_sound_iff :
    decomposeFusedSplitView affineSympy "x" 4 (.sym coreId)
        ⟨[("x", 4)], [("x", .sym coreId)], some 4⟩ [("x", .const 8)] [4, 2]
        [.floor (.mul (.const (1 / 2)) (.sym "x")), .mod (.sym "x") 2] 4 =
      .ok ([(0, 4)], [(0, .mod (.sym coreId) 4)]) ∧
    ∃ extent, IterationSpace.extent [("x", .const 8)] "x" = some extent ∧
      (SoundDecomposition 4 (.sym coreId) (drivenAxes "x" [4, 2]
          [.floor (.mul (.const (1 / 2)) (.sym "x")), .mod (.sym "x") 2]) 4 extent [(0, 4)]
          [(0, .mod (.sym coreId) 4)] ↔
        ((drivenAxes "x" [4, 2] [.floor (.mul (.const (1 / 2)) (.sym "x")),
          .mod (.sym "x") 2]).map DrivenAxis.size).prod = extent) := by
  have returned : decomposeFusedSplitView affineSympy "x" 4 (.sym coreId)
      ⟨[("x", 4)], [("x", .sym coreId)], some 4⟩ [("x", .const 8)] [4, 2]
      [.floor (.mul (.const (1 / 2)) (.sym "x")), .mod (.sym "x") 2] 4 =
        .ok ([(0, 4)], [(0, .mod (.sym coreId) 4)]) := by
    decide +kernel
  exact ⟨returned, decomposeFusedSplitView_sound_iff returned⟩

end TorchSpyre.Ownership
