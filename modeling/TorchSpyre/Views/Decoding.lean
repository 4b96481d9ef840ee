import Mathlib
import TorchSpyre.Views.Radix

/-!
# When the coordinates decode the index

The address of the coordinates is the sum of what the offset and each variable
contribute.  A term contributes itself exactly when the largest stride not above
its step divides the step; everything else is dropped without an error.
-/

namespace TorchSpyre.Views

/-- `sum over dims of coordinate * stride` -/
def address (dims : List Dim) (coordinates : List Coordinate) (env : String → ℤ) : ℤ :=
  (List.zipWith (fun dim coordinate => Coordinate.eval env coordinate * dim.stride) dims
    coordinates).sum

theorem Coordinate.eval_append (env : String → ℤ) (first second : Coordinate) :
    Coordinate.eval env (first ++ second) = Coordinate.eval env first + Coordinate.eval env second := by
  simp [Coordinate.eval]

theorem address_spread {dims : List Dim} {coordinates : List Coordinate}
    (sameLength : coordinates.length = dims.length) (extra : Dim → Coordinate)
    (env : String → ℤ) :
    address dims (List.zipWith (fun dim coordinate => coordinate ++ extra dim) dims coordinates) env =
      address dims coordinates env +
        (dims.map fun dim => Coordinate.eval env (extra dim) * dim.stride).sum := by
  unfold address
  induction dims generalizing coordinates with
  | nil => simp
  | cons dim dims inductionHypothesis =>
      cases coordinates with
      | nil => cases sameLength
      | cons coordinate coordinates =>
          have rest := inductionHypothesis (Nat.succ.inj sameLength)
          simp only [List.zipWith_cons_cons, List.sum_cons, List.map_cons, Coordinate.eval_append,
            rest]
          ring

theorem address_modify {dims : List Dim} {coordinates : List Coordinate} {position : ℕ} {dim : Dim}
    (sameLength : coordinates.length = dims.length) (located : dims[position]? = some dim)
    (summand : Summand) (env : String → ℤ) :
    address dims (coordinates.modify position fun coordinate => coordinate ++ [summand]) env =
      address dims coordinates env + summand.eval env * dim.stride := by
  unfold address
  induction dims generalizing coordinates position with
  | nil => cases located
  | cons first dims inductionHypothesis =>
      cases coordinates with
      | nil => cases sameLength
      | cons coordinate coordinates =>
          cases position with
          | zero =>
              cases located
              simp only [List.modify_zero_cons, List.zipWith_cons_cons, List.sum_cons,
                Coordinate.eval_append]
              simp only [Coordinate.eval, List.map_cons, List.map_nil, List.sum_cons, List.sum_nil]
              ring
          | succ position =>
              have rest := @inductionHypothesis coordinates position (Nat.succ.inj sameLength)
                (by simpa using located)
              simp only [List.modify_succ_cons, List.zipWith_cons_cons, List.sum_cons, rest]
              ring

theorem addTerm_spec {dims : List Dim} {source : Source} {step : ℤ} {limit : Option ℤ}
    {coordinates next : List Coordinate} (sameLength : coordinates.length = dims.length)
    (added : addTerm dims source step limit coordinates = .ok next) :
    next.length = dims.length ∧ ∀ env, address dims next env =
      address dims coordinates env + contribution dims step limit (source.eval env * step) := by
  have spreadLength : (List.zipWith (fun dim coordinate =>
      coordinate ++ spill dims source step limit dim) dims coordinates).length = dims.length := by
    simp [sameLength]
  have spillWorth : ∀ env, (dims.map fun dim =>
      Coordinate.eval env (spill dims source step limit dim) * dim.stride) =
      dims.map fun dim =>
        if dim.size ≠ 1 ∧ dim.stride > step ∧ less (some dim.stride) limit then
          worth dims limit (source.eval env * step) dim
        else 0 := by
    intro env
    apply List.map_congr_left
    intro dim _
    unfold spill
    by_cases trivial_ : dim.size = 1
    · simp [trivial_, Coordinate.eval]
    · by_cases intersects : dim.stride > step ∧ less (some dim.stride) limit = true
      · rw [if_neg trivial_, if_pos intersects, if_pos ⟨trivial_, intersects⟩]
        simp only [Coordinate.eval, List.map_cons, List.map_nil, List.sum_cons, List.sum_nil,
          add_zero]
        rfl
      · rw [if_neg trivial_, if_neg intersects, if_neg fun both => intersects both.2]
        simp [Coordinate.eval]
  unfold addTerm at added
  split_ifs at added
  simp only at added
  unfold contribution
  split at added
  next stride noPrimary =>
    cases added
    refine ⟨spreadLength, fun env => ?_⟩
    rw [address_spread sameLength, spillWorth, noPrimary]
    simp
  next stride position isPrimary =>
    split at added
    next missing =>
      cases added
      refine ⟨spreadLength, fun env => ?_⟩
      rw [address_spread sameLength, spillWorth, isPrimary]
      simp [missing]
    next dim located =>
      cases added
      refine ⟨by rw [List.length_modify, spreadLength], fun env => ?_⟩
      rw [address_modify spreadLength located, address_spread sameLength, spillWorth, isPrimary]
      simp only [Option.bind_some, located]
      rw [add_assoc]
      rfl

/-! ## Aligned steps -/

/-- The largest stride not above the step divides it. -/
def StepAligned (dims : List Dim) (step : ℤ) : Prop :=
  ∃ dim ∈ dims, dim.size > 1 ∧ dim.stride ≤ step ∧ dim.stride ∣ step ∧
    ∀ other ∈ dims, other.size > 1 → other.stride ≤ step → other.stride ≤ dim.stride

/-- The smallest stride divides the offset. -/
def OffsetAligned (dims : List Dim) (offset : ℤ) : Prop :=
  offset = 0 ∨ ∃ dim ∈ dims, dim.size > 1 ∧ dim.stride ∣ offset ∧
    ∀ other ∈ dims, other.size > 1 → dim.stride ≤ other.stride

section Aligned

variable {dims sorted : List Dim} (order : RadixOrder dims sorted) {step value : ℤ}
variable {limit : Option ℤ}

include order

theorem RadixOrder.primary_cases (step : ℤ) :
    (∃ dim ∈ sorted, dim.stride ≤ step ∧
      ∀ other ∈ sorted, other.stride ≤ step → other.stride ≤ dim.stride) ∨
    ∀ dim ∈ sorted, step < dim.stride := by
  obtain ⟨-, upper, noPrimary, isPrimary⟩ := findPrimary_spec dims step
  have bound : ∀ other ∈ sorted, other.stride ≤ step → other.stride ≤ (findPrimary dims step).1 := by
    intro other inside
    have proper := (order.mem_iff.mp inside).2
    exact upper other (order.mem_iff.mp inside).1 (by omega)
  cases position : (findPrimary dims step).2 with
  | none =>
      refine .inr fun dim inside => ?_
      by_contra notAbove
      have := bound dim inside (not_lt.mp notAbove)
      have := order.positive dim inside
      have := noPrimary position
      omega
  | some position' =>
      obtain ⟨dim, located, proper, -, below, isStride⟩ := isPrimary position' position
      have := dim.sizePos
      refine .inl ⟨dim, order.mem_iff.mpr ⟨List.mem_of_getElem? located, by omega⟩, below, ?_⟩
      exact isStride ▸ bound

theorem RadixOrder.contribution_bounds (nonneg : 0 ≤ value) :
    0 ≤ contribution dims step limit value ∧ contribution dims step limit value ≤ value := by
  have remainder : ∀ dim ∈ sorted, 0 ≤ value % dim.stride ∧ value % dim.stride ≤ value := by
    intro dim inside
    have positive := order.positive dim inside
    have quotient := mul_nonneg (le_of_lt positive) (Int.ediv_nonneg nonneg (le_of_lt positive))
    have division := Int.mul_ediv_add_emod value dim.stride
    exact ⟨Int.emod_nonneg _ (by omega), by omega⟩
  rcases order.primary_cases step with ⟨dim, inside, below, largest⟩ | above
  · rw [order.contribution_primary inside below largest]
    have := remainder dim inside
    omega
  · rw [order.contribution_none above]
    cases sorted with
    | nil => exact ⟨le_refl _, nonneg⟩
    | cons lowest rest =>
        have := remainder lowest List.mem_cons_self
        rw [downTo]
        split_ifs <;> omega

theorem RadixOrder.contribution_zero : contribution dims step limit 0 = 0 := by
  have bounds : 0 ≤ contribution dims step limit 0 ∧ contribution dims step limit 0 ≤ 0 :=
    order.contribution_bounds (le_refl 0)
  omega

theorem RadixOrder.contribution_of_aligned (aligned : StepAligned dims step)
    (multiple : step ∣ value) : contribution dims step limit value = value := by
  obtain ⟨dim, inside, proper, below, divides, largest⟩ := aligned
  rw [order.contribution_primary (order.mem_iff.mpr ⟨inside, proper⟩) below]
  · rw [Int.emod_eq_zero_of_dvd (dvd_trans divides multiple), sub_zero]
  · intro other otherIn
    obtain ⟨otherInside, otherProper⟩ := order.mem_iff.mp otherIn
    exact largest other otherInside otherProper

theorem RadixOrder.aligned_of_contribution (positive : 0 < step)
    (exact_ : contribution dims step limit step = step) : StepAligned dims step := by
  rcases order.primary_cases step with ⟨dim, inside, below, largest⟩ | above
  · rw [order.contribution_primary inside below largest] at exact_
    obtain ⟨dimIn, proper⟩ := order.mem_iff.mp inside
    refine ⟨dim, dimIn, proper, below, Int.dvd_of_emod_eq_zero (by omega), ?_⟩
    intro other otherIn otherProper
    exact largest other (order.mem_iff.mpr ⟨otherIn, otherProper⟩)
  · -- A step below every stride is its own remainder, so nothing is left of it.
    rw [order.contribution_none above] at exact_
    cases sorted with
    | nil =>
        rw [downTo] at exact_
        omega
    | cons lowest rest =>
        have below := above lowest List.mem_cons_self
        have remainder : step % lowest.stride = step := Int.emod_eq_of_lt (le_of_lt positive) below
        rw [downTo] at exact_
        split_ifs at exact_ <;> omega

end Aligned

/-! ## The offset -/

def strideAt (dims : List Dim) (position : ℕ) : ℤ := (dims[position]?.map Dim.stride).getD 0

theorem peelOffset_spec {dims : List Dim} {entries : List (Dim × ℕ)} (remaining : ℤ)
    (located : ∀ entry ∈ entries, dims[entry.2]? = some entry.1) :
    remaining = ((peelOffset remaining entries).1.map fun digit =>
      digit.2 * strideAt dims digit.1).sum + (peelOffset remaining entries).2 ∧
    ∀ digit ∈ (peelOffset remaining entries).1, ∃ entry ∈ entries, entry.2 = digit.1 := by
  induction entries generalizing remaining with
  | nil => simp [peelOffset]
  | cons entry rest inductionHypothesis =>
      obtain ⟨dim, position⟩ := entry
      have restLocated : ∀ entry ∈ rest, dims[entry.2]? = some entry.1 :=
        fun entry inside => located entry (List.mem_cons_of_mem _ inside)
      simp only [peelOffset]
      split_ifs with small
      · obtain ⟨total, positions⟩ := inductionHypothesis remaining restLocated
        refine ⟨total, fun digit inside => ?_⟩
        obtain ⟨entry, inRest, same⟩ := positions digit inside
        exact ⟨entry, List.mem_cons_of_mem _ inRest, same⟩
      · obtain ⟨total, positions⟩ :=
          inductionHypothesis (remaining - remaining / dim.stride * dim.stride) restLocated
        have here : strideAt dims position = dim.stride := by
          have := located (dim, position) List.mem_cons_self
          simp only at this
          rw [strideAt, this]
          rfl
        refine ⟨?_, ?_⟩
        · rw [List.map_cons, List.sum_cons]
          simp only [here]
          omega
        · intro digit inside
          rcases List.mem_cons.mp inside with rfl | inRest
          · exact ⟨(dim, position), List.mem_cons_self, rfl⟩
          · obtain ⟨entry, entryIn, same⟩ := positions digit inRest
            exact ⟨entry, List.mem_cons_of_mem _ entryIn, same⟩

theorem address_digits {dims : List Dim} {coordinates : List Coordinate} {digits : List (ℕ × ℤ)}
    (sameLength : coordinates.length = dims.length)
    (located : ∀ digit ∈ digits, ∃ dim, dims[digit.1]? = some dim) (env : String → ℤ) :
    (digits.foldl (fun coordinates (position, digit) =>
        coordinates.modify position fun coordinate => coordinate ++ [⟨.constant digit, 1, none, 1⟩])
      coordinates).length = dims.length ∧
    address dims (digits.foldl (fun coordinates (position, digit) =>
        coordinates.modify position fun coordinate => coordinate ++ [⟨.constant digit, 1, none, 1⟩])
      coordinates) env =
      address dims coordinates env +
        (digits.map fun digit => digit.2 * strideAt dims digit.1).sum := by
  induction digits generalizing coordinates with
  | nil => simp [sameLength]
  | cons head tail inductionHypothesis =>
      obtain ⟨position, digit⟩ := head
      obtain ⟨dim, isDim⟩ := located (position, digit) List.mem_cons_self
      obtain ⟨length, total⟩ := @inductionHypothesis
        (coordinates.modify position fun coordinate => coordinate ++ [⟨.constant digit, 1, none, 1⟩])
        (by rw [List.length_modify, sameLength])
        (fun other inside => located other (List.mem_cons_of_mem _ inside))
      rw [List.foldl_cons]
      refine ⟨length, ?_⟩
      rw [total, address_modify sameLength isDim]
      have here : strideAt dims position = dim.stride := by
        simp only at isDim
        rw [strideAt, isDim]
        rfl
      simp only [List.map_cons, List.sum_cons, here, Summand.eval, reduce, Source.eval, mul_one,
        Int.ediv_one]
      ring

section Offset

variable {dims sorted : List Dim} (order : RadixOrder dims sorted)

include order

/-- The head of the order has the smallest stride. -/
theorem RadixOrder.lowest_dvd {lowest : Dim} {rest : List Dim} (split : sorted = lowest :: rest)
    {dim : Dim} (inside : dim ∈ sorted) : lowest.stride ≤ dim.stride ∧ lowest.stride ∣ dim.stride := by
  subst split
  rcases List.mem_cons.mp inside with rfl | inRest
  · exact ⟨le_refl _, dvd_refl _⟩
  · have above := (List.pairwise_cons.mp order.pairwise).1 dim inRest
    exact ⟨le_of_lt above.1, above.2⟩

theorem RadixOrder.offsetAligned_of_lowest {lowest : Dim} {rest : List Dim} {offset : ℤ}
    (split : sorted = lowest :: rest) (divides : lowest.stride ∣ offset) :
    OffsetAligned dims offset := by
  have lowestIn : lowest ∈ sorted := by
    rw [split]
    exact List.mem_cons_self
  obtain ⟨inside, proper⟩ := order.mem_iff.mp lowestIn
  refine .inr ⟨lowest, inside, proper, divides, fun other otherIn otherProper => ?_⟩
  exact (order.lowest_dvd split (order.mem_iff.mpr ⟨otherIn, otherProper⟩)).1

/-- A peeled offset is a multiple of the smallest stride. -/
theorem RadixOrder.offsetAligned_of_peeled {offset : ℤ} (positive : 0 < offset)
    {digits : List (ℕ × ℤ)}
    (located : ∀ digit ∈ digits, ∃ dim ∈ sorted, strideAt dims digit.1 = dim.stride)
    (total : offset = (digits.map fun digit => digit.2 * strideAt dims digit.1).sum) :
    OffsetAligned dims offset := by
  cases split : sorted with
  | nil =>
      cases digits with
      | nil =>
          rw [List.map_nil, List.sum_nil] at total
          omega
      | cons digit rest =>
          obtain ⟨dim, inside, -⟩ := located digit List.mem_cons_self
          rw [split] at inside
          cases inside
  | cons lowest rest =>
      apply order.offsetAligned_of_lowest split
      rw [total]
      apply List.dvd_sum
      intro summand isSummand
      obtain ⟨digit, inside, rfl⟩ := List.mem_map.mp isSummand
      obtain ⟨dim, dimIn, isStride⟩ := located digit inside
      rw [isStride]
      exact Dvd.dvd.mul_left (order.lowest_dvd split dimIn).2 _

/-- Spreading the offset like a term of step one is exact for aligned offsets only. -/
theorem RadixOrder.contribution_offset {offset : ℤ} (positive : 0 < offset) :
    contribution dims 1 none offset = offset ↔ OffsetAligned dims offset := by
  have unit {dim : Dim} (inside : dim ∈ sorted) (below : dim.stride ≤ 1) : dim.stride = 1 := by
    have := order.positive dim inside
    omega
  rcases order.primary_cases 1 with ⟨dim, inside, below, largest⟩ | above
  · rw [order.contribution_primary inside below largest, unit inside below]
    obtain ⟨dimIn, proper⟩ := order.mem_iff.mp inside
    have aligned : OffsetAligned dims offset := by
      refine .inr ⟨dim, dimIn, proper, ?_, fun other otherIn otherProper => ?_⟩
      · rw [unit inside below]
        exact one_dvd offset
      · have := order.positive other (order.mem_iff.mpr ⟨otherIn, otherProper⟩)
        rw [unit inside below]
        omega
    exact ⟨fun _ => aligned, fun _ => by rw [Int.emod_one, sub_zero]⟩
  · rw [order.contribution_none above]
    cases split : sorted with
    | nil =>
        rw [downTo]
        refine ⟨fun impossible => by omega, ?_⟩
        rintro (zero | ⟨dim, inside, proper, -⟩)
        · exact zero.symm
        · have := order.mem_iff.mpr ⟨inside, proper⟩
          rw [split] at this
          cases this
    | cons lowest rest =>
        simp only [downTo, less, if_true]
        constructor
        · intro exact_
          exact order.offsetAligned_of_lowest split (Int.dvd_of_emod_eq_zero (by omega))
        · rintro (zero | ⟨dim, inside, proper, divides, smallest⟩)
          · omega
          · have dimIn := order.mem_iff.mpr ⟨inside, proper⟩
            have lowestDvd := (order.lowest_dvd split dimIn).2
            rw [Int.emod_eq_zero_of_dvd (dvd_trans lowestDvd divides), sub_zero]

theorem RadixOrder.addOffset_spec {offset : ℤ} (nonneg : 0 ≤ offset)
    {coordinates next : List Coordinate} (sameLength : coordinates.length = dims.length)
    (added : addOffset dims offset coordinates = .ok next) :
    next.length = dims.length ∧ ∃ total,
      (∀ env, address dims next env = address dims coordinates env + total) ∧
      (total = offset ↔ OffsetAligned dims offset) := by
  unfold addOffset at added
  split_ifs at added with positive
  · split at added
    next peeled handled =>
      cases added
      unfold decomposeConstantOffset at handled
      set entries := (dims.zipIdx.filter fun entry =>
        decide (entry.1.size > 1 ∧ entry.1.stride > 0)).insertionSort
          (fun first second => first.1.stride ≥ second.1.stride)
      simp only at handled
      have entryLocated : ∀ entry ∈ entries, dims[entry.2]? = some entry.1 ∧ entry.1.size > 1 := by
        intro entry inside
        have original := (List.perm_insertionSort _ _).mem_iff.mp inside
        obtain ⟨inZip, proper⟩ := List.mem_filter.mp original
        exact ⟨List.mem_zipIdx_iff_getElem?.mp inZip, (of_decide_eq_true proper).1⟩
      obtain ⟨total, positions⟩ := peelOffset_spec offset
        (fun entry inside => (entryLocated entry inside).1)
      split_ifs at handled with left
      cases handled
      have located : ∀ digit ∈ (peelOffset offset entries).1,
          ∃ dim, dims[digit.1]? = some dim ∧ dim.size > 1 := by
        intro digit inside
        obtain ⟨entry, entryIn, same⟩ := positions digit inside
        exact ⟨entry.1, same ▸ entryLocated entry entryIn⟩
      have digitsExact := fun env => address_digits sameLength
        (fun digit inside => (located digit inside).imp fun _ found => found.1) env
      rw [not_not.mp left, add_zero] at total
      refine ⟨(digitsExact fun _ => 0).1, offset, fun env => ?_, ?_⟩
      · rw [(digitsExact env).2, ← total]
      · refine iff_of_true rfl (order.offsetAligned_of_peeled positive ?_ total)
        intro digit inside
        obtain ⟨dim, isDim, proper⟩ := located digit inside
        refine ⟨dim, order.mem_iff.mpr ⟨List.mem_of_getElem? isDim, proper⟩, ?_⟩
        rw [strideAt, isDim]
        rfl
    next _ =>
      obtain ⟨length, total⟩ := addTerm_spec sameLength added
      refine ⟨length, contribution dims 1 none offset, fun env => ?_,
        order.contribution_offset positive⟩
      rw [total, Source.eval, mul_one]
  · cases added
    have zero : offset = 0 := by omega
    exact ⟨sameLength, 0, fun env => (add_zero _).symm, by simp [zero, OffsetAligned]⟩

end Offset

/-! ## Digits of a repeated variable -/

def digitTotal (dims : List Dim) (addend : Addend) (value : ℤ) : ℤ :=
  contribution dims addend.coeff (some (addend.coeff * addend.digit.radix.2))
    (addend.digit.eval value * addend.coeff)

theorem addDigits_spec {dims : List Dim} {var : String} {digits : List Addend}
    {coordinates next : List Coordinate} (sameLength : coordinates.length = dims.length)
    (added : addDigits dims var digits coordinates = .ok next) :
    next.length = dims.length ∧ ∀ env, address dims next env = address dims coordinates env +
      (digits.map fun addend => digitTotal dims addend (env var)).sum := by
  induction digits generalizing coordinates with
  | nil =>
      cases added
      exact ⟨sameLength, fun env => (add_zero _).symm⟩
  | cons head tail inductionHypothesis =>
      simp only [addDigits] at added
      split at added
      · cases added
      next middle headAdded =>
        obtain ⟨middleLength, headTotal⟩ := addTerm_spec sameLength headAdded
        obtain ⟨length, tailTotal⟩ := inductionHypothesis middleLength added
        refine ⟨length, fun env => ?_⟩
        rw [tailTotal, headTotal, List.map_cons, List.sum_cons, add_assoc]
        rfl

/-- A repeated variable is a sum of `Mod` digits, added one by one. -/
theorem repeatInfo_digits {offset range : ℕ} {part : Part} {info : RepeatInfo}
    (repeats : repeatInfo offset part range = .ok (some info)) :
    ∃ digits, digits.Perm part.addends ∧ (∀ addend ∈ digits, addend.digit.isMod) ∧
      ∀ dims coordinates, addRepeat dims part.var info coordinates =
        addDigits dims part.var digits coordinates := by
  have single : ∀ dims var (addend : Addend) coordinates,
      addDigits dims var [addend] coordinates =
        addTerm dims (.digit var addend.digit) addend.coeff
          (some (addend.coeff * addend.digit.radix.2)) coordinates := by
    intro dims var addend coordinates
    simp only [addDigits]
    split
    · next failed => exact failed.symm
    · next added => exact added.symm
  unfold repeatInfo at repeats
  split at repeats
  · cases repeats
  next node isNode =>
    simp only at repeats
    split_ifs at repeats with large alone unit
    all_goals cases repeats
    all_goals
      obtain ⟨only, isOnly⟩ := List.length_eq_one_iff.mp alone.2
      have inFilter : node ∈ part.addends.filter fun addend => addend.digit.isMod := by
        rw [isNode]
        exact List.mem_cons_self
      obtain ⟨inAddends, isMod⟩ := List.mem_filter.mp inFilter
      rw [isOnly] at inAddends
      have same := List.mem_singleton.mp inAddends
      refine ⟨[node], by rw [isOnly, same], by simpa using isMod, fun dims coordinates => ?_⟩
      rw [single]
    · simp [addRepeat, unit]
    · simp [addRepeat]
  · split at repeats
    · cases repeats
    next digits isDigits =>
      cases repeats
      unfold mixedRadixDigits at isDigits
      simp only at isDigits
      split_ifs at isDigits with allMods
      split at isDigits
      · cases isDigits
      next lowest rest sorted =>
        split_ifs at isDigits
        cases isDigits
        have permuted : (lowest :: rest).Perm
            (part.addends.filter fun addend => addend.digit.isMod) := by
          rw [← sorted]
          exact List.perm_insertionSort _ _
        have whole : (part.addends.filter fun addend => addend.digit.isMod) = part.addends :=
          List.filter_sublist.eq_of_length (not_not.mp allMods).symm
        refine ⟨lowest :: rest, whole ▸ permuted, ?_, fun dims coordinates => by rw [← sorted]; rfl⟩
        intro addend inside
        exact (List.mem_filter.mp (permuted.mem_iff.mp inside)).2

theorem eq_of_sum_map_eq {α : Type*} {list : List α} {lower upper : α → ℤ}
    (below : ∀ element ∈ list, lower element ≤ upper element)
    (same : (list.map lower).sum = (list.map upper).sum) :
    ∀ element ∈ list, lower element = upper element := by
  induction list with
  | nil => simp
  | cons head tail inductionHypothesis =>
      have tailBelow : ∀ element ∈ tail, lower element ≤ upper element :=
        fun element inside => below element (List.mem_cons_of_mem _ inside)
      have headLe := below head List.mem_cons_self
      have tailLe := List.sum_le_sum tailBelow
      rw [List.map_cons, List.map_cons, List.sum_cons, List.sum_cons] at same
      intro element inside
      rcases List.mem_cons.mp inside with rfl | inTail
      · omega
      · exact inductionHypothesis tailBelow (by omega) element inTail

theorem Digit.eval_nonneg (digit : Digit) (reduced : digit.Reduced) {value : ℤ}
    (nonneg : 0 ≤ value) : 0 ≤ digit.eval value := by
  cases digit with
  | loop => exact nonneg
  | floorDiv divisor => exact Int.ediv_nonneg nonneg (Int.natCast_nonneg _)
  | modular divisor modulus =>
      have proper : 2 ≤ modulus := reduced.2
      exact Int.emod_nonneg _ (by omega)

theorem Digit.eval_zero (digit : Digit) : digit.eval 0 = 0 := by
  cases digit <;> simp [Digit.eval]

section Digits

variable {dims sorted : List Dim} (order : RadixOrder dims sorted)

include order

theorem RadixOrder.digitTotal_le (addend : Addend) {value : ℤ} (nonneg : 0 ≤ value) :
    digitTotal dims addend value ≤ addend.coeff * addend.digit.eval value := by
  have digitNonneg := addend.digit.eval_nonneg addend.reduced nonneg
  have bounds : 0 ≤ digitTotal dims addend value ∧
      digitTotal dims addend value ≤ addend.digit.eval value * addend.coeff :=
    order.contribution_bounds (mul_nonneg digitNonneg (Int.natCast_nonneg _))
  rw [mul_comm]
  exact bounds.2

/-- The digits of a repeated variable are decoded exactly when every digit that varies
has an aligned coefficient. -/
theorem RadixOrder.repeat_exact_iff {part : Part} {digits : List Addend} {range : ℕ}
    (permuted : digits.Perm part.addends) (mods : ∀ addend ∈ digits, addend.digit.isMod) :
    (∀ value : ℤ, 0 ≤ value → value < range →
      (digits.map fun addend => digitTotal dims addend value).sum = part.eval value) ↔
    ∀ addend ∈ part.addends,
      range ≤ addend.digit.radix.1 ∨ StepAligned dims addend.coeff := by
  have sumEval : ∀ value, part.eval value =
      (digits.map fun addend => (addend.coeff : ℤ) * addend.digit.eval value).sum := by
    intro value
    exact (permuted.map _).sum_eq.symm
  constructor
  · intro exact_ addend inside
    have inDigits := permuted.mem_iff.mpr inside
    by_cases constant : range ≤ addend.digit.radix.1
    · exact .inl constant
    refine .inr ?_
    have isMod := mods addend inDigits
    have reduced := addend.reduced
    rw [not_le] at constant
    cases isDigit : addend.digit with
    | loop => simp [isDigit, Digit.isMod] at isMod
    | floorDiv _ => simp [isDigit, Digit.isMod] at isMod
    | modular divisor modulus =>
        rw [isDigit] at constant reduced
        have divisorPos : 1 ≤ divisor := reduced.1
        have modulusLarge : 2 ≤ modulus := reduced.2
        -- At the divisor the digit is one, and the term is its step.
        have atDivisor : addend.digit.eval divisor = 1 := by
          rw [isDigit, Digit.eval, Int.ediv_self (by omega), Int.emod_eq_of_lt] <;> omega
        have total := exact_ divisor (Int.natCast_nonneg _) (by exact_mod_cast constant)
        rw [sumEval] at total
        have each := eq_of_sum_map_eq
          (fun other _ => order.digitTotal_le other (Int.natCast_nonneg divisor)) total
          addend inDigits
        simp only [digitTotal, atDivisor, one_mul, mul_one] at each
        have coeffPos := addend.coeffPos
        exact order.aligned_of_contribution (by exact_mod_cast coeffPos) each
  · intro aligned value nonneg below
    rw [sumEval]
    congr 1
    apply List.map_congr_left
    intro addend inDigits
    have product : (addend.coeff : ℤ) * addend.digit.eval value =
        addend.digit.eval value * addend.coeff := mul_comm _ _
    rw [digitTotal, product]
    rcases aligned addend (permuted.mem_iff.mp inDigits) with constant | stepAligned
    · have isMod := mods addend inDigits
      have vanishes : addend.digit.eval value = 0 := by
        cases isDigit : addend.digit with
        | loop => simp [isDigit, Digit.isMod] at isMod
        | floorDiv _ => simp [isDigit, Digit.isMod] at isMod
        | modular divisor modulus =>
            have belowDivisor : value < divisor := by
              rw [isDigit] at constant
              have : range ≤ divisor := constant
              omega
            rw [Digit.eval, Int.ediv_eq_zero_of_lt nonneg belowDivisor, Int.zero_emod]
      rw [vanishes, zero_mul]
      exact order.contribution_zero
    · exact order.contribution_of_aligned stepAligned (Dvd.intro_left _ rfl)

end Digits

/-! ## Linear variables -/

theorem Part.eval_zero (part : Part) : part.eval 0 = 0 := by
  unfold Part.eval
  apply List.sum_eq_zero
  intro summand isSummand
  obtain ⟨addend, -, rfl⟩ := List.mem_map.mp isSummand
  rw [Digit.eval_zero, mul_zero]

theorem Part.eval_nonneg (part : Part) {value : ℤ} (nonneg : 0 ≤ value) : 0 ≤ part.eval value := by
  unfold Part.eval
  apply List.sum_nonneg
  intro summand isSummand
  obtain ⟨addend, -, rfl⟩ := List.mem_map.mp isSummand
  exact mul_nonneg (Int.natCast_nonneg _) (addend.digit.eval_nonneg addend.reduced nonneg)

/-- On the range the part is a multiple of the variable, with an aligned step. -/
structure LinearAligned (dims : List Dim) (part : Part) (range : ℕ) : Prop where
  linear : ∀ value : ℤ, 0 ≤ value → value < range → part.eval value = value * part.eval 1
  aligned : part.eval 1 = 0 ∨ StepAligned dims (part.eval 1)

theorem RadixOrder.linear_exact_iff {dims sorted : List Dim} (order : RadixOrder dims sorted)
    {part : Part} {range : ℕ} (proper : 1 < range) (limit : Option ℤ) :
    (∀ value : ℤ, 0 ≤ value → value < range →
      contribution dims (part.eval 1) limit (value * part.eval 1) = part.eval value) ↔
    LinearAligned dims part range := by
  have exactly (aligned : part.eval 1 = 0 ∨ StepAligned dims (part.eval 1)) (value : ℤ) :
      contribution dims (part.eval 1) limit (value * part.eval 1) = value * part.eval 1 := by
    rcases aligned with zero | stepAligned
    · rw [zero, mul_zero]
      exact order.contribution_zero
    · exact order.contribution_of_aligned stepAligned (Dvd.intro_left _ rfl)
  constructor
  · intro exact_
    have aligned : part.eval 1 = 0 ∨ StepAligned dims (part.eval 1) := by
      have atOne := exact_ 1 (by decide) (by exact_mod_cast proper)
      rw [one_mul] at atOne
      have nonneg := part.eval_nonneg (show (0 : ℤ) ≤ 1 by decide)
      rcases eq_or_lt_of_le nonneg with zero | positive
      · exact .inl zero.symm
      · exact .inr (order.aligned_of_contribution positive atOne)
    refine ⟨fun value nonneg below => ?_, aligned⟩
    rw [← exact_ value nonneg below, exactly aligned]
  · intro linearAligned value nonneg below
    rw [exactly linearAligned.aligned, linearAligned.linear value nonneg below]

/-! ## All variables -/

/-- The condition on one variable: aligned coefficients of its digits if it is a repeat,
else linear with an aligned step. -/
def PartAligned (dims : List Dim) (offset range : ℕ) (part : Part) : Prop :=
  match repeatInfo offset part range with
  | .ok (some _) => ∀ addend ∈ part.addends,
      range ≤ addend.digit.radix.1 ∨ StepAligned dims addend.coeff
  | _ => LinearAligned dims part range

section Parts

variable {dims sorted : List Dim} (order : RadixOrder dims sorted)

include order

theorem RadixOrder.addRanged_spec {offset range : ℕ} {part : Part}
    {coordinates next : List Coordinate} (sameLength : coordinates.length = dims.length)
    (added : addRanged dims true offset range part coordinates = .ok next) :
    next.length = dims.length ∧ ∃ total : ℤ → ℤ, total 0 = 0 ∧
      (∀ env, address dims next env = address dims coordinates env + total (env part.var)) ∧
      ((∀ value : ℤ, 0 ≤ value → value < range → total value = part.eval value) ↔
        (1 < range → PartAligned dims offset range part)) := by
  unfold addRanged at added
  by_cases trivial_ : range ≤ 1
  · rw [if_pos trivial_] at added
    cases added
    refine ⟨sameLength, fun _ => 0, rfl, fun env => (add_zero _).symm, ?_⟩
    refine iff_of_true (fun value nonneg below => ?_) (fun proper => by omega)
    have zero : value = 0 := by omega
    rw [zero, part.eval_zero]
  have proper : 1 < range := not_le.mp trivial_
  rw [if_neg trivial_, if_pos rfl] at added
  unfold PartAligned
  split at added
  · cases added
  next info repeats =>
    obtain ⟨digits, permuted, mods, isDigits⟩ := repeatInfo_digits repeats
    rw [isDigits] at added
    obtain ⟨length, total⟩ := addDigits_spec sameLength added
    refine ⟨length, fun value => (digits.map fun addend => digitTotal dims addend value).sum, ?_,
      total, ?_⟩
    · apply List.sum_eq_zero
      intro summand isSummand
      obtain ⟨addend, -, rfl⟩ := List.mem_map.mp isSummand
      rw [digitTotal, Digit.eval_zero, zero_mul]
      exact order.contribution_zero
    · rw [repeats]
      simp only [proper, true_implies]
      exact order.repeat_exact_iff permuted mods
  next notRepeated =>
    split_ifs at added
    unfold addPart at added
    obtain ⟨length, total⟩ := addTerm_spec sameLength added
    refine ⟨length, fun value => contribution dims (part.eval 1) _ (value * part.eval 1), ?_, total,
      ?_⟩
    · simp only [zero_mul]
      exact order.contribution_zero
    · rw [notRepeated]
      simp only [proper, true_implies]
      exact order.linear_exact_iff proper _

/-- What a variable of the index adds to the address. -/
structure PartTotal where
  part : Part
  range : ℕ
  total : ℤ → ℤ

structure PartTotal.Valid (dims : List Dim) (ranges : List (String × ℕ)) (offset : ℕ)
    (entry : PartTotal) : Prop where
  ranged : lookup ranges entry.part.var = some entry.range
  zero : entry.total 0 = 0
  exact_iff : (∀ value : ℤ, 0 ≤ value → value < entry.range →
      entry.total value = entry.part.eval value) ↔
    (1 < entry.range → PartAligned dims offset entry.range entry.part)

theorem RadixOrder.addVars_spec {ranges : List (String × ℕ)}
    {indirectSizes : Option (List (String × ℕ))} {offset : ℕ} {parts : List Part}
    {coordinates next : List Coordinate} (sameLength : coordinates.length = dims.length)
    (closed : ∀ part ∈ parts, ∃ range, lookup ranges part.var = some range)
    (added : addVars dims ranges indirectSizes offset parts coordinates = .ok next) :
    ∃ totals : List PartTotal, totals.map PartTotal.part = parts ∧
      (∀ entry ∈ totals, entry.Valid dims ranges offset) ∧
      ∀ env, address dims next env = address dims coordinates env +
        (totals.map fun entry => entry.total (env entry.part.var)).sum := by
  induction parts generalizing coordinates with
  | nil =>
      cases added
      exact ⟨[], rfl, by simp, fun env => (add_zero _).symm⟩
  | cons part rest inductionHypothesis =>
      obtain ⟨range, ranged⟩ := closed part List.mem_cons_self
      simp only [addVars, addVar, ranged] at added
      split at added
      · cases added
      next middle partAdded =>
        obtain ⟨middleLength, total, zero, partTotal, exactIff⟩ :=
          order.addRanged_spec sameLength partAdded
        obtain ⟨totals, sameParts, valid, restTotal⟩ := inductionHypothesis middleLength
          (fun other inside => closed other (List.mem_cons_of_mem _ inside)) added
        refine ⟨⟨part, range, total⟩ :: totals, by simp [sameParts], ?_, fun env => ?_⟩
        · intro entry inside
          rcases List.mem_cons.mp inside with rfl | inRest
          · exact ⟨ranged, zero, exactIff⟩
          · exact valid entry inRest
        · rw [restTotal, partTotal, List.map_cons, List.sum_cons, add_assoc]

end Parts

/-- Every loop variable takes a value of its range. -/
def InRange (ranges : List (String × ℕ)) (env : String → ℤ) : Prop :=
  ∀ var range, lookup ranges var = some range → 0 ≤ env var ∧ env var < range

theorem address_empty (dims : List Dim) (env : String → ℤ) :
    address dims (dims.map fun _ => []) env = 0 := by
  unfold address
  induction dims with
  | nil => rfl
  | cons dim dims inductionHypothesis =>
      rw [List.map_cons, List.zipWith_cons_cons, List.sum_cons, inductionHypothesis]
      simp [Coordinate.eval]

/-- Sums over distinct variables agree on all assignments exactly when they agree
variable by variable. -/
theorem sums_agree_iff {ranges : List (String × ℕ)} {totals : List PartTotal} (left right : ℤ)
    (distinct : (totals.map fun entry => entry.part.var).Nodup)
    (ranged : ∀ entry ∈ totals, lookup ranges entry.part.var = some entry.range)
    (zero : ∀ entry ∈ totals, entry.total 0 = 0)
    (inhabited : ∀ var range, lookup ranges var = some range → 0 < range) :
    (∀ env, InRange ranges env →
      left + (totals.map fun entry => entry.total (env entry.part.var)).sum =
        right + (totals.map fun entry => entry.part.eval (env entry.part.var)).sum) ↔
    left = right ∧ ∀ entry ∈ totals, ∀ value : ℤ, 0 ≤ value → value < entry.range →
      entry.total value = entry.part.eval value := by
  constructor
  · intro agree
    -- An assignment that is zero except at one variable isolates that variable.
    have isolate : ∀ entry ∈ totals, ∀ value : ℤ, 0 ≤ value → value < entry.range →
        left + entry.total value = right + entry.part.eval value := by
      intro entry inside value nonneg below
      have inRange : InRange ranges (Function.update (fun _ => 0) entry.part.var value) := by
        intro var range found
        by_cases same : var = entry.part.var
        · subst same
          rw [Function.update_self]
          cases Option.some.inj (found.symm.trans (ranged entry inside))
          exact ⟨nonneg, below⟩
        · rw [Function.update_of_ne same]
          exact ⟨le_refl 0, by exact_mod_cast inhabited var range found⟩
      have total := agree _ inRange
      obtain ⟨before, after, rfl⟩ := List.append_of_mem inside
      have others : ∀ other ∈ before ++ after, other.part.var ≠ entry.part.var := by
        rw [List.map_append, List.map_cons, List.nodup_middle, List.nodup_cons,
          ← List.map_append] at distinct
        intro other otherIn same
        exact distinct.1 (same ▸ List.mem_map_of_mem otherIn)
      have vanish : ∀ weight : PartTotal → ℤ → ℤ,
          (∀ other ∈ before ++ entry :: after, weight other 0 = 0) →
          ((before ++ entry :: after).map fun other => weight other
            (Function.update (fun _ => (0 : ℤ)) entry.part.var value other.part.var)).sum =
          weight entry value := by
        intro weight weightZero
        have sideZero : ∀ side : List PartTotal, side ⊆ before ++ after →
            (side.map fun other => weight other
              (Function.update (fun _ => (0 : ℤ)) entry.part.var value other.part.var)).sum = 0 := by
          intro side included
          apply List.sum_eq_zero
          intro summand isSummand
          obtain ⟨other, otherIn, rfl⟩ := List.mem_map.mp isSummand
          rw [Function.update_of_ne (others other (included otherIn))]
          apply weightZero
          rcases List.mem_append.mp (included otherIn) with isBefore | isAfter
          · exact List.mem_append_left _ isBefore
          · exact List.mem_append_right _ (List.mem_cons_of_mem _ isAfter)
        rw [List.map_append, List.map_cons, List.sum_append, List.sum_cons,
          sideZero before (List.subset_append_left _ _),
          sideZero after (List.subset_append_right _ _), Function.update_self, zero_add, add_zero]
      rw [vanish (fun other => other.total) zero,
        vanish (fun other => other.part.eval) fun other _ => other.part.eval_zero] at total
      exact total
    have origin : InRange ranges fun _ => 0 := fun var range found =>
      ⟨le_refl 0, Int.natCast_pos.mpr (inhabited var range found)⟩
    have atZero := agree (fun _ => 0) origin
    have totalsZero : (totals.map fun entry => entry.total 0).sum = 0 := by
      apply List.sum_eq_zero
      intro summand isSummand
      obtain ⟨entry, inside, rfl⟩ := List.mem_map.mp isSummand
      exact zero entry inside
    have evalsZero : (totals.map fun entry => entry.part.eval 0).sum = 0 := by
      apply List.sum_eq_zero
      intro summand isSummand
      obtain ⟨entry, inside, rfl⟩ := List.mem_map.mp isSummand
      exact entry.part.eval_zero
    rw [totalsZero, evalsZero, add_zero, add_zero] at atZero
    refine ⟨atZero, fun entry inside value nonneg below => ?_⟩
    have := isolate entry inside value nonneg below
    omega
  · rintro ⟨same, each⟩ env inRange
    rw [same]
    congr 2
    apply List.map_congr_left
    intro entry inside
    obtain ⟨nonneg, below⟩ := inRange entry.part.var entry.range (ranged entry inside)
    exact each entry inside _ nonneg below

/-- The call raises or decodes the index exactly when the offset and every variable are
aligned with the strides, or there is nothing to decode. -/
theorem computeCoordinates_decodes_iff {dims : List Dim} {ranges : List (String × ℕ)}
    {index : Index} {indirectSizes : Option (List (String × ℕ))} (radix : NestedRadix dims)
    (closed : ∀ part ∈ index.parts, ∃ range, lookup ranges part.var = some range) :
    (∀ coordinates, computeCoordinates dims ranges index indirectSizes = .ok coordinates →
      ∀ env, InRange ranges env → address dims coordinates env = index.eval env) ↔
    (∃ failure, computeCoordinates dims ranges index indirectSizes = .error failure) ∨
    (∃ var, lookup ranges var = some 0) ∨
    (OffsetAligned dims index.offset ∧ ∀ part ∈ index.parts, ∀ range,
      lookup ranges part.var = some range → 1 < range →
        PartAligned dims index.offset range part) := by
  obtain ⟨sorted, order⟩ := radix
  cases outcome : computeCoordinates dims ranges index indirectSizes with
  | error failure => simp
  | ok coordinates =>
      by_cases empty : ∃ var, lookup ranges var = some 0
      · refine iff_of_true ?_ (.inr (.inl empty))
        rintro _ _ env inRange
        obtain ⟨var, found⟩ := empty
        have := inRange var 0 found
        omega
      have inhabited : ∀ var range, lookup ranges var = some range → 0 < range := by
        intro var range found
        rcases Nat.eq_zero_or_pos range with zero | positive
        · exact absurd ⟨var, zero ▸ found⟩ empty
        · exact positive
      unfold computeCoordinates at outcome
      split at outcome
      · cases outcome
      split at outcome
      · cases outcome
      next opened offsetAdded =>
        obtain ⟨openedLength, offsetTotal, offsetSum, offsetIff⟩ :=
          order.addOffset_spec (Int.natCast_nonneg _) (List.length_map _) offsetAdded
        obtain ⟨totals, sameParts, valid, varsSum⟩ :=
          order.addVars_spec openedLength closed outcome
        have sumEval : ∀ env, index.eval env = index.offset +
            (totals.map fun entry => entry.part.eval (env entry.part.var)).sum := by
          intro env
          rw [Index.eval, ← sameParts, List.map_map]
          rfl
        have distinct : (totals.map fun entry => entry.part.var).Nodup := by
          have vars := index.varsDistinct
          rw [← sameParts, List.map_map] at vars
          exact vars
        have agree := sums_agree_iff offsetTotal index.offset distinct
          (fun entry inside => (valid entry inside).ranged)
          (fun entry inside => (valid entry inside).zero) inhabited
        have addressSum : ∀ env, address dims coordinates env = offsetTotal +
            (totals.map fun entry => entry.total (env entry.part.var)).sum := by
          intro env
          rw [varsSum, offsetSum, address_empty, zero_add]
        constructor
        · intro decodes
          obtain ⟨offsetExact, each⟩ := agree.mp fun env inRange => by
            rw [← addressSum, ← sumEval]
            exact decodes coordinates rfl env inRange
          refine .inr (.inr ⟨offsetIff.mp offsetExact, ?_⟩)
          intro part inside range found
          rw [← sameParts] at inside
          obtain ⟨entry, entryIn, rfl⟩ := List.mem_map.mp inside
          cases Option.some.inj ((valid entry entryIn).ranged.symm.trans found)
          exact (valid entry entryIn).exact_iff.mp (each entry entryIn)
        · rintro (⟨failure, impossible⟩ | isEmpty | ⟨offsetAligned, aligned⟩)
          · cases impossible
          · exact absurd isEmpty empty
          · rintro _ ⟨⟩ env inRange
            rw [addressSum, sumEval]
            refine agree.mpr ⟨offsetIff.mpr offsetAligned, fun entry entryIn => ?_⟩ env inRange
            apply (valid entry entryIn).exact_iff.mpr
            apply aligned entry.part _ entry.range (valid entry entryIn).ranged
            rw [← sameParts]
            exact List.mem_map_of_mem entryIn

/-! ## A square matrix -/

def square : List Dim := [{ size := 3, stride := 3 }, { size := 3, stride := 1 }]

theorem loop_reduced : Digit.loop.Reduced := by decide

def rowMajor : Index where
  offset := 0
  parts := [{ var := "x", addends := [{ coeff := 3, digit := .loop, reduced := loop_reduced }] },
    { var := "y", addends := [{ coeff := 1, digit := .loop, reduced := loop_reduced }] }]

/-- The view of `torch.diagonal`. -/
def diagonal : Index where
  offset := 0
  parts := [{ var := "x", addends := [{ coeff := 4, digit := .loop, reduced := loop_reduced }] }]

theorem square_nested : NestedRadix square := by
  refine ⟨[{ size := 3, stride := 1 }, { size := 3, stride := 3 }], ?_, by decide, by simp⟩
  exact List.Perm.swap _ _ _

theorem computeCoordinates_decodes_rowMajor :
    NestedRadix square ∧
    (∀ part ∈ rowMajor.parts, ∃ range, lookup [("x", 3), ("y", 3)] part.var = some range) ∧
    ∀ coordinates, computeCoordinates square [("x", 3), ("y", 3)] rowMajor none = .ok coordinates →
      ∀ env, InRange [("x", 3), ("y", 3)] env →
        address square coordinates env = rowMajor.eval env := by
  have closed : ∀ part ∈ rowMajor.parts, ∃ range,
      lookup [("x", 3), ("y", 3)] part.var = some range := by
    intro part inside
    rcases List.mem_cons.mp inside with rfl | inside
    · exact ⟨3, rfl⟩
    · exact ⟨3, by rw [List.mem_singleton.mp inside]; rfl⟩
  refine ⟨square_nested, closed, (computeCoordinates_decodes_iff square_nested closed).mpr
    (.inr (.inr ⟨.inl rfl, ?_⟩))⟩
  intro part inside range found _
  rcases List.mem_cons.mp inside with rfl | inside
  · refine ⟨fun value _ _ => ?_, .inr ⟨{ size := 3, stride := 3 }, by decide⟩⟩
    simp [Part.eval, Digit.eval, mul_comm]
  · rw [List.mem_singleton.mp inside]
    refine ⟨fun value _ _ => ?_, .inr ⟨{ size := 3, stride := 1 }, by decide⟩⟩
    simp [Part.eval, Digit.eval]

/-- The diagonal is decoded to column zero of the row it is in. -/
theorem computeCoordinates_diagonal :
    NestedRadix square ∧
    computeCoordinates square [("x", 3)] diagonal none =
      .ok [[⟨.digit "x" .loop, 4, none, 3⟩], []] ∧
    InRange [("x", 3)] (fun _ => 1) ∧
    address square [[⟨.digit "x" .loop, 4, none, 3⟩], []] (fun _ => 1) = 3 ∧
    diagonal.eval (fun _ => 1) = 4 := by
  refine ⟨square_nested, by decide, ?_, by decide, by decide⟩
  intro var range found
  unfold lookup at found
  obtain ⟨entry, isEntry, rfl⟩ := Option.map_eq_some_iff.mp found
  have inside := List.mem_of_find?_eq_some isEntry
  rw [List.mem_singleton.mp inside]
  exact ⟨show (0 : ℤ) ≤ 1 by decide, show (1 : ℤ) < 3 by decide⟩

end TorchSpyre.Views
