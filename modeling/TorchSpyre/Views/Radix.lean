import Mathlib
import TorchSpyre.Lib.Order
import TorchSpyre.Views.Coordinates

/-!
# What one term contributes in a nested layout

In a layout whose strides form a nested radix, the summands a term adds to the
dims telescope: together they account for the term up to its remainder modulo
the primary stride.
-/

namespace TorchSpyre.Views

/-- The dims of size above one, by increasing stride; each stride is the previous
one times the previous size. -/
structure RadixOrder (dims sorted : List Dim) : Prop where
  perm : sorted.Perm (dims.filter fun dim => dim.size > 1)
  positive : ∀ dim ∈ sorted, 0 < dim.stride
  nested : sorted.IsChain fun low high => high.stride = low.stride * (low.size : ℤ)

def NestedRadix (dims : List Dim) : Prop := ∃ sorted, RadixOrder dims sorted

section Order

variable {dims sorted : List Dim} (order : RadixOrder dims sorted)

include order

theorem RadixOrder.mem_iff {dim : Dim} : dim ∈ sorted ↔ dim ∈ dims ∧ dim.size > 1 := by
  rw [order.perm.mem_iff, List.mem_filter, decide_eq_true_eq]

/-- Larger strides are multiples of smaller ones. -/
theorem RadixOrder.pairwise :
    sorted.Pairwise fun low high => low.stride < high.stride ∧ low.stride ∣ high.stride := by
  have stepUp : sorted.IsChain fun low high => low.stride < high.stride ∧
      low.stride ∣ high.stride := by
    refine List.IsChain.imp_of_mem_imp ?_ order.nested
    intro low high lowIn _ nested
    have positive := order.positive low lowIn
    have large : (1 : ℤ) < low.size := by exact_mod_cast (order.mem_iff.mp lowIn).2
    rw [nested]
    exact ⟨lt_mul_of_one_lt_right positive large, Dvd.intro _ rfl⟩
  have transitive : Trans (fun low high : Dim => low.stride < high.stride ∧
      low.stride ∣ high.stride) (fun low high : Dim => low.stride < high.stride ∧
      low.stride ∣ high.stride) (fun low high : Dim => low.stride < high.stride ∧
      low.stride ∣ high.stride) :=
    ⟨fun first second => ⟨lt_trans first.1 second.1, dvd_trans first.2 second.2⟩⟩
  exact stepUp.pairwise

end Order

/-! ## The next stride and the primary dim -/

theorem nextStride_concat (dims : List Dim) (last dim : Dim) :
    nextStride (dims ++ [last]) dim =
      if less (some last.stride) (nextStride dims dim) ∧ last.stride > dim.stride ∧
          last.size > 1 then some last.stride
      else nextStride dims dim := by
  unfold nextStride
  rw [List.foldl_append]
  rfl

/-- The next stride is the least larger one. -/
theorem nextStride_spec (dims : List Dim) (dim : Dim) :
    (∀ other ∈ dims, other.size > 1 → other.stride > dim.stride →
      ∃ next, nextStride dims dim = some next ∧ next ≤ other.stride) ∧
    ∀ next, nextStride dims dim = some next →
      ∃ other ∈ dims, other.size > 1 ∧ other.stride > dim.stride ∧ other.stride = next := by
  induction dims using List.reverseRecOn with
  | nil => exact ⟨by simp, by simp [nextStride]⟩
  | append_singleton dims last inductionHypothesis =>
      obtain ⟨lower, attained⟩ := inductionHypothesis
      rw [nextStride_concat]
      split_ifs with better
      · obtain ⟨smaller, larger, proper⟩ := better
        refine ⟨?_, ?_⟩
        · intro other inside otherProper otherLarger
          refine ⟨last.stride, rfl, ?_⟩
          rcases List.mem_append.mp inside with old | new
          · obtain ⟨next, found, bound⟩ := lower other old otherProper otherLarger
            rw [found] at smaller
            exact le_of_lt (lt_of_lt_of_le (of_decide_eq_true smaller) bound)
          · rw [List.mem_singleton.mp new]
        · intro next isNext
          cases isNext
          exact ⟨last, List.mem_append_right _ List.mem_cons_self, proper, larger, rfl⟩
      · refine ⟨?_, ?_⟩
        · intro other inside otherProper otherLarger
          rcases List.mem_append.mp inside with old | new
          · exact lower other old otherProper otherLarger
          · rw [List.mem_singleton.mp new] at otherProper otherLarger ⊢
            cases found : nextStride dims dim with
            | none =>
                rw [found] at better
                exact absurd ⟨rfl, otherLarger, otherProper⟩ better
            | some next =>
                refine ⟨next, rfl, ?_⟩
                rw [found] at better
                by_contra above
                exact better ⟨decide_eq_true (not_le.mp above), otherLarger, otherProper⟩
        · intro next isNext
          obtain ⟨other, inside, found⟩ := attained next isNext
          exact ⟨other, List.mem_append_left _ inside, found⟩

theorem RadixOrder.nextStride_eq {dims before after : List Dim} {dim : Dim}
    (order : RadixOrder dims (before ++ dim :: after)) :
    nextStride dims dim = after.head?.map Dim.stride := by
  obtain ⟨lower, attained⟩ := nextStride_spec dims dim
  obtain ⟨-, fromDim, beforeBelow⟩ := List.pairwise_append.mp order.pairwise
  obtain ⟨aboveDim, afterPairwise⟩ := List.pairwise_cons.mp fromDim
  -- The dims with a larger stride are exactly those after this one.
  have inAfter : ∀ other ∈ dims, other.size > 1 → other.stride > dim.stride → other ∈ after := by
    intro other inside proper larger
    rcases List.mem_append.mp (order.mem_iff.mpr ⟨inside, proper⟩) with isBefore | isAfter
    · have below := (beforeBelow other isBefore dim List.mem_cons_self).1
      omega
    · rcases List.mem_cons.mp isAfter with rfl | later
      · exact absurd larger (lt_irrefl _)
      · exact later
  cases after with
  | nil =>
      cases found : nextStride dims dim with
      | none => rfl
      | some next =>
          obtain ⟨other, inside, proper, larger, -⟩ := attained next found
          cases inAfter other inside proper larger
  | cons first rest =>
      have firstIn : first ∈ before ++ dim :: first :: rest := by simp
      obtain ⟨firstInside, firstProper⟩ := order.mem_iff.mp firstIn
      obtain ⟨next, found, bound⟩ :=
        lower first firstInside firstProper (aboveDim first List.mem_cons_self).1
      obtain ⟨other, inside, proper, larger, isNext⟩ := attained next found
      have firstLe : first.stride ≤ other.stride := by
        rcases List.mem_cons.mp (inAfter other inside proper larger) with rfl | later
        · exact le_refl _
        · exact le_of_lt ((List.pairwise_cons.mp afterPairwise).1 other later).1
      rw [found, List.head?_cons, Option.map_some]
      exact congrArg some (le_antisymm bound (isNext ▸ firstLe))

theorem findPrimary_concat (dims : List Dim) (last : Dim) (step : ℤ) :
    findPrimary (dims ++ [last]) step =
      if last.size = 1 then findPrimary dims step
      else if last.stride ≤ step ∧ last.stride > (findPrimary dims step).1 then
        (last.stride, some dims.length)
      else findPrimary dims step := by
  unfold findPrimary
  rw [List.zipIdx_append, List.foldl_append]
  simp

/-- The primary dim has the largest positive stride up to the step. -/
theorem findPrimary_spec (dims : List Dim) (step : ℤ) :
    0 ≤ (findPrimary dims step).1 ∧
    (∀ other ∈ dims, other.size ≠ 1 → other.stride ≤ step →
      other.stride ≤ (findPrimary dims step).1) ∧
    ((findPrimary dims step).2 = none → (findPrimary dims step).1 = 0) ∧
    ∀ position, (findPrimary dims step).2 = some position →
      ∃ dim, dims[position]? = some dim ∧ dim.size ≠ 1 ∧ 0 < dim.stride ∧ dim.stride ≤ step ∧
        (findPrimary dims step).1 = dim.stride := by
  induction dims using List.reverseRecOn with
  | nil => simp [findPrimary]
  | append_singleton dims last inductionHypothesis =>
      obtain ⟨nonneg, largest, noPrimary, isPrimary⟩ := inductionHypothesis
      have extend : ∀ position, (findPrimary dims step).2 = some position →
          ∃ dim, (dims ++ [last])[position]? = some dim ∧ dim.size ≠ 1 ∧ 0 < dim.stride ∧
            dim.stride ≤ step ∧ (findPrimary dims step).1 = dim.stride := by
        intro position found
        obtain ⟨dim, located, rest⟩ := isPrimary position found
        have inside := (List.getElem?_eq_some_iff.mp located).1
        exact ⟨dim, by rw [List.getElem?_append_left inside]; exact located, rest⟩
      rw [findPrimary_concat]
      split_ifs with trivial_ better
      · refine ⟨nonneg, ?_, noPrimary, extend⟩
        intro other inside proper below
        rcases List.mem_append.mp inside with old | new
        · exact largest other old proper below
        · rw [List.mem_singleton.mp new] at proper
          exact absurd trivial_ proper
      · refine ⟨le_trans nonneg (le_of_lt better.2), ?_, by simp, ?_⟩
        · intro other inside proper below
          rcases List.mem_append.mp inside with old | new
          · exact le_trans (largest other old proper below) (le_of_lt better.2)
          · rw [List.mem_singleton.mp new]
        · intro position found
          cases found
          exact ⟨last, by simp, trivial_, lt_of_le_of_lt nonneg better.2, better.1, rfl⟩
      · refine ⟨nonneg, ?_, noPrimary, extend⟩
        intro other inside proper below
        rcases List.mem_append.mp inside with old | new
        · exact largest other old proper below
        · rw [List.mem_singleton.mp new] at below ⊢
          by_contra above
          exact better ⟨below, not_le.mp above⟩

/-! ## Telescoping -/

/-- What the summand of a dim is worth, in units of the address. -/
def worth (dims : List Dim) (limit : Option ℤ) (value : ℤ) (dim : Dim) : ℤ :=
  reduce (if less (nextStride dims dim) limit then nextStride dims dim else none) value /
    dim.stride * dim.stride

theorem div_mul_eq_sub (value stride : ℤ) : value / stride * stride = value - value % stride := by
  have := Int.mul_ediv_add_emod value stride
  rw [mul_comm]
  omega

theorem emod_div_mul_eq_sub {stride next : ℤ} (divides : stride ∣ next) (value : ℤ) :
    value % next / stride * stride = value % next - value % stride := by
  rw [div_mul_eq_sub, Int.emod_emod_of_dvd value divides]

section Telescope

variable {dims : List Dim} {limit : Option ℤ} {value : ℤ}

theorem worth_eq {before after : List Dim} {dim : Dim}
    (order : RadixOrder dims (before ++ dim :: after)) :
    worth dims limit value dim =
      match after with
      | [] => value - value % dim.stride
      | next :: _ =>
          if less (some next.stride) limit then value % next.stride - value % dim.stride
          else value - value % dim.stride := by
  cases after with
  | nil =>
      have isLast : nextStride dims dim = none := order.nextStride_eq
      unfold worth
      rw [isLast]
      exact div_mul_eq_sub value _
  | cons next rest =>
      have isNext : nextStride dims dim = some next.stride := order.nextStride_eq
      have divides : dim.stride ∣ next.stride := by
        have fromDim := (List.pairwise_append.mp order.pairwise).2.1
        exact ((List.pairwise_cons.mp fromDim).1 next List.mem_cons_self).2
      unfold worth
      rw [isNext]
      simp only
      by_cases within : less (some next.stride) limit = true
      · rw [if_pos within, if_pos within]
        exact emod_div_mul_eq_sub divides value
      · rw [if_neg within, if_neg within]
        exact div_mul_eq_sub value _

/-- The value without its remainder modulo the lowest stride, if that is below the
limit. -/
def downTo (limit : Option ℤ) (value : ℤ) : List Dim → ℤ
  | [] => 0
  | lowest :: _ => if less (some lowest.stride) limit then value - value % lowest.stride else 0

variable (limit value) in
/-- The dims above the step below a limit account for the term down to the lowest of
them. -/
theorem sum_worth {before after : List Dim} (order : RadixOrder dims (before ++ after)) :
    (after.map fun dim => if less (some dim.stride) limit then worth dims limit value dim
      else 0).sum = downTo limit value after := by
  induction after generalizing before with
  | nil => rfl
  | cons lowest rest inductionHypothesis =>
      have above := @inductionHypothesis (before ++ [lowest]) (by simpa using order)
      rw [List.map_cons, List.sum_cons, above, worth_eq order]
      unfold downTo
      cases rest with
      | nil => simp
      | cons next rest =>
          have ordered : lowest.stride < next.stride := by
            have fromLowest := (List.pairwise_append.mp order.pairwise).2.1
            exact ((List.pairwise_cons.mp fromLowest).1 next List.mem_cons_self).1
          cases limit with
          | none => simp [less]
          | some limit =>
              simp only [less, decide_eq_true_eq]
              split_ifs <;> omega

/-- What a term adds to the address of the coordinates. -/
def contribution (dims : List Dim) (step : ℤ) (limit : Option ℤ) (value : ℤ) : ℤ :=
  (dims.map fun dim =>
    if dim.size ≠ 1 ∧ dim.stride > step ∧ less (some dim.stride) limit then
      worth dims limit value dim
    else 0).sum +
  match (findPrimary dims step).2.bind (dims[·]?) with
  | none => 0
  | some dim => worth dims limit value dim

theorem sum_map_filter_of_zero {α : Type*} (list : List α) (keep : α → Bool) (weight : α → ℤ)
    (zero : ∀ element ∈ list, keep element = false → weight element = 0) :
    ((list.filter keep).map weight).sum = (list.map weight).sum := by
  induction list with
  | nil => rfl
  | cons head tail inductionHypothesis =>
      have tailSum := inductionHypothesis fun element inside =>
        zero element (List.mem_cons_of_mem _ inside)
      rw [List.map_cons, List.sum_cons, ← tailSum]
      cases kept : keep head with
      | true => rw [List.filter_cons_of_pos kept, List.map_cons, List.sum_cons]
      | false =>
          rw [List.filter_cons_of_neg (by simp [kept]), zero head List.mem_cons_self kept, zero_add]

/-- Only the dims of size above one receive summands. -/
theorem RadixOrder.sum_spills {sorted : List Dim} (order : RadixOrder dims sorted) (step : ℤ) :
    (dims.map fun dim =>
      if dim.size ≠ 1 ∧ dim.stride > step ∧ less (some dim.stride) limit then
        worth dims limit value dim
      else 0).sum =
    (sorted.map fun dim =>
      if dim.stride > step ∧ less (some dim.stride) limit then worth dims limit value dim
      else 0).sum := by
  rw [← sum_map_filter_of_zero dims (fun dim => dim.size > 1)]
  · rw [(order.perm.map _).sum_eq]
    congr 1
    apply List.map_congr_left
    intro dim inside
    have proper : dim.size ≠ 1 := by
      have := (List.mem_filter.mp inside).2
      simp only [decide_eq_true_eq] at this
      omega
    simp only [ne_eq, proper, not_false_eq_true, true_and]
  · intro dim _ small
    have trivial_ : dim.size = 1 := by
      have := dim.sizePos
      simp only [decide_eq_false_iff_not, not_lt] at small
      omega
    simp [trivial_]

section Contribution

variable {sorted : List Dim} (order : RadixOrder dims sorted)

include order

/-- With a primary dim the term is accounted for up to its remainder modulo the primary
stride. -/
theorem RadixOrder.contribution_primary {step : ℤ} {dim : Dim} (inside : dim ∈ sorted)
    (below : dim.stride ≤ step)
    (largest : ∀ other ∈ sorted, other.stride ≤ step → other.stride ≤ dim.stride) :
    contribution dims step limit value = value - value % dim.stride := by
  have found : (findPrimary dims step).2.bind (dims[·]?) = some dim := by
    obtain ⟨-, upper, noPrimary, isPrimary⟩ := findPrimary_spec dims step
    have bound := upper dim (order.mem_iff.mp inside).1
      (by have := (order.mem_iff.mp inside).2; omega) below
    have positive := order.positive dim inside
    cases position : (findPrimary dims step).2 with
    | none =>
        have := noPrimary position
        omega
    | some position' =>
        obtain ⟨other, located, proper, -, otherBelow, isStride⟩ := isPrimary position' position
        have otherIn : other ∈ sorted := by
          have := other.sizePos
          exact order.mem_iff.mpr ⟨List.mem_of_getElem? located, by omega⟩
        have sameStride : other.stride = dim.stride :=
          le_antisymm (largest other otherIn otherBelow) (isStride ▸ bound)
        have same : other = dim := by
          by_contra distinct
          rcases Lib.pairwise_or order.pairwise otherIn inside distinct with less_ | less_
          · exact absurd less_.1 (by omega)
          · exact absurd less_.1 (by omega)
        rw [Option.bind_some, located, same]
  unfold contribution
  rw [found, order.sum_spills]
  simp only
  obtain ⟨before, after, rfl⟩ := List.append_of_mem inside
  obtain ⟨-, fromDim, beforeBelow⟩ := List.pairwise_append.mp order.pairwise
  obtain ⟨aboveDim, -⟩ := List.pairwise_cons.mp fromDim
  have noSpill : (before.map fun other =>
      if other.stride > step ∧ less (some other.stride) limit then worth dims limit value other
      else 0).sum = 0 := by
    apply List.sum_eq_zero
    intro summand isSummand
    obtain ⟨other, otherIn, rfl⟩ := List.mem_map.mp isSummand
    have := (beforeBelow other otherIn dim List.mem_cons_self).1
    exact if_neg fun spills => by omega
  have spills : (after.map fun other =>
      if other.stride > step ∧ less (some other.stride) limit then worth dims limit value other
      else 0) =
      after.map fun other => if less (some other.stride) limit then worth dims limit value other
        else 0 := by
    apply List.map_congr_left
    intro other otherIn
    have above : other.stride > step := by
      by_contra notAbove
      have := largest other (by simp [otherIn]) (not_lt.mp notAbove)
      have := (aboveDim other otherIn).1
      omega
    simp only [above, true_and]
  have regrouped : RadixOrder dims ((before ++ [dim]) ++ after) := by simpa using order
  have afterSum := sum_worth limit value regrouped
  rw [List.map_append, List.map_cons, List.sum_append, List.sum_cons, noSpill, spills, afterSum,
    if_neg (fun spills => absurd spills.1 (by omega)), worth_eq order]
  unfold downTo
  cases after with
  | nil => simp
  | cons next rest =>
      simp only
      split_ifs <;> omega

/-- Without a primary dim only what exceeds the lowest stride is accounted for. -/
theorem RadixOrder.contribution_none {step : ℤ} (above : ∀ dim ∈ sorted, step < dim.stride) :
    contribution dims step limit value = downTo limit value sorted := by
  have noPrimary : (findPrimary dims step).2 = none := by
    obtain ⟨-, -, -, isPrimary⟩ := findPrimary_spec dims step
    cases position : (findPrimary dims step).2 with
    | none => rfl
    | some position' =>
        obtain ⟨other, located, proper, -, otherBelow, -⟩ := isPrimary position' position
        have := other.sizePos
        have otherAbove := above other
          (order.mem_iff.mpr ⟨List.mem_of_getElem? located, by omega⟩)
        omega
  unfold contribution
  rw [noPrimary, order.sum_spills, Option.bind_none]
  have spills : (sorted.map fun other =>
      if other.stride > step ∧ less (some other.stride) limit then worth dims limit value other
      else 0) =
      sorted.map fun other => if less (some other.stride) limit then worth dims limit value other
        else 0 := by
    apply List.map_congr_left
    intro other otherIn
    simp only [gt_iff_lt, above other otherIn, true_and]
  have whole : RadixOrder dims ([] ++ sorted) := order
  rw [spills, sum_worth limit value whole]
  exact add_zero _

end Contribution

end Telescope

end TorchSpyre.Views
