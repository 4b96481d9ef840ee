import Mathlib
import TorchSpyre.Scratchpad.Annealing.Position

/-!
# Reinserting an evicted buffer

An evicted buffer takes the buffers that rest on it down with it.  The layout with the buffer at any
position is therefore part of the layout without it, and it is that whole layout when no buffer
behind the position both overlaps it and finds a place without it.
-/

namespace TorchSpyre.Scratchpad.PermLayout

open Lib

/-- The order with a buffer inserted at a position. -/
def inserted (others : List ℕ) (buffer position : ℕ) : List ℕ :=
  others.take position ++ buffer :: others.drop position

theorem inserted_perm (others : List ℕ) (buffer position : ℕ) :
    (inserted others buffer position).Perm (buffer :: others) := by
  have whole := @List.perm_middle _ buffer (others.take position) (others.drop position)
  rwa [List.take_append_drop] at whole

section Before

variable {others : List ℕ} {buffer other : ℕ} {position : ℕ} (nodup : (buffer :: others).Nodup)

include nodup

/-- The other buffers keep their order. -/
theorem mem_before_inserted (inside : other ∈ others) (earlier : ℕ) :
    earlier ∈ before (inserted others buffer position) other ↔
      earlier ∈ before others other ∨ earlier = buffer ∧ other ∈ others.drop position := by
  obtain ⟨fresh, distinct⟩ := List.nodup_cons.mp nodup
  have different : buffer ≠ other := fun same => fresh (same ▸ inside)
  have split : others = others.take position ++ others.drop position :=
    (List.take_append_drop _ _).symm
  rw [split] at distinct
  by_cases inFront : other ∈ others.take position
  · have notBack : other ∉ others.drop position :=
      fun inBack => (List.nodup_append.mp distinct).2.2 other inFront other inBack rfl
    have same : before others other = before (others.take position) other := by
      conv_lhs => rw [split]
      exact before_of_mem_left inFront
    rw [inserted, before_of_mem_left inFront, same]
    exact ⟨.inl, fun either => either.resolve_right fun behind => notBack behind.2⟩
  · have inBack : other ∈ others.drop position := by
      rw [split, List.mem_append] at inside
      exact inside.resolve_left inFront
    have same : before others other =
        others.take position ++ before (others.drop position) other := by
      conv_lhs => rw [split]
      exact before_append_of_not_mem inFront
    rw [inserted, before_append_of_not_mem inFront, before_cons_of_ne different, same]
    simp only [List.mem_append, List.mem_cons, inBack, and_true]
    exact or_left_comm.trans or_comm

end Before

namespace Config

variable {config : Config}

/-! ## Layouts that contain one another -/

/-- An address is kept by a layout that keeps the addresses the decision rested on. -/
theorem IsLayout.address_of_extends {order otherOrder : List ℕ} {layout other : Layout}
    (isLayout : config.IsLayout order layout) (otherLayout : config.IsLayout otherOrder other)
    (nonnegative : ∀ buffer, 0 ≤ config.sizes buffer) {buffer : ℕ} (inOrder : buffer ∈ order)
    (inOther : buffer ∈ otherOrder) {address : ℤ} (located : layout.address buffer = some address)
    (sameBefore : (∀ candidate ∈ config.candidates (before order buffer) buffer,
        layout.allocated candidate = true) →
      ∀ earlier, config.eligible earlier = true → config.static.overlaps buffer earlier = true →
        (earlier ∈ before order buffer ↔ earlier ∈ before otherOrder buffer))
    (keeps : ∀ earlier ∈ before order buffer, ∀ found, layout.address earlier = some found →
      other.address earlier = some found) :
    other.address buffer = some address := by
  have eligible := isLayout.eligible_of_allocated inOrder (Layout.address_eq_some.mp located).1
  have decided := located
  rw [isLayout buffer inOrder, decision, if_pos eligible] at decided
  have allocated := (config.placeDecision_eq_some decided).2.1
  have same := sameBefore allocated
  rw [otherLayout buffer inOther, decision, if_pos eligible, ← decided]
  symm
  apply config.placeDecision_congr
  · intro candidate
    rw [config.mem_candidates, config.mem_candidates]
    constructor
    · rintro ⟨isEarlier, isEligible, overlap⟩
      exact ⟨(same candidate isEligible overlap).mp isEarlier, isEligible, overlap⟩
    · rintro ⟨isEarlier, isEligible, overlap⟩
      exact ⟨(same candidate isEligible overlap).mpr isEarlier, isEligible, overlap⟩
  · exact fun _ => Iff.rfl
  · intro candidate isCandidate
    have found := Layout.address_eq_some.mpr ⟨allocated candidate isCandidate, rfl⟩
    rw [found, keeps candidate (config.mem_candidates.mp isCandidate).1 _ found]
  · exact fun candidate _ => nonnegative candidate

section Inserted

variable {others : List ℕ} {buffer : ℕ} (nodup : (buffer :: others).Nodup)
  (positive : 0 < config.static.alignment) (nonnegative : ∀ buffer, 0 ≤ config.sizes buffer)

/-- The layout with the buffer at a position. -/
def layoutAt (config : Config) (others : List ℕ) (buffer position : ℕ) : Layout :=
  config.fromScratch (inserted others buffer position)

include nonnegative in
omit nodup positive in
theorem fromScratch_isLayout_of_nodup {order : List ℕ} (distinct : order.Nodup) :
    config.IsLayout order (config.fromScratch order) :=
  config.fromScratch_isLayout (fun buffer _ => nonnegative buffer) distinct

include nodup nonnegative in
theorem layoutAt_isLayout (position : ℕ) :
    config.IsLayout (inserted others buffer position) (config.layoutAt others buffer position) :=
  fromScratch_isLayout_of_nodup nonnegative ((inserted_perm others buffer position).nodup_iff.mpr nodup)

include nodup nonnegative in
theorem without_isLayout : config.IsLayout others (config.fromScratch others) :=
  fromScratch_isLayout_of_nodup nonnegative (List.nodup_cons.mp nodup).2

omit nodup positive nonnegative in
theorem mem_inserted_of_mem {other : ℕ} (inside : other ∈ others) (position : ℕ) :
    other ∈ inserted others buffer position :=
  (inserted_perm others buffer position).mem_iff.mpr (List.mem_cons_of_mem _ inside)

omit nodup positive nonnegative in
theorem self_mem_inserted (position : ℕ) : buffer ∈ inserted others buffer position :=
  (inserted_perm others buffer position).mem_iff.mpr List.mem_cons_self

include nodup nonnegative in
/-- What is allocated beside an evicted buffer is allocated without it. -/
theorem without_of_layoutAt {position : ℕ} (eligible : config.eligible buffer = true)
    (evicted : (config.layoutAt others buffer position).allocated buffer = false) :
    ∀ other ∈ others, ∀ address, (config.layoutAt others buffer position).address other = some address →
      (config.fromScratch others).address other = some address := by
  apply before_induction
  intro other inside inductionHypothesis address located
  apply (layoutAt_isLayout nodup nonnegative position).address_of_extends
    (without_isLayout nodup nonnegative) nonnegative (mem_inserted_of_mem inside position) inside located
  · intro allocated earlier _ overlap
    rw [mem_before_inserted nodup inside]
    constructor
    · rintro (isEarlier | ⟨rfl, behind⟩)
      · exact isEarlier
      · have isCandidate : earlier ∈ config.candidates
            (before (inserted others earlier position) other) other := by
          apply config.mem_candidates.mpr
          exact ⟨(mem_before_inserted nodup inside _).mpr (.inr ⟨rfl, behind⟩), eligible, overlap⟩
        rw [allocated earlier isCandidate] at evicted
        cases evicted
    · exact .inl
  · intro earlier isEarlier found isFound
    rcases (mem_before_inserted nodup inside earlier).mp isEarlier with before | ⟨rfl, -⟩
    · exact inductionHypothesis earlier before found isFound
    · rw [Layout.address_eq_none.mpr evicted] at isFound
      cases isFound

include nodup nonnegative in
/-- What is allocated without an evicted buffer is allocated beside it, if no such buffer behind it
overlaps it. -/
theorem layoutAt_of_without {position : ℕ}
    (clear : ∀ other ∈ others.drop position, config.static.overlaps other buffer = true →
      (config.fromScratch others).address other = none) :
    ∀ other ∈ others, ∀ address, (config.fromScratch others).address other = some address →
      (config.layoutAt others buffer position).address other = some address := by
  apply before_induction
  intro other inside inductionHypothesis address located
  apply (without_isLayout nodup nonnegative).address_of_extends
    (layoutAt_isLayout nodup nonnegative position) nonnegative inside (mem_inserted_of_mem inside position) located
  · intro _ earlier _ overlap
    rw [mem_before_inserted nodup inside]
    refine ⟨.inl, ?_⟩
    rintro (isEarlier | ⟨rfl, behind⟩)
    · exact isEarlier
    · rw [clear other behind overlap] at located
      cases located
  · exact inductionHypothesis

include nodup positive nonnegative in
/-- A buffer that is evicted at a position is evicted behind it. -/
theorem evicted_later {position later : ℕ} (order : position ≤ later)
    (evicted : (config.layoutAt others buffer position).allocated buffer = false) :
    (config.layoutAt others buffer later).allocated buffer = false := by
  rw [← Layout.address_eq_none] at evicted ⊢
  have front : inserted others buffer position = others.take position ++ buffer ::
      ((others.drop position).take (later - position) ++ others.drop later) := by
    have rest : (others.drop position).take (later - position) ++ others.drop later =
        others.drop position := by
      have dropped : others.drop later = (others.drop position).drop (later - position) := by
        rw [List.drop_drop]
        congr 1
        omega
      rw [dropped, List.take_append_drop]
    rw [rest, inserted]
  have back : inserted others buffer later = others.take position ++
      ((others.drop position).take (later - position) ++ buffer :: others.drop later) := by
    have taken : others.take later =
        others.take position ++ (others.drop position).take (later - position) := by
      conv_lhs => rw [show later = position + (later - position) by omega, List.take_add]
    rw [inserted, taken, List.append_assoc]
  have isLayout := @layoutAt_isLayout config others buffer nodup nonnegative position
  have laterLayout := @layoutAt_isLayout config others buffer nodup nonnegative later
  have distinct := (inserted_perm others buffer position).nodup_iff.mpr nodup
  rw [front] at isLayout distinct
  rw [back] at laterLayout
  cases located : (config.layoutAt others buffer later).address buffer with
  | none => rfl
  | some address =>
      obtain ⟨_, -, found⟩ :=
        isLayout.address_le_of_later positive nonnegative distinct laterLayout located
      rw [evicted] at found
      cases found

end Inserted

/-! ## Quality -/

section Quality

variable {layout other : Layout} {order : List ℕ}

/-- What a buffer contributes to the quality. -/
def share (config : Config) (layout : Layout) (buffer : ℕ) : ℚ :=
  if layout.allocated buffer then config.static.weight buffer * config.sizes buffer else 0

theorem qualityOf_eq_sum (layout : Layout) (order : List ℕ) :
    config.qualityOf layout order = (order.map (config.share layout)).sum := by
  unfold qualityOf
  induction order with
  | nil => rfl
  | cons buffer order inductionHypothesis =>
      rw [List.map_cons, List.sum_cons, ← inductionHypothesis, share]
      by_cases allocated : layout.allocated buffer = true
      · rw [List.filter_cons_of_pos allocated, List.map_cons, List.sum_cons, if_pos allocated]
      · rw [List.filter_cons_of_neg allocated, if_neg allocated, zero_add]

theorem qualityOf_inserted (layout : Layout) (others : List ℕ) (buffer position : ℕ) :
    config.qualityOf layout (inserted others buffer position) =
      config.share layout buffer + config.qualityOf layout others := by
  rw [qualityOf_eq_sum, ((inserted_perm others buffer position).map _).sum_eq, List.map_cons,
    List.sum_cons, ← qualityOf_eq_sum]

theorem share_of_evicted {buffer : ℕ} (evicted : layout.allocated buffer = false) :
    config.share layout buffer = 0 := by
  rw [share, if_neg (by rw [evicted]; exact Bool.false_ne_true)]

variable (weights : ∀ buffer ∈ order, 0 ≤ config.static.weight buffer * config.sizes buffer)

include weights in
theorem share_le (grows : ∀ buffer ∈ order, layout.allocated buffer = true →
    other.allocated buffer = true) : ∀ buffer ∈ order,
      config.share layout buffer ≤ config.share other buffer := by
  intro buffer inside
  unfold share
  by_cases allocated : layout.allocated buffer = true
  · rw [if_pos allocated, if_pos (grows buffer inside allocated)]
  · rw [if_neg allocated]
    split
    next => exact weights buffer inside
    next => exact le_rfl

include weights in
theorem qualityOf_le (grows : ∀ buffer ∈ order, layout.allocated buffer = true →
    other.allocated buffer = true) : config.qualityOf layout order ≤ config.qualityOf other order := by
  rw [qualityOf_eq_sum, qualityOf_eq_sum]
  exact List.sum_le_sum (share_le weights grows)

include weights in
theorem qualityOf_lt (grows : ∀ buffer ∈ order, layout.allocated buffer = true →
    other.allocated buffer = true) {gained : ℕ} (inside : gained ∈ order)
    (before : layout.allocated gained = false) (after : other.allocated gained = true)
    (counts : 0 < config.static.weight gained * config.sizes gained) :
    config.qualityOf layout order < config.qualityOf other order := by
  rw [qualityOf_eq_sum, qualityOf_eq_sum]
  apply List.sum_lt_sum _ _ (share_le weights grows)
  refine ⟨gained, inside, ?_⟩
  rw [share_of_evicted before, share, if_pos after]
  exact counts

end Quality

end Config

end TorchSpyre.Scratchpad.PermLayout
