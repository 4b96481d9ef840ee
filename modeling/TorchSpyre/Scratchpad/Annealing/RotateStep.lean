import Mathlib
import TorchSpyre.Scratchpad.Annealing.Pruning
import TorchSpyre.Scratchpad.Annealing.SwapStep

/-!
# `annealing_step_rotate`

A sweep over a copy of the plan reinserts one buffer at every position that counts and notes the
quality there. The live plan makes only the rotation that is accepted, to the best position that is.
-/

namespace TorchSpyre.Scratchpad.PermLayout

open Lib

/-- What a step draws: the position to lift out, where every weight is positive, and for each position
whether the draw there lets a worse quality in. -/
structure Draws (n : ℕ) where
  chosen : Fin n
  lets : ℕ → Bool

namespace Solver

/-- Bubble the lifted buffer forward and note the quality at each position but its own. -/
def bubble (lifted : ℕ) : Solver → List ℕ → Except String (List (ℕ × ℚ))
  | _, [] => .ok []
  | probe, position :: rest => do
      let (_, probe) ← probe.swap (position - 1 : ℕ)
      let later ← bubble lifted probe rest
      return if position = lifted then later else (position, probe.totalQuality) :: later

def upperBound (plan : Solver) (lifted : ℕ) : ℕ :=
  if plan.layout.allocated (plan.permutation.getD lifted 0) then plan.static.n - 1
  else min (plan.lastAllocated + 1) (plan.static.n - 1)

/-- The positions of `qualities` that are set. -/
def sweep (plan : Solver) (lifted : ℕ) : Except String (List (ℕ × ℚ)) := do
  let (front, probe) ←
    if lifted = 0 then pure ([], plan)
    else do
      let (_, probe) ← plan.rotate lifted 0
      pure ([(0, probe.totalQuality)], probe)
  let behind ← bubble lifted probe (List.range' 1 (plan.upperBound lifted))
  return front ++ behind

/-- At an equal quality every draw is below one. -/
def acceptsAt (plan : Solver) {n : ℕ} (draws : Draws n) (point : ℕ × ℚ) : Bool :=
  decide (plan.totalQuality ≤ point.2) || draws.lets point.1

def acceptFirst (plan : Solver) {n : ℕ} (draws : Draws n) :
    List (ℕ × ℚ) → Except String (Solver × Option (ℕ × ℕ))
  | [] => .ok (plan, none)
  | point :: rest =>
      if draws.chosen = point.1 then .error ""
      else if plan.acceptsAt draws point then
        (plan.rotate (draws.chosen : ℕ) point.1).map fun rotated => (rotated.2, some (draws.chosen, point.1))
      else acceptFirst plan draws rest

def annealingStepRotate (plan : Solver) {n : ℕ} (draws : Draws n) :
    Except String (Solver × Option (ℕ × ℕ)) := do
  let qualities ← plan.sweep draws.chosen
  plan.acceptFirst draws (qualities.insertionSort fun left right => right.2 ≤ left.2)

/-! ## A plan with one buffer elsewhere -/

/-- The plan with a buffer reinserted at a position. -/
structure Reinserted (plan probe : Solver) (others : List ℕ) (buffer position : ℕ) : Prop where
  sound : probe.Sound
  config : probe.config = plan.config
  order : probe.permutation = inserted others buffer position

section Reinserted

variable {plan probe : Solver} {others : List ℕ} {buffer position : ℕ}

theorem Reinserted.quality (reinserted : Reinserted plan probe others buffer position) :
    probe.totalQuality = plan.config.qualityAt others buffer position := by
  rw [reinserted.sound.results.quality, plain, reinserted.config, reinserted.order]
  rfl

theorem Reinserted.count (reinserted : Reinserted plan probe others buffer position) :
    probe.static.n = plan.static.n :=
  congrArg (fun config => config.static.n) reinserted.config

/-- A rotation reinserts the buffer. -/
theorem rotate_reinserts (sound : plan.Sound) {i j : ℕ} (here : plan.permutation[i]? = some buffer)
    (inside : j < plan.static.n) : ∃ delta next, plan.rotate i j = .ok (delta, next) ∧
      Reinserted plan next (plan.permutation.eraseIdx i) buffer j := by
  obtain ⟨bounded, -⟩ := List.getElem?_eq_some_iff.mp here
  rw [sound.length_permutation] at bounded
  have inRange : ¬((i : ℤ) < 0 ∨ (i : ℤ) ≥ (plan.static.n : ℤ) ∨ (j : ℤ) < 0 ∨
      (j : ℤ) ≥ (plan.static.n : ℤ)) := by omega
  by_cases same : i = j
  · subst same
    refine ⟨0, plan, by simp only [rotate, if_neg inRange, if_true], sound, rfl, ?_⟩
    exact (inserted_eraseIdx here).symm
  · have different : ¬(i : ℤ) = j := by omega
    have moved := moveInPermutation_permutation here
      (by rwa [sound.length_permutation] : j < plan.permutation.length) same
    have rotated : ∃ delta next, plan.rotate i j = .ok (delta, next) ∧ next.config = plan.config ∧
        next.permutation = inserted (plan.permutation.eraseIdx i) buffer j := by
      simp only [rotate, if_neg inRange, if_neg different, Int.toNat_natCast]
      split
      next => exact ⟨_, _, rfl, rfl, moved⟩
      next => exact ⟨_, _, rfl, rfl, moved⟩
    obtain ⟨delta, next, accepted, sameConfig, order⟩ := rotated
    exact ⟨delta, next, accepted, (rotate_updates sound accepted).sound, sameConfig, order⟩

/-- A swap with the next buffer reinserts it one position later. -/
theorem Reinserted.swap (reinserted : Reinserted plan probe others buffer position)
    (inside : position + 1 < plan.static.n) : ∃ delta next, probe.swap position = .ok (delta, next) ∧
      Reinserted plan next others buffer (position + 1) := by
  have count := reinserted.count
  have length := reinserted.sound.length_permutation
  have inRange : ¬((position : ℤ) < 0 ∨ (position : ℤ) ≥ (probe.static.n : ℤ) - 1) := by omega
  have behind : position < others.length := by
    rw [reinserted.order, (inserted_perm others buffer position).length_eq, List.length_cons, count] at length
    omega
  have front : (others.take position).length = position := by
    rw [List.length_take]
    omega
  have split : probe.permutation =
      others.take position ++ buffer :: others[position] :: others.drop (position + 1) := by
    rw [reinserted.order, inserted, List.drop_eq_getElem_cons behind]
  have first : probe.permutation[position]? = some buffer := by
    rw [split, List.getElem?_append_right front.le, front, Nat.sub_self, List.getElem?_cons_zero]
  have second : probe.permutation[position + 1]? = some others[position] := by
    rw [split, List.getElem?_append_right (by omega), front, Nat.add_sub_cancel_left, List.getElem?_cons_succ,
      List.getElem?_cons_zero]
  have swapped : (probe.swapped position).permutation = inserted others buffer (position + 1) := by
    rw [permutation_swapped first second, exchange_eq first second]
    conv_lhs => rw [split]
    rw [List.set_append_right _ _ front.le, List.set_append_right _ _ (by omega), front, Nat.sub_self,
      Nat.add_sub_cancel_left, List.set_cons_zero, List.set_cons_succ, List.set_cons_zero, inserted,
      List.take_succ_eq_append_getElem behind, List.append_assoc, List.singleton_append]
  have swaps : ∃ delta next, probe.swap position = .ok (delta, next) ∧ next.config = probe.config ∧
      next.permutation = (probe.swapped position).permutation := by
    simp only [Solver.swap, if_neg inRange, Int.toNat_natCast]
    split
    next => exact ⟨_, _, rfl, rfl, rfl⟩
    next =>
      split
      next => exact ⟨_, _, rfl, rfl, rfl⟩
      next => exact ⟨_, _, rfl, rfl, rfl⟩
  obtain ⟨delta, next, accepted, sameConfig, order⟩ := swaps
  exact ⟨delta, next, accepted, (swap_updates reinserted.sound accepted).sound,
    sameConfig.trans reinserted.config,
    order.trans swapped⟩

/-! ## The sweep -/

/-- A quality for each of some positions but the buffer's own. -/
def points (plan : Solver) (lifted buffer : ℕ) (positions : List ℕ) : List (ℕ × ℚ) :=
  (positions.filter (· ≠ lifted)).map fun position =>
    (position, plan.config.qualityAt (plan.permutation.eraseIdx lifted) buffer position)

theorem points_cons (lifted : ℕ) (rest : List ℕ) : plan.points lifted buffer (position :: rest) =
    if position = lifted then plan.points lifted buffer rest
    else (position, plan.config.qualityAt (plan.permutation.eraseIdx lifted) buffer position) ::
      plan.points lifted buffer rest := by
  unfold points
  by_cases own : position = lifted <;> simp [own]

theorem mem_points {lifted : ℕ} {positions : List ℕ} {point : ℕ × ℚ} :
    point ∈ plan.points lifted buffer positions ↔ point.1 ∈ positions ∧ point.1 ≠ lifted ∧
      point.2 = plan.config.qualityAt (plan.permutation.eraseIdx lifted) buffer point.1 := by
  unfold points
  simp only [List.mem_map, List.mem_filter, decide_eq_true_eq]
  constructor
  · rintro ⟨position, ⟨inside, other⟩, rfl⟩
    exact ⟨inside, other, rfl⟩
  · rintro ⟨inside, other, isQuality⟩
    exact ⟨point.1, ⟨inside, other⟩, by rw [← isQuality]⟩

theorem bubble_eq {lifted : ℕ}
    (reinserted : Reinserted plan probe (plan.permutation.eraseIdx lifted) buffer position) {count : ℕ}
    (inside : position + count < plan.static.n) :
    bubble lifted probe (List.range' (position + 1) count) =
      .ok (plan.points lifted buffer (List.range' (position + 1) count)) := by
  induction count generalizing probe position with
  | zero => rfl
  | succ count inductionHypothesis =>
      obtain ⟨delta, next, swapped, moved⟩ := reinserted.swap (by omega)
      have later := inductionHypothesis moved (by omega)
      rw [List.range'_succ, bubble, Nat.add_sub_cancel, swapped, points_cons, ← moved.quality]
      simp only [bind, Except.bind, later]
      rfl

variable (sound : plan.Sound) {lifted : ℕ} (here : plan.permutation[lifted]? = some buffer)

include sound here

theorem upperBound_lt : plan.upperBound lifted < plan.static.n := by
  obtain ⟨bounded, -⟩ := List.getElem?_eq_some_iff.mp here
  rw [sound.length_permutation] at bounded
  unfold upperBound
  split <;> omega

/-- The sweep finds the qualities of plain reinsertion. -/
theorem sweep_eq : plan.sweep lifted =
    .ok (plan.points lifted buffer (List.range (plan.upperBound lifted + 1))) := by
  have bounded := upperBound_lt sound here
  obtain ⟨delta, probe, rotated, reinserted⟩ := rotate_reinserts sound here (Nat.zero_lt_of_lt bounded)
  have behind : bubble lifted probe (List.range' 1 (plan.upperBound lifted)) =
      .ok (plan.points lifted buffer (List.range' 1 (plan.upperBound lifted))) :=
    bubble_eq reinserted (by omega)
  have whole : List.range (plan.upperBound lifted + 1) = 0 :: List.range' 1 (plan.upperBound lifted) := by
    rw [List.range_eq_range', List.range'_succ]
  rw [whole, points_cons, sweep]
  by_cases atFront : lifted = 0
  · subst atFront
    have same : probe = plan := by
      have stays : plan.rotate (0 : ℕ) (0 : ℕ) = .ok (0, plan) := by
        have inRange : ¬(((0 : ℕ) : ℤ) < 0 ∨ ((0 : ℕ) : ℤ) ≥ (plan.static.n : ℤ) ∨ ((0 : ℕ) : ℤ) < 0 ∨
            ((0 : ℕ) : ℤ) ≥ (plan.static.n : ℤ)) := by omega
        simp only [rotate, if_neg inRange, if_true]
      rw [stays] at rotated
      cases rotated
      rfl
    rw [same] at behind
    rw [if_pos rfl, if_pos rfl]
    simp only [bind, Except.bind, pure, Except.pure, behind]
    rfl
  · rw [if_neg atFront, if_neg (Ne.symm atFront), ← reinserted.quality]
    rw [Nat.cast_zero] at rotated
    simp only [bind, Except.bind, pure, Except.pure, rotated, behind]
    rfl

end Reinserted

/-! ## The accepted position -/

/-- What a step leaves: the plan itself, or the plan with the buffer at the best of the accepted
positions. -/
inductive Rotated (plan : Solver) {n : ℕ} (draws : Draws n) (buffer : ℕ) : Solver → Option (ℕ × ℕ) →
    Prop where
  | rejected (nowhere : ∀ point ∈ plan.points draws.chosen buffer
    (List.range (plan.upperBound draws.chosen + 1)),
      plan.acceptsAt draws point = false) : Rotated plan draws buffer plan none
  | accepted {next : Solver} {position : ℕ} (elsewhere : position ≠ draws.chosen)
      (inside : position ≤ plan.upperBound draws.chosen)
      (rotated : ∃ delta, plan.rotate (draws.chosen : ℕ) position = .ok (delta, next))
      (reinserted : Reinserted plan next (plan.permutation.eraseIdx draws.chosen) buffer position)
      (accepts : plan.acceptsAt draws (position, next.totalQuality) = true)
      (best : ∀ point ∈ plan.points draws.chosen buffer (List.range (plan.upperBound draws.chosen + 1)),
        next.totalQuality < point.2 → plan.acceptsAt draws point = false) :
      Rotated plan draws buffer next (some (draws.chosen, position))

section Accepted

variable {plan : Solver} {n buffer : ℕ} {draws : Draws n}

theorem acceptFirst_cases (sound : plan.Sound) (here : plan.permutation[(draws.chosen : ℕ)]? = some buffer)
    {ranked : List (ℕ × ℚ)} (fit : ∀ point ∈ ranked, point.1 ≠ draws.chosen ∧ point.1 < plan.static.n) :
    (plan.acceptFirst draws ranked = .ok (plan, none) ∧
      ∀ point ∈ ranked, plan.acceptsAt draws point = false) ∨
      ∃ front point back next, ranked = front ++ point :: back ∧
        (∀ earlier ∈ front, plan.acceptsAt draws earlier = false) ∧ plan.acceptsAt draws point = true ∧
        (∃ delta, plan.rotate (draws.chosen : ℕ) point.1 = .ok (delta, next)) ∧
        Reinserted plan next (plan.permutation.eraseIdx draws.chosen) buffer point.1 ∧
        plan.acceptFirst draws ranked = .ok (next, some (draws.chosen, point.1)) := by
  induction ranked with
  | nil => exact .inl ⟨rfl, List.forall_mem_nil _⟩
  | cons point rest inductionHypothesis =>
      obtain ⟨elsewhere, inside⟩ := fit point List.mem_cons_self
      rw [acceptFirst, if_neg (Ne.symm elsewhere)]
      cases accepts : plan.acceptsAt draws point with
      | true =>
          obtain ⟨delta, next, rotated, reinserted⟩ := rotate_reinserts sound here inside
          refine .inr ⟨[], point, rest, next, rfl, List.forall_mem_nil _, accepts, ⟨delta, rotated⟩,
            reinserted, ?_⟩
          rw [if_pos rfl, rotated]
          rfl
      | false =>
          rw [if_neg Bool.false_ne_true]
          rcases inductionHypothesis fun other later => fit other (List.mem_cons_of_mem _ later) with
            ⟨result, nowhere⟩ | ⟨front, found, back, next, rfl, earlier, isAccepted, rotated, reinserted,
              result⟩
          · exact .inl ⟨result, List.forall_mem_cons.mpr ⟨accepts, nowhere⟩⟩
          · exact .inr ⟨point :: front, found, back, next, rfl, List.forall_mem_cons.mpr ⟨accepts, earlier⟩,
              isAccepted, rotated, reinserted, result⟩

/-- The step raises nothing and moves the buffer to the best position that is accepted. -/
theorem annealingStepRotate_rotates (sound : plan.Sound) (count : plan.static.n = n) :
    ∃ buffer next move, plan.permutation[(draws.chosen : ℕ)]? = some buffer ∧
      plan.annealingStepRotate draws = .ok (next, move) ∧ Rotated plan draws buffer next move := by
  have below : (draws.chosen : ℕ) < plan.permutation.length := by
    rw [sound.length_permutation, count]
    exact draws.chosen.isLt
  obtain ⟨buffer, here⟩ : ∃ buffer, plan.permutation[(draws.chosen : ℕ)]? = some buffer :=
    ⟨_, List.getElem?_eq_getElem below⟩
  generalize isRanked : (plan.points draws.chosen buffer
    (List.range (plan.upperBound draws.chosen + 1))).insertionSort (fun left right =>
      right.2 ≤ left.2) = ranked
  have sameMembers : ∀ point, point ∈ ranked ↔
      point ∈ plan.points draws.chosen buffer (List.range (plan.upperBound draws.chosen + 1)) := by
    intro point
    rw [← isRanked]
    exact (List.perm_insertionSort _ _).mem_iff
  have sorted : ranked.Pairwise fun left right => right.2 ≤ left.2 := by
    rw [← isRanked]
    have total : Std.Total fun left right : ℕ × ℚ => right.2 ≤ left.2 :=
      ⟨fun left right => le_total right.2 left.2⟩
    have transitive : IsTrans (ℕ × ℚ) fun left right => right.2 ≤ left.2 :=
      ⟨fun _ _ _ first second => le_trans second first⟩
    exact List.pairwise_insertionSort _ _
  have step : plan.annealingStepRotate draws = plan.acceptFirst draws ranked := by
    rw [annealingStepRotate, sweep_eq sound here]
    simp only [bind, Except.bind, isRanked]
  have fit : ∀ point ∈ ranked, point.1 ≠ draws.chosen ∧ point.1 < plan.static.n := by
    intro point inside
    obtain ⟨inRange, elsewhere, -⟩ := mem_points.1 ((sameMembers point).mp inside)
    exact ⟨elsewhere, lt_of_le_of_lt (Nat.lt_succ_iff.mp (List.mem_range.mp inRange))
      (upperBound_lt sound here)⟩
  rcases acceptFirst_cases sound here fit with
    ⟨result, nowhere⟩ | ⟨front, point, back, next, isSplit, earlier, accepts, rotated, reinserted, result⟩
  · refine ⟨buffer, plan, _, here, step.trans result, .rejected ?_⟩
    exact fun point inside => nowhere point ((sameMembers point).mpr inside)
  · have listed : point ∈ ranked := isSplit ▸ List.mem_append_right _ List.mem_cons_self
    obtain ⟨inRange, elsewhere, isQuality⟩ := mem_points.mp ((sameMembers point).mp listed)
    rw [← reinserted.quality] at isQuality
    refine ⟨buffer, next, _, here, step.trans result, .accepted elsewhere
      (Nat.lt_succ_iff.mp (List.mem_range.mp inRange)) rotated reinserted (isQuality ▸ accepts) ?_⟩
    intro better inside higher
    have isBetter := (sameMembers better).mpr inside
    rw [isSplit] at isBetter sorted
    rcases List.mem_append.mp isBetter with inFront | inBack
    · exact earlier better inFront
    · -- What stands behind the accepted position is no better.
      obtain ⟨-, ordered, -⟩ := List.pairwise_append.mp sorted
      rcases List.mem_cons.mp inBack with rfl | behind
      · exact absurd isQuality (ne_of_gt higher)
      · exact absurd (isQuality ▸ (List.pairwise_cons.mp ordered).1 better behind) (not_le.mpr higher)

end Accepted

end Solver

end TorchSpyre.Scratchpad.PermLayout
