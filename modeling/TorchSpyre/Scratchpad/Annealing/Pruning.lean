import TorchSpyre.Scratchpad.Annealing.Reinsertion

/-!
# The positions that `annealing_step_rotate` leaves out

A buffer without an address is probed up to the position behind the last allocated buffer.  The
positions behind have the same quality when the buffer has no address there and no buffer behind
that overlaps it finds a place without it; otherwise a later position lets such a buffer in.
-/

namespace TorchSpyre.Scratchpad.PermLayout

open Lib

namespace Config

variable {config : Config} {others : List ℕ} {buffer : ℕ}

def qualityAt (config : Config) (others : List ℕ) (buffer position : ℕ) : ℚ :=
  config.qualityOf (config.layoutAt others buffer position) (inserted others buffer position)

theorem qualityAt_of_evicted {position : ℕ}
    (evicted : (config.layoutAt others buffer position).allocated buffer = false) :
    config.qualityAt others buffer position =
      config.qualityOf (config.layoutAt others buffer position) others := by
  rw [qualityAt, qualityOf_inserted, share_of_evicted evicted, zero_add]

section Positions

variable (nodup : (buffer :: others).Nodup) (nonnegative : ∀ buffer, 0 ≤ config.sizes buffer)

include nodup nonnegative

/-- In front of the buffer the layout is the one without it. -/
theorem layoutAt_front (position : ℕ) : ∀ other ∈ others.take position,
    (config.layoutAt others buffer position).address other =
      (config.fromScratch others).address other := by
  have isLayout := layoutAt_isLayout nodup nonnegative position
  have whole := without_isLayout nodup nonnegative
  have front : config.IsLayout (others.take position) (config.fromScratch others) := by
    intro other inside
    rw [whole other (List.mem_of_mem_take inside)]
    congr 1
    conv_lhs => rw [← List.take_append_drop position others]
    exact before_of_mem_left inside
  exact config.isLayout_unique (fun other _ => nonnegative other) isLayout.of_append front

/-- With the buffer evicted and nobody behind it waiting for its place, only the layout without it
counts. -/
theorem qualityAt_eq {position : ℕ} (eligible : config.eligible buffer = true)
    (evicted : (config.layoutAt others buffer position).allocated buffer = false)
    (clear : ∀ other ∈ others.drop position, config.static.overlaps other buffer = true →
      (config.fromScratch others).address other = none) :
    config.qualityAt others buffer position =
      config.qualityOf (config.fromScratch others) others := by
  rw [qualityAt_of_evicted evicted, qualityOf_eq_sum, qualityOf_eq_sum]
  apply congrArg
  apply List.map_congr_left
  intro other inside
  have same : (config.layoutAt others buffer position).address other =
      (config.fromScratch others).address other := by
    cases located : (config.layoutAt others buffer position).address other with
    | some address =>
        exact (without_of_layoutAt nodup nonnegative eligible evicted other inside address located).symm
    | none =>
        cases found : (config.fromScratch others).address other with
        | none => rfl
        | some address =>
            rw [layoutAt_of_without nodup nonnegative clear other inside address found] at located
            cases located
  rw [share, share, Solver.allocated_congr same]

/-- A buffer that waits for the place of an evicted one raises the quality at the end. -/
theorem qualityAt_lt {position : ℕ} (eligible : config.eligible buffer = true)
    (evicted : (config.layoutAt others buffer position).allocated buffer = false)
    (counts : ∀ other ∈ others, 0 < config.static.weight other * config.sizes other)
    {waiting : ℕ} (behind : waiting ∈ others.drop position)
    (overlap : config.static.overlaps waiting buffer = true)
    (placed : (config.fromScratch others).allocated waiting = true) :
    config.qualityAt others buffer position <
      config.qualityOf (config.fromScratch others) others := by
  have inside := List.mem_of_mem_drop behind
  rw [qualityAt_of_evicted evicted]
  apply qualityOf_lt (fun other isOther => (counts other isOther).le) _ inside _ placed
    (counts waiting inside)
  · intro other isOther allocated
    have located := Layout.address_eq_some.mpr ⟨allocated, rfl⟩
    exact (Layout.address_eq_some.mp
      (without_of_layoutAt nodup nonnegative eligible evicted other isOther _ located)).1
  · -- It rests on the evicted buffer.
    rw [← Layout.address_eq_none,
      layoutAt_isLayout nodup nonnegative position waiting (mem_inserted_of_mem inside position),
      decision]
    split
    next =>
      apply config.placeDecision_of_unallocated _ evicted
      apply config.mem_candidates.mpr
      exact ⟨(mem_before_inserted nodup inside buffer).mpr (.inr ⟨rfl, behind⟩), eligible, overlap⟩
    next => rfl

end Positions

end Config

/-! ## Plans -/

namespace Solver

theorem run_static {actions : List Action} {family world : List Solver} {static : StaticData}
    (sound : ∀ solver ∈ family, solver.Sound) (same : ∀ solver ∈ family, solver.static = static)
    (ran : run actions family = some world) : ∀ solver ∈ world, solver.static = static := by
  induction actions generalizing family with
  | nil =>
      cases ran
      exact same
  | cons action rest inductionHypothesis =>
      simp only [run] at ran
      split at ran
      next => cases ran
      next next acted =>
        apply inductionHypothesis (act_sound sound acted) _ ran
        obtain ⟨target, request, chosen, delta, changed, rfl, found, accepted, rfl⟩ |
          ⟨target, chosen, rfl, found, rfl⟩ := act_cases acted
        · have listed := List.mem_of_getElem? found
          intro solver inside
          rcases List.mem_or_eq_of_mem_set inside with kept | rfl
          · exact same solver kept
          · rw [(call_updates (sound chosen listed) accepted).static, same chosen listed]
        · intro solver inside
          rcases List.mem_append.mp inside with kept | copied
          · exact same solver kept
          · rw [List.mem_singleton.mp copied]
            exact same chosen (List.mem_of_getElem? found)

end Solver

theorem weightOf_pos (buffer : LifetimeBoundBuffer) : 0 < weightOf buffer := by
  have used : (0 : ℚ) < buffer.uses.length := by
    exact_mod_cast List.length_pos_of_ne_nil buffer.usesNonempty
  rw [weightOf]
  split
  next => rwa [add_zero]
  next => exact add_pos used (by norm_num)

theorem Planned.weight_pos {plan : Solver} (planned : Planned plan) :
    ∀ buffer < plan.static.n, 0 < plan.static.weight buffer := by
  obtain ⟨_, buffers, _, _, _, _, start, _, _, shuffled, constructed, ran, listed⟩ := planned
  have started : ∀ solver ∈ [start], solver.Sound := by
    intro solver isStart
    rw [List.mem_singleton.mp isStart]
    exact Solver.new_sound shuffled constructed
  have same := Solver.run_static started (fun solver isStart => by
    rw [List.mem_singleton.mp isStart]) ran plan listed
  obtain ⟨-, -, static, built, rfl⟩ := Solver.new_eq_ok constructed
  rw [same]
  show ∀ buffer < static.n, 0 < static.weight buffer
  unfold StaticData.build at built
  simp only at built
  split at built
  next => cases built
  next =>
    split at built
    next => cases built
    next =>
      split at built
      next => cases built
      next =>
        cases built
        intro buffer bounded
        simp only [List.getD_eq_getElem?_getD, List.getElem?_map,
          List.getElem?_eq_getElem bounded, Option.map_some, Option.getD_some]
        exact weightOf_pos _

namespace Solver

/-! ## Reinsertion -/

/-- The quality with the buffer of one position reinserted at another. -/
def reinsertedQuality (plan : Solver) (i p : ℤ) : Except String ℚ := do
  let (_, next) ← plan.rotate i p
  return next.totalQuality

/-- `max(pos for pos, b in enumerate(allocated) if b)`, zero by default. -/
def lastAllocated (plan : Solver) : ℕ :=
  ((List.range plan.static.n).filter fun pos =>
    plan.layout.allocated (plan.permutation.getD pos 0)).foldl max 0

theorem le_lastAllocated {plan : Solver} {pos buffer : ℕ} (bounded : pos < plan.static.n)
    (here : plan.permutation[pos]? = some buffer)
    (allocated : plan.layout.allocated buffer = true) : pos ≤ plan.lastAllocated := by
  apply le_foldl_max
  apply List.mem_filter.mpr
  refine ⟨List.mem_range.mpr bounded, ?_⟩
  rw [List.getD_eq_getElem?_getD, here]
  exact allocated

/-- A move takes the buffer out and inserts it again. -/
theorem moveInPermutation_permutation {plan : Solver} {i j buffer : ℕ}
    (here : plan.permutation[i]? = some buffer) (jBounded : j < plan.permutation.length)
    (distinct : i ≠ j) :
    (plan.moveInPermutation i j).permutation = inserted (plan.permutation.eraseIdx i) buffer j := by
  obtain ⟨iBounded, -⟩ := List.getElem?_eq_some_iff.mp here
  have atIndex : plan.permutation.getD i 0 = buffer := by
    rw [List.getD_eq_getElem?_getD, here, Option.getD_some]
  obtain ⟨front, block, back, lower, upper, cases⟩ := exists_block iBounded jBounded distinct
  rw [atIndex] at cases
  rcases cases with ⟨forward, split⟩ | ⟨backward, split⟩
  · have lowerEq : front.length = i := by omega
    have upperEq : front.length + block.length = j := by omega
    have moved := rotateRange_forward front block back buffer
    rw [← split, upperEq, lowerEq] at moved
    have rest : plan.permutation.eraseIdx i = (front ++ block) ++ back := by
      rw [split, ← lowerEq, List.eraseIdx_append_of_length_le le_rfl, Nat.sub_self,
        List.eraseIdx_cons_zero, List.append_assoc]
    have length : (front ++ block).length = j := by rw [List.length_append, upperEq]
    rw [inserted, rest, List.take_left' length, List.drop_left' length]
    simp only [moveInPermutation, if_pos forward, moved, List.append_assoc]
  · have lowerEq : front.length = j := by omega
    have upperEq : front.length + block.length = i := by omega
    have moved := rotateRange_backward front block back buffer
    rw [← split, upperEq, lowerEq] at moved
    have rest : plan.permutation.eraseIdx i = front ++ (block ++ back) := by
      have length : (front ++ block).length = i := by rw [List.length_append, upperEq]
      rw [split, ← List.append_assoc, ← length, List.eraseIdx_append_of_length_le le_rfl,
        Nat.sub_self, List.eraseIdx_cons_zero, List.append_assoc]
    rw [inserted, rest, List.take_left' lowerEq, List.drop_left' lowerEq]
    simp only [moveInPermutation, if_neg (Nat.not_lt_of_gt backward), moved]

theorem inserted_eraseIdx {order : List ℕ} {i buffer : ℕ} (here : order[i]? = some buffer) :
    inserted (order.eraseIdx i) buffer i = order := by
  obtain ⟨bounded, isBuffer⟩ := List.getElem?_eq_some_iff.mp here
  have length : (order.take i).length = i := by
    rw [List.length_take]
    omega
  rw [inserted, List.eraseIdx_eq_take_drop_succ, List.take_left' length, List.drop_left' length,
    ← isBuffer, List.getElem_cons_drop, List.take_append_drop]

/-- The buffer reinserted at a position: the quality is that of the order. -/
theorem reinsertedQuality_eq {plan : Solver} (sound : plan.Sound) {i p buffer : ℕ}
    (here : plan.permutation[i]? = some buffer) (bounded : p < plan.static.n) :
    plan.reinsertedQuality i p =
      .ok (plan.config.qualityAt (plan.permutation.eraseIdx i) buffer p) := by
  obtain ⟨inside, -⟩ := List.getElem?_eq_some_iff.mp here
  rw [sound.length_permutation] at inside
  have inRange : ¬((i : ℤ) < 0 ∨ (i : ℤ) ≥ (plan.static.n : ℤ) ∨ (p : ℤ) < 0 ∨
      (p : ℤ) ≥ (plan.static.n : ℤ)) := by omega
  by_cases same : i = p
  · subst same
    have stays : plan.rotate i i = .ok (0, plan) := by
      simp only [rotate, if_neg inRange, if_true]
    rw [reinsertedQuality, stays, Config.qualityAt, Config.layoutAt, inserted_eraseIdx here,
      ← plain, ← sound.results.quality]
    rfl
  · have atIndex : plan.permutation.getD i 0 = buffer := by
      rw [List.getD_eq_getElem?_getD, here, Option.getD_some]
    have moved := moveInPermutation_permutation here
      (by rwa [sound.length_permutation] : p < plan.permutation.length) same
    have different : ¬(i : ℤ) = p := by omega
    have rotated : ∃ delta next, plan.rotate i p = .ok (delta, next) ∧ next.config = plan.config ∧
        next.permutation = inserted (plan.permutation.eraseIdx i) buffer p := by
      by_cases eligible : plan.eligible buffer = true
      · refine ⟨(plan.moveInPermutation i p).recomputeAll.totalQuality - plan.totalQuality,
          (plan.moveInPermutation i p).recomputeAll, ?_, rfl, moved⟩
        simp only [rotate, if_neg inRange, if_neg different, Int.toNat_natCast, atIndex, eligible,
          Bool.not_true, Bool.false_eq_true, if_false]
        rfl
      · refine ⟨0, plan.moveInPermutation i p, ?_, rfl, moved⟩
        simp only [rotate, if_neg inRange, if_neg different, Int.toNat_natCast, atIndex,
          Bool.eq_false_iff.mpr eligible, Bool.not_false, if_true]
    obtain ⟨delta, next, rotated, sameConfig, order⟩ := rotated
    have results := (rotate_updates sound rotated).sound.results
    rw [reinsertedQuality, rotated, Config.qualityAt, Config.layoutAt, ← order, ← sameConfig, ← plain,
      ← results.quality]
    rfl

/-- A buffer that is not eligible can stand anywhere. -/
theorem reinsertedQuality_of_ineligible {plan : Solver} (sound : plan.Sound) {i p buffer : ℕ}
    (here : plan.permutation[i]? = some buffer) (ineligible : plan.eligible buffer = false)
    (bounded : p < plan.static.n) : plan.reinsertedQuality i p = .ok plan.totalQuality := by
  obtain ⟨inside, -⟩ := List.getElem?_eq_some_iff.mp here
  rw [sound.length_permutation] at inside
  have inRange : ¬((i : ℤ) < 0 ∨ (i : ℤ) ≥ (plan.static.n : ℤ) ∨ (p : ℤ) < 0 ∨
      (p : ℤ) ≥ (plan.static.n : ℤ)) := by omega
  have atIndex : plan.permutation.getD i 0 = buffer := by
    rw [List.getD_eq_getElem?_getD, here, Option.getD_some]
  by_cases same : (i : ℤ) = p
  · have stays : plan.rotate i p = .ok (0, plan) := by
      simp only [rotate, if_neg inRange, if_pos same]
    rw [reinsertedQuality, stays]
    rfl
  · have moved : plan.rotate i p = .ok (0, plan.moveInPermutation i p) := by
      simp only [rotate, if_neg inRange, if_neg same, Int.toNat_natCast, atIndex, ineligible,
        Bool.not_false, if_true]
    rw [reinsertedQuality, moved]
    rfl

/-! ## The cut -/

/-- The positions behind the cut have the quality of the last probed one. -/
def CutLosesNothing (plan : Solver) (i : ℕ) : Prop :=
  ∀ p : ℕ, plan.lastAllocated + 1 < p → p < plan.static.n →
    plan.reinsertedQuality i p = plan.reinsertedQuality i (plan.lastAllocated + 1 : ℕ)

/-- The buffer has no address directly behind the last allocated one, and no buffer behind that
overlaps it finds a place when the buffer is left out. -/
structure NobodyWaits (plan : Solver) (i buffer : ℕ) : Prop where
  stays : i ≤ plan.lastAllocated + 1 ∨
    plan.config.decision plan.layout (plan.permutation.take (plan.lastAllocated + 1)) buffer = none
  clear : ∀ other ∈ (plan.permutation.eraseIdx i).drop (plan.lastAllocated + 1),
    plan.static.overlaps other buffer = true →
      (plan.config.fromScratch (plan.permutation.eraseIdx i)).address other = none

section Cut

variable {plan : Solver} (sound : plan.Sound) {i buffer : ℕ}
  (here : plan.permutation[i]? = some buffer)

include sound here

theorem nodup_eraseIdx : (buffer :: plan.permutation.eraseIdx i).Nodup := by
  rw [← (inserted_perm (plan.permutation.eraseIdx i) buffer i).nodup_iff, inserted_eraseIdx here]
  exact sound.consistent.nodup

/-- The plan's own layout is the one with the buffer at its position. -/
theorem address_eq_layoutAt {other : ℕ} (bounded : other < plan.static.n) :
    plan.layout.address other =
      (plan.config.layoutAt (plan.permutation.eraseIdx i) buffer i).address other := by
  rw [sound.results.address other bounded, Config.layoutAt, inserted_eraseIdx here]
  rfl

/-- In front of the cut nothing moves when the buffer comes from behind it. -/
theorem layoutAt_before_cut {position other : ℕ} (order : position ≤ i)
    (front : other ∈ plan.permutation.take position) :
    (plan.config.layoutAt (plan.permutation.eraseIdx i) buffer position).address other =
      plan.layout.address other := by
  have nodup := nodup_eraseIdx sound here
  have bounded := sound.consistent.mem_permutation.mp (List.mem_of_mem_take front)
  have sameFront : (plan.permutation.eraseIdx i).take position = plan.permutation.take position := by
    rw [List.eraseIdx_eq_take_drop_succ, List.take_append_of_le_length, List.take_take,
      Nat.min_eq_left order]
    rw [List.length_take]
    obtain ⟨inside, -⟩ := List.getElem?_eq_some_iff.mp here
    omega
  have inFront : other ∈ (plan.permutation.eraseIdx i).take position := sameFront ▸ front
  have inLonger : other ∈ (plan.permutation.eraseIdx i).take i :=
    (List.take_subset_take_left _ order) inFront
  rw [address_eq_layoutAt sound here bounded,
    plan.config.layoutAt_front nodup sound.consistent.sizes position other inFront,
    plan.config.layoutAt_front nodup sound.consistent.sizes i other inLonger]

/-- In front of its position the buffer's address is decided on the present addresses. -/
theorem layoutAt_decision {position : ℕ} (order : position < i) :
    (plan.config.layoutAt (plan.permutation.eraseIdx i) buffer position).address buffer =
      plan.config.decision plan.layout (plan.permutation.take position) buffer := by
  have nodup := nodup_eraseIdx sound here
  obtain ⟨inside, -⟩ := List.getElem?_eq_some_iff.mp here
  have front : before (inserted (plan.permutation.eraseIdx i) buffer position) buffer =
      plan.permutation.take position := by
    have fresh : buffer ∉ (plan.permutation.eraseIdx i).take position :=
      fun listed => (List.nodup_cons.mp nodup).1 (List.mem_of_mem_take listed)
    rw [inserted, before_append fresh, List.eraseIdx_eq_take_drop_succ,
      List.take_append_of_le_length, List.take_take, Nat.min_eq_left order.le]
    rw [List.length_take]
    omega
  rw [Config.layoutAt_isLayout nodup sound.consistent.sizes position buffer
    (Config.self_mem_inserted position), front]
  apply plan.config.decision_congr (fun _ _ _ _ => Iff.rfl)
  · exact fun other isFront => layoutAt_before_cut sound here order.le isFront
  · exact fun other _ => sound.consistent.sizes other

/-- The buffer is evicted directly behind the last allocated one. -/
theorem evicted_behind_cut (unallocated : plan.layout.allocated buffer = false)
    (stays : i ≤ plan.lastAllocated + 1 ∨ plan.config.decision plan.layout
      (plan.permutation.take (plan.lastAllocated + 1)) buffer = none) :
    (plan.config.layoutAt (plan.permutation.eraseIdx i) buffer
      (plan.lastAllocated + 1)).allocated buffer = false := by
  have nodup := nodup_eraseIdx sound here
  have bounded := sound.consistent.mem_permutation.mp (List.mem_of_getElem? here)
  have atPosition : i ≤ plan.lastAllocated + 1 → (plan.config.layoutAt
      (plan.permutation.eraseIdx i) buffer (plan.lastAllocated + 1)).allocated buffer = false := by
    intro order
    apply Config.evicted_later nodup sound.consistent.alignment sound.consistent.sizes order
    rw [← Layout.address_eq_none] at unallocated ⊢
    rw [← address_eq_layoutAt sound here bounded]
    exact unallocated
  rcases stays with order | decided
  · exact atPosition order
  · by_cases order : i ≤ plan.lastAllocated + 1
    · exact atPosition order
    · rw [← Layout.address_eq_none, layoutAt_decision sound here (not_le.mp order)]
      exact decided

theorem cutLosesNothing_of_nobodyWaits (unallocated : plan.layout.allocated buffer = false)
    (eligible : plan.eligible buffer = true) (nobody : plan.NobodyWaits i buffer) :
    plan.CutLosesNothing i := by
  have nodup := nodup_eraseIdx sound here
  have evicted := evicted_behind_cut sound here unallocated nobody.stays
  have constant : ∀ p, plan.lastAllocated + 1 ≤ p →
      plan.config.qualityAt (plan.permutation.eraseIdx i) buffer p =
        plan.config.qualityOf (plan.config.fromScratch (plan.permutation.eraseIdx i))
          (plan.permutation.eraseIdx i) := by
    intro p behind
    apply Config.qualityAt_eq nodup sound.consistent.sizes eligible
    · exact Config.evicted_later nodup sound.consistent.alignment sound.consistent.sizes behind evicted
    · intro other isBehind
      exact nobody.clear other (List.drop_subset_drop_left _ behind isBehind)
  intro p behind bounded
  rw [reinsertedQuality_eq sound here bounded, reinsertedQuality_eq sound here (by omega),
    constant p behind.le, constant _ le_rfl]

omit here in
/-- All allocated buffers stand in front of the cut. -/
theorem mem_take_of_allocated {other : ℕ} (inside : other ∈ plan.permutation)
    (allocated : plan.layout.allocated other = true) :
    other ∈ plan.permutation.take (plan.lastAllocated + 1) := by
  obtain ⟨pos, bounded, isOther⟩ := List.mem_iff_getElem.mp inside
  have found : plan.permutation[pos]? = some other := List.getElem?_eq_some_iff.mpr ⟨bounded, isOther⟩
  have early := le_lastAllocated (sound.length_permutation ▸ bounded) found allocated
  apply List.mem_take_iff_getElem.mpr
  exact ⟨pos, by omega, isOther⟩

theorem nobodyWaits_of_cutLosesNothing (eligible : plan.eligible buffer = true)
    (unallocated : plan.layout.allocated buffer = false)
    (counts : ∀ other < plan.static.n, 0 < plan.static.weight other * plan.sizes other)
    (cut : plan.CutLosesNothing i) : plan.NobodyWaits i buffer := by
  have nodup := nodup_eraseIdx sound here
  have bounded := sound.consistent.mem_permutation.mp (List.mem_of_getElem? here)
  obtain ⟨inside, -⟩ := List.getElem?_eq_some_iff.mp here
  rw [sound.length_permutation] at inside
  have isLoop : ∀ other ∈ plan.permutation.eraseIdx i, other < plan.static.n :=
    fun other listed => sound.consistent.mem_permutation.mp (List.mem_of_mem_eraseIdx listed)
  have othersCount : ∀ other ∈ plan.permutation.eraseIdx i,
      0 < plan.config.static.weight other * plan.config.sizes other :=
    fun other listed => counts other (isLoop other listed)
  have stays : i ≤ plan.lastAllocated + 1 ∨ plan.config.decision plan.layout
      (plan.permutation.take (plan.lastAllocated + 1)) buffer = none := by
    by_contra neither
    rw [not_or, not_le] at neither
    obtain ⟨far, placed⟩ := neither
    -- Behind the cut the buffer has an address and everything else keeps its own.
    rw [← layoutAt_decision sound here far, Layout.address_eq_none, Bool.not_eq_false] at placed
    have same := cut i far inside
    rw [reinsertedQuality_eq sound here inside, reinsertedQuality_eq sound here (by omega),
      Except.ok.injEq] at same
    have evicted : (plan.config.layoutAt (plan.permutation.eraseIdx i) buffer i).allocated buffer =
        false := by
      rw [← Layout.address_eq_none, ← address_eq_layoutAt sound here bounded]
      exact Layout.address_eq_none.mpr unallocated
    rw [Config.qualityAt_of_evicted evicted, Config.qualityAt, Config.qualityOf_inserted,
      Config.share, if_pos placed] at same
    have grows : ∀ other ∈ plan.permutation.eraseIdx i,
        (plan.config.layoutAt (plan.permutation.eraseIdx i) buffer i).allocated other = true →
        (plan.config.layoutAt (plan.permutation.eraseIdx i) buffer
          (plan.lastAllocated + 1)).allocated other = true := by
      intro other listed allocated
      have present : plan.layout.allocated other = true := by
        rw [allocated_congr (address_eq_layoutAt sound here (isLoop other listed))]
        exact allocated
      have front := mem_take_of_allocated sound (List.mem_of_mem_eraseIdx listed) present
      rw [allocated_congr (layoutAt_before_cut sound here far.le front)]
      exact present
    have more := Config.qualityOf_le (fun other listed => (othersCount other listed).le) grows
    have own : 0 < plan.config.static.weight buffer * plan.config.sizes buffer := counts buffer bounded
    linarith
  refine ⟨stays, ?_⟩
  intro waiting behind overlap
  have evicted := evicted_behind_cut sound here unallocated stays
  by_contra placed
  have last : plan.lastAllocated + 1 < (plan.permutation.eraseIdx i).length := by
    by_contra short
    rw [List.drop_eq_nil_of_le (not_lt.mp short)] at behind
    cases behind
  have length : (plan.permutation.eraseIdx i).length + 1 = plan.static.n := by
    rw [List.length_eraseIdx_add_one (by rwa [sound.length_permutation]), sound.length_permutation]
  have same := cut (plan.permutation.eraseIdx i).length last (by omega)
  rw [reinsertedQuality_eq sound here (by omega), reinsertedQuality_eq sound here (by omega),
    Except.ok.injEq] at same
  have atEnd : plan.config.qualityAt (plan.permutation.eraseIdx i) buffer
      (plan.permutation.eraseIdx i).length =
        plan.config.qualityOf (plan.config.fromScratch (plan.permutation.eraseIdx i))
          (plan.permutation.eraseIdx i) := by
    apply Config.qualityAt_eq nodup sound.consistent.sizes eligible
    · exact Config.evicted_later nodup sound.consistent.alignment sound.consistent.sizes last.le evicted
    · rw [List.drop_length]
      exact fun _ listed => absurd listed List.not_mem_nil
  have lower := Config.qualityAt_lt nodup sound.consistent.sizes eligible evicted othersCount behind
    overlap (by rwa [Layout.address_eq_none, Bool.not_eq_false] at placed)
  rw [atEnd] at same
  exact lower.ne same.symm

end Cut

/-- A buffer that never fits, and two that rest on it. -/
def blockedBuffers : List LifetimeBoundBuffer :=
  [.usedTwice "wide" 512 0 2, .usedTwice "early" 128 0 0, .usedTwice "late" 128 2 0]

theorem blocked_plan :
    ∃ plan, new (fun _ set => set) blockedBuffers [0, 1, 2] 256 128 none = .ok plan ∧
      Planned plan ∧ plan.permutation[0]? = some 0 ∧ plan.layout.allocated 0 = false ∧
      plan.lastAllocated = 0 ∧ plan.static.n = 3 ∧
      (plan.reinsertedQuality 0 1).toOption = some 320 ∧
      (plan.reinsertedQuality 0 2).toOption = some 640 := by
  have computed : ((new (fun _ set => set) blockedBuffers [0, 1, 2] 256 128 none).toOption.all
      fun plan => plan.permutation[0]? == some 0 && !plan.layout.allocated 0 &&
        plan.lastAllocated == 0 && plan.static.n == 3 &&
        (plan.reinsertedQuality 0 1).toOption == some 320 &&
        (plan.reinsertedQuality 0 2).toOption == some 640) = true ∧
      (new (fun _ set => set) blockedBuffers [0, 1, 2] 256 128 none).toOption.isSome = true := by
    decide +kernel
  cases constructed : new (fun _ set => set) blockedBuffers [0, 1, 2] 256 128 none with
  | error message =>
      rw [constructed] at computed
      cases computed.2
  | ok plan =>
      rw [constructed] at computed
      simp only [Except.toOption, Option.all_some, Bool.and_eq_true, beq_iff_eq,
        Bool.not_eq_eq_eq_not, Bool.not_true] at computed
      obtain ⟨⟨⟨⟨⟨⟨here, unallocated⟩, last⟩, count⟩, probed⟩, pruned⟩, -⟩ := computed
      refine ⟨plan, rfl, ?_, here, unallocated, last, count, probed, pruned⟩
      exact ⟨fun _ set => set, _, _, _, _, _, plan, [], [plan], fun _ set => List.Perm.refl set,
        constructed, rfl, List.mem_singleton_self plan⟩

end Solver

end TorchSpyre.Scratchpad.PermLayout
