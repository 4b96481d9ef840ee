import TorchSpyre.Scratchpad.PermLayout.Headroom

/-!
# Runs without overflow

With headroom wherever a layout is recomputed, the packer in 64-bit arithmetic finishes every call
with the exact results, and no allocated buffer ends above the capacity.
-/

namespace TorchSpyre.Scratchpad.PermLayout

open Lib

namespace Solver

section Visit

variable {solver : Solver} {reference : Layout} {earlier rest : List ℕ} {buffer : ℕ} {pass : Pass}
  (consistent : solver.Consistent)
  (isLayout : solver.config.IsLayout solver.permutation reference)
  (split : solver.permutation = earlier ++ buffer :: rest)

include consistent split in
theorem before_eq : before solver.permutation buffer = earlier := by
  rw [split, before_append (not_mem_earlier consistent split)]

include consistent split in
theorem reach_nonneg : 0 ≤ solver.config.reach earlier buffer := by
  rw [← before_eq consistent split]
  exact Config.reach_nonneg consistent.alignment (fun other _ => consistent.sizes other) buffer

include consistent isLayout split

theorem top_le_reach
    (allAllocated : ∀ candidate ∈ solver.config.candidates earlier buffer,
      reference.allocated candidate = true)
    {candidate : ℕ} (inside : candidate ∈ solver.config.candidates earlier buffer) :
    solver.config.top reference candidate ≤ solver.config.reach earlier buffer := by
  rw [← before_eq consistent split] at allAllocated inside ⊢
  exact Config.top_le_reach consistent.alignment isLayout (fun other _ => consistent.sizes other)
    allAllocated inside

omit split in
theorem reference_addr_nonneg {other : ℕ} (inside : other ∈ solver.permutation)
    (allocated : reference.allocated other = true) : 0 ≤ reference.addr other :=
  isLayout.address_nonneg consistent.alignment (fun sized _ => consistent.sizes sized) other inside _
    (Layout.address_eq_some.mpr ⟨allocated, rfl⟩)

variable (tracks : Tracks solver reference earlier pass)
  (room : solver.config.HasRoom earlier buffer)

include tracks room

theorem fastDecisionChecked_eq :
    solver.fastDecisionChecked pass.intervals buffer = some (solver.fastDecision pass.intervals buffer) := by
  unfold fastDecisionChecked fastDecision
  rw [scanIntervals_eq]
  by_cases blocked : ∃ interval ∈ solver.static.liveIntervals buffer,
      pass.intervals.hasNoneAt interval = true
  · simp [blocked]
  · have allAllocated : ∀ candidate ∈ solver.config.candidates earlier buffer,
        reference.allocated candidate = true := by
      intro candidate membership
      by_contra evicted
      exact blocked ((blocked_iff consistent split tracks).mpr
        ⟨candidate, membership, by simpa using evicted⟩)
    rw [if_neg blocked, scannedTop_eq consistent isLayout split tracks allAllocated]
    have floor := le_foldl_max_initial
      ((solver.config.candidates earlier buffer).map (solver.config.top reference)) 0
    have ceiling : ((solver.config.candidates earlier buffer).map (solver.config.top reference)).foldl
        max 0 ≤ solver.config.reach earlier buffer := by
      refine foldl_max_le_iff.mpr ⟨reach_nonneg consistent split, ?_⟩
      intro height isTop
      obtain ⟨candidate, inside, rfl⟩ := List.mem_map.mp isTop
      exact top_le_reach consistent isLayout split allAllocated inside
    have rounded := roundUp_mono consistent.alignment ceiling
    have aligns := room.aligns
    have fits := room.fits
    have alignedEq := alignUp_eq_roundUp consistent.alignment floor
    simp only [alignUpChecked_eq consistent.alignment floor (le_trans (by simpa using ceiling) aligns),
      Option.bind_some]
    exact Config.fitChecked_eq (alignedEq ▸ roundUp_nonneg consistent.alignment floor)
      (consistent.sizes buffer) (le_trans (by simpa [alignedEq] using rounded) fits)

theorem partnerDecisionChecked_eq :
    solver.config.placeDecisionChecked pass.layout (solver.static.inplacePartners buffer) buffer
        (solver.gatherCandidates buffer earlier.length) =
      some (solver.config.placeDecision pass.layout (solver.static.inplacePartners buffer) buffer
        (solver.gatherCandidates buffer earlier.length)) := by
  have gathered := consistent.mem_gatherCandidates split
  refine Config.placeDecisionChecked_eq consistent.alignment (consistent.sizes buffer)
    (reach_nonneg consistent split) ?_ room.aligns room.fits
  intro allAllocated
  have sameAddress : ∀ candidate ∈ solver.config.candidates earlier buffer,
      reference.allocated candidate = true ∧ reference.addr candidate = pass.layout.addr candidate := by
    intro candidate inside
    have located := tracks.address candidate ((solver.config.mem_candidates).mp inside).1
    rw [Layout.address_eq_some.mpr ⟨allAllocated candidate ((gathered candidate).mpr inside), rfl⟩] at located
    exact Layout.address_eq_some.mp located.symm
  intro candidate inside
  have isCandidate := (gathered candidate).mp inside
  obtain ⟨allocated, atAddress⟩ := sameAddress candidate isCandidate
  have inOrder : candidate ∈ solver.permutation := by
    rw [split]
    exact List.mem_append_left _ ((solver.config.mem_candidates).mp isCandidate).1
  refine ⟨?_, consistent.sizes candidate, ?_⟩
  · rw [← atAddress]
    exact reference_addr_nonneg consistent isLayout inOrder allocated
  · have below := top_le_reach consistent isLayout split (fun other otherInside =>
      (sameAddress other otherInside).1) isCandidate
    rwa [Config.top, atAddress] at below

omit room in
theorem visitChecked_eq (roomy : solver.eligible buffer = true → solver.config.HasRoom earlier buffer) :
    solver.visitChecked earlier.length pass buffer = some (solver.visit earlier.length pass buffer) := by
  unfold visitChecked visit
  cases eligible : solver.eligible buffer with
  | false => rfl
  | true =>
      have room := roomy eligible
      have decided : (if solver.static.inplacePartners buffer = [] then
            solver.fastDecisionChecked pass.intervals buffer
          else
            solver.config.placeDecisionChecked pass.layout (solver.static.inplacePartners buffer) buffer
              (solver.gatherCandidates buffer earlier.length)) = some (reference.address buffer) := by
        rw [← decided_eq consistent isLayout split tracks eligible]
        split
        · exact fastDecisionChecked_eq consistent isLayout split tracks room
        · exact partnerDecisionChecked_eq consistent isLayout split tracks room
      simp only [Bool.not_true, Bool.false_eq_true, if_false, decided,
        decided_eq consistent isLayout split tracks eligible, Option.bind_some]
      cases located : reference.address buffer with
      | none => rfl
      | some address =>
          obtain ⟨allocated, atAddress⟩ := Layout.address_eq_some.mp located
          have inOrder : buffer ∈ solver.permutation := by simp [split]
          have low := reference_addr_nonneg consistent isLayout inOrder allocated
          have high := Config.addr_le_reach consistent.alignment isLayout
            (fun other _ => consistent.sizes other) inOrder allocated
          rw [before_eq consistent split] at high
          rw [atAddress] at low high
          have summed : checked (address + solver.sizes buffer) = some (address + solver.sizes buffer) :=
            checked_eq (add_nonneg low (consistent.sizes buffer))
              (le_trans (add_le_add_left high _) room.fits)
          simp [summed]

end Visit

section Walk

variable {solver : Solver} {reference : Layout} (consistent : solver.Consistent)
  (isLayout : solver.config.IsLayout solver.permutation reference)
  (headroom : solver.config.Headroom solver.permutation)

include consistent isLayout headroom

theorem recomputeFromChecked_eq {earlier rest : List ℕ} {pass : Pass}
    (split : solver.permutation = earlier ++ rest) (tracks : Tracks solver reference earlier pass) :
    solver.recomputeFromChecked earlier.length pass rest =
      some (solver.recomputeFrom earlier.length pass rest) := by
  induction rest generalizing earlier pass with
  | nil => rfl
  | cons head tail inductionHypothesis =>
      have room : solver.eligible head = true → solver.config.HasRoom earlier head := by
        intro eligible
        have given := headroom head (by simp [split]) eligible
        rwa [before_eq consistent split] at given
      have next := inductionHypothesis (by simp [split] : solver.permutation = (earlier ++ [head]) ++ tail)
        (visit_tracks consistent isLayout split tracks)
      rw [List.length_append, List.length_singleton] at next
      unfold recomputeFromChecked recomputeFrom
      split
      · rfl
      · rw [visitChecked_eq consistent isLayout split tracks room, Option.bind_some]
        exact next

omit isLayout in
theorem recomputeAllChecked_eq : solver.recomputeAllChecked = some solver.recomputeAll := by
  have started : Tracks solver solver.plain [] ⟨solver.layout, 0, 0, initIntervals solver.static⟩ :=
    ⟨by simp, rfl, rfl, initIntervals_aggregates solver solver.plain⟩
  have walked := recomputeFromChecked_eq consistent consistent.plain_isLayout headroom
    (List.nil_append _).symm started
  rw [List.length_nil] at walked
  unfold recomputeAllChecked recomputeAll
  rw [walked]
  rfl

end Walk

/-! ## Runs -/

/-- If the action recomputes a layout, there is headroom for it. -/
def ActionHasRoom (family : List Solver) : Action → Prop
  | .call target request =>
      match family[target]? with
      | none => True
      | some solver =>
          match solver.change request with
          | .ok (changed, true) => changed.config.Headroom changed.permutation
          | _ => True
  | .copy _ => True

instance (family : List Solver) : (action : Action) → Decidable (ActionHasRoom family action)
  | .call target request =>
      match found : family[target]? with
      | none => isTrue (by simp [ActionHasRoom, found])
      | some solver =>
          match changes : solver.change request with
          | .ok (changed, true) =>
              decidable_of_iff (changed.config.Headroom changed.permutation)
                (by simp [ActionHasRoom, found, changes])
          | .ok (changed, false) => isTrue (by simp [ActionHasRoom, found, changes])
          | .error _ => isTrue (by simp [ActionHasRoom, found, changes])
  | .copy _ => isTrue trivial

/-- Every layout recomputed along the run has headroom. -/
def RunHasRoom : List Action → List Solver → Prop
  | [], _ => True
  | action :: rest, family =>
      ActionHasRoom family action ∧ ∀ next ∈ act family action, RunHasRoom rest next

def decideRunHasRoom : (actions : List Action) → (family : List Solver) → Decidable (RunHasRoom actions family)
  | [], _ => isTrue trivial
  | action :: rest, family =>
      match acted : act family action with
      | none => decidable_of_iff (ActionHasRoom family action) (by simp [RunHasRoom, acted])
      | some next =>
          have := decideRunHasRoom rest next
          decidable_of_iff (ActionHasRoom family action ∧ RunHasRoom rest next)
            (by simp [RunHasRoom, acted])

instance (actions : List Action) (family : List Solver) : Decidable (RunHasRoom actions family) :=
  decideRunHasRoom actions family

theorem callChecked_eq {solver : Solver} (sound : solver.Sound) {request : Call}
    (room : ∀ changed, solver.change request = .ok (changed, true) →
      changed.config.Headroom changed.permutation) :
    solver.callChecked request = (solver.call request).map fun result => some result.2 := by
  have calls := call_eq_change solver request
  cases changes : solver.change request with
  | error message => simp [callChecked, calls, changes, Except.map]
  | ok outcome =>
      obtain ⟨changed, recomputes⟩ := outcome
      cases recomputes with
      | false => simp [callChecked, calls, changes, Except.map]
      | true =>
          have updates := call_updates sound (calls.trans (by rw [changes]; rfl))
          have consistent : changed.Consistent :=
            ⟨updates.sound.consistent.static, updates.sound.consistent.alignment,
              updates.sound.consistent.sizes, updates.sound.consistent.permuted,
              updates.sound.consistent.position⟩
          simp [callChecked, calls, changes, Except.map, recomputed,
            recomputeAllChecked_eq consistent (room changed changes)]

theorem actChecked_eq {family : List Solver} (sound : ∀ solver ∈ family, solver.Sound) {action : Action}
    (room : ActionHasRoom family action) :
    actChecked family action =
      match act family action with
      | none => .rejected
      | some next => .finished next := by
  cases action with
  | copy target => cases found : family[target]? <;> simp [actChecked, act, found]
  | call target request =>
      cases found : family[target]? with
      | none => simp [actChecked, act, found]
      | some solver =>
          have calls := @callChecked_eq solver (sound solver (List.mem_of_getElem? found)) request
            (by
              intro changed changes
              simpa [ActionHasRoom, found, changes] using room)
          cases called : solver.call request with
          | error message => simp [actChecked, act, found, calls, called, Except.map]
          | ok outcome => simp [actChecked, act, found, calls, called, Except.map]

theorem runChecked_eq {actions : List Action} {family : List Solver}
    (sound : ∀ solver ∈ family, solver.Sound) (room : RunHasRoom actions family) :
    runChecked actions family =
      match run actions family with
      | none => .rejected
      | some world => .finished world := by
  induction actions generalizing family with
  | nil => rfl
  | cons action rest inductionHypothesis =>
      obtain ⟨here, later⟩ := room
      have acts := actChecked_eq sound here
      cases acted : act family action with
      | none => simp [runChecked, run, acts, acted]
      | some next =>
          simp only [runChecked, run, acts, acted]
          exact inductionHypothesis (act_sound sound acted) (later next acted)

theorem newChecked_eq {shuffle : ℕ → List ℕ → List ℕ}
    (shuffled : ∀ buffer set, (shuffle buffer set).Perm set)
    {buffers : List LifetimeBoundBuffer} {permutation : List ℤ} {capacity alignment : ℤ}
    {eligible : Option (List Bool)} {start : Solver}
    (constructed : new shuffle buffers permutation capacity alignment eligible = .ok start)
    (room : start.config.Headroom start.permutation) :
    newChecked shuffle buffers permutation capacity alignment eligible = .ok (some start) := by
  have sound := new_sound shuffled constructed
  obtain ⟨-, -, static, built, rfl⟩ := new_eq_ok constructed
  have consistent : (initial static buffers (permutation.map Int.toNat)
      (eligible.getD (List.replicate buffers.length true))).Consistent :=
    ⟨sound.consistent.static, sound.consistent.alignment, sound.consistent.sizes,
      sound.consistent.permuted, sound.consistent.position⟩
  unfold new at constructed
  unfold newChecked
  split at constructed
  · cases constructed
  next positive =>
    split at constructed
    · cases constructed
    next sorted =>
      rw [built] at constructed
      simp only at constructed
      split at constructed
      · cases constructed
      next flags =>
        rw [if_neg positive, if_neg sorted, built]
        simp only [if_neg flags]
        rw [recomputeAllChecked_eq consistent room]

/-- A construction and a run with headroom throughout are exact in 64-bit arithmetic, and allocated
buffers end within the capacity. -/
theorem runChecked_fits {shuffle : ℕ → List ℕ → List ℕ}
    (shuffled : ∀ buffer set, (shuffle buffer set).Perm set)
    {buffers : List LifetimeBoundBuffer} {permutation : List ℤ} {capacity alignment : ℤ}
    {eligible : Option (List Bool)} {start : Solver} {actions : List Action}
    (constructed : new shuffle buffers permutation capacity alignment eligible = .ok start)
    (startRoom : start.config.Headroom start.permutation) (room : RunHasRoom actions [start]) :
    newChecked shuffle buffers permutation capacity alignment eligible = .ok (some start) ∧
      (runChecked actions [start] =
        match run actions [start] with
        | none => .rejected
        | some world => .finished world) ∧
      ∀ world, run actions [start] = some world → ∀ solver ∈ world, ∀ buffer < solver.static.n,
        solver.layout.allocated buffer = true →
        solver.layout.addr buffer + solver.sizes buffer ≤ solver.static.capacity := by
  have sound : ∀ solver ∈ [start], solver.Sound := by simpa using new_sound shuffled constructed
  refine ⟨newChecked_eq shuffled constructed startRoom, runChecked_eq sound room, ?_⟩
  intro world ran solver inWorld buffer bounded allocated
  have consistent := (run_sound sound ran solver inWorld).consistent
  have results := (run_sound sound ran solver inWorld).results
  have safe := consistent.plain_isLayout.safe consistent.alignment fun other _ => consistent.sizes other
  have located := results.address buffer bounded
  rw [Layout.address_eq_some.mpr ⟨allocated, rfl⟩] at located
  obtain ⟨plainAllocated, samePlace⟩ := Layout.address_eq_some.mp located.symm
  have fits := safe.fits buffer (consistent.mem_permutation.mpr bounded) plainAllocated
  rwa [samePlace] at fits

theorem runChecked_fits_handoff :
    ∃ start world, new (fun _ set => set) handoffBuffers [0, 1, 2] 512 128 none = .ok start ∧
      runChecked handoffActions [start] = .finished world ∧
      ∀ solver ∈ world, ∀ buffer < solver.static.n, solver.layout.allocated buffer = true →
        solver.layout.addr buffer + solver.sizes buffer ≤ solver.static.capacity := by
  have accepted : ((new (fun _ set => set) handoffBuffers [0, 1, 2] 512 128 none).toOption.bind
      fun start => if start.config.Headroom start.permutation ∧ RunHasRoom handoffActions [start] then
        run handoffActions [start] else none).isSome = true := by decide
  cases constructed : new (fun _ set => set) handoffBuffers [0, 1, 2] 512 128 none with
  | error message => simp [constructed, Except.toOption] at accepted
  | ok start =>
      simp only [constructed, Except.toOption, Option.bind_some] at accepted
      split at accepted
      next rooms =>
        obtain ⟨world, ran⟩ := Option.isSome_iff_exists.mp accepted
        obtain ⟨-, exact, fits⟩ := runChecked_fits (fun _ set => List.Perm.refl set) constructed
          rooms.1 rooms.2
        rw [ran] at exact
        exact ⟨start, world, rfl, exact, fits world ran⟩
      · cases accepted

/-- A buffer of `INT64_MAX` bytes on top of another. -/
def overflowingBuffers : List LifetimeBoundBuffer :=
  [{ LifetimeBoundBuffer.usedTwice "a" 128 0 0 with firstUseIsRead := true },
    .usedTwice "b" 9223372036854775807 0 0]

theorem newChecked_overflows :
    newChecked (fun _ set => set) overflowingBuffers [0, 1] 1024 128 none = .ok none := by
  have overflows : (match newChecked (fun _ set => set) overflowingBuffers [0, 1] 1024 128 none with
      | .ok none => true
      | _ => false) = true := by decide
  split at overflows
  · next constructed => exact constructed
  · cases overflows

end Solver

end TorchSpyre.Scratchpad.PermLayout
