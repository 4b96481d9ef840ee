import TorchSpyre.CoarseTiling.Runs

/-!
# Where a run begins and ends

A run is cut out of a maximal stretch of one nest.  Changing the nests of some positions
outside of a run can only let it grow, and where it grows tells what cut it before.
-/

namespace TorchSpyre.CoarseTiling

variable {Nest : Type} {count : ℕ} {nest : ℕ → Nest} {breaks : ℕ → ℕ → Bool}

/-- A run of a stretch: why it starts and why it stops. -/
structure RunOf (count : ℕ) (nest : ℕ → Nest) (breaks : ℕ → ℕ → Bool) (stretch low high : ℕ) :
    Prop where
  starts : stretch = 0 ∨ nest (stretch - 1) ≠ nest stretch
  above : stretch ≤ low
  nonempty : low ≤ high
  inside : high < count
  uniform : ∀ position, stretch ≤ position → position ≤ high → nest position = nest stretch
  opens : low = stretch ∨ breaks low stretch = true
  unbroken : ∀ position, low < position → position ≤ high → breaks position stretch = false
  closes : high + 1 = count ∨ nest (high + 1) ≠ nest stretch ∨ breaks (high + 1) stretch = true

/-- The run that the pass has open. -/
structure OpenRun (nest : ℕ → Nest) (breaks : ℕ → ℕ → Bool) (stretch low last : ℕ) : Prop where
  starts : stretch = 0 ∨ nest (stretch - 1) ≠ nest stretch
  above : stretch ≤ low
  nonempty : low ≤ last
  uniform : ∀ position, stretch ≤ position → position ≤ last → nest position = nest stretch
  opens : low = stretch ∨ breaks low stretch = true
  unbroken : ∀ position, low < position → position ≤ last → breaks position stretch = false

theorem OpenRun.close {stretch low last : ℕ} (isOpen : OpenRun nest breaks stretch low last)
    (inside : last < count)
    (closes : last + 1 = count ∨ nest (last + 1) ≠ nest stretch ∨ breaks (last + 1) stretch = true) :
    RunOf count nest breaks stretch low last :=
  ⟨isOpen.starts, isOpen.above, isOpen.nonempty, inside, isOpen.uniform, isOpen.opens,
    isOpen.unbroken, closes⟩

/-- A new stretch behind another nest. -/
theorem OpenRun.fresh {last : ℕ} (different : nest last ≠ nest (last + 1)) :
    OpenRun nest breaks (last + 1) (last + 1) (last + 1) := by
  refine ⟨.inr different, le_rfl, le_rfl, ?_, .inl rfl, ?_⟩
  · intro position lower upper
    rw [le_antisymm upper lower]
  · intro position lower upper
    omega

/-- One more position of the stretch's nest: in the run, or in a run of its own. -/
theorem OpenRun.step {stretch low last : ℕ} (isOpen : OpenRun nest breaks stretch low last)
    (same : nest (last + 1) = nest stretch) :
    OpenRun nest breaks stretch (if breaks (last + 1) stretch then last + 1 else low) (last + 1) := by
  have uniform : ∀ position, stretch ≤ position → position ≤ last + 1 →
      nest position = nest stretch := by
    intro position lower upper
    rcases Nat.lt_or_ge last position with new | old
    · rw [le_antisymm upper new]
      exact same
    · exact isOpen.uniform position lower old
  have below := isOpen.nonempty
  have above := isOpen.above
  split
  next cut =>
    refine ⟨isOpen.starts, by omega, le_rfl, uniform, .inr cut, ?_⟩
    intro position lower upper
    omega
  next whole =>
    refine ⟨isOpen.starts, above, by omega, uniform, isOpen.opens, ?_⟩
    intro position lower upper
    rcases Nat.lt_or_ge last position with new | old
    · rw [le_antisymm upper new]
      exact Bool.eq_false_iff.mpr whole
    · exact isOpen.unbroken position lower old

section Scan

variable [DecidableEq Nest]

theorem runOf_of_mem_scan {left stretch low last : ℕ} (isOpen : OpenRun nest breaks stretch low last)
    (whole : count = last + 1 + left) {run : ℕ × ℕ}
    (isRun : run ∈ scan nest breaks left stretch low last) :
    ∃ start, RunOf count nest breaks start run.1 run.2 := by
  induction left generalizing stretch low last with
  | zero =>
      rw [List.mem_singleton.mp isRun]
      exact ⟨stretch, isOpen.close (by omega) (.inl (by omega))⟩
  | succ left inductionHypothesis =>
      rw [scan] at isRun
      split at isRun
      next same =>
        have extended := isOpen.step same
        split at isRun
        next cut =>
          rw [if_pos cut] at extended
          rcases List.mem_cons.mp isRun with rfl | later
          · exact ⟨stretch, isOpen.close (by omega) (.inr (.inr cut))⟩
          · exact inductionHypothesis extended (by omega) later
        next unbroken =>
          rw [if_neg unbroken] at extended
          exact inductionHypothesis extended (by omega) isRun
      next different =>
        rcases List.mem_cons.mp isRun with rfl | later
        · exact ⟨stretch, isOpen.close (by omega) (.inr (.inl different))⟩
        · have last := isOpen.uniform last (le_trans isOpen.above isOpen.nonempty) le_rfl
          apply inductionHypothesis (OpenRun.fresh _) (by omega) later
          rw [last]
          exact Ne.symm different

theorem exists_runOf (tileMisread : TileMisread Index) (positions : Positions Index)
    (chosen : ℕ → TileSpec) (override : ℕ → Option TileSpec) {position : ℕ}
    (inside : position < positions.nPositions) :
    ∃ run stretch, runBounds tileMisread positions chosen override position = some run ∧
      run.1 ≤ position ∧ position ≤ run.2 ∧
      RunOf positions.nPositions (nestAt positions chosen override)
        (breaksAt tileMisread positions chosen override) stretch run.1 run.2 := by
  obtain ⟨run, isFirst, isRun, lower, upper⟩ :=
    covers_find (runs_cover tileMisread positions chosen override) (Nat.zero_le position) inside
  have positive : 0 < positions.nPositions := Nat.zero_lt_of_lt inside
  rw [runs, runsFrom_eq_scan positive (by omega)] at isRun
  have start : OpenRun (nestAt positions chosen override)
      (breaksAt tileMisread positions chosen override) 0 0 0 := by
    refine ⟨.inl rfl, le_rfl, le_rfl, ?_, .inl rfl, ?_⟩
    · intro other _ upper
      rw [Nat.le_zero.mp upper]
    · intro other lower upper
      omega
  have whole : positions.nPositions = 0 + 1 + (positions.nPositions - (0 + 1)) := by omega
  obtain ⟨stretch, runOf⟩ := runOf_of_mem_scan start whole isRun
  exact ⟨run, stretch, isFirst, lower, upper, runOf⟩

end Scan

/-! ## Stripping the nests of positions outside a run -/

/-- What a change of nests leaves alone: the positions not stripped, and which of those misread
which. -/
structure Strips (nest stripped : ℕ → Nest) (misreads misreadsAfter : ℕ → ℕ → Prop)
    (isStripped : ℕ → Prop) (tiled : Nest) : Prop where
  kept : ∀ position, ¬isStripped position → stripped position = nest position
  lost : ∀ position, isStripped position → stripped position ≠ tiled
  misread : ∀ reader producer, ¬isStripped reader → ¬isStripped producer →
    (misreadsAfter reader producer ↔ misreads reader producer)

/-- Whether the cut at a position holds when the stripped positions before a run are gone. -/
def CutHeld (nest : ℕ → Nest) (misreads : ℕ → ℕ → Prop) (isStripped : ℕ → Prop)
    (tiled : Nest) (low position : ℕ) : Prop :=
  ∃ producer < position, misreads position producer ∧
    ∀ between, producer ≤ between → between < low → nest between = tiled ∧ ¬isStripped between

/-- At either end of a run, a neighbour of its nest that is not stripped is behind a cut that
holds. -/
structure EndsHeld (count : ℕ) (nest : ℕ → Nest) (misreads : ℕ → ℕ → Prop)
    (isStripped : ℕ → Prop) (low high : ℕ) : Prop where
  lower : 0 < low → nest (low - 1) = nest low → ¬isStripped (low - 1) →
    CutHeld nest misreads isStripped (nest low) low low
  upper : high + 1 < count → nest (high + 1) = nest low → ¬isStripped (high + 1) →
    CutHeld nest misreads isStripped (nest low) low (high + 1)

/-- A run before and after the stripping, both holding a position; breaks are misreads. -/
structure StrippedRun (count : ℕ) (nest stripped : ℕ → Nest) (breaks breaksAfter : ℕ → ℕ → Bool)
    (misreads misreadsAfter : ℕ → ℕ → Prop) (isStripped : ℕ → Prop)
    (stretch low high stretchAfter lowAfter highAfter position : ℕ) : Prop where
  breaks_iff : ∀ position stretch, nest position = nest low → (breaks position stretch = true ↔
    ∃ producer < position, stretch ≤ producer ∧ misreads position producer)
  breaksAfter_iff : ∀ position stretch, stripped position = nest low →
    (breaksAfter position stretch = true ↔
      ∃ producer < position, stretch ≤ producer ∧ misreadsAfter position producer)
  strips : Strips nest stripped misreads misreadsAfter isStripped (nest low)
  outside : ∀ position, low ≤ position → position ≤ high → ¬isStripped position
  run : RunOf count nest breaks stretch low high
  runAfter : RunOf count stripped breaksAfter stretchAfter lowAfter highAfter
  inRun : low ≤ position ∧ position ≤ high
  inRunAfter : lowAfter ≤ position ∧ position ≤ highAfter

section Stripping

variable {stripped : ℕ → Nest} {misreads misreadsAfter : ℕ → ℕ → Prop} {isStripped : ℕ → Prop}
variable {breaksAfter : ℕ → ℕ → Bool}
variable {stretch low high stretchAfter lowAfter highAfter position : ℕ}

theorem stripped_eq_iff
    (strips : Strips nest stripped misreads misreadsAfter isStripped (nest low)) {other : ℕ} :
    stripped other = nest low ↔ nest other = nest low ∧ ¬isStripped other := by
  by_cases gone : isStripped other
  · exact ⟨fun same => absurd same (strips.lost other gone), fun both => absurd gone both.2⟩
  · rw [strips.kept other gone]
    exact ⟨fun same => ⟨same, gone⟩, And.left⟩

theorem nest_eq_low (run : RunOf count nest breaks stretch low high) {other : ℕ}
    (above : stretch ≤ other) (below : other ≤ high) : nest other = nest low :=
  (run.uniform other above below).trans (run.uniform low run.above run.nonempty).symm

variable (stripping : StrippedRun count nest stripped breaks breaksAfter misreads misreadsAfter
  isStripped stretch low high stretchAfter lowAfter highAfter position)

include stripping

theorem StrippedRun.stripped_eq_low {other : ℕ} (above : low ≤ other) (below : other ≤ high) :
    stripped other = nest low :=
  (stripped_eq_iff stripping.strips).mpr
    ⟨nest_eq_low stripping.run (le_trans stripping.run.above above) below,
      stripping.outside other above below⟩

/-- The nest of the run afterwards is the one of the run before. -/
theorem StrippedRun.stripped_stretchAfter {other : ℕ} (above : stretchAfter ≤ other) (below : other ≤ highAfter) :
    stripped other = nest low := by
  rw [stripping.runAfter.uniform other above below,
    ← stripping.stripped_eq_low stripping.inRun.1 stripping.inRun.2]
  exact (stripping.runAfter.uniform position
    (le_trans stripping.runAfter.above stripping.inRunAfter.1) stripping.inRunAfter.2).symm

theorem StrippedRun.stretchAfter_le : stretchAfter ≤ low := by
  by_contra later
  rw [not_le] at later
  have between : stretchAfter - 1 ≤ high := by
    have above := stripping.runAfter.above
    have within := stripping.inRun
    have withinAfter := stripping.inRunAfter
    omega
  rcases stripping.runAfter.starts with zero | different
  · omega
  · apply different
    rw [stripping.stripped_eq_low (by omega) between]
    exact (stripping.stripped_stretchAfter le_rfl
      (le_trans stripping.runAfter.above stripping.runAfter.nonempty)).symm

theorem StrippedRun.le_stretchAfter : stretch ≤ stretchAfter := by
  by_contra earlier
  rw [not_le] at earlier
  have before := stripping.stretchAfter_le
  rcases stripping.run.starts with zero | different
  · omega
  · apply different
    have here : stripped (stretch - 1) = nest low := by
      apply stripping.stripped_stretchAfter (by omega)
      have above := stripping.run.above
      have within := stripping.inRun
      have withinAfter := stripping.inRunAfter
      omega
    rw [((stripped_eq_iff stripping.strips).mp here).1]
    exact stripping.run.uniform low stripping.run.above stripping.run.nonempty

/-- Up to the end of the run, what breaks afterwards broke before. -/
theorem StrippedRun.breaksAfter_iff_misreads {other : ℕ} (below : other ≤ high + 1)
    (same : stripped other = nest low) :
    breaksAfter other stretchAfter = true ↔
      ∃ producer < other, stretchAfter ≤ producer ∧ misreads other producer := by
  have unstripped := ((stripped_eq_iff stripping.strips).mp same).2
  rw [stripping.breaksAfter_iff other stretchAfter same]
  apply exists_congr
  intro producer
  apply and_congr_right
  intro earlier
  apply and_congr_right
  intro inStretch
  apply stripping.strips.misread other producer unstripped
  rcases Nat.lt_or_ge producer low with before | within
  · have here := stripping.stripped_stretchAfter inStretch
      (le_trans (le_of_lt before) (le_trans stripping.inRun.1 stripping.inRunAfter.2))
    exact ((stripped_eq_iff stripping.strips).mp here).2
  · exact stripping.outside producer within (by omega)

/-- Nothing breaks inside the run that did not break before. -/
theorem StrippedRun.not_breaksAfter {other : ℕ} (above : low < other) (below : other ≤ high) :
    breaksAfter other stretchAfter = false := by
  rw [Bool.eq_false_iff]
  intro broken
  have same := stripping.stripped_eq_low (le_of_lt above) below
  obtain ⟨producer, earlier, inStretch, misread⟩ :=
    (stripping.breaksAfter_iff_misreads
      (by omega) same).mp broken
  have before := (stripping.breaks_iff other stretch ((stripped_eq_iff stripping.strips).mp same).1).mpr
    ⟨producer, earlier, le_trans
      (stripping.le_stretchAfter) inStretch, misread⟩
  rw [stripping.run.unbroken other above below] at before
  cases before

/-- The run can only grow. -/
theorem StrippedRun.grows : lowAfter ≤ low ∧ high ≤ highAfter := by
  have started := stripping.stretchAfter_le
  constructor
  · by_contra later
    rw [not_le] at later
    rcases stripping.runAfter.opens with same | broken
    · omega
    · rw [stripping.not_breaksAfter later
        (le_trans stripping.inRunAfter.1 stripping.inRun.2)] at broken
      cases broken
  · by_contra earlier
    rw [not_le] at earlier
    have above : low < highAfter + 1 := Nat.lt_succ_of_le (le_trans stripping.inRun.1 stripping.inRunAfter.2)
    rcases stripping.runAfter.closes with atEnd | different | broken
    · have inside := stripping.run.inside
      omega
    · apply different
      rw [stripping.stripped_eq_low (le_of_lt above) earlier]
      exact (stripping.stripped_stretchAfter le_rfl
        (le_trans stripping.runAfter.above stripping.runAfter.nonempty)).symm
    · rw [stripping.not_breaksAfter above
        earlier] at broken
      cases broken

/-- Behind a position of the run's nest, the stretch breaks exactly where the cut held. -/
theorem StrippedRun.cutHeld_iff {other : ℕ} (below : other ≤ high + 1) (same : stripped other = nest low) :
    CutHeld nest misreads isStripped (nest low) low other ↔ breaksAfter other stretchAfter = true := by
  rw [stripping.breaksAfter_iff_misreads
    below same]
  constructor
  · rintro ⟨producer, earlier, misread, between⟩
    refine ⟨producer, earlier, ?_, misread⟩
    -- otherwise the position before the stretch is of its nest
    by_contra before
    rw [not_le] at before
    have started := stripping.stretchAfter_le
    have last := (stripped_eq_iff stripping.strips).mpr (between (stretchAfter - 1) (by omega) (by omega))
    rcases stripping.runAfter.starts with zero | different
    · omega
    · apply different
      rw [last]
      exact (stripping.stripped_stretchAfter le_rfl
        (le_trans stripping.runAfter.above stripping.runAfter.nonempty)).symm
  · rintro ⟨producer, earlier, inStretch, misread⟩
    refine ⟨producer, earlier, misread, ?_⟩
    intro between above inFront
    apply (stripped_eq_iff stripping.strips).mp
    exact stripping.stripped_stretchAfter (le_trans inStretch above)
      (le_trans (le_of_lt inFront) (le_trans stripping.inRun.1 stripping.inRunAfter.2))

theorem StrippedRun.lowAfter_eq_iff : lowAfter = low ↔
    (0 < low → nest (low - 1) = nest low → ¬isStripped (low - 1) →
      CutHeld nest misreads isStripped (nest low) low low) := by
  have grown := (stripping.grows).1
  have lowIs : stripped low = nest low := stripping.stripped_eq_low le_rfl stripping.run.nonempty
  have held := stripping.cutHeld_iff
    (le_trans stripping.run.nonempty (Nat.le_succ high)) lowIs
  constructor
  · rintro rfl positive same unstripped
    rw [held]
    refine stripping.runAfter.opens.resolve_left ?_
    intro atStart
    have before := (stripped_eq_iff stripping.strips).mpr ⟨same, unstripped⟩
    rcases stripping.runAfter.starts with zero | different
    · omega
    · rw [← atStart, before, lowIs] at different
      exact different rfl
  · intro condition
    by_contra different
    have inFront : lowAfter < low := lt_of_le_of_ne grown different
    have above := stripping.runAfter.above
    have before := (stripped_eq_iff stripping.strips).mp
      (stripping.stripped_stretchAfter
        (show stretchAfter ≤ low - 1 by omega)
        (le_trans (Nat.sub_le low 1) (le_trans stripping.inRun.1 stripping.inRunAfter.2)))
    have broken := held.mp (condition (by omega) before.1 before.2)
    rw [stripping.runAfter.unbroken low inFront (le_trans stripping.inRun.1 stripping.inRunAfter.2)] at broken
    cases broken

theorem StrippedRun.highAfter_eq_iff : highAfter = high ↔
    (high + 1 < count → nest (high + 1) = nest low → ¬isStripped (high + 1) →
      CutHeld nest misreads isStripped (nest low) low (high + 1)) := by
  have grown := stripping.grows
  constructor
  · rintro rfl bounded same unstripped
    have here := (stripped_eq_iff stripping.strips).mpr ⟨same, unstripped⟩
    rw [stripping.cutHeld_iff le_rfl here]
    rcases stripping.runAfter.closes with atEnd | different | broken
    · omega
    · rw [here, ← stripping.stripped_stretchAfter le_rfl
        (le_trans stripping.runAfter.above stripping.runAfter.nonempty)] at different
      exact absurd rfl different
    · exact broken
  · intro condition
    by_contra different
    have further : high < highAfter := lt_of_le_of_ne grown.2 (Ne.symm different)
    have here := stripping.stripped_stretchAfter
      (show stretchAfter ≤ high + 1 from le_trans
        (stripping.stretchAfter_le)
        (le_trans stripping.run.nonempty (Nat.le_succ high))) further
    have behind := (stripped_eq_iff stripping.strips).mp here
    have broken := (stripping.cutHeld_iff
      le_rfl here).mp (condition (lt_of_le_of_lt further stripping.runAfter.inside) behind.1 behind.2)
    have inside : lowAfter < high + 1 :=
      Nat.lt_succ_of_le (le_trans grown.1 stripping.run.nonempty)
    rw [stripping.runAfter.unbroken (high + 1) inside further] at broken
    cases broken

/-- The run stands exactly when the cuts at its ends hold. -/
theorem StrippedRun.run_stands_iff : (lowAfter = low ∧ highAfter = high) ↔
    EndsHeld count nest misreads isStripped low high := by
  rw [stripping.lowAfter_eq_iff,
    stripping.highAfter_eq_iff]
  exact ⟨fun both => ⟨both.1, both.2⟩, fun held => ⟨held.lower, held.upper⟩⟩

end Stripping

end TorchSpyre.CoarseTiling
