import TorchSpyre.CoOptimizer.Coherence
import TorchSpyre.CoarseTiling.SolverRuns

/-!
# Structural changes keep the invariant

A change of some divisions resizes what it reassigns and refreshes the flags of what it affects;
off these the old sizes and flags are still right.
-/

namespace TorchSpyre.CoOptimizer

open Lib

variable {Choice Index : Type} {problem : Problem Choice Index}

/-! ## What a change can affect -/

theorem mem_parentsIdx_of_child {idx : ℕ} {edge : ℕ × EdgeRelation Choice}
    (isChild : edge ∈ problem.children idx) : idx ∈ problem.parentsIdx edge.1 := by
  obtain ⟨⟨child, position⟩, isBuffer, isEdge⟩ := List.mem_flatMap.mp isChild
  obtain ⟨parent, isParent, named⟩ := List.mem_filterMap.mp isEdge
  have atPosition : problem.bufs[position]? = some child := List.mem_zipIdx_iff_getElem?.mp isBuffer
  split at named
  next isName =>
    obtain rfl := Option.some.inj named
    simp only [Problem.parentsIdx, List.mem_dedup, atPosition, Option.map_some, Option.getD_some]
    exact List.mem_filterMap.mpr ⟨parent, isParent, isName⟩
  next => cases named

theorem perCoreSize_nonneg (idx : ℕ) (config : DivisionConfig Choice) :
    0 ≤ problem.perCoreSize idx config :=
  le_max_left _ _

/-- Eligibility looks at a buffer's own division and at those of its children. -/
theorem eligible_congr {chosen other : Divisions Choice} {idx : ℕ} (same : other idx = chosen idx)
    (sameChildren : ∀ edge ∈ problem.children idx, other edge.1 = chosen edge.1) :
    problem.eligible other idx = problem.eligible chosen idx := by
  have sameTiled : ((problem.children idx).any fun edge => !(other edge.1).tiling.isUntiled) =
      (problem.children idx).any fun edge => !(chosen edge.1).tiling.isUntiled := by
    rw [Bool.eq_iff_iff, List.any_eq_true, List.any_eq_true]
    refine exists_congr fun edge => and_congr_right fun isChild => ?_
    rw [sameChildren edge isChild]
  have sameCompatible : ((problem.children idx).all fun edge =>
        edge.2.compatible (chosen idx) (other edge.1)) =
      (problem.children idx).all fun edge => edge.2.compatible (chosen idx) (chosen edge.1) := by
    rw [Bool.eq_iff_iff, List.all_eq_true, List.all_eq_true]
    refine forall_congr' fun edge => forall_congr' fun isChild => ?_
    rw [sameChildren edge isChild]
  simp only [Problem.eligible, Problem.readAcrossATilingBoundary, same, sameTiled, sameCompatible]

section Assignment

variable {chosen : Divisions Choice} {assignment : List (ℕ × DivisionConfig Choice)}

/-- The divisions after an assignment. -/
def assigned (chosen : Divisions Choice) (assignment : List (ℕ × DivisionConfig Choice)) :
    Divisions Choice :=
  fun idx => (assignment.lookup idx).getD (chosen idx)

theorem assigned_of_not_mem {idx : ℕ} (untouched : idx ∉ assignment.map Prod.fst) :
    assigned chosen assignment idx = chosen idx := by
  have missing : assignment.lookup idx = none := by
    rw [List.lookup_eq_none_iff]
    intro entry isEntry
    have distinct : idx ≠ entry.1 := fun same =>
      untouched (same ▸ List.mem_map_of_mem isEntry)
    simpa using distinct
  rw [assigned, missing, Option.getD_none]

theorem eligible_of_not_affected {idx : ℕ} (inside : idx < problem.count)
    (unaffected : idx ∉ affected problem (assignment.map Prod.fst)) :
    problem.eligible (assigned chosen assignment) idx = problem.eligible chosen idx := by
  have apart : ¬ (idx ∈ assignment.map Prod.fst ∨
      ∃ op ∈ assignment.map Prod.fst, idx ∈ problem.parentsIdx op) := by
    intro touches
    apply unaffected
    rw [affected, List.mem_filter, List.mem_range, Bool.or_eq_true, decide_eq_true_iff,
      List.any_eq_true]
    simpa only [decide_eq_true_iff] using And.intro inside touches
  push Not at apart
  refine eligible_congr (assigned_of_not_mem apart.1) fun edge isChild => ?_
  exact assigned_of_not_mem fun touched =>
    apart.2 edge.1 touched (mem_parentsIdx_of_child isChild)

/-- The count moves by what the affected buffers contribute. -/
theorem countP_eligible_assigned :
    ((List.range problem.count).countP (problem.eligible (assigned chosen assignment)) : ℤ) =
      (List.range problem.count).countP (problem.eligible chosen) +
        ((affected problem (assignment.map Prod.fst)).countP
            (problem.eligible (assigned chosen assignment)) -
          (affected problem (assignment.map Prod.fst)).countP (problem.eligible chosen) : ℤ) := by
  have split := fun flags : ℕ → Bool =>
    List.countP_eq_countP_filter_add (List.range problem.count) flags fun idx =>
      idx ∈ assignment.map Prod.fst ||
        (assignment.map Prod.fst).any fun op => idx ∈ problem.parentsIdx op
  have sameRest : ((List.range problem.count).filter fun idx =>
        !(decide (idx ∈ assignment.map Prod.fst) ||
          (assignment.map Prod.fst).any fun op => idx ∈ problem.parentsIdx op)).countP
        (problem.eligible (assigned chosen assignment)) =
      ((List.range problem.count).filter fun idx =>
        !(decide (idx ∈ assignment.map Prod.fst) ||
          (assignment.map Prod.fst).any fun op => idx ∈ problem.parentsIdx op)).countP
        (problem.eligible chosen) := by
    apply List.countP_congr
    intro idx isRest
    obtain ⟨inside, off⟩ := List.mem_filter.mp isRest
    rw [eligible_of_not_affected (List.mem_range.mp inside) fun isAffected => ?_]
    have on := (List.mem_filter.mp isAffected).2
    simp only [on, Bool.not_true, Bool.false_eq_true] at off
  have splitNew := split (problem.eligible (assigned chosen assignment))
  have splitOld := split (problem.eligible chosen)
  simp only [affected]
  omega

end Assignment

/-! ## The two loops -/

/-- The state inside an assignment: sizes are right off `toResize`, flags off `toFlag`. -/
structure Pending (problem : Problem Choice Index) (start : Engine Choice)
    (chosen : Divisions Choice) (toResize toFlag : List ℕ) (engine : Engine Choice) : Prop where
  frame : engine = { start with packer := engine.packer, chosen := chosen }
  sound : engine.packer.Sound
  count : engine.packer.static.n = problem.count
  sizes : ∀ idx < problem.count, idx ∉ toResize →
    engine.packer.sizes idx = problem.perCoreSize idx (chosen idx)
  flags : ∀ idx < problem.count, idx ∉ toFlag →
    engine.packer.eligible idx = problem.eligible chosen idx

section Loops

variable {start : Engine Choice} {chosen : Divisions Choice} {toResize toFlag : List ℕ}

theorem pending_resize {op : ℕ} (inside : op < problem.count) :
    Triple (Pending problem start chosen (op :: toResize) toFlag)
      (callPacker (.resize op (problem.perCoreSize op (chosen op))))
      fun _ => Pending problem start chosen toResize toFlag := by
  intro engine pending
  have inPacker : op < engine.packer.static.n := by rw [pending.count]; exact inside
  have nonnegative : 0 ≤ problem.perCoreSize op (chosen op) := perCoreSize_nonneg op (chosen op)
  obtain ⟨delta, next, succeeds, sound, sameStatic, newSizes, sameFlags⟩ :=
    resize_ok pending.sound inPacker nonnegative
  refine ⟨delta, { engine with packer := next }, callPacker_run succeeds, ?_, sound, ?_, ?_, ?_⟩
  · rw [pending.frame]
  · rw [sameStatic, pending.count]
  · intro idx idxInside outside
    show next.sizes idx = _
    rw [newSizes]
    by_cases same : idx = op
    · rw [same, Function.update_self]
    · rw [Function.update_of_ne same]
      exact pending.sizes idx idxInside (List.not_mem_cons_of_ne_of_not_mem same outside)
  · intro idx idxInside outside
    show next.eligible idx = _
    rw [sameFlags]
    exact pending.flags idx idxInside outside

theorem pending_setEligible {op : ℕ} (inside : op < problem.count) :
    Triple (Pending problem start chosen toResize (op :: toFlag))
      (callPacker (.setEligible op (problem.eligible chosen op)))
      fun _ => Pending problem start chosen toResize toFlag := by
  intro engine pending
  have inPacker : op < engine.packer.static.n := by rw [pending.count]; exact inside
  obtain ⟨delta, next, succeeds, sound, sameStatic, sameSizes, newFlags⟩ :=
    setEligible_ok pending.sound inPacker (problem.eligible chosen op)
  refine ⟨delta, { engine with packer := next }, callPacker_run succeeds, ?_, sound, ?_, ?_, ?_⟩
  · rw [pending.frame]
  · rw [sameStatic, pending.count]
  · intro idx idxInside outside
    show next.sizes idx = _
    rw [sameSizes]
    exact pending.sizes idx idxInside outside
  · intro idx idxInside outside
    show next.eligible idx = _
    rw [newFlags]
    by_cases same : idx = op
    · rw [same, Function.update_self]
    · rw [Function.update_of_ne same]
      exact pending.flags idx idxInside (List.not_mem_cons_of_ne_of_not_mem same outside)

end Loops

/-- The loops of an assignment leave nothing pending. -/
theorem pending_loops {start : Engine Choice} {chosen : Divisions Choice} (changed : List ℕ) :
    Triple
      (Pending problem start chosen ((List.range problem.count).filter (· ∈ changed))
        (affected problem changed))
      (do
        ((List.range problem.count).filter (· ∈ changed)).forM fun op => do
          let _ ← callPacker (.resize op (problem.perCoreSize op (chosen op)))
          pure PUnit.unit
        (affected problem changed).forM fun idx => do
          let _ ← callPacker (.setEligible idx (problem.eligible chosen idx))
          pure PUnit.unit)
      fun _ => Pending problem start chosen [] [] := by
  apply Triple.bind
  · apply Triple.forM_remaining fun toResize =>
      Pending problem start chosen toResize (affected problem changed)
    intro op rest membership
    have inside := List.mem_range.mp (List.mem_filter.mp membership).1
    exact (pending_resize inside).bind fun _ => Triple.pure fun _ pending => pending
  · intro _
    apply Triple.forM_remaining (Pending problem start chosen [])
    intro idx rest membership
    have inside := List.mem_range.mp (List.mem_filter.mp membership).1
    exact (pending_setEligible inside).bind fun _ => Triple.pure fun _ pending => pending

theorem pending_start {start : Engine Choice} (coherent : Coherent problem start)
    (assignment : List (ℕ × DivisionConfig Choice)) :
    Pending problem start (assigned start.chosen assignment)
      ((List.range problem.count).filter (· ∈ assignment.map Prod.fst))
      (affected problem (assignment.map Prod.fst))
      { start with chosen := assigned start.chosen assignment } := by
  refine ⟨rfl, coherent.sound, coherent.count, ?_, ?_⟩
  · intro idx inside untouched
    have unassigned : idx ∉ assignment.map Prod.fst := fun touched =>
      untouched (List.mem_filter.mpr ⟨List.mem_range.mpr inside, decide_eq_true touched⟩)
    rw [assigned_of_not_mem unassigned]
    exact coherent.sizes idx inside
  · intro idx inside unaffected
    rw [eligible_of_not_affected inside unaffected]
    exact coherent.flags idx inside

/-- With nothing pending, the count is all that is left to adjust. -/
theorem pending_finish {bestScore : ℤ} {bestSnap : Snapshot Choice} {start : Engine Choice}
    (kept : Kept problem bestScore bestSnap start) (assignment : List (ℕ × DivisionConfig Choice)) :
    Triple (Pending problem start (assigned start.chosen assignment) [] [])
      (modify fun engine => { engine with nEligible := engine.nEligible +
        ((affected problem (assignment.map Prod.fst)).countP
            (problem.eligible (assigned start.chosen assignment)) -
          (affected problem (assignment.map Prod.fst)).countP
            (problem.eligible start.chosen) : ℤ) } : Method Choice PUnit)
      fun _ engine => Kept problem bestScore bestSnap engine ∧ True := by
  obtain ⟨coherent, isScore, isSnap⟩ := kept
  apply Triple.modify
  intro engine pending
  rw [pending.frame]
  refine ⟨⟨⟨pending.sound, pending.count, ?_, ?_, ?_⟩, isScore, isSnap⟩, trivial⟩
  · exact fun idx inside => pending.sizes idx inside List.not_mem_nil
  · exact fun idx inside => pending.flags idx inside List.not_mem_nil
  · rw [coherent.nEligible, countP_eligible_assigned]

theorem keeps_applyAssignment (assignment : List (ℕ × DivisionConfig Choice)) :
    Keeps problem (applyAssignment problem assignment) fun _ => True := by
  intro bestScore bestSnap start kept
  -- the loops run from the divisions already set
  have runs := (pending_loops (assignment.map Prod.fst)).bind fun _ =>
    pending_finish kept assignment
  rw [bind_assoc] at runs
  exact runs _ (pending_start kept.coherent assignment)

/-! ## The moves -/

/-- A position of a buffer lies in a run. -/
theorem exists_runBounds {idx position : ℕ} (hasPosition : problem.positionOf idx = some position)
    (chosen : Divisions Choice) : ∃ run, problem.runBounds chosen (fun _ => none) position = some run := by
  obtain ⟨buf, isBuffer, isPosition⟩ := Option.bind_eq_some_iff.mp hasPosition
  have inside : buf.positioned ∈ problem.bufs.map Buffer.positioned :=
    List.mem_map_of_mem (List.mem_of_getElem? isBuffer)
  have below : position < problem.positions.nPositions := by
    rw [CoarseTiling.eq_of_buildOperationPositions problem.built]
    exact CoarseTiling.lt_nPositions inside isPosition
  obtain ⟨run, isRun, _⟩ := CoarseTiling.covers_find
    (CoarseTiling.runs_cover problem.tileMisread problem.positions _ _) (Nat.zero_le position) below
  exact ⟨run, isRun⟩

theorem keeps_retileBoundary (idx : ℕ) (config : DivisionConfig Choice) :
    Keeps problem (retileBoundary problem idx config) fun _ => True := by
  unfold retileBoundary
  refine Keeps.get.bind fun engine _ => ?_
  split
  next => exact Keeps.pure trivial
  next position hasPosition =>
    obtain ⟨run, isRun⟩ := exists_runBounds hasPosition engine.chosen
    simp only [isRun]
    refine keeps_coin.bind fun forward _ => ?_
    apply Keeps.ite
    · exact fun _ => Keeps.pure trivial
    · exact fun _ => keeps_applyAssignment _

theorem keeps_recolor (possible : anchorCandidates problem ≠ []) :
    Keeps problem (recolor problem) fun _ => True := by
  unfold recolor
  refine (keeps_choice possible).bind fun anchor _ => ?_
  refine (keeps_drawAnchor anchor).bind fun drawn _ => ?_
  cases drawn with
  | none => exact Keeps.pure trivial
  | some config =>
      refine Keeps.get.bind fun engine _ => ?_
      exact (keeps_applyAssignment _).bind fun _ _ => keeps_burst

theorem keeps_flip (possible : flippable problem ≠ []) :
    Keeps problem (flip problem) fun _ => True := by
  unfold flip
  refine (keeps_choice possible).bind fun idx _ => ?_
  refine Keeps.get.bind fun engine _ => ?_
  apply Keeps.ite
  · exact fun _ => Keeps.pure trivial
  · intro options
    refine (keeps_choice options).bind fun config _ => ?_
    apply Keeps.ite
    · exact fun _ => (keeps_applyAssignment _).bind fun _ _ => keeps_burst
    · exact fun _ => (keeps_retileBoundary idx config).bind fun _ _ => keeps_burst

/-- What a move needs of the problem; only `reorder` also asks for a buffer left to place. -/
def Possible (problem : Problem Choice Index) : Move → Prop
  | .reorder => 2 ≤ problem.count
  | .flip => flippable problem ≠ []
  | .recolor => anchorCandidates problem ≠ []
  | .none => True

theorem keeps_executeMove {move : Move} (possible : Possible problem move) :
    Keeps problem (executeMove problem move) fun _ => True := by
  cases move with
  | reorder =>
      have positive : 0 < problem.count := lt_of_lt_of_le Nat.zero_lt_two possible
      unfold executeMove
      refine (keeps_randrange positive).bind fun i iInside => ?_
      refine (keeps_randrange positive).bind fun j jInside => ?_
      exact (keeps_rotate iInside jInside).bind fun _ _ => Keeps.pure trivial
  | flip => exact keeps_flip possible
  | recolor => exact keeps_recolor possible
  | none => exact Keeps.pure trivial

theorem possible_of_applicable {engine : Engine Choice} {move : Move}
    (applicable : move ∈ applicableMoves problem engine) : Possible problem move := by
  simp only [applicableMoves, List.mem_append, List.mem_ite_nil_right, List.mem_singleton] at applicable
  rcases applicable with (⟨several, rfl⟩ | ⟨possible, rfl⟩) | ⟨possible, rfl⟩
  · exact several.1
  · exact possible
  · exact possible

theorem keeps_chooseMove : Keeps problem (chooseMove problem) (Possible problem) := by
  unfold chooseMove
  refine Keeps.get.bind fun engine _ => ?_
  apply Keeps.ite
  · exact fun _ => Keeps.pure trivial
  · exact fun moves => (keeps_choice moves).weaken fun _ => possible_of_applicable

end TorchSpyre.CoOptimizer
