import TorchSpyre.CoarseTiling.RunBounds
import TorchSpyre.CoarseTiling.SolverRuns
import TorchSpyre.CoOptimizer.Moves

/-!
# Trimming a flooded assignment

Stripping the tilings outside of the anchor's run leaves the run as it is only where the cuts
at its ends do not rest on a misread of an operation that is stripped itself.
-/

namespace TorchSpyre.CoOptimizer

open Lib
open CoarseTiling (TileSpec TileReads nestAt breaksAt tilingAt RunOf Strips StrippedRun EndsHeld)

variable {Choice Index Splits : Type}

section Definitions

variable (problem : Problem Choice Index) (chosen : Divisions Choice) (anchor : ℕ)
variable (assignment : List (ℕ × DivisionConfig Choice))

def overrideOf (assignment : List (ℕ × DivisionConfig Choice)) (idx : ℕ) : Option TileSpec :=
  (assignment.lookup idx).map DivisionConfig.tiling

/-- The anchor's run under the assignment. -/
def anchorRun : Option (ℕ × ℕ) :=
  (problem.positionOf anchor).bind (problem.runBounds chosen (overrideOf assignment))

def insideAnchorRun (idx : ℕ) : Bool :=
  (problem.positionOf idx).any fun position =>
    (anchorRun problem chosen anchor assignment).any fun bounds =>
      bounds.1 ≤ position ∧ position ≤ bounds.2

/-- The division of a buffer at its splits, untiled, where they are legal so. -/
def untiledFor (idx : ℕ) (config : DivisionConfig Choice) : Option (DivisionConfig Choice) :=
  problem.bufs[idx]?.bind fun buf => buf.source.retiled config .untiled

def trimOne (idx : ℕ) (config : DivisionConfig Choice) : DivisionConfig Choice :=
  if config.tiling.isUntiled || insideAnchorRun problem chosen anchor assignment idx then config
  else (untiledFor problem idx config).getD config

/-- The positions whose operation is stripped of its tiling. -/
def StrippedAt (position : ℕ) : Prop :=
  ∃ idx config untiled, problem.bufferAt position = some idx ∧ assignment.lookup idx = some config ∧
    config.tiling.isUntiled = false ∧ insideAnchorRun problem chosen anchor assignment idx = false ∧
    untiledFor problem idx config = some untiled

/-- A reader does not read an earlier producer tile by tile, each under its spec. -/
def Misreads (override : ℕ → Option TileSpec) (reader producer : ℕ) : Prop :=
  ∃ reads : TileReads Index, (reader, producer, reads) ∈ problem.positions.tileReads ∧
    reads.aligned problem.tileMisread
      (tilingAt problem.positions (fun idx => (chosen idx).tiling) override producer)
      (tilingAt problem.positions (fun idx => (chosen idx).tiling) override reader) = false

def nestUnder (override : ℕ → Option TileSpec) : ℕ → List ℕ :=
  nestAt problem.positions (fun idx => (chosen idx).tiling) override

variable (splits : Choice → Splits)

/-- Refitting an assigned division without its tiling keeps its splits. -/
def RetilesAtItsSplits : Prop :=
  ∀ idx config untiled, assignment.lookup idx = some config →
    untiledFor problem idx config = some untiled →
      untiled.tiling.isUntiled = true ∧ splits untiled.choice = splits config.choice

/-- The anchor's run stands; inside it divisions are kept, outside they lose their tilings
alone, unless the splits are legal under the tiling only. -/
structure TrimStands (position : ℕ) : Prop where
  bounds : problem.runBounds chosen
      (overrideOf (trimTilingsToAnchorRun problem chosen anchor assignment)) position =
    problem.runBounds chosen (overrideOf assignment) position
  kept : ∀ idx config, assignment.lookup idx = some config →
    insideAnchorRun problem chosen anchor assignment idx = true →
      (trimTilingsToAnchorRun problem chosen anchor assignment).lookup idx = some config
  stripped : ∀ idx config, assignment.lookup idx = some config →
    insideAnchorRun problem chosen anchor assignment idx = false →
      ∃ after, (trimTilingsToAnchorRun problem chosen anchor assignment).lookup idx = some after ∧
        splits after.choice = splits config.choice ∧
        (after.tiling.isUntiled = true ∨ after = config ∧ untiledFor problem idx config = none)

end Definitions

variable {problem : Problem Choice Index} {chosen : Divisions Choice} {anchor : ℕ}
variable {assignment : List (ℕ × DivisionConfig Choice)} {splits : Choice → Splits}

/-! ## What the pass does to one assignment -/

theorem lookup_map_entries {Value : Type} (change : ℕ → Value → Value) (entries : List (ℕ × Value))
    (key : ℕ) : (entries.map fun entry => (entry.1, change entry.1 entry.2)).lookup key =
      (entries.lookup key).map (change key) := by
  induction entries with
  | nil => rfl
  | cons entry entries inductionHypothesis =>
      rw [List.map_cons, List.lookup_cons, List.lookup_cons]
      cases same : key == entry.1 with
      | true =>
          obtain rfl := beq_iff_eq.mp same
          rfl
      | false => exact inductionHypothesis

theorem trim_eq_map :
    trimTilingsToAnchorRun problem chosen anchor assignment =
      assignment.map fun entry =>
        (entry.1, trimOne problem chosen anchor assignment entry.1 entry.2) := by
  unfold trimTilingsToAnchorRun
  split
  next untiled =>
    conv_lhs => rw [← List.map_id assignment]
    apply List.map_congr_left
    intro entry inside
    rw [trimOne, List.all_eq_true.mp untiled entry inside, Bool.true_or, if_pos rfl]
    rfl
  next =>
    apply List.map_congr_left
    intro entry _
    show (if (entry.2.tiling.isUntiled ||
        insideAnchorRun problem chosen anchor assignment entry.1) = true then entry else _) = _
    rw [trimOne]
    split
    next => rfl
    next =>
      unfold untiledFor
      cases problem.bufs[entry.1]?.bind fun buf => buf.source.retiled entry.2 .untiled with
      | none => rfl
      | some untiled => rfl

theorem lookup_trim (idx : ℕ) :
    (trimTilingsToAnchorRun problem chosen anchor assignment).lookup idx =
      (assignment.lookup idx).map (trimOne problem chosen anchor assignment idx) := by
  rw [trim_eq_map]
  exact lookup_map_entries _ _ _

theorem trimOne_inside {idx : ℕ} (config : DivisionConfig Choice)
    (inside : insideAnchorRun problem chosen anchor assignment idx = true) :
    trimOne problem chosen anchor assignment idx config = config := by
  rw [trimOne, inside, Bool.or_true, if_pos rfl]

theorem trimOne_outside (retiles : RetilesAtItsSplits problem assignment splits) {idx : ℕ}
    {config : DivisionConfig Choice} (assigned : assignment.lookup idx = some config) :
    splits (trimOne problem chosen anchor assignment idx config).choice = splits config.choice := by
  unfold trimOne
  split
  next => rfl
  next =>
    cases refitted : untiledFor problem idx config with
    | none => rfl
    | some untiled => exact (retiles idx config untiled assigned refitted).2

theorem kept_trim {idx : ℕ} {config : DivisionConfig Choice}
    (assigned : assignment.lookup idx = some config)
    (inside : insideAnchorRun problem chosen anchor assignment idx = true) :
    (trimTilingsToAnchorRun problem chosen anchor assignment).lookup idx = some config := by
  rw [lookup_trim, assigned, Option.map_some, trimOne_inside config inside]

theorem stripped_trim (retiles : RetilesAtItsSplits problem assignment splits) {idx : ℕ}
    {config : DivisionConfig Choice} (assigned : assignment.lookup idx = some config)
    (outside : insideAnchorRun problem chosen anchor assignment idx = false) :
    ∃ after, (trimTilingsToAnchorRun problem chosen anchor assignment).lookup idx = some after ∧
      splits after.choice = splits config.choice ∧
      (after.tiling.isUntiled = true ∨ after = config ∧ untiledFor problem idx config = none) := by
  refine ⟨trimOne problem chosen anchor assignment idx config, ?_,
    trimOne_outside retiles assigned, ?_⟩
  · rw [lookup_trim, assigned, Option.map_some]
  · unfold trimOne
    rw [outside, Bool.or_false]
    split
    next untiled => exact .inl untiled
    next =>
      cases refitted : untiledFor problem idx config with
      | none => exact .inr ⟨rfl, rfl⟩
      | some untiled => exact .inl (retiles idx config untiled assigned refitted).1

/-! ## What it does to the tilings in force -/

theorem tilingAt_of_bufferAt {override : ℕ → Option TileSpec} {position idx : ℕ}
    (here : problem.bufferAt position = some idx) :
    tilingAt problem.positions (fun idx => (chosen idx).tiling) override position =
      (override idx).getD (chosen idx).tiling := by
  unfold Problem.bufferAt at here
  unfold tilingAt
  rw [here]

theorem bufferAt_iff {position idx : ℕ} :
    problem.bufferAt position = some idx ↔ problem.positionOf idx = some position := by
  have single := CoarseTiling.single_of_buildOperationPositions problem.built
  have positions := CoarseTiling.eq_of_buildOperationPositions problem.built
  unfold Problem.bufferAt Problem.positionOf
  rw [positions, CoarseTiling.lookup_bufferAt single, Option.bind_eq_some_iff]
  constructor
  · rintro ⟨buf, isBuffer, hasPosition⟩
    rw [List.getElem?_map, Option.map_eq_some_iff] at isBuffer
    obtain ⟨owner, isOwner, rfl⟩ := isBuffer
    exact ⟨owner, isOwner, hasPosition⟩
  · rintro ⟨buf, isBuffer, hasPosition⟩
    refine ⟨buf.positioned, ?_, hasPosition⟩
    rw [List.getElem?_map, isBuffer, Option.map_some]

/-- A position that is not stripped keeps its tiling. -/
theorem tilingAt_trim_of_not_stripped {position : ℕ}
    (unstripped : ¬StrippedAt problem chosen anchor assignment position) :
    tilingAt problem.positions (fun idx => (chosen idx).tiling)
        (overrideOf (trimTilingsToAnchorRun problem chosen anchor assignment)) position =
      tilingAt problem.positions (fun idx => (chosen idx).tiling) (overrideOf assignment) position := by
  cases here : problem.bufferAt position with
  | none =>
      unfold Problem.bufferAt at here
      unfold tilingAt
      rw [here]
  | some idx =>
      rw [tilingAt_of_bufferAt here, tilingAt_of_bufferAt here]
      unfold overrideOf
      rw [lookup_trim]
      cases assigned : assignment.lookup idx with
      | none => rfl
      | some config =>
          have same : trimOne problem chosen anchor assignment idx config = config := by
            unfold trimOne
            split
            next => rfl
            next changes =>
              rw [Bool.or_eq_true, not_or, Bool.not_eq_true, Bool.not_eq_true] at changes
              cases refitted : untiledFor problem idx config with
              | none => rfl
              | some untiled =>
                  exact absurd ⟨idx, config, untiled, here, assigned, changes.1, changes.2, refitted⟩
                    unstripped
          simp only [Option.map_some, same]

theorem tilingAt_trim_of_stripped (retiles : RetilesAtItsSplits problem assignment splits)
    {position : ℕ} (stripped : StrippedAt problem chosen anchor assignment position) :
    (tilingAt problem.positions (fun idx => (chosen idx).tiling)
      (overrideOf (trimTilingsToAnchorRun problem chosen anchor assignment)) position).isUntiled =
        true := by
  obtain ⟨idx, config, untiled, here, assigned, tiled, outside, refitted⟩ := stripped
  rw [tilingAt_of_bufferAt here]
  unfold overrideOf
  rw [lookup_trim, assigned]
  have becomes : trimOne problem chosen anchor assignment idx config = untiled := by
    rw [trimOne, tiled, outside, refitted]
    rfl
  simp only [Option.map_some, Option.getD_some, becomes]
  exact (retiles idx config untiled assigned refitted).1

theorem nestUnder_ne_nil_iff {override : ℕ → Option TileSpec} {position : ℕ} :
    nestUnder problem chosen override position ≠ [] ↔
      (tilingAt problem.positions (fun idx => (chosen idx).tiling) override position).isUntiled =
        false := by
  rw [nestUnder, nestAt, Ne, TileSpec.levelCounts_eq_nil, Bool.not_eq_true]

/-- A tiled position breaks a stretch exactly where it misreads an operation of it. -/
theorem breaksAt_iff_misreads {override : ℕ → Option TileSpec} {position stretch : ℕ}
    (tiled : nestUnder problem chosen override position ≠ []) :
    breaksAt problem.tileMisread problem.positions (fun idx => (chosen idx).tiling) override position
        stretch = true ↔
      ∃ producer < position, stretch ≤ producer ∧ Misreads problem chosen override position producer := by
  have spec := nestUnder_ne_nil_iff.1 tiled
  unfold breaksAt
  dsimp only
  rw [spec, if_neg Bool.false_ne_true, List.any_eq_true]
  constructor
  · rintro ⟨⟨reader, producer, reads⟩, listed, misread⟩
    obtain ⟨isEdge, atReader⟩ := List.mem_filter.mp listed
    obtain rfl : reader = position := of_decide_eq_true atReader
    rw [Bool.and_eq_true, decide_eq_true_iff, Bool.not_eq_true'] at misread
    have inPositions := isEdge
    rw [CoarseTiling.eq_of_buildOperationPositions problem.built] at inPositions
    exact ⟨producer, CoarseTiling.earlier_of_mem_tileReads inPositions, misread.1, reads, isEdge,
      misread.2⟩
  · rintro ⟨producer, -, inStretch, reads, isEdge, misread⟩
    refine ⟨(position, producer, reads), List.mem_filter.mpr ⟨isEdge, decide_eq_true rfl⟩, ?_⟩
    rw [Bool.and_eq_true, decide_eq_true_iff, Bool.not_eq_true']
    exact ⟨inStretch, misread⟩

/-! ## The anchor's run -/

theorem position_lt {idx position : ℕ} (positioned : problem.positionOf idx = some position) :
    position < problem.positions.nPositions := by
  obtain ⟨buf, isBuffer, hasPosition⟩ := Option.bind_eq_some_iff.mp positioned
  have inside : buf.positioned ∈ problem.bufs.map Buffer.positioned :=
    List.mem_map_of_mem (List.mem_of_getElem? isBuffer)
  rw [CoarseTiling.eq_of_buildOperationPositions problem.built]
  exact CoarseTiling.lt_nPositions inside hasPosition

theorem not_stripped_of_mem_run {anchorPosition : ℕ} {run : ℕ × ℕ}
    (positioned : problem.positionOf anchor = some anchorPosition)
    (isRun : problem.runBounds chosen (overrideOf assignment) anchorPosition = some run)
    {position : ℕ} (lower : run.1 ≤ position) (upper : position ≤ run.2) :
    ¬StrippedAt problem chosen anchor assignment position := by
  rintro ⟨idx, config, untiled, here, -, -, outside, -⟩
  rw [insideAnchorRun, anchorRun, positioned, Option.bind_some, isRun, bufferAt_iff.1 here,
    Option.any_some, Option.any_some, decide_eq_false_iff_not] at outside
  exact outside ⟨lower, upper⟩

theorem strips_trim (retiles : RetilesAtItsSplits problem assignment splits) {nest : List ℕ}
    (tiled : nest ≠ []) :
    Strips (nestUnder problem chosen (overrideOf assignment))
      (nestUnder problem chosen
        (overrideOf (trimTilingsToAnchorRun problem chosen anchor assignment)))
      (Misreads problem chosen (overrideOf assignment))
      (Misreads problem chosen
        (overrideOf (trimTilingsToAnchorRun problem chosen anchor assignment)))
      (StrippedAt problem chosen anchor assignment) nest := by
  refine ⟨?_, ?_, ?_⟩
  · intro position unstripped
    rw [nestUnder, nestAt, tilingAt_trim_of_not_stripped unstripped]
    rfl
  · intro position stripped same
    have untiled : nestUnder problem chosen
        (overrideOf (trimTilingsToAnchorRun problem chosen anchor assignment)) position = [] :=
      TileSpec.levelCounts_eq_nil.mpr (tilingAt_trim_of_stripped retiles stripped)
    exact tiled (same.symm.trans untiled)
  · intro reader producer readerKept producerKept
    unfold Misreads
    rw [tilingAt_trim_of_not_stripped readerKept, tilingAt_trim_of_not_stripped producerKept]

def halvedConfig : DivisionConfig ℕ where
  choice := 2
  outputPartition := 2
  tiling := CoarseTiling.halves
  divisor_pos := by decide

def untile (config : DivisionConfig ℕ) : DivisionConfig ℕ where
  choice := config.choice
  outputPartition := config.outputPartition
  tiling := .untiled
  divisor_pos := by
    have positive := Nat.pos_of_mul_pos_right config.divisor_pos
    exact Nat.mul_pos positive Nat.one_pos

def untilingSource : DivisionSource ℕ where
  seed := untile halvedConfig
  canMove := true
  canSplit := true
  canTile := true
  neighbours := fun _ => []
  retiled := fun config spec => if spec = .untiled then some (untile config) else none
  anchor := fun _ rng => (some halvedConfig, rng)

def halvedRelation : EdgeRelation ℕ where
  compatible := fun _ _ => true
  childFor := fun _ => some halvedConfig
  parentFor := fun _ => some halvedConfig

def stretchBuffer (position : ℕ) (name : String) (parents : List String)
    (tileReads : List (String × TileReads Unit)) : Buffer ℕ Unit where
  lifetime := .usedTwice name 0 0 0
  size := 512
  parents := parents
  relation := fun _ => halvedRelation
  source := untilingSource
  boundary := .intermediate
  opPosition := some position
  tileReads := tileReads

def misreadEdge : TileReads Unit := ⟨⟨"op0", "first", []⟩, ⟨"op2", "last", [⟨"first", ()⟩]⟩⟩

/-- The last of three operations of one nest misreads the first; the one between them is on no
edge. -/
def misreadStretch : Problem ℕ Unit where
  bufs := [stretchBuffer 0 "first" [] [], stretchBuffer 1 "middle" [] [],
    stretchBuffer 2 "last" ["first"] [("first", misreadEdge)]]
  positions := ⟨[(0, 0), (1, 1), (2, 2)], 3, [(2, 0, misreadEdge)]⟩
  built := by
    refine (CoarseTiling.buildOperationPositions_eq (by decide)).trans ?_
    simp [CoarseTiling.positionsOf, CoarseTiling.positioned, CoarseTiling.readsOfBuffer,
      stretchBuffer, Scratchpad.LifetimeBoundBuffer.usedTwice, Buffer.positioned,
      CoarseTiling.nameToIdx, Buffer.name]
  tileMisread := fun _ _ _ _ _ => some "permuted"
  limit := 1024
  scoreFn := none

theorem retilesAtItsSplits_misreadStretch (assignment : List (ℕ × DivisionConfig ℕ)) :
    RetilesAtItsSplits misreadStretch assignment id := by
  intro idx config untiled _ refitted
  obtain ⟨buf, isBuffer, refitted⟩ := Option.bind_eq_some_iff.mp refitted
  have inside := List.mem_of_getElem? isBuffer
  have sameSource : buf.source = untilingSource := by
    simp only [misreadStretch, List.mem_cons, List.not_mem_nil, or_false] at inside
    rcases inside with rfl | rfl | rfl <;> rfl
  rw [sameSource] at refitted
  cases refitted
  exact ⟨rfl, rfl⟩

end TorchSpyre.CoOptimizer
