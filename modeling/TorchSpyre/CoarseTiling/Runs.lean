import Mathlib

/-!
# The annealer's runs

`_runs` cuts the operation positions into stretches of one loop nest, and a stretch where
an operation does not read some earlier operation of it tile by tile.
-/

namespace TorchSpyre.CoarseTiling

/-! ## Tile specs and tiled reads -/

structure TileAxis where
  hostDim : ℕ
  count : ℕ
  isReduction : Bool
  deriving DecidableEq, Repr

structure TileSpec where
  axes : List TileAxis
  deriving DecidableEq, Repr

namespace TileSpec

def untiled : TileSpec := ⟨[]⟩

def isUntiled (spec : TileSpec) : Bool := spec.axes.isEmpty

def levelCounts (spec : TileSpec) : List ℕ := spec.axes.map TileAxis.count

theorem levelCounts_eq_nil {spec : TileSpec} :
    spec.levelCounts = [] ↔ spec.isUntiled = true := by
  simp [levelCounts, isUntiled]

end TileSpec

variable {Index : Type}

/-- A read of a buffer, at an index. -/
structure Dep (Index : Type) where
  name : String
  index : Index

structure Operation (Index : Type) where
  operationName : String
  name : String
  reads : List (Dep Index)

/-- `tile_misread` of one graph: why a consumer under its spec cannot read what a producer
writes under its own tile by tile. -/
abbrev TileMisread (Index : Type) :=
  Operation Index → TileSpec → Operation Index → TileSpec → Dep Index → Option String

structure TileReads (Index : Type) where
  producer : Operation Index
  consumer : Operation Index

def TileReads.aligned (tileMisread : TileMisread Index) (reads : TileReads Index)
    (producerSpec consumerSpec : TileSpec) : Bool :=
  (reads.consumer.reads.filter fun read => read.name = reads.producer.name).all fun read =>
    (tileMisread reads.producer producerSpec reads.consumer consumerSpec read).isNone

/-! ## Positions -/

/-- What the runs look at of a solver buffer. -/
structure CoreDivisionBuffer (Index : Type) where
  name : String
  opPosition : Option ℕ
  tileReads : List (String × TileReads Index)

/-- The index `_build_operation_positions` leaves: the buffer at each position, how many
positions there are, and the reads of earlier positions as reader, producer, reads. -/
structure Positions (Index : Type) where
  bufferAt : List (ℕ × ℕ)
  nPositions : ℕ
  tileReads : List (ℕ × ℕ × TileReads Index)

/-- Enter a buffer at its position. -/
def claimPosition (bufs : List (CoreDivisionBuffer Index)) (bufferAt : List (ℕ × ℕ))
    (entry : CoreDivisionBuffer Index × ℕ) : Except String (List (ℕ × ℕ)) :=
  match entry.1.opPosition with
  | none => .ok bufferAt
  | some position =>
      match bufferAt.lookup position with
      | none => .ok (bufferAt ++ [(position, entry.2)])
      | some other =>
          let first := (bufs[other]?.map CoreDivisionBuffer.name).getD ""
          let second := entry.1.name
          .error s!"buffers '{first}' and '{second}' both claim operation position {position}"

/-- The last buffer of a name, as a dictionary built in buffer order has it. -/
def nameToIdx (bufs : List (CoreDivisionBuffer Index)) (name : String) : Option ℕ :=
  (bufs.zipIdx.reverse.find? fun entry => entry.1.name = name).map Prod.snd

/-- The reads of one buffer that reach an earlier position. -/
def readsOfBuffer (bufs : List (CoreDivisionBuffer Index)) (buf : CoreDivisionBuffer Index) :
    List (ℕ × ℕ × TileReads Index) :=
  match buf.opPosition with
  | none => []
  | some reader =>
      (buf.tileReads.mergeSort fun first second => first.1 ≤ second.1).filterMap fun entry =>
        match ((nameToIdx bufs entry.1).bind (bufs[·]?)).bind CoreDivisionBuffer.opPosition with
        | none => none
        | some producer => if reader ≤ producer then none else some (reader, producer, entry.2)

def buildOperationPositions (bufs : List (CoreDivisionBuffer Index)) :
    Except String (Positions Index) := do
  let bufferAt ← bufs.zipIdx.foldlM (claimPosition bufs) []
  pure
    { bufferAt := bufferAt
      nPositions := (bufferAt.map fun entry => entry.1 + 1).foldl max 0
      tileReads := bufs.flatMap (readsOfBuffer bufs) }

section Solver

variable (tileMisread : TileMisread Index) (positions : Positions Index) (chosen : ℕ → TileSpec)
  (override : ℕ → Option TileSpec)

/-- The tiling in force at a position; `override` takes precedence over the chosen one. -/
def tilingAt (position : ℕ) : TileSpec :=
  match positions.bufferAt.lookup position with
  | none => .untiled
  | some idx => (override idx).getD (chosen idx)

def nestAt (position : ℕ) : List ℕ := (tilingAt positions chosen override position).levelCounts

def breaksAt (position stretch : ℕ) : Bool :=
  let spec := tilingAt positions chosen override position
  if spec.isUntiled then false
  else (positions.tileReads.filter fun edge => edge.1 = position).any fun edge =>
    stretch ≤ edge.2.1 &&
      !edge.2.2.aligned tileMisread (tilingAt positions chosen override edge.2.1) spec

end Solver

/-! ## Runs -/

section Loops

variable {Nest : Type} [DecidableEq Nest] (count : ℕ) (nest : ℕ → Nest) (breaks : ℕ → ℕ → Bool)

/-- The inner loop of `_runs`, with a bound on the positions left: the runs of one stretch and
its last position. -/
def stretchRuns (stretch : ℕ) : ℕ → ℕ → ℕ → List (ℕ × ℕ) × ℕ
  | 0, low, last => ([(low, last)], last)
  | left + 1, low, last =>
      if last + 1 < count ∧ nest (last + 1) = nest stretch then
        if breaks (last + 1) stretch then
          let (later, stop) := stretchRuns stretch left (last + 1) (last + 1)
          ((low, last) :: later, stop)
        else stretchRuns stretch left low (last + 1)
      else ([(low, last)], last)

/-- The outer loop, from the start of a stretch. -/
def runsFrom : ℕ → ℕ → List (ℕ × ℕ)
  | 0, _ => []
  | left + 1, stretch =>
      if stretch < count then
        let (yielded, last) := stretchRuns count nest breaks stretch count stretch stretch
        yielded ++ runsFrom left (last + 1)
      else []

/-- The two loops as one pass over the positions after `last`. -/
def scan : ℕ → ℕ → ℕ → ℕ → List (ℕ × ℕ)
  | 0, _, low, last => [(low, last)]
  | left + 1, stretch, low, last =>
      if nest (last + 1) = nest stretch then
        if breaks (last + 1) stretch then
          (low, last) :: scan left stretch (last + 1) (last + 1)
        else scan left stretch low (last + 1)
      else (low, last) :: scan left (last + 1) (last + 1) (last + 1)

variable {count nest breaks}

/-- A stretch's runs are the first runs of the pass. -/
theorem scan_of_stretchRuns (nest : ℕ → Nest) (breaks : ℕ → ℕ → Bool) (stretch left low last : ℕ)
    (inside : last < count) (enough : count ≤ last + 1 + left) :
    let result := stretchRuns count nest breaks stretch left low last
    last ≤ result.2 ∧ result.2 < count ∧
      scan nest breaks (count - (last + 1)) stretch low last =
        result.1 ++ if result.2 + 1 < count then
            scan nest breaks (count - (result.2 + 2)) (result.2 + 1) (result.2 + 1) (result.2 + 1)
          else [] := by
  induction left generalizing low last with
  | zero =>
      have atEnd : count = last + 1 := by omega
      simp [stretchRuns, atEnd, scan]
  | succ left inductionHypothesis =>
      simp only [stretchRuns]
      by_cases more : last + 1 < count
      · have unfolded : count - (last + 1) = count - (last + 2) + 1 := by omega
        rw [unfolded, scan]
        by_cases same : nest (last + 1) = nest stretch
        · rw [if_pos ⟨more, same⟩, if_pos same]
          cases cut : breaks (last + 1) stretch with
          | true =>
              obtain ⟨least, below, equal⟩ :=
                inductionHypothesis (last + 1) (last + 1) more (by omega)
              refine ⟨le_trans (Nat.le_succ last) least, below, ?_⟩
              simp only [if_true, List.cons_append]
              rw [← equal]
          | false =>
              obtain ⟨least, below, equal⟩ := inductionHypothesis low (last + 1) more (by omega)
              exact ⟨le_trans (Nat.le_succ last) least, below, equal⟩
        · rw [if_neg (fun both => same both.2), if_neg same]
          exact ⟨le_rfl, inside, by simp [more]⟩
      · have atEnd : count - (last + 1) = 0 := by omega
        rw [if_neg (fun both => more both.1), atEnd, scan]
        exact ⟨le_rfl, inside, by simp [more]⟩

theorem runsFrom_eq_scan {left stretch : ℕ} (inside : stretch < count)
    (enough : count ≤ stretch + left) :
    runsFrom count nest breaks left stretch =
      scan nest breaks (count - (stretch + 1)) stretch stretch stretch := by
  induction left generalizing stretch with
  | zero => omega
  | succ left inductionHypothesis =>
      obtain ⟨least, below, equal⟩ :=
        scan_of_stretchRuns nest breaks stretch count stretch stretch inside (by omega)
      rw [equal, runsFrom, if_pos inside]
      simp only
      congr 1
      split
      next more => rw [inductionHypothesis more (by omega)]
      next done =>
        cases left with
        | zero => rfl
        | succ left => rw [runsFrom, if_neg done]

end Loops

section Solver

variable (tileMisread : TileMisread Index) (positions : Positions Index) (chosen : ℕ → TileSpec)
  (override : ℕ → Option TileSpec)

def runs : List (ℕ × ℕ) :=
  runsFrom positions.nPositions (nestAt positions chosen override)
    (breaksAt tileMisread positions chosen override) positions.nPositions 0

def runBounds (position : ℕ) : Option (ℕ × ℕ) :=
  (runs tileMisread positions chosen override).find? fun run => position ≤ run.2

end Solver

/-! ## Runs partition the positions -/

/-- Non-empty intervals, each starting where the one before it ends. -/
def Covers : ℕ → List (ℕ × ℕ) → ℕ → Prop
  | start, [], stop => start = stop
  | start, run :: rest, stop => run.1 = start ∧ run.1 ≤ run.2 ∧ Covers (run.2 + 1) rest stop

theorem covers_find {start stop : ℕ} {intervals : List (ℕ × ℕ)} (covers : Covers start intervals stop)
    {position : ℕ} (above : start ≤ position) (below : position < stop) :
    ∃ run, intervals.find? (fun run => position ≤ run.2) = some run ∧ run ∈ intervals ∧
      run.1 ≤ position ∧ position ≤ run.2 := by
  induction intervals generalizing start with
  | nil =>
      simp only [Covers] at covers
      omega
  | cons run rest inductionHypothesis =>
      obtain ⟨starts, nonempty, later⟩ := covers
      by_cases here : position ≤ run.2
      · exact ⟨run, List.find?_cons_of_pos (by simpa using here), List.mem_cons_self,
          starts ▸ above, here⟩
      · obtain ⟨found, isFound, member, bounds⟩ := inductionHypothesis later (by omega)
        refine ⟨found, ?_, List.mem_cons_of_mem _ member, bounds⟩
        rw [List.find?_cons_of_neg (by simpa using here)]
        exact isFound

theorem covers_lower {start stop : ℕ} {intervals : List (ℕ × ℕ)} (covers : Covers start intervals stop)
    {run : ℕ × ℕ} (member : run ∈ intervals) : start ≤ run.1 := by
  induction intervals generalizing start with
  | nil => cases member
  | cons first rest inductionHypothesis =>
      obtain ⟨starts, nonempty, later⟩ := covers
      rcases List.mem_cons.mp member with rfl | inRest
      · exact starts.ge
      · have below := inductionHypothesis later inRest
        omega

/-- No position is in two of the intervals. -/
theorem covers_unique {start stop : ℕ} {intervals : List (ℕ × ℕ)} (covers : Covers start intervals stop)
    {first second : ℕ × ℕ} (firstIn : first ∈ intervals) (secondIn : second ∈ intervals)
    {position : ℕ} (inFirst : first.1 ≤ position ∧ position ≤ first.2)
    (inSecond : second.1 ≤ position ∧ position ≤ second.2) : first = second := by
  induction intervals generalizing start with
  | nil => cases firstIn
  | cons run rest inductionHypothesis =>
      obtain ⟨-, -, later⟩ := covers
      rcases List.mem_cons.mp firstIn with rfl | firstLater
      · rcases List.mem_cons.mp secondIn with rfl | secondLater
        · rfl
        · have below := covers_lower later secondLater
          omega
      · rcases List.mem_cons.mp secondIn with rfl | secondLater
        · have below := covers_lower later firstLater
          omega
        · exact inductionHypothesis later firstLater secondLater

section Loops

variable {Nest : Type} [DecidableEq Nest] {nest : ℕ → Nest} {breaks : ℕ → ℕ → Bool}

theorem scan_covers (left stretch : ℕ) {low last : ℕ} (nonempty : low ≤ last) :
    Covers low (scan nest breaks left stretch low last) (last + 1 + left) := by
  induction left generalizing stretch low last with
  | zero => exact ⟨rfl, nonempty, rfl⟩
  | succ left inductionHypothesis =>
      have stop : last + 1 + (left + 1) = last + 1 + 1 + left := by omega
      rw [scan, stop]
      split
      next =>
        split
        next => exact ⟨rfl, nonempty, inductionHypothesis stretch le_rfl⟩
        next => exact inductionHypothesis stretch (by omega)
      next => exact ⟨rfl, nonempty, inductionHypothesis (last + 1) le_rfl⟩

/-- Every run has one nest. -/
theorem scan_uniform {left stretch low last : ℕ}
    (uniform : ∀ position, low ≤ position → position ≤ last → nest position = nest stretch)
    {run : ℕ × ℕ} (isRun : run ∈ scan nest breaks left stretch low last) {position : ℕ}
    (lower : run.1 ≤ position) (upper : position ≤ run.2) : nest position = nest run.1 := by
  have atFirst : ∀ {start low last : ℕ},
      (∀ position, low ≤ position → position ≤ last → nest position = nest start) →
      run = (low, last) → nest position = nest run.1 := by
    rintro start low last uniform rfl
    exact (uniform position lower upper).trans (uniform low le_rfl (le_trans lower upper)).symm
  induction left generalizing stretch low last with
  | zero => exact atFirst uniform (List.mem_singleton.mp isRun)
  | succ left inductionHypothesis =>
      have single : ∀ start : ℕ, nest (last + 1) = nest start →
          ∀ position, last + 1 ≤ position → position ≤ last + 1 → nest position = nest start := by
        intro start same position above below
        rw [le_antisymm below above]
        exact same
      rw [scan] at isRun
      split at isRun
      next same =>
        split at isRun
        next =>
          rcases List.mem_cons.mp isRun with here | later
          · exact atFirst uniform here
          · exact inductionHypothesis (single stretch same) later
        next =>
          refine inductionHypothesis (fun position above below => ?_) isRun
          rcases Nat.lt_or_ge last position with new | old
          · exact single stretch same position new below
          · exact uniform position above old
      next =>
        rcases List.mem_cons.mp isRun with here | later
        · exact atFirst uniform here
        · exact inductionHypothesis (single (last + 1) rfl) later

end Loops

theorem runs_cover (tileMisread : TileMisread Index) (positions : Positions Index)
    (chosen : ℕ → TileSpec) (override : ℕ → Option TileSpec) :
    Covers 0 (runs tileMisread positions chosen override) positions.nPositions := by
  rcases Nat.eq_zero_or_pos positions.nPositions with isEmpty | isPositive
  · simp only [runs, isEmpty]
    rfl
  · simp only [runs]
    rw [runsFrom_eq_scan isPositive (by omega)]
    have whole : 0 + 1 + (positions.nPositions - (0 + 1)) = positions.nPositions := by omega
    have covered : Covers 0
        (scan (nestAt positions chosen override) (breaksAt tileMisread positions chosen override)
          (positions.nPositions - (0 + 1)) 0 0 0)
        (0 + 1 + (positions.nPositions - (0 + 1))) := scan_covers _ 0 le_rfl
    rwa [whole] at covered

end TorchSpyre.CoarseTiling
