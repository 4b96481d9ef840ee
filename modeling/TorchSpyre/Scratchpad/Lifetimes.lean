import Mathlib
import TorchSpyre.Lib.LoopNest
import TorchSpyre.Lib.Walk
import TorchSpyre.Scratchpad.Buffer

/-!
# Lifetimes of buffers used in counted loops

The graph holds one textual copy of every loop body.  Liveness is read off the text
and widened to the whole loop for a value that is born outside a loop and read
inside it.
-/

namespace TorchSpyre.Scratchpad

open Lib

structure Operation where
  isExternKernel : Bool := false
  /-- `loop_info.loop_group_id` -/
  loopGroupId : Option (List ℕ) := none
  reads : List String
  writes : List String
  deriving DecidableEq, Repr

/-- An extern kernel keeps its `loop_info` but runs once, outside the loop. -/
def countedLoopPath (op : Operation) : List ℕ :=
  if op.isExternKernel then [] else op.loopGroupId.getD []

def Operation.accesses (op : Operation) : List String := op.writes ++ op.reads

structure OperationGraph where
  graphInputNames : List String
  operations : List Operation

namespace OperationGraph

variable (graph : OperationGraph)

/-! ## Liveness -/

/-- One access at an index; an operation is recorded once. -/
def recordUse (index : ℕ) (liveness : String → Option (List ℕ)) (name : String) :
    String → Option (List ℕ) :=
  let uses := (liveness name).getD []
  Function.update liveness name
    (some (if uses.getLast? = some index then uses else uses ++ [index]))

def calculateLiveness : String → Option (List ℕ) :=
  graph.operations.zipIdx.foldl
    (fun liveness step => (step.1.reads ++ step.1.writes).foldl (recordUse step.2) liveness)
    fun name => if name ∈ graph.graphInputNames then some [] else none

/-! ## Counted-loop overrides -/

/-- All loops around an operation, outermost first. -/
def loopsOf (op : Operation) : List (List ℕ) :=
  (List.range (countedLoopPath op).length).map fun depth => (countedLoopPath op).take (depth + 1)

def loopStart (loop : List ℕ) : Option ℕ := firstEntry loopsOf graph.operations loop

def loopEnd (loop : List ℕ) : Option ℕ := lastEntry loopsOf graph.operations loop

def firstAccess (name : String) : Option ℕ :=
  firstEntry Operation.accesses graph.operations name

def lastAccess (name : String) : Option ℕ :=
  lastEntry Operation.accesses graph.operations name

/-- The births an operation may record: its path for what it writes, no loop for what
it reads. -/
def birthsAt (op : Operation) : List (String × List ℕ) :=
  op.writes.map (fun name => (name, countedLoopPath op)) ++ op.reads.map fun name => (name, [])

/-- Where a name is born: the first record counts, and graph inputs are recorded before
all operations. -/
def birthGroup (name : String) : Option (List ℕ) :=
  (graph.graphInputNames.map (fun input => (input, [])) ++
    graph.operations.flatMap birthsAt).lookup name

def commonLength : List ℕ → List ℕ → ℕ
  | producer :: producers, consumer :: consumers =>
      if producer = consumer then commonLength producers consumers + 1 else 0
  | _, _ => 0

/-- The outermost loop that a read enters from the birth of the name. -/
def enclosingLoop (op : Operation) (name : String) : Option (List ℕ) :=
  let consumerPath := countedLoopPath op
  let common := commonLength ((graph.birthGroup name).getD []) consumerPath
  if common = consumerPath.length then none else some (consumerPath.take (common + 1))

/-- The loops entered by the reads of a name, with the reading position. -/
def crossings (name : String) : List (List ℕ × ℕ) :=
  graph.operations.zipIdx.flatMap fun step =>
    (step.1.reads.filter (· = name)).filterMap fun read =>
      (graph.enclosingLoop step.1 read).map fun loop => (loop, step.2)

def startOverrides (name : String) : Option ℕ :=
  ((graph.crossings name).filterMap fun crossing => (graph.loopStart crossing.1).filter fun start =>
    start < (graph.firstAccess name).getD crossing.2).min?

def endOverrides (name : String) : Option ℕ :=
  ((graph.crossings name).filterMap fun crossing =>
    ((graph.loopEnd crossing.1).map (· + 1)).filter fun stop =>
      stop > (graph.lastAccess name).getD crossing.2 + 1).max?

/-! ## The run -/

/-- The loop path at a position of the text. -/
def pathAt (index : ℕ) : List ℕ := ((graph.operations[index]?).map countedLoopPath).getD []

def Reads (index : ℕ) (name : String) : Prop :=
  ∃ op, graph.operations[index]? = some op ∧ name ∈ op.reads

def Writes (index : ℕ) (name : String) : Prop :=
  ∃ op, graph.operations[index]? = some op ∧ name ∈ op.writes

/-- The unrolled execution. -/
def execution (trips : List ℕ → ℕ) : List LoopNest.Instance :=
  LoopNest.unroll graph.pathAt trips graph.operations.length

/-! ## What the dictionaries hold -/

variable {graph}

def Accesses (graph : OperationGraph) (index : ℕ) (name : String) : Prop :=
  graph.Reads index name ∨ graph.Writes index name

theorem accesses_iff {index : ℕ} {name : String} :
    graph.Accesses index name ↔
      ∃ op, graph.operations[index]? = some op ∧ name ∈ op.accesses := by
  constructor
  · rintro (⟨op, located, read⟩ | ⟨op, located, written⟩)
    · exact ⟨op, located, List.mem_append_right _ read⟩
    · exact ⟨op, located, List.mem_append_left _ written⟩
  · rintro ⟨op, located, accessed⟩
    rcases List.mem_append.mp accessed with written | read
    · exact .inr ⟨op, located, written⟩
    · exact .inl ⟨op, located, read⟩

theorem foldl_recordUse (index : ℕ) (names : List String) (liveness : String → Option (List ℕ))
    (name : String) :
    (names.foldl (recordUse index) liveness name).getD [] =
      if name ∈ names ∧ ((liveness name).getD []).getLast? ≠ some index then
        (liveness name).getD [] ++ [index]
      else (liveness name).getD [] := by
  induction names generalizing liveness with
  | nil => simp
  | cons head tail inductionHypothesis =>
      rw [List.foldl_cons, inductionHypothesis]
      by_cases isHead : name = head
      · subst isHead
        simp only [recordUse, Function.update_self, Option.getD_some, List.mem_cons, true_or,
          true_and]
        by_cases recorded : ((liveness name).getD []).getLast? = some index
        · simp [recorded]
        · simp [recorded]
      · simp only [recordUse, Function.update_of_ne isHead, List.mem_cons, isHead, false_or]

/-- The uses of a name: the positions of the operations that access it. -/
theorem calculateLiveness_eq (name : String) :
    (graph.calculateLiveness name).getD [] =
      (List.range graph.operations.length).filter fun index =>
        (graph.operations[index]?).any fun op => name ∈ op.accesses := by
  obtain ⟨inputs, operations⟩ := graph
  unfold calculateLiveness
  simp only
  induction operations using List.reverseRecOn with
  | nil =>
      simp only [List.zipIdx_nil, List.foldl_nil, List.length_nil, List.range_zero,
        List.filter_nil]
      split_ifs <;> rfl
  | append_singleton operations op inductionHypothesis =>
      rw [List.zipIdx_append, List.foldl_append, List.zipIdx_singleton, List.foldl_cons,
        List.foldl_nil, foldl_recordUse, inductionHypothesis, List.length_append,
        List.length_singleton, List.range_succ, List.filter_append]
      have earlier : ((List.range operations.length).filter fun index =>
          ((operations ++ [op])[index]?).any fun op => name ∈ op.accesses) =
          (List.range operations.length).filter fun index =>
            (operations[index]?).any fun op => name ∈ op.accesses := by
        apply List.filter_congr
        intro index inRange
        rw [List.getElem?_append_left (List.mem_range.mp inRange)]
      have fresh : ((List.range operations.length).filter fun index =>
          (operations[index]?).any fun op => name ∈ op.accesses).getLast? ≠
          some (0 + operations.length) := by
        intro isLast
        have inside := List.mem_of_getLast? isLast
        have bound := List.mem_range.mp (List.mem_filter.mp inside).1
        omega
      rw [earlier]
      by_cases accessed : name ∈ op.accesses
      · have either : name ∈ op.reads ++ op.writes :=
          List.mem_append.mpr (List.mem_append.mp accessed).symm
        rw [if_pos ⟨either, fresh⟩]
        simp [accessed]
      · have neither : name ∉ op.reads ++ op.writes := fun either =>
          accessed (List.mem_append.mpr (List.mem_append.mp either).symm)
        rw [if_neg fun both => neither both.1]
        simp [accessed]

theorem mem_liveness {name : String} {index : ℕ} :
    index ∈ (graph.calculateLiveness name).getD [] ↔ graph.Accesses index name := by
  rw [calculateLiveness_eq, List.mem_filter, accesses_iff, List.mem_range, Option.any_eq_true]
  constructor
  · rintro ⟨-, op, located, accessed⟩
    exact ⟨op, located, of_decide_eq_true accessed⟩
  · rintro ⟨op, located, accessed⟩
    exact ⟨(List.getElem?_eq_some_iff.mp located).1, op, located, decide_eq_true accessed⟩

theorem liveness_increasing (name : String) :
    ((graph.calculateLiveness name).getD []).Pairwise (· < ·) := by
  rw [calculateLiveness_eq]
  exact List.pairwise_lt_range.filter _

theorem mem_loopsOf {op : Operation} {loop : List ℕ} :
    loop ∈ loopsOf op ↔ loop ≠ [] ∧ loop <+: countedLoopPath op := by
  unfold loopsOf
  rw [List.mem_map]
  constructor
  · rintro ⟨depth, inRange, rfl⟩
    refine ⟨?_, List.take_prefix _ _⟩
    have inside := List.mem_range.mp inRange
    apply List.ne_nil_of_length_pos
    rw [List.length_take]
    omega
  · rintro ⟨nonempty, isPrefix⟩
    have positive := List.length_pos_of_ne_nil nonempty
    refine ⟨loop.length - 1, List.mem_range.mpr ?_, ?_⟩
    · have bound := isPrefix.length_le
      omega
    · rw [Nat.sub_add_cancel positive]
      exact (List.prefix_iff_eq_take.mp isPrefix).symm

theorem pathAt_eq {index : ℕ} {op : Operation} (located : graph.operations[index]? = some op) :
    graph.pathAt index = countedLoopPath op := by
  rw [pathAt, located]
  rfl

/-- A position with a path is one of the text. -/
theorem exists_op_of_prefix {index : ℕ} {loop : List ℕ} (nonempty : loop ≠ [])
    (inside : loop <+: graph.pathAt index) :
    ∃ op, graph.operations[index]? = some op ∧ loop ∈ loopsOf op := by
  cases located : graph.operations[index]? with
  | none =>
      rw [pathAt, located] at inside
      exact absurd (List.prefix_nil.mp inside) nonempty
  | some op =>
      rw [pathAt_eq located] at inside
      exact ⟨op, rfl, mem_loopsOf.2 ⟨nonempty, inside⟩⟩

/-- A loop spans the positions in it. -/
theorem loop_spans {index : ℕ} {loop : List ℕ} (nonempty : loop ≠ [])
    (inside : loop <+: graph.pathAt index) :
    (∃ start ≤ index, graph.loopStart loop = some start) ∧
      ∃ stop ≥ index, graph.loopEnd loop = some stop := by
  obtain ⟨op, located, isLoop⟩ := exists_op_of_prefix nonempty inside
  exact ⟨exists_firstEntry located isLoop, exists_lastEntry located isLoop⟩

/-! ## Birth -/

theorem lookup_constant (names : List String) (path : List ℕ) (name : String) :
    (names.map fun other => (other, path)).lookup name =
      if name ∈ names then some path else none := by
  induction names with
  | nil => rfl
  | cons head tail inductionHypothesis =>
      rw [List.map_cons, List.lookup_cons, inductionHypothesis]
      by_cases isHead : name = head
      · simp [isHead]
      · have differs : (name == head) = false := beq_eq_false_iff_ne.mpr isHead
        simp [isHead, differs]

theorem lookup_birthsAt (op : Operation) (name : String) :
    (birthsAt op).lookup name =
      if name ∈ op.writes then some (countedLoopPath op)
      else if name ∈ op.reads then some [] else none := by
  rw [birthsAt, List.lookup_append, lookup_constant, lookup_constant]
  split_ifs <;> rfl

theorem birthGroup_input {name : String} (isInput : name ∈ graph.graphInputNames) :
    graph.birthGroup name = some [] := by
  rw [birthGroup, List.lookup_append, lookup_constant, if_pos isInput]
  rfl

/-- A name that is no graph input is born at its first access. -/
theorem birthGroup_first {name : String} (notInput : name ∉ graph.graphInputNames) {index : ℕ}
    {op : Operation} (located : graph.operations[index]? = some op)
    (accessed : name ∈ op.accesses) (first : ∀ earlier < index, ¬ graph.Accesses earlier name) :
    graph.birthGroup name = some (if name ∈ op.writes then countedLoopPath op else []) := by
  have split : graph.operations =
      graph.operations.take index ++ op :: graph.operations.drop (index + 1) := by
    obtain ⟨inside, isOp⟩ := List.getElem?_eq_some_iff.mp located
    rw [← isOp, List.getElem_cons_drop, List.take_append_drop]
  have noneBefore : ((graph.operations.take index).flatMap birthsAt).lookup name = none := by
    rw [List.lookup_eq_none_iff]
    rintro ⟨other, path⟩ inside
    obtain ⟨earlierOp, inTake, born⟩ := List.mem_flatMap.mp inside
    obtain ⟨earlier, isEarlier⟩ := List.mem_iff_getElem?.mp inTake
    rw [List.getElem?_take] at isEarlier
    split_ifs at isEarlier with before
    rw [bne_iff_ne]
    rintro rfl
    refine first earlier before (accesses_iff.mpr ⟨earlierOp, isEarlier, ?_⟩)
    rcases List.mem_append.mp born with written | read
    · obtain ⟨_, isWritten, same⟩ := List.mem_map.mp written
      cases same
      exact List.mem_append_left _ isWritten
    · obtain ⟨_, isRead, same⟩ := List.mem_map.mp read
      cases same
      exact List.mem_append_right _ isRead
  rw [birthGroup, List.lookup_append, lookup_constant, if_neg notInput, split,
    List.flatMap_append, List.lookup_append, noneBefore, List.flatMap_cons, List.lookup_append,
    lookup_birthsAt]
  by_cases written : name ∈ op.writes
  · simp [written]
  · have read : name ∈ op.reads := (List.mem_append.mp accessed).resolve_left written
    simp [written, read]

theorem commonLength_spec (producer consumer : List ℕ) :
    commonLength producer consumer ≤ producer.length ∧
      commonLength producer consumer ≤ consumer.length ∧
      producer.take (commonLength producer consumer) =
        consumer.take (commonLength producer consumer) ∧
      ∀ depth, depth ≤ producer.length → producer.take depth = consumer.take depth →
        depth ≤ consumer.length → depth ≤ commonLength producer consumer := by
  induction producer generalizing consumer with
  | nil => simp [commonLength]
  | cons head tail inductionHypothesis =>
      cases consumer with
      | nil =>
          refine ⟨Nat.zero_le _, Nat.zero_le _, rfl, ?_⟩
          intro depth _ _ bound
          exact bound
      | cons head' tail' =>
          obtain ⟨lower, upper, same, longest⟩ := inductionHypothesis tail'
          unfold commonLength
          split_ifs with isHead
          · subst isHead
            refine ⟨Nat.succ_le_succ lower, Nat.succ_le_succ upper, by simp [same], ?_⟩
            intro depth within taken within'
            cases depth with
            | zero => exact Nat.zero_le _
            | succ depth =>
                simp only [List.take_succ_cons, List.cons.injEq, true_and] at taken
                exact Nat.succ_le_succ (longest depth (Nat.le_of_succ_le_succ within) taken
                  (Nat.le_of_succ_le_succ within'))
          · refine ⟨Nat.zero_le _, Nat.zero_le _, rfl, ?_⟩
            intro depth _ taken _
            cases depth with
            | zero => exact le_refl _
            | succ depth =>
                simp only [List.take_succ_cons, List.cons.injEq] at taken
                exact absurd taken.1 isHead

/-! ## The lifetime of a buffer -/

theorem mem_crossings {name : String} {loop : List ℕ} {index : ℕ} :
    (loop, index) ∈ graph.crossings name ↔
      ∃ op, graph.operations[index]? = some op ∧ name ∈ op.reads ∧
        graph.enclosingLoop op name = some loop := by
  unfold crossings
  rw [List.mem_flatMap]
  constructor
  · rintro ⟨⟨op, position⟩, inOps, inside⟩
    obtain ⟨read, isRead, crossed⟩ := List.mem_filterMap.mp inside
    obtain ⟨inReads, same⟩ := List.mem_filter.mp isRead
    obtain ⟨loop', isLoop, pair⟩ := Option.map_eq_some_iff.mp crossed
    cases of_decide_eq_true same
    cases pair
    exact ⟨op, List.mem_zipIdx_iff_getElem?.mp inOps, inReads, isLoop⟩
  · rintro ⟨op, located, read, crossed⟩
    refine ⟨(op, index), List.mem_zipIdx_iff_getElem?.mpr located,
      List.mem_filterMap.mpr ⟨name, List.mem_filter.mpr ⟨read, decide_eq_true rfl⟩, ?_⟩⟩
    simp only [crossed, Option.map_some]

/-- A start override lies before every access. -/
theorem startOverrides_le {name : String} {override index : ℕ}
    (found : graph.startOverrides name = some override) (accessed : graph.Accesses index name) :
    override ≤ index := by
  have inside := List.min?_mem found
  obtain ⟨⟨loop, reader⟩, -, filtered⟩ := List.mem_filterMap.mp inside
  obtain ⟨-, before⟩ := Option.filter_eq_some_iff.mp filtered
  obtain ⟨op, located, isAccess⟩ := accesses_iff.mp accessed
  obtain ⟨first, lower, isFirst⟩ := exists_firstEntry located isAccess
  have isFirst' : graph.firstAccess name = some first := isFirst
  rw [isFirst', Option.getD_some] at before
  exact le_trans (le_of_lt (of_decide_eq_true before)) lower

/-- An end override lies after every access. -/
theorem lt_endOverrides {name : String} {override index : ℕ}
    (found : graph.endOverrides name = some override) (accessed : graph.Accesses index name) :
    index + 1 ≤ override := by
  have inside := List.max?_mem found
  obtain ⟨⟨loop, reader⟩, -, filtered⟩ := List.mem_filterMap.mp inside
  obtain ⟨-, after⟩ := Option.filter_eq_some_iff.mp filtered
  obtain ⟨op, located, isAccess⟩ := accesses_iff.mp accessed
  obtain ⟨last, upper, isLast⟩ := exists_lastEntry located isAccess
  have isLast' : graph.lastAccess name = some last := isLast
  rw [isLast', Option.getD_some] at after
  have later := of_decide_eq_true after
  omega

/-- The record handed to the plan solvers for a name that is accessed. -/
def boundBuffer (graph : OperationGraph) (name : String) (size : ℕ)
    (used : (graph.calculateLiveness name).getD [] ≠ []) : LifetimeBoundBuffer where
  name := name
  size := size
  uses := ((graph.calculateLiveness name).getD []).map (Nat.cast : ℕ → ℤ)
  firstUseIsRead := name ∈ graph.graphInputNames
  lifetimeStartOverride := (graph.startOverrides name).map (Nat.cast : ℕ → ℤ)
  lifetimeEndOverride := (graph.endOverrides name).map (Nat.cast : ℕ → ℤ)
  usesNonempty := fun isEmpty => used (List.map_eq_nil_iff.mp isEmpty)
  usesIncreasing := by
    rw [List.pairwise_map]
    exact (liveness_increasing name).imp fun lower => Int.ofNat_lt.mpr lower
  startOverride_le := by
    intro override found
    obtain ⟨index, isStart, rfl⟩ := Option.map_eq_some_iff.mp found
    rw [List.head_map]
    exact Int.ofNat_le.mpr (startOverrides_le isStart (mem_liveness.mp (List.head_mem used)))
  endOverride_ge := by
    intro override found
    obtain ⟨index, isEnd, rfl⟩ := Option.map_eq_some_iff.mp found
    rw [List.getLast_map]
    exact_mod_cast lt_endOverrides isEnd (mem_liveness.mp (List.getLast_mem used))

section Lifetime

variable {name : String} {size : ℕ} {used : (graph.calculateLiveness name).getD [] ≠ []}

theorem mem_uses {index : ℕ} (accessed : graph.Accesses index name) :
    (index : ℤ) ∈ (graph.boundBuffer name size used).uses :=
  List.mem_map_of_mem (mem_liveness.mpr accessed)

theorem startTime_le_access {index : ℕ} (accessed : graph.Accesses index name) :
    (graph.boundBuffer name size used).startTime ≤ index :=
  le_trans (LifetimeBoundBuffer.startTime_le_firstUse _)
    (LifetimeBoundBuffer.firstUse_le _ (mem_uses accessed))

theorem access_lt_endTime {index : ℕ} (accessed : graph.Accesses index name) :
    (index : ℤ) < (graph.boundBuffer name size used).endTime :=
  lt_of_le_of_lt (LifetimeBoundBuffer.le_lastUse _ (mem_uses accessed))
    (LifetimeBoundBuffer.lastUse_lt_endTime _)

/-- The lifetime covers every loop that a read of the name enters. -/
theorem covers_crossing {loop : List ℕ} {reader index : ℕ} (nonempty : loop ≠ [])
    (crossed : (loop, reader) ∈ graph.crossings name) (inLoop : loop <+: graph.pathAt index) :
    (graph.boundBuffer name size used).startTime ≤ index ∧
      (index : ℤ) < (graph.boundBuffer name size used).endTime := by
  obtain ⟨⟨start, startLe, isStart⟩, stop, stopGe, isStop⟩ := loop_spans nonempty inLoop
  obtain ⟨op, located, read, -⟩ := mem_crossings.1 crossed
  have accessed : name ∈ op.accesses := List.mem_append_right _ read
  obtain ⟨first, -, isFirst⟩ := exists_firstEntry located accessed
  obtain ⟨last, -, isLast⟩ := exists_lastEntry located accessed
  have isFirst' : graph.firstAccess name = some first := isFirst
  have isLast' : graph.lastAccess name = some last := isLast
  constructor
  · refine le_trans ?_ (Int.ofNat_le.mpr startLe)
    rcases lt_or_ge start first with before | reached
    · have candidate : start ∈ (graph.crossings name).filterMap fun crossing =>
          (graph.loopStart crossing.1).filter fun start =>
            start < (graph.firstAccess name).getD crossing.2 := by
        refine List.mem_filterMap.mpr ⟨_, crossed, ?_⟩
        rw [isStart, Option.filter_some, isFirst', Option.getD_some, if_pos (decide_eq_true before)]
      obtain ⟨override, found⟩ : ∃ override, graph.startOverrides name = some override :=
        Option.isSome_iff_exists.mp (List.isSome_min?_of_mem candidate)
      refine le_trans (@LifetimeBoundBuffer.startTime_le_override _ override ?_)
        (Int.ofNat_le.mpr ((List.min?_eq_some_iff.mp found).2 _ candidate))
      exact congrArg (Option.map Nat.cast) found
    · exact le_trans (startTime_le_access (accesses_iff.mpr (of_firstEntry isFirst)))
        (Int.ofNat_le.mpr reached)
  · refine lt_of_le_of_lt (Int.ofNat_le.mpr stopGe) ?_
    rcases lt_or_ge (last + 1) (stop + 1) with beyond | reached
    · have candidate : stop + 1 ∈ (graph.crossings name).filterMap fun crossing =>
          ((graph.loopEnd crossing.1).map (· + 1)).filter fun stop =>
            stop > (graph.lastAccess name).getD crossing.2 + 1 := by
        refine List.mem_filterMap.mpr ⟨_, crossed, ?_⟩
        rw [isStop, Option.map_some, Option.filter_some, isLast', Option.getD_some,
          if_pos (decide_eq_true beyond)]
      obtain ⟨override, found⟩ : ∃ override, graph.endOverrides name = some override :=
        Option.isSome_iff_exists.mp (List.isSome_max?_of_mem candidate)
      have covered : stop + 1 ≤ override := (List.max?_eq_some_iff.mp found).2 _ candidate
      refine lt_of_lt_of_le (Int.ofNat_lt.mpr (Nat.lt_of_succ_le covered))
        (LifetimeBoundBuffer.override_le_endTime _ ?_ ?_)
      · exact Int.natCast_pos.mpr (by omega)
      · exact congrArg (Option.map Nat.cast) found
    · exact lt_of_le_of_lt (Int.ofNat_le.mpr (Nat.le_of_succ_le_succ reached))
        (access_lt_endTime (accesses_iff.mpr (of_lastEntry isLast)))

/-- A lifetime starts with an access or with a loop that a read enters. -/
theorem startTime_cases :
    (∃ index : ℕ, (graph.boundBuffer name size used).startTime = index ∧
        graph.Accesses index name) ∨
      ∃ (start : ℕ) (loop : List ℕ) (reader : ℕ),
        (graph.boundBuffer name size used).startTime = start ∧
        (loop, reader) ∈ graph.crossings name ∧ graph.loopStart loop = some start := by
  have firstUse : (graph.boundBuffer name size used).firstUse =
      (((graph.calculateLiveness name).getD []).head used : ℕ) :=
    List.head_map _
  cases found : graph.startOverrides name with
  | none =>
      refine .inl ⟨_, ?_, mem_liveness.mp (List.head_mem used)⟩
      have absent : (graph.boundBuffer name size used).lifetimeStartOverride = none :=
        congrArg (Option.map Nat.cast) found
      rw [LifetimeBoundBuffer.startTime, absent, Option.getD_none, min_self, firstUse]
  | some override =>
      obtain ⟨⟨loop, reader⟩, crossed, filtered⟩ := List.mem_filterMap.mp (List.min?_mem found)
      refine .inr ⟨override, loop, reader, ?_, crossed, (Option.filter_eq_some_iff.mp filtered).1⟩
      have present : (graph.boundBuffer name size used).lifetimeStartOverride =
          some (override : ℤ) := congrArg (Option.map Nat.cast) found
      have lower := startOverrides_le found (mem_liveness.mp (List.head_mem used))
      rw [LifetimeBoundBuffer.startTime, present, Option.getD_some, firstUse]
      exact min_eq_right (Int.ofNat_le.mpr lower)

end Lifetime

end OperationGraph

end TorchSpyre.Scratchpad
