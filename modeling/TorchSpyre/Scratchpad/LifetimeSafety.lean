import TorchSpyre.Scratchpad.Lifetimes

/-!
# Address reuse across counted loops

Between a write and a read that observes it, the run stays inside the lifetime of the
buffer.  Two buffers with disjoint lifetimes can therefore share an address.
-/

namespace TorchSpyre.Scratchpad

open Lib LoopNest

namespace OperationGraph

variable {graph : OperationGraph}

/-- No operation updates a buffer other than a graph input before anything else accesses
it. -/
def BornBeforeUpdate (graph : OperationGraph) : Prop :=
  ∀ name ∉ graph.graphInputNames, ∀ index, graph.Reads index name → graph.Writes index name →
    ∃ earlier < index, graph.Accesses earlier name

/-- How many loops a reader shares with the birth of the name. -/
def sharedWithBirth (graph : OperationGraph) (name : String) (reader : ℕ) : ℕ :=
  commonLength ((graph.birthGroup name).getD []) (graph.pathAt reader)

/-- A name born inside loops is first accessed by the write that bears it. -/
theorem birth_cases {name : String} {reader : ℕ} (read : graph.Reads reader name) :
    graph.sharedWithBirth name reader = 0 ∨
      ∃ first, name ∉ graph.graphInputNames ∧ graph.Writes first name ∧
        (∀ index, graph.Accesses index name → first ≤ index) ∧
        SharesLoops graph.pathAt (graph.sharedWithBirth name reader) first reader ∧
        ¬ SharesLoops graph.pathAt (graph.sharedWithBirth name reader + 1) first reader := by
  have outside : graph.birthGroup name = some [] → graph.sharedWithBirth name reader = 0 := by
    intro isOutside
    rw [sharedWithBirth, isOutside, Option.getD_some, commonLength]
    simp
  by_cases isInput : name ∈ graph.graphInputNames
  · exact .inl (outside (birthGroup_input isInput))
  · obtain ⟨op, located, accessed⟩ := accesses_iff.mp (.inl read : graph.Accesses reader name)
    obtain ⟨first, -, isFirst⟩ := exists_firstEntry located accessed
    obtain ⟨firstOp, firstLocated, firstAccessed⟩ := of_firstEntry isFirst
    have least : ∀ index, graph.Accesses index name → first ≤ index := by
      intro index isAccess
      obtain ⟨other, otherLocated, otherAccessed⟩ := accesses_iff.mp isAccess
      exact firstEntry_le isFirst otherLocated otherAccessed
    have born := birthGroup_first isInput firstLocated firstAccessed fun earlier before isAccess =>
      absurd (least earlier isAccess) (not_le.mpr before)
    by_cases written : name ∈ firstOp.writes
    · rw [if_pos written, ← pathAt_eq firstLocated] at born
      obtain ⟨lower, upper, same, longest⟩ :=
        commonLength_spec (graph.pathAt first) (graph.pathAt reader)
      have isCommon : graph.sharedWithBirth name reader =
          commonLength (graph.pathAt first) (graph.pathAt reader) := by
        rw [sharedWithBirth, born, Option.getD_some]
      rw [isCommon]
      refine .inr ⟨first, isInput, ⟨firstOp, firstLocated, written⟩, least, ⟨lower, same⟩, ?_⟩
      intro deeper
      exact absurd (longest _ deeper.1 deeper.2 deeper.le_right) (Nat.not_succ_le_self _)
    · rw [if_neg written] at born
      exact .inl (outside born)

section Lifetime

variable {name : String} {size : ℕ} {used : (graph.calculateLiveness name).getD [] ≠ []}

/-- A read keeps the name alive in every loop it does not share with the birth. -/
theorem covers_shared {reader index depth : ℕ} (read : graph.Reads reader name)
    (beyondBirth : graph.sharedWithBirth name reader ≤ depth)
    (shared : SharesLoops graph.pathAt (depth + 1) index reader) :
    (graph.boundBuffer name size used).startTime ≤ index ∧
      (index : ℤ) < (graph.boundBuffer name size used).endTime := by
  obtain ⟨op, located, isRead⟩ := read
  have within := shared.le_right
  have isPath := pathAt_eq located
  have crossing : graph.enclosingLoop op name =
      some ((graph.pathAt reader).take (graph.sharedWithBirth name reader + 1)) := by
    unfold enclosingLoop
    rw [← isPath]
    exact if_neg (by unfold sharedWithBirth at beyondBirth; omega)
  have entered := shared.mono (Nat.succ_le_succ beyondBirth)
  apply covers_crossing _ (mem_crossings.mpr ⟨op, located, isRead, crossing⟩)
  · rw [← entered.2]
    exact List.take_prefix _ _
  · apply List.ne_nil_of_length_pos
    rw [List.length_take]
    omega

/-- A write and a later read, with no execution of a write of the name in between. -/
structure Observes (graph : OperationGraph) (trips : List ℕ → ℕ) (name : String)
    (write read : Instance) : Prop where
  written : graph.Writes write.index name
  isRead : graph.Reads read.index name
  readValid : Valid graph.pathAt trips read
  unwritten : ∀ index iters, graph.Writes index name →
    Valid graph.pathAt trips (enter graph.pathAt index iters) →
    Before graph.pathAt write (enter graph.pathAt index iters) →
    ¬ Before graph.pathAt (enter graph.pathAt index iters) read

section Observed

variable {trips : List ℕ → ℕ} {write read middle : Instance}

/-- The loops shared with the birth are in the same iteration at the write. -/
theorem Observes.birth_le (observes : Observes graph trips name write read)
    (positive : ∀ loop, 0 < trips loop) (contiguous : Contiguous graph.pathAt)
    (born : graph.BornBeforeUpdate) {depth : ℕ} (shared : Shares graph.pathAt depth write read)
    (differs : (write.index < read.index ∧
        ¬ SharesLoops graph.pathAt (depth + 1) write.index read.index) ∨
      (SharesLoops graph.pathAt (depth + 1) write.index read.index ∧
        write.iters.getD depth 0 < read.iters.getD depth 0)) :
    graph.sharedWithBirth name read.index ≤ depth := by
  rcases birth_cases observes.isRead with isZero | ⟨first, notInput, writes, least, loops, apart⟩
  · rw [isZero]
    exact Nat.zero_le _
  by_contra deeper
  rw [not_le] at deeper
  rcases differs with ⟨earlier, notShared⟩ | ⟨sameLoop, earlierIteration⟩
  · -- The write lies between the birth and the read, so in their common loops.
    have atWrite := contiguous.shares (least _ (.inr observes.written)) (le_of_lt earlier) loops
    exact notShared ((atWrite.symm.trans loops).mono deeper)
  · -- The birth is executed again in the iteration of the read.
    rcases lt_or_eq_of_le (least _ (.inl observes.isRead)) with before | same
    · have length : depth < (read.iters.take (graph.sharedWithBirth name read.index)).length := by
        rw [List.length_take, observes.readValid.length]
        have bound := loops.le_right
        omega
      have entered : read.iters.take (graph.sharedWithBirth name read.index) =
          (enter graph.pathAt first (read.iters.take
            (graph.sharedWithBirth name read.index))).iters.take
              (graph.sharedWithBirth name read.index) := by
        rw [enter_take (by
          rw [List.length_take, observes.readValid.length]
          exact le_min (le_refl _) loops.le_right), List.take_take, min_self]
      refine observes.unwritten first _ writes (enter_shared_valid positive observes.readValid loops)
        ⟨depth, ⟨?_, ?_⟩, .inr ⟨?_, ?_⟩⟩ ⟨_, ⟨loops, entered.symm⟩, .inl ⟨before, apart⟩⟩
      · exact shared.loops.trans (loops.mono (le_of_lt deeper)).symm
      · exact shared.iters.trans (take_mono (le_of_lt deeper) entered)
      · exact sameLoop.trans (loops.mono deeper).symm
      · rwa [enter_getD length, getD_of_take deeper (List.take_take.trans (by rw [min_self]))]
    · obtain ⟨earlier, isEarlier, accessed⟩ :=
        born name notInput read.index observes.isRead (same ▸ writes)
      have lower := least earlier accessed
      omega

/-- Leaving the loops of the write for the read, the run moves on in the text. -/
theorem Observes.after_write (observes : Observes graph trips name write read)
    (positive : ∀ loop, 0 < trips loop) (middleValid : Valid graph.pathAt trips middle) {depth : ℕ}
    (shared : Shares graph.pathAt depth write read) (earlier : write.index < read.index)
    (notShared : ¬ SharesLoops graph.pathAt (depth + 1) write.index read.index)
    (sharedMiddle : Shares graph.pathAt depth write middle)
    (afterWrite : Before graph.pathAt write middle) : write.index < middle.index := by
  obtain ⟨level, sharedLevel, ⟨later, -⟩ | ⟨sameLoop, earlierIteration⟩⟩ := afterWrite
  · exact later
  · exfalso
    have deep : depth ≤ level := by
      by_contra shallow
      have same := getD_of_take (not_le.mp shallow) sharedMiddle.iters
      omega
    -- The write is executed again in the iteration of the middle instance.
    have length : level < (middle.iters.take (level + 1)).length := by
      rw [List.length_take, middleValid.length]
      have bound := sameLoop.le_right
      omega
    have entered : ∀ {shallow : ℕ}, shallow ≤ level + 1 →
        (enter graph.pathAt write.index (middle.iters.take (level + 1))).iters.take shallow =
          middle.iters.take shallow := by
      intro shallow below
      rw [enter_take (by omega), List.take_take, min_eq_left below]
    refine observes.unwritten write.index _ observes.written
      (enter_shared_valid positive middleValid sameLoop)
      ⟨level, ⟨⟨sharedLevel.loops.1, rfl⟩, ?_⟩, .inr ⟨⟨sameLoop.1, rfl⟩, ?_⟩⟩
      ⟨depth, ⟨shared.loops, ?_⟩, .inl ⟨earlier, notShared⟩⟩
    · rw [entered (Nat.le_succ level)]
      exact sharedLevel.iters
    · rwa [enter_getD length, getD_of_take (Nat.lt_succ_self level)
        (List.take_take.trans (by rw [min_self]))]
    · rw [entered (by omega)]
      exact sharedMiddle.iters.symm.trans shared.iters

/-- Between a write and the read that observes it, the run stays in the lifetime. -/
theorem Observes.in_lifetime (observes : Observes graph trips name write read)
    (positive : ∀ loop, 0 < trips loop) (contiguous : Contiguous graph.pathAt)
    (born : graph.BornBeforeUpdate) (middleValid : Valid graph.pathAt trips middle)
    (writeBeforeRead : Before graph.pathAt write read)
    (afterWrite : Before graph.pathAt write middle)
    (beforeRead : Before graph.pathAt middle read) :
    (graph.boundBuffer name size used).startTime ≤ middle.index ∧
      (middle.index : ℤ) < (graph.boundBuffer name size used).endTime := by
  obtain ⟨depth, shared, differs⟩ := writeBeforeRead
  obtain ⟨sharedLeft, sharedRight⟩ := shared.between contiguous afterWrite beforeRead
  have beyondBirth := observes.birth_le positive contiguous born shared differs
  have startLe : (graph.boundBuffer name size used).startTime ≤ write.index :=
    startTime_le_access (.inr observes.written)
  have readLt : (read.index : ℤ) < (graph.boundBuffer name size used).endTime :=
    access_lt_endTime (.inl observes.isRead)
  rcases differs with ⟨earlier, notShared⟩ | ⟨sameLoop, -⟩
  · have later := observes.after_write positive middleValid shared earlier notShared sharedLeft
      afterWrite
    refine ⟨le_trans startLe (Int.ofNat_le.mpr (le_of_lt later)), ?_⟩
    rcases beforeRead.later_or_shares sharedRight with earlierText | inLoop
    · exact lt_trans (Int.ofNat_lt.mpr earlierText) readLt
    · exact (covers_shared observes.isRead beyondBirth inLoop).2
  · apply covers_shared observes.isRead beyondBirth
    rcases afterWrite.later_or_shares sharedLeft with later | inLoop
    · rcases beforeRead.later_or_shares sharedRight with earlierText | inLoop
      · exact (contiguous.shares (le_of_lt later) (le_of_lt earlierText) sameLoop).symm.trans sameLoop
      · exact inLoop
    · exact inLoop.symm.trans sameLoop

end Observed

/-! ## Graph inputs -/

section Input

variable {trips : List ℕ → ℕ} {before after : List Instance} {read : Instance}

theorem sharedWithBirth_input (isInput : name ∈ graph.graphInputNames) (reader : ℕ) :
    graph.sharedWithBirth name reader = 0 := by
  rw [sharedWithBirth, birthGroup_input isInput, Option.getD_some, commonLength]
  simp

/-- An input that is read before it is written is read by its first access. -/
theorem first_reads_input (positive : ∀ loop, 0 < trips loop)
    (contiguous : Contiguous graph.pathAt)
    (run : graph.execution trips = before ++ read :: after)
    (isRead : graph.Reads read.index name)
    (unwritten : ∀ run ∈ before, ¬ graph.Writes run.index name) {first : ℕ}
    (accessed : graph.Accesses first name)
    (least : ∀ index, graph.Accesses index name → first ≤ index) : graph.Reads first name := by
  rcases accessed with reads | writes
  · exact reads
  rcases lt_or_eq_of_le (least _ (.inl isRead)) with earlier | rfl
  · exfalso
    obtain ⟨lower, upper, same, longest⟩ :=
      commonLength_spec (graph.pathAt first) (graph.pathAt read.index)
    have loops : SharesLoops graph.pathAt
        (commonLength (graph.pathAt first) (graph.pathAt read.index)) first read.index :=
      ⟨lower, same⟩
    have readValid : Valid graph.pathAt trips read := by
      have executed : read ∈ graph.execution trips := by simp [run]
      exact (mem_unroll.mp executed).2
    obtain ⟨op, located, -⟩ := id writes
    have executed := mem_unroll.mpr ⟨(List.getElem?_eq_some_iff.mp located).1,
      enter_shared_valid positive readValid loops⟩
    refine unwritten _ (mem_before contiguous run executed ⟨_, ⟨loops, ?_⟩, .inl ⟨earlier, ?_⟩⟩) writes
    · rw [enter_take (by
        rw [List.length_take, readValid.length]
        exact le_min (le_refl _) upper), List.take_take, min_self]
    · intro deeper
      exact absurd (longest _ deeper.1 deeper.2 deeper.le_right) (Nat.not_succ_le_self _)
  · exact isRead

/-- The lifetime of an input does not start in the middle of a loop. -/
theorem start_not_inside (contiguous : Contiguous graph.pathAt)
    (isInput : name ∈ graph.graphInputNames)
    (readsFirst : ∀ first, graph.Accesses first name →
      (∀ index, graph.Accesses index name → first ≤ index) → graph.Reads first name)
    {index later : ℕ} (below : (index : ℤ) < (graph.boundBuffer name size used).startTime)
    (above : (graph.boundBuffer name size used).startTime ≤ later) :
    ¬ SharesLoops graph.pathAt 1 index later := by
  intro shared
  rcases @startTime_cases graph name size used with
    ⟨first, isStart, accessed⟩ | ⟨start, loop, reader, isStart, crossed, isLoopStart⟩
  · have least : ∀ other, graph.Accesses other name → first ≤ other := by
      intro other isAccess
      have lower : (graph.boundBuffer name size used).startTime ≤ other :=
        startTime_le_access isAccess
      omega
    have atFirst : SharesLoops graph.pathAt 1 index first :=
      contiguous.shares (by omega) (by omega) shared
    have covered : (graph.boundBuffer name size used).startTime ≤ index :=
      (covers_shared (readsFirst first accessed least)
        (le_of_eq (sharedWithBirth_input isInput first)) atFirst).1
    omega
  · obtain ⟨op, located, isRead, crossing⟩ := mem_crossings.mp crossed
    have isLoop : loop = (graph.pathAt reader).take 1 ∧ loop ≠ [] := by
      unfold enclosingLoop at crossing
      rw [← pathAt_eq located] at crossing
      have common : graph.sharedWithBirth name reader = 0 := sharedWithBirth_input isInput reader
      unfold sharedWithBirth at common
      simp only [common] at crossing
      split_ifs at crossing with outside
      refine ⟨(Option.some.inj crossing).symm, ?_⟩
      rw [← Option.some.inj crossing]
      apply List.ne_nil_of_length_pos
      rw [List.length_take]
      omega
    obtain ⟨startOp, startLocated, startsLoop⟩ := of_firstEntry isLoopStart
    have atStart : SharesLoops graph.pathAt 1 index start :=
      contiguous.shares (by omega) (by omega) shared
    have inLoop : loop <+: graph.pathAt index := by
      have isPrefix := (mem_loopsOf.1 startsLoop).2
      rw [← pathAt_eq startLocated] at isPrefix
      have taken := List.prefix_iff_eq_take.mp isPrefix
      have length : loop.length = 1 := by
        rw [isLoop.1, List.length_take]
        have positive := List.length_pos_of_ne_nil isLoop.2
        rw [isLoop.1, List.length_take] at positive
        omega
      rw [taken, length, ← atStart.2]
      exact List.take_prefix _ _
    obtain ⟨⟨other, lower, isOther⟩, -⟩ := loop_spans isLoop.2 inLoop
    cases isLoopStart.symm.trans isOther
    omega

/-- From the start of its lifetime to a read of its initial value, the run stays in the
lifetime of an input. -/
theorem input_in_lifetime (positive : ∀ loop, 0 < trips loop)
    (contiguous : Contiguous graph.pathAt) (isInput : name ∈ graph.graphInputNames)
    (run : graph.execution trips = before ++ read :: after)
    (isRead : graph.Reads read.index name)
    (unwritten : ∀ run ∈ before, ¬ graph.Writes run.index name) :
    ∀ run ∈ before.dropWhile fun run =>
        (run.index : ℤ) < (graph.boundBuffer name size used).startTime,
      (graph.boundBuffer name size used).startTime ≤ run.index ∧
        (run.index : ℤ) < (graph.boundBuffer name size used).endTime := by
  have ordered : (graph.execution trips).Pairwise (Before graph.pathAt) :=
    unroll_pairwise contiguous _
  rw [run] at ordered
  obtain ⟨beforeOrdered, -, acrossRead⟩ := List.pairwise_append.mp ordered
  have together : ∀ first second : Instance, Shares graph.pathAt 0 first second :=
    fun first second => ⟨⟨Nat.zero_le _, rfl⟩, rfl⟩
  intro middle afterStart
  have inBefore := (List.dropWhile_sublist _).subset afterStart
  constructor
  · by_contra below
    rw [not_le] at below
    cases stretch : before.dropWhile (fun run =>
        decide ((run.index : ℤ) < (graph.boundBuffer name size used).startTime)) with
    | nil =>
        rw [stretch] at afterStart
        cases afterStart
    | cons entry rest =>
        have reached : ¬ (entry.index : ℤ) < (graph.boundBuffer name size used).startTime := by
          have atHead := List.head?_dropWhile_not (fun run : Instance =>
            decide ((run.index : ℤ) < (graph.boundBuffer name size used).startTime)) before
          rw [stretch] at atHead
          simpa using atHead
        rw [stretch] at afterStart
        rcases List.mem_cons.mp afterStart with rfl | inRest
        · exact reached below
        · have suffixOrdered := beforeOrdered.sublist
            (stretch ▸ List.dropWhile_sublist (fun run : Instance =>
              decide ((run.index : ℤ) < (graph.boundBuffer name size used).startTime)))
          have entryBefore := (List.pairwise_cons.mp suffixOrdered).1 middle inRest
          rcases entryBefore.later_or_shares (together entry middle) with later | shared
          · omega
          · exact start_not_inside contiguous isInput
              (fun first accessed least => first_reads_input positive contiguous run isRead unwritten
                accessed least) below (not_lt.mp reached) shared.symm
  · have beforeRead := acrossRead middle inBefore read List.mem_cons_self
    rcases beforeRead.later_or_shares (together middle read) with earlier | shared
    · exact lt_trans (Int.ofNat_lt.mpr earlier) (access_lt_endTime (.inl isRead))
    · exact (covers_shared isRead (le_of_eq (sharedWithBirth_input isInput _)) shared).2

end Input

end Lifetime

/-! ## Sharing an address -/

section Sharing

variable (graph) (trips : List ℕ → ℕ)

/-- No write of the other buffer comes between a write of the buffer and a read that
observes it. -/
def KeepsWritten (name other : String) : Prop :=
  ∀ before write between read after,
    graph.execution trips = before ++ write :: (between ++ read :: after) →
    graph.Writes write.index name → graph.Reads read.index name →
    (∀ run ∈ between, ¬ graph.Writes run.index name) →
    ∀ run ∈ between, ¬ graph.Writes run.index other

/-- No write of the other buffer comes between the first time the run reaches a position
and a read of the initial value of a graph input. -/
def KeepsInitial (position : ℤ) (name other : String) : Prop :=
  name ∈ graph.graphInputNames → ∀ before read after,
    graph.execution trips = before ++ read :: after → graph.Reads read.index name →
    (∀ run ∈ before, ¬ graph.Writes run.index name) →
    ∀ run ∈ before.dropWhile fun run => (run.index : ℤ) < position,
      ¬ graph.Writes run.index other

def writesAny (names : List String) (run : Instance) : Bool :=
  (graph.operations[run.index]?).any fun op => op.writes.any fun name => name ∈ names

/-- The instance whose value a read of an address holds, when the names share it. -/
def lastWriter (names : List String) (before : List Instance) : Option Instance :=
  before.reverse.find? (graph.writesAny names)

/-- What a read of the buffer sees does not depend on sharing an address with the other
buffer. -/
structure Undisturbed (position : ℤ) (name other : String) : Prop where
  keepsWritten : graph.KeepsWritten trips name other
  keepsInitial : graph.KeepsInitial trips position name other
  sameWriter : ∀ before read after, graph.execution trips = before ++ read :: after →
    graph.Reads read.index name → (∃ run ∈ before, graph.Writes run.index name) →
    graph.lastWriter [name, other] before = graph.lastWriter [name] before

variable {graph} {trips}

theorem writesAny_iff {names : List String} {run : Instance} :
    graph.writesAny names run = true ↔ ∃ name ∈ names, graph.Writes run.index name := by
  unfold writesAny Writes
  rw [Option.any_eq_true]
  constructor
  · rintro ⟨op, located, written⟩
    obtain ⟨name, isWritten, inNames⟩ := List.any_eq_true.mp written
    exact ⟨name, of_decide_eq_true inNames, op, located, isWritten⟩
  · rintro ⟨name, inNames, op, located, isWritten⟩
    exact ⟨op, located, List.any_eq_true.mpr ⟨name, isWritten, decide_eq_true inNames⟩⟩

theorem lastWriter_eq {name other : String} (kept : graph.KeepsWritten trips name other)
    {before after : List Instance} {read : Instance}
    (run : graph.execution trips = before ++ read :: after)
    (isRead : graph.Reads read.index name)
    (written : ∃ run ∈ before, graph.Writes run.index name) :
    graph.lastWriter [name, other] before = graph.lastWriter [name] before := by
  obtain ⟨write, found⟩ : ∃ write, graph.lastWriter [name] before = some write := by
    obtain ⟨write, inBefore, writes⟩ := written
    apply Option.isSome_iff_exists.mp
    rw [lastWriter, List.find?_isSome]
    exact ⟨write, List.mem_reverse.mpr inBefore, writesAny_iff.2 ⟨name, List.mem_cons_self, writes⟩⟩
  obtain ⟨isWrite, between, earlier, split, unwritten⟩ := List.find?_eq_some_iff_append.mp found
  have parts : before = earlier.reverse ++ write :: between.reverse := by
    have reversed := congrArg List.reverse split
    simpa using reversed
  obtain ⟨written', isName, writes⟩ := writesAny_iff.1 isWrite
  rw [List.mem_singleton.mp isName] at writes
  have untouched : ∀ run ∈ between, ¬ graph.Writes run.index name := by
    intro run inBetween writesName
    have refused := unwritten run inBetween
    rw [writesAny_iff.2 ⟨name, List.mem_cons_self, writesName⟩] at refused
    cases refused
  have apart := kept earlier.reverse write between.reverse read after
    (by rw [run, parts, List.append_assoc, List.cons_append]) writes isRead
    fun run inside => untouched run (List.mem_reverse.mp inside)
  rw [found, lastWriter, List.find?_eq_some_iff_append]
  refine ⟨writesAny_iff.2 ⟨name, List.mem_cons_self, writes⟩, between, earlier, split, ?_⟩
  intro run inBetween
  rw [Bool.not_eq_true', ← Bool.not_eq_true]
  intro writesOne
  obtain ⟨one, isOne, writesIt⟩ := writesAny_iff.1 writesOne
  rcases List.mem_cons.mp isOne with rfl | isOther
  · exact untouched run inBetween writesIt
  · rw [List.mem_singleton.mp isOther] at writesIt
    exact apart run (List.mem_reverse.mpr inBetween) writesIt

/-- The run stays away from the other buffer while it is in the lifetime of the first. -/
theorem undisturbed_of_disjoint (positive : ∀ loop, 0 < trips loop)
    (contiguous : Contiguous graph.pathAt) (born : graph.BornBeforeUpdate) {name other : String}
    {size otherSize : ℕ} {used : (graph.calculateLiveness name).getD [] ≠ []}
    {otherUsed : (graph.calculateLiveness other).getD [] ≠ []}
    (apart : ¬ (graph.boundBuffer name size used).overlapsInTime
      (graph.boundBuffer other otherSize otherUsed)) :
    graph.Undisturbed trips (graph.boundBuffer name size used).startTime name other := by
  have elsewhere : ∀ {index : ℕ}, (graph.boundBuffer name size used).startTime ≤ index ∧
      (index : ℤ) < (graph.boundBuffer name size used).endTime → ¬ graph.Writes index other := by
    intro index inside writes
    have starts : (graph.boundBuffer other otherSize otherUsed).startTime ≤ index :=
      startTime_le_access (.inr writes)
    have stops : (index : ℤ) < (graph.boundBuffer other otherSize otherUsed).endTime :=
      access_lt_endTime (.inr writes)
    exact apart ⟨lt_of_le_of_lt inside.1 stops, lt_of_le_of_lt starts inside.2⟩
  have keepsWritten : graph.KeepsWritten trips name other := by
    intro before write between read after run written isRead unwritten middle isBetween
    have ordered : (graph.execution trips).Pairwise (Before graph.pathAt) :=
      unroll_pairwise contiguous _
    have valid : ∀ run ∈ graph.execution trips, Valid graph.pathAt trips run :=
      fun run executed => (mem_unroll.mp executed).2
    have observes : Observes graph trips name write read := by
      refine ⟨written, isRead, valid read (by simp [run]), ?_⟩
      intro index iters writes isValid afterWrite beforeRead
      obtain ⟨op, located, -⟩ := id writes
      have executed := mem_unroll.mpr ⟨(List.getElem?_eq_some_iff.mp located).1, isValid⟩
      exact unwritten _ (mem_between contiguous run executed afterWrite beforeRead) writes
    have middleValid := valid middle (by simp [run, isBetween])
    rw [run] at ordered
    obtain ⟨-, tailOrdered, -⟩ := List.pairwise_append.mp ordered
    obtain ⟨afterWrite, betweenOrdered⟩ := List.pairwise_cons.mp tailOrdered
    apply elsewhere
    exact observes.in_lifetime positive contiguous born middleValid (afterWrite read (by simp))
      (afterWrite middle (List.mem_append_left _ isBetween))
      ((List.pairwise_append.mp betweenOrdered).2.2 middle isBetween read List.mem_cons_self)
  constructor
  case keepsWritten => exact keepsWritten
  case keepsInitial =>
    intro isInput before read after run isRead unwritten middle afterStart
    exact elsewhere (input_in_lifetime positive contiguous isInput run isRead unwritten middle
      afterStart)
  case sameWriter =>
    intro before read after run isRead written
    exact lastWriter_eq keepsWritten run isRead written

end Sharing

/-- `scale` is born before the loop and read in it; `total` lives after the loop. -/
def scaledLoop : OperationGraph where
  graphInputNames := ["x"]
  operations :=
    [{ reads := ["x"], writes := ["scale"] },
      { loopGroupId := some [0], reads := ["x"], writes := ["tile"] },
      { loopGroupId := some [0], reads := ["tile", "scale"], writes := ["scaled"] },
      { reads := ["scaled"], writes := ["total"] },
      { reads := ["total"], writes := ["y"] }]

theorem scaledLoop_contiguous : Contiguous scaledLoop.pathAt := by
  have inLoop : ∀ index, scaledLoop.pathAt index ≠ [] → index = 1 ∨ index = 2 := by
    intro index nonempty
    match index with
    | 0 => exact absurd rfl nonempty
    | 1 => exact .inl rfl
    | 2 => exact .inr rfl
    | 3 => exact absurd rfl nonempty
    | 4 => exact absurd rfl nonempty
    | _ + 5 => exact absurd rfl nonempty
  intro first middle last lower upper loop nonempty atFirst atLast
  have entered : ∀ {index}, loop <+: scaledLoop.pathAt index → index = 1 ∨ index = 2 := by
    intro index isPrefix
    apply inLoop index
    intro empty
    rw [empty] at isPrefix
    exact nonempty (List.prefix_nil.mp isPrefix)
  have bounds : middle = 1 ∨ middle = 2 := by
    rcases entered atFirst with rfl | rfl <;> rcases entered atLast with rfl | rfl <;> omega
  rcases entered atFirst with rfl | rfl <;> rcases bounds with rfl | rfl <;> exact atFirst

/-- The input `x` is read after `tile` was used. -/
def lateInput : OperationGraph where
  graphInputNames := ["x", "w"]
  operations :=
    [{ reads := ["w"], writes := ["tile"] },
      { reads := ["tile"], writes := ["y"] },
      { reads := ["x"], writes := ["z"] }]

/-- `acc` is updated before it is written; its lifetime ends with the update. -/
def updatedLoop : OperationGraph where
  graphInputNames := ["x"]
  operations :=
    [{ loopGroupId := some [0], reads := ["acc"], writes := ["acc"] },
      { loopGroupId := some [0], reads := ["x"], writes := ["tile"] },
      { loopGroupId := some [0], reads := ["tile"], writes := ["y"] }]

end OperationGraph

end TorchSpyre.Scratchpad
