import Mathlib
import TorchSpyre.ContextSwitch.Brackets
import TorchSpyre.Lib.Walk

/-!
# Resident values survive opaque kernels

The list with its brackets, run with kernels that overwrite the scratchpad, and the list as
it was, run with kernels that do not, are compared operation by operation: before each one
they agree on HBM and on the rows of every live resident buffer.
-/

namespace TorchSpyre.ContextSwitch

open Lib

variable {Cell : Type} [Inhabited Cell]

/-! ## Running an operation list -/

structure Memory (Cell : Type) where
  lx : ℕ → Cell
  hbm : String → List Cell

def Operation.mutates (operation : Operation) : Option String :=
  match operation.kind with
  | .computedBuffer _ target => target
  | _ => none

/-- The buffer whose storage a name stands for: a mutation's result lies in its target. -/
def storage (graph : Graph) (name : String) : String :=
  match graph.operations.find? fun operation => name ∈ operation.writes with
  | some operation => operation.mutates.getD name
  | none => name

def allocation (graph : Graph) (place : String) : Option Allocation :=
  (graph.getBuffer place).bind Buffer.lx

def Allocation.rows (allocation : Allocation) (row : ℕ) : Prop :=
  allocation.address ≤ row ∧ row < allocation.address + allocation.size

instance (allocation : Allocation) (row : ℕ) : Decidable (allocation.rows row) :=
  inferInstanceAs (Decidable (_ ∧ _))

/-- What an operation computes for a buffer it writes, from what it reads and, for a mutation,
from what the target held. -/
abbrev Compute (Cell : Type) :=
  Operation → List (List Cell) → String → Option (List Cell) → List Cell

/-- What an opaque kernel leaves in the scratchpad. -/
abbrev Scratch (Cell : Type) := Operation → Memory Cell → ℕ → Cell

def untouched : Scratch Cell := fun _ memory => memory.lx

section Run

variable (graph : Graph) (compute : Compute Cell) (scratch : Scratch Cell)

def content (memory : Memory Cell) (place : String) : List Cell :=
  match allocation graph place with
  | some rows => (List.range rows.size).map fun offset => memory.lx (rows.address + offset)
  | none => memory.hbm place

def fill (memory : Memory Cell) (write : String × List Cell) : Memory Cell :=
  match allocation graph write.1 with
  | some rows =>
      { memory with
        lx := fun row => if rows.rows row then write.2.getD (row - rows.address) default
          else memory.lx row }
  | none => { memory with hbm := Function.update memory.hbm write.1 write.2 }

def valuesRead (operation : Operation) (memory : Memory Cell) : List (List Cell) :=
  operation.reads.map fun name => content graph memory (storage graph name)

def written (operation : Operation) (values : List (List Cell)) (memory : Memory Cell)
    (name : String) : String × List Cell :=
  (operation.mutates.getD name,
    match operation.kind with
    | .computedBuffer .clone _ => values.headD []
    | _ => compute operation values name (operation.mutates.map (content graph memory)))

def execOperation (memory : Memory Cell) (operation : Operation) : Memory Cell :=
  let values := valuesRead graph operation memory
  let after := (operation.writes.map (written graph compute operation values memory)).foldl
    (fill graph) memory
  if isOpaque operation then { after with lx := scratch operation after } else after

/-- The values each operation reads. -/
def trace : List Operation → Memory Cell → List (String × List (List Cell))
  | [], _ => []
  | operation :: rest, memory =>
      (operation.operationName, valuesRead graph operation memory) ::
        trace rest (execOperation graph compute scratch memory operation)

end Run

/-! ## Plans -/

/-- The buffer is used before the index and again at or after it. -/
def LiveAt (graph : Graph) (index : ℕ) (name : String) : Prop :=
  (∃ use ∈ usesOf graph.operations name, use < index) ∧
    ∃ use ∈ usesOf graph.operations name, index ≤ use

/-- What the allocator promises the pass: names are not issued twice, resident buffers are
computed buffers in their own storage that no extern kernel takes as an operand, the first
operation that uses one writes all of it, and whatever touches its storage does so while it is
live (the allocator keeps mutation targets out of the scratchpad). -/
structure Planned (names : NameSupply) (graph : Graph) : Prop where
  operationNames : (graph.operations.map Operation.operationName).Nodup
  unissuedOperations : ∀ operation ∈ graph.operations, ∀ number, graph.issued ≤ number →
    names.operationName number ≠ operation.operationName
  unissuedBuffers : ∀ operation ∈ graph.operations, ∀ number, graph.issued ≤ number →
    names.bufferName number ∉ operation.accesses ++ operation.mutates.toList
  unregistered : ∀ number, graph.issued ≤ number → graph.getBuffer (names.bufferName number) = none
  computed : ∀ name buffer, graph.getBuffer name = some buffer → buffer.lx.isSome = true →
    buffer.isComputedBuffer = true
  own : ∀ name, isLxResident graph name = true → storage graph name = name
  fallbacks : ∀ operation ∈ graph.operations, (∀ body target, operation.kind ≠ .computedBuffer body target) →
    ∀ name ∈ operation.accesses, isLxResident graph (storage graph name) = false ∧
      isLxResident graph name = false
  reads : ∀ index operation, graph.operations[index]? = some operation →
    ∀ name ∈ operation.reads, isLxResident graph (storage graph name) = true →
      LiveAt graph index (storage graph name)
  mutations : ∀ index operation, graph.operations[index]? = some operation →
    ∀ target, operation.mutates = some target → isLxResident graph target = true →
      LiveAt graph index target
  produced : ∀ name, isLxResident graph name = true → ∀ index ∈ usesOf graph.operations name,
    (∀ use ∈ usesOf graph.operations name, index ≤ use) →
      ∃ operation, graph.operations[index]? = some operation ∧ name ∈ operation.writes ∧
        operation.mutates = none

/-! ## Liveness -/

theorem mem_usesOf {operations : List Operation} {name : String} {index : ℕ} :
    index ∈ usesOf operations name ↔
      ∃ operation, operations[index]? = some operation ∧ name ∈ operation.accesses := by
  rw [usesOf, List.mem_filter, List.mem_range, Option.any_eq_true]
  constructor
  · rintro ⟨-, operation, here, accessed⟩
    exact ⟨operation, here, by simpa using accessed⟩
  · rintro ⟨operation, here, accessed⟩
    exact ⟨(List.getElem?_eq_some_iff.mp here).1, operation, here, by simpa using accessed⟩

theorem usesOf_ordered (operations : List Operation) (name : String) :
    (usesOf operations name).Pairwise (· < ·) :=
  List.pairwise_lt_range.filter _

theorem straddles_iff {uses : List ℕ} (ordered : uses.Pairwise (· < ·)) {index : ℕ} :
    straddles uses index = true ↔ (∃ use ∈ uses, use < index) ∧ ∃ use ∈ uses, index ≤ use := by
  rcases List.eq_nil_or_concat uses with rfl | ⟨front, last, rfl⟩
  · simp [straddles]
  · have nonempty : front.concat last ≠ [] := by simp
    obtain ⟨first, rest, isCons⟩ := List.exists_cons_of_ne_nil nonempty
    have upper : ∀ use ∈ front.concat last, use ≤ last := by
      intro use inside
      rw [List.concat_eq_append] at inside ordered
      rcases List.mem_append.mp inside with earlier | here
      · exact le_of_lt ((List.pairwise_append.mp ordered).2.2 use earlier last (by simp))
      · exact (List.mem_singleton.mp here).le
    have lower : ∀ use ∈ front.concat last, first ≤ use := by
      intro use inside
      rw [isCons] at inside ordered
      rcases List.mem_cons.mp inside with rfl | later
      · exact le_rfl
      · exact le_of_lt ((List.pairwise_cons.mp ordered).1 use later)
    have isHead : (front.concat last).head? = some first := by rw [isCons]; rfl
    have isLast : (front.concat last).getLast? = some last := by simp
    rw [straddles, isHead, isLast]
    simp only [decide_eq_true_eq]
    constructor
    · rintro ⟨before, after⟩
      exact ⟨⟨first, isCons ▸ List.mem_cons_self, before⟩, last, by simp, by omega⟩
    · rintro ⟨⟨early, isEarly, before⟩, late, isLate, after⟩
      have lowest := lower early isEarly
      have highest := upper late isLate
      omega

/-- The buffers a kernel is bracketed for are the resident buffers live at it. -/
theorem mem_atRiskBuffers {graph : Graph} {index : ℕ} {name : String} :
    name ∈ atRiskBuffers graph index ↔ isLxResident graph name = true ∧ LiveAt graph index name := by
  simp only [atRiskBuffers, calculateLiveness, List.mem_map, List.mem_filter, Bool.and_eq_true]
  constructor
  · rintro ⟨entry, ⟨⟨other, -, rfl⟩, resident, straddling⟩, rfl⟩
    exact ⟨resident, (straddles_iff (usesOf_ordered _ _)).mp straddling⟩
  · rintro ⟨resident, live⟩
    obtain ⟨use, isUse, -⟩ := live.1
    obtain ⟨operation, here, accessed⟩ := mem_usesOf.1 isUse
    refine ⟨(name, usesOf graph.operations name), ⟨⟨name, ?_, rfl⟩, resident,
      (straddles_iff (usesOf_ordered _ _)).mpr live⟩, rfl⟩
    rw [List.mem_eraseDups]
    exact List.mem_append_right _ (List.mem_flatMap.mpr
      ⟨operation, List.mem_of_getElem? here, accessed⟩)

theorem atRiskBuffers_nodup (graph : Graph) (index : ℕ) : (atRiskBuffers graph index).Nodup := by
  have entries : ((calculateLiveness graph).map Prod.fst).Nodup := by
    rw [calculateLiveness, List.map_map]
    have firsts : (graph.inputNames ++ graph.operations.flatMap Operation.accesses).eraseDups.map
        (Prod.fst ∘ fun name => (name, usesOf graph.operations name)) =
          (graph.inputNames ++ graph.operations.flatMap Operation.accesses).eraseDups := by
      rw [Function.comp_def]
      exact List.map_id' _
    rw [firsts]
    exact nodup_eraseDups _
  exact entries.sublist (List.filter_sublist.map _)

/-! ## Filling -/

section Fill

variable {graph : Graph} {first second : Memory Cell} {writes : List (String × List Cell)}

/-- A row agrees after the same writes if it agreed before or is written. -/
theorem foldl_fill_lx {row : ℕ}
    (agree : first.lx row = second.lx row ∨
      ∃ write ∈ writes, ∃ rows, allocation graph write.1 = some rows ∧ rows.rows row) :
    (writes.foldl (fill graph) first).lx row = (writes.foldl (fill graph) second).lx row := by
  induction writes generalizing first second with
  | nil => simpa using agree
  | cons write writes inductionHypothesis =>
      rw [List.foldl_cons, List.foldl_cons]
      refine inductionHypothesis ?_
      rcases agree with same | ⟨other, inside, rows, isRows, holds⟩
      · left
        unfold fill
        split
        next => simp [same]
        next => exact same
      · rcases List.mem_cons.mp inside with rfl | later
        · left
          simp [fill, isRows, holds]
        · exact .inr ⟨other, later, rows, isRows, holds⟩

theorem foldl_fill_hbm {place : String} (agree : first.hbm place = second.hbm place) :
    (writes.foldl (fill graph) first).hbm place = (writes.foldl (fill graph) second).hbm place := by
  induction writes generalizing first second with
  | nil => exact agree
  | cons write writes inductionHypothesis =>
      rw [List.foldl_cons, List.foldl_cons]
      refine inductionHypothesis ?_
      unfold fill
      split
      next => exact agree
      next =>
        by_cases here : place = write.1
        · simp [here]
        · simp [Function.update_of_ne here, agree]

/-- Writes to other places leave a place as it was. -/
theorem foldl_fill_hbm_of_ne {memory : Memory Cell} {place : String}
    (elsewhere : ∀ write ∈ writes, write.1 ≠ place) :
    (writes.foldl (fill graph) memory).hbm place = memory.hbm place := by
  induction writes generalizing memory with
  | nil => rfl
  | cons write writes inductionHypothesis =>
      rw [List.foldl_cons, inductionHypothesis fun other later =>
        elsewhere other (List.mem_cons_of_mem _ later)]
      unfold fill
      split
      next => rfl
      next => exact Function.update_of_ne (elsewhere write List.mem_cons_self).symm _ _

theorem foldl_fill_lx_of_hbm {memory : Memory Cell}
    (inHbm : ∀ write ∈ writes, allocation graph write.1 = none) :
    (writes.foldl (fill graph) memory).lx = memory.lx := by
  induction writes generalizing memory with
  | nil => rfl
  | cons write writes inductionHypothesis =>
      rw [List.foldl_cons, inductionHypothesis fun other later =>
        inHbm other (List.mem_cons_of_mem _ later)]
      simp [fill, inHbm write List.mem_cons_self]

end Fill

/-! ## Agreement -/

section Agreement

variable (names : NameSupply) (graph : Graph)

/-- Before the operation at an index, HBM agrees outside the names the pass hands out, and so
do the rows of every live resident buffer. -/
structure Agree (index : ℕ) (original bracketed : Memory Cell) : Prop where
  hbm : ∀ place, (∀ number, graph.issued ≤ number → names.bufferName number ≠ place) →
    original.hbm place = bracketed.hbm place
  lx : ∀ name rows, allocation graph name = some rows → LiveAt graph index name →
    ∀ row, rows.rows row → original.lx row = bracketed.lx row

variable {names graph}

theorem resident_iff {name : String} :
    isLxResident graph name = true ↔ ∃ rows, allocation graph name = some rows :=
  Option.isSome_iff_exists

omit [Inhabited Cell] in
theorem content_eq_of_rows {place : String} {rows : Allocation}
    (isRows : allocation graph place = some rows) {first second : Memory Cell}
    (agree : ∀ row, rows.rows row → first.lx row = second.lx row) :
    content graph first place = content graph second place := by
  simp only [content, isRows]
  refine List.map_congr_left fun offset inside => agree _ ?_
  have bound := List.mem_range.mp inside
  exact ⟨Nat.le_add_right _ _, Nat.add_lt_add_left bound _⟩

omit [Inhabited Cell] in
theorem Agree.content {index : ℕ} {original bracketed : Memory Cell}
    (agree : Agree names graph index original bracketed) {place : String}
    (known : ∀ number, graph.issued ≤ number → names.bufferName number ≠ place)
    (live : isLxResident graph place = true → LiveAt graph index place) :
    content graph original place = content graph bracketed place := by
  cases isRows : allocation graph place with
  | some rows =>
      exact content_eq_of_rows isRows
        (agree.lx place rows isRows (live (resident_iff.2 ⟨rows, isRows⟩)))
  | none =>
      simp only [ContextSwitch.content, isRows]
      exact agree.hbm place known

variable (planned : Planned names graph)

include planned in
/-- The storage of a name the list uses is no name the pass hands out. -/
theorem storage_known {operation : Operation} (inside : operation ∈ graph.operations) {name : String}
    (accessed : name ∈ operation.accesses) {number : ℕ} (above : graph.issued ≤ number) :
    names.bufferName number ≠ storage graph name := by
  unfold storage
  split
  next writer found =>
    have isWriter := List.mem_of_find?_eq_some found
    have unissued := planned.unissuedBuffers writer isWriter number above
    cases mutates : writer.mutates with
    | none =>
        rintro rfl
        exact planned.unissuedBuffers operation inside number above
          (List.mem_append_left _ accessed)
    | some target =>
        rintro rfl
        exact unissued (List.mem_append_right _ (by simp [mutates]))
  next =>
    rintro rfl
    exact planned.unissuedBuffers operation inside number above (List.mem_append_left _ accessed)

section Step

variable {index : ℕ} {operation : Operation} (here : graph.operations[index]? = some operation)
  {original bracketed : Memory Cell} (agree : Agree names graph index original bracketed)

omit [Inhabited Cell] in
include planned here agree in
theorem valuesRead_agree :
    valuesRead graph operation original = valuesRead graph operation bracketed := by
  have inside := List.mem_of_getElem? here
  refine List.map_congr_left fun name isRead => agree.content ?_ ?_
  · exact fun number above => storage_known planned inside (List.mem_append_left _ isRead) above
  · exact planned.reads index operation here name isRead

omit [Inhabited Cell] in
include planned here agree in
theorem written_agree (compute : Compute Cell) (values : List (List Cell)) :
    written graph compute operation values original =
      written graph compute operation values bracketed := by
  funext name
  unfold written
  have sameTarget : operation.mutates.map (content graph original) =
      operation.mutates.map (content graph bracketed) := by
    cases mutates : operation.mutates with
    | none => rfl
    | some target =>
        refine congrArg some (agree.content ?_ (planned.mutations index operation here target mutates))
        intro number above
        rintro rfl
        exact planned.unissuedBuffers operation (List.mem_of_getElem? here) number above
          (List.mem_append_right _ (by simp [mutates]))
  rw [sameTarget]

/-- A buffer that comes to life is written by the operation. -/
theorem liveAt_succ {name : String} (live : LiveAt graph (index + 1) name)
    (notLive : ¬ LiveAt graph index name) :
    index ∈ usesOf graph.operations name ∧ ∀ use ∈ usesOf graph.operations name, index ≤ use := by
  obtain ⟨⟨early, isEarly, before⟩, late, isLate, after⟩ := live
  have least : ∀ use ∈ usesOf graph.operations name, index ≤ use := by
    intro use isUse
    by_contra earlier
    exact notLive ⟨⟨use, isUse, not_le.mp earlier⟩, late, isLate, by omega⟩
  have isHere : early = index := le_antisymm (by omega) (least early isEarly)
  exact ⟨isHere ▸ isEarly, least⟩

include planned here agree in
/-- An operation that is not opaque keeps the agreement. -/
theorem agree_execOperation (compute : Compute Cell) (scratch : Scratch Cell)
    (notOpaque : isOpaque operation = false) :
    Agree names graph (index + 1) (execOperation graph compute untouched original operation)
      (execOperation graph compute scratch bracketed operation) := by
  have sameValues := valuesRead_agree planned here agree
  have sameWritten := written_agree planned here agree compute
  simp only [execOperation, notOpaque, Bool.false_eq_true, if_false, sameValues, sameWritten]
  constructor
  · exact fun place known => foldl_fill_hbm (agree.hbm place known)
  · intro name rows isRows live row inside
    refine foldl_fill_lx ?_
    by_cases liveBefore : LiveAt graph index name
    · exact .inl (agree.lx name rows isRows liveBefore row inside)
    · right
      obtain ⟨isUse, least⟩ := liveAt_succ live liveBefore
      obtain ⟨writer, isWriter, writes, pure⟩ :=
        planned.produced name (resident_iff.2 ⟨rows, isRows⟩) index isUse least
      obtain rfl : operation = writer := Option.some.inj (here.symm.trans isWriter)
      refine ⟨_, List.mem_map_of_mem writes, rows, ?_, inside⟩
      simp only [written, pure, Option.getD_none]
      exact isRows

end Step

/-! ## Running a bracket -/

/-- The memory after a list of operations. -/
def run (graph : Graph) (compute : Compute Cell) (scratch : Scratch Cell)
    (operations : List Operation) (memory : Memory Cell) : Memory Cell :=
  operations.foldl (execOperation graph compute scratch) memory

variable {compute : Compute Cell} {scratch : Scratch Cell}

theorem trace_append (first second : List Operation) (memory : Memory Cell) :
    trace graph compute scratch (first ++ second) memory =
      trace graph compute scratch first memory ++
        trace graph compute scratch second (run graph compute scratch first memory) := by
  induction first generalizing memory with
  | nil => rfl
  | cons operation first inductionHypothesis =>
      rw [List.cons_append, trace, inductionHypothesis, trace, List.cons_append]
      rfl

theorem trace_names {operations : List Operation} {memory : Memory Cell} {entry : String × List (List Cell)}
    (inside : entry ∈ trace graph compute scratch operations memory) :
    ∃ operation ∈ operations, operation.operationName = entry.1 := by
  induction operations generalizing memory with
  | nil => cases inside
  | cons operation rest inductionHypothesis =>
      rcases List.mem_cons.mp inside with rfl | later
      · exact ⟨operation, List.mem_cons_self, rfl⟩
      · obtain ⟨other, isOther, named⟩ := inductionHypothesis later
        exact ⟨other, List.mem_cons_of_mem _ isOther, named⟩

include planned in
theorem allocation_issued {number : ℕ} (above : graph.issued ≤ number) :
    allocation graph (names.bufferName number) = none := by
  rw [allocation, planned.unregistered number above]
  rfl

include planned in
theorem storage_issued {number : ℕ} (above : graph.issued ≤ number) :
    storage graph (names.bufferName number) = names.bufferName number := by
  have unwritten : (graph.operations.find? fun operation =>
      names.bufferName number ∈ operation.writes) = none := by
    refine List.find?_eq_none.mpr fun operation inside => ?_
    have unissued := planned.unissuedBuffers operation inside number above
    simp only [Operation.accesses, List.mem_append, not_or] at unissued
    simpa using unissued.1.2
  rw [storage, unwritten]

include planned in
theorem exec_dump {number : ℕ} (above : graph.issued ≤ number) {buf : String}
    (own : storage graph buf = buf) (memory : Memory Cell) :
    execOperation graph compute scratch memory (dumpOperation names number buf) =
      { memory with
        hbm := Function.update memory.hbm (names.bufferName number) (content graph memory buf) } := by
  simp [execOperation, dumpOperation, isOpaque, valuesRead, own, written, Operation.mutates, fill,
    allocation_issued planned above]

include planned in
/-- The dumps copy the buffers and touch nothing else. -/
theorem run_dumps {bufs : List String} (resident : ∀ buf ∈ bufs, isLxResident graph buf = true)
    {number : ℕ} (above : graph.issued ≤ number) (memory : Memory Cell) :
    let dumped := run graph compute scratch (dumps names number bufs) memory
    dumped.lx = memory.lx ∧
      (∀ place, (∀ other, number ≤ other → names.bufferName other ≠ place) →
        dumped.hbm place = memory.hbm place) ∧
      ∀ offset buf, bufs[offset]? = some buf →
        dumped.hbm (names.bufferName (number + offset)) = content graph memory buf := by
  induction bufs generalizing number memory with
  | nil => exact ⟨rfl, fun _ _ => rfl, fun _ _ here => by cases here⟩
  | cons buf rest inductionHypothesis =>
      have isResident := resident buf List.mem_cons_self
      obtain ⟨sameLx, sameHbm, copies⟩ := inductionHypothesis
        (fun other later => resident other (List.mem_cons_of_mem _ later))
        (show graph.issued ≤ number + 1 by omega)
        (execOperation graph compute scratch memory (dumpOperation names number buf))
      have stepped : execOperation graph compute scratch memory (dumpOperation names number buf) =
          { memory with
            hbm := Function.update memory.hbm (names.bufferName number)
              (content graph memory buf) } :=
        exec_dump planned above (planned.own buf isResident) memory
      have split : run graph compute scratch (dumps names number (buf :: rest)) memory =
          run graph compute scratch (dumps names (number + 1) rest)
            (execOperation graph compute scratch memory (dumpOperation names number buf)) := rfl
      simp only [split]
      refine ⟨by rw [sameLx, stepped], ?_, ?_⟩
      · intro place elsewhere
        rw [sameHbm place fun other later => elsewhere other (by omega), stepped]
        exact Function.update_of_ne (elsewhere number le_rfl).symm _ _
      · intro offset other here
        cases offset with
        | zero =>
            cases here
            rw [Nat.add_zero, sameHbm _ fun later isLater same => by
              have equal := names.bufferName_injective same
              omega, stepped]
            exact Function.update_self _ _ _
        | succ offset =>
            have copied := copies offset other here
            rw [Nat.add_right_comm, Nat.add_assoc] at copied
            rw [copied, stepped]
            obtain ⟨rows, isRows⟩ := resident_iff.mp
              (resident other (List.mem_cons_of_mem _ (List.mem_of_getElem? here)))
            exact content_eq_of_rows isRows fun _ _ => rfl

include planned in
theorem exec_restore {number dumpNumber : ℕ} (above : graph.issued ≤ dumpNumber) {buf : String}
    {rows : Allocation} (isRows : allocation graph buf = some rows) (memory : Memory Cell) :
    execOperation graph compute scratch memory
        (restoreOperation names number (names.bufferName dumpNumber) buf) =
      { memory with
        lx := fun row => if rows.rows row then
            (memory.hbm (names.bufferName dumpNumber)).getD (row - rows.address) default
          else memory.lx row } := by
  simp [execOperation, restoreOperation, isOpaque, valuesRead, storage_issued planned above,
    content, allocation_issued planned above, written, Operation.mutates, fill, isRows]

include planned in
/-- The restores put the saved rows back and leave HBM as it is. -/
theorem run_restores {saved : ℕ → Cell} {bufs : List String} {number dumpNumber : ℕ}
    (above : graph.issued ≤ dumpNumber) {memory : Memory Cell}
    (copies : ∀ offset buf, bufs[offset]? = some buf → ∃ rows, allocation graph buf = some rows ∧
      memory.hbm (names.bufferName (dumpNumber + offset)) =
        (List.range rows.size).map fun place => saved (rows.address + place)) :
    let restored := run graph compute scratch (restores names number dumpNumber bufs) memory
    restored.hbm = memory.hbm ∧
      ∀ row, (memory.lx row = saved row ∨
          ∃ buf ∈ bufs, ∃ rows, allocation graph buf = some rows ∧ rows.rows row) →
        restored.lx row = saved row := by
  induction bufs generalizing number dumpNumber with
  | nil =>
      refine ⟨rfl, fun row holds => holds.resolve_right ?_⟩
      rintro ⟨buf, inside, -⟩
      cases inside
  | cons buf rest inductionHypothesis =>
      obtain ⟨sameHbm, restoresRest⟩ := @inductionHypothesis (number + 1) (dumpNumber + 1)
        (by omega) (fun offset other here => by
          rw [Nat.add_right_comm, Nat.add_assoc]
          exact copies (offset + 1) other here)
      obtain ⟨rows, isRows, copied⟩ := copies 0 buf rfl
      have split : run graph compute scratch (restores names number dumpNumber (buf :: rest)) memory =
          execOperation graph compute scratch
            (run graph compute scratch (restores names (number + 1) (dumpNumber + 1) rest) memory)
            (restoreOperation names number (names.bufferName dumpNumber) buf) := by
        simp [run, restores, List.foldl_append]
      simp only [split]
      rw [exec_restore planned above isRows]
      refine ⟨sameHbm, fun row holds => ?_⟩
      rw [Nat.add_zero] at copied
      by_cases inside : rows.rows row
      · have offset : row - rows.address < rows.size := by
          obtain ⟨lower, upper⟩ := inside
          omega
        have back : rows.address + (row - rows.address) = row := by
          obtain ⟨lower, -⟩ := inside
          omega
        simp only [if_pos inside, sameHbm, copied]
        rw [List.getD_eq_getElem?_getD, List.getElem?_map, List.getElem?_range offset]
        simp [back]
      · simp only [if_neg inside]
        refine restoresRest row (holds.imp_right ?_)
        rintro ⟨other, isOther, otherRows, isOtherRows, otherInside⟩
        rcases List.mem_cons.mp isOther with rfl | later
        · rw [isRows] at isOtherRows
          cases isOtherRows
          exact absurd otherInside inside
        · exact ⟨other, later, otherRows, isOtherRows, otherInside⟩

/-! ## One operation with its bracket -/

/-- The buffers the pass protects across an operation. -/
def protectedAt (graph : Graph) (index : ℕ) (operation : Operation) : List String :=
  if isOpaque operation then atRiskBuffers graph index else []

section Bracket

variable {index number : ℕ} {operation : Operation}
  (here : graph.operations[index]? = some operation) (above : graph.issued ≤ number)
  {original bracketed : Memory Cell} (agree : Agree names graph index original bracketed)

include planned above agree in
/-- The dumps keep the agreement. -/
theorem agree_dumps {bufs : List String} (resident : ∀ buf ∈ bufs, isLxResident graph buf = true) :
    Agree names graph index original
      (run graph compute scratch (dumps names number bufs) bracketed) := by
  obtain ⟨sameLx, sameHbm, -⟩ :=
    @run_dumps Cell _ names graph planned compute scratch bufs resident number above bracketed
  constructor
  · intro place known
    rw [sameHbm place fun other later => known other (by omega)]
    exact agree.hbm place known
  · intro name rows isRows live row inside
    rw [sameLx]
    exact agree.lx name rows isRows live row inside

theorem kind_of_isOpaque (isKernel : isOpaque operation = true) (body : Body)
    (target : Option String) : operation.kind ≠ .computedBuffer body target := by
  intro isComputed
  simp [isOpaque, isComputed] at isKernel

theorem mutates_of_isOpaque (isKernel : isOpaque operation = true) : operation.mutates = none := by
  unfold Operation.mutates
  split
  next body target isComputed => exact absurd isComputed (kind_of_isOpaque isKernel body target)
  next => rfl

omit [Inhabited Cell] in
include planned here in
/-- An opaque kernel writes places in HBM, under names of the list. -/
theorem written_of_isOpaque (isKernel : isOpaque operation = true) {values : List (List Cell)}
    {memory : Memory Cell} {write : String × List Cell}
    (isWrite : write ∈ operation.writes.map (written graph compute operation values memory)) :
    allocation graph write.1 = none ∧
      ∀ other, graph.issued ≤ other → write.1 ≠ names.bufferName other := by
  obtain ⟨name, writes, rfl⟩ := List.mem_map.mp isWrite
  have inside := List.mem_of_getElem? here
  have accessed : name ∈ operation.accesses := List.mem_append_right _ writes
  simp only [written, mutates_of_isOpaque isKernel, Option.getD_none]
  constructor
  · have notResident := (planned.fallbacks operation inside (kind_of_isOpaque isKernel) name
      accessed).2
    rw [← Option.not_isSome_iff_eq_none, Bool.not_eq_true]
    exact notResident
  · rintro other later rfl
    exact planned.unissuedBuffers operation inside other later (List.mem_append_left _ accessed)

include planned here above agree in
/-- A bracketed kernel keeps the agreement, whatever it leaves in the scratchpad. -/
theorem agree_bracket_of_isOpaque (isKernel : isOpaque operation = true) :
    Agree names graph (index + 1) (execOperation graph compute untouched original operation)
      (run graph compute scratch
        (bracket names number operation (atRiskBuffers graph index)) bracketed) := by
  have resident : ∀ buf ∈ atRiskBuffers graph index, isLxResident graph buf = true :=
    fun buf atRisk => (mem_atRiskBuffers.mp atRisk).1
  obtain ⟨-, -, copies⟩ :=
    @run_dumps Cell _ names graph planned compute scratch _ resident number above bracketed
  have agreeDumped := @agree_dumps Cell _ names graph planned compute scratch index number above
    original bracketed agree _ resident
  generalize dumpedMemory : run graph compute scratch
    (dumps names number (atRiskBuffers graph index)) bracketed = dumped at copies agreeDumped
  have sameValues := valuesRead_agree planned here agreeDumped
  have sameWritten := written_agree planned here agreeDumped compute
  have writes := fun write isWrite => @written_of_isOpaque Cell names graph planned compute index operation here
    isKernel (valuesRead graph operation dumped) dumped write isWrite
  generalize launched : execOperation graph compute scratch dumped operation = kernel
  have kernelHbm : kernel.hbm = ((operation.writes.map (written graph compute operation
      (valuesRead graph operation dumped) dumped)).foldl (fill graph) dumped).hbm := by
    rw [← launched, execOperation]
    simp only [isKernel, if_true]
  have saved : ∀ offset buf, (atRiskBuffers graph index)[offset]? = some buf →
      ∃ rows, allocation graph buf = some rows ∧
        kernel.hbm (names.bufferName (number + offset)) =
          (List.range rows.size).map fun place => bracketed.lx (rows.address + place) := by
    intro offset buf isBuf
    obtain ⟨rows, isRows⟩ := resident_iff.mp (resident buf (List.mem_of_getElem? isBuf))
    refine ⟨rows, isRows, ?_⟩
    rw [kernelHbm, foldl_fill_hbm_of_ne fun write isWrite =>
      (writes write isWrite).2 _ (by omega), copies offset buf isBuf]
    simp only [content, isRows]
  obtain ⟨sameHbm, restored⟩ := @run_restores Cell _ names graph planned compute scratch
    bracketed.lx _ (number + (atRiskBuffers graph index).length) number above kernel saved
  have split : run graph compute scratch
      (bracket names number operation (atRiskBuffers graph index)) bracketed =
        run graph compute scratch (restores names (number + (atRiskBuffers graph index).length)
          number (atRiskBuffers graph index)) kernel := by
    rw [← launched, ← dumpedMemory]
    simp [run, bracket, List.foldl_append]
  have originalAfter : execOperation graph compute untouched original operation =
      (operation.writes.map (written graph compute operation
        (valuesRead graph operation dumped) dumped)).foldl (fill graph) original := by
    simp only [execOperation, isKernel, if_true, sameValues, sameWritten, untouched]
  rw [split, originalAfter]
  constructor
  · intro place known
    rw [sameHbm, kernelHbm]
    exact foldl_fill_hbm (agreeDumped.hbm place known)
  · intro name rows isRows live row inside
    have liveBefore : LiveAt graph index name := by
      by_contra notLive
      obtain ⟨isUse, -⟩ := liveAt_succ live notLive
      obtain ⟨kernelHere, isHere, accessed⟩ := mem_usesOf.mp isUse
      obtain rfl : operation = kernelHere := Option.some.inj (here.symm.trans isHere)
      have notResident := (planned.fallbacks operation (List.mem_of_getElem? here)
        (kind_of_isOpaque isKernel) name accessed).2
      rw [resident_iff.mpr ⟨rows, isRows⟩] at notResident
      cases notResident
    rw [foldl_fill_lx_of_hbm fun write isWrite => (writes write isWrite).1,
      restored row (.inr ⟨name, mem_atRiskBuffers.mpr
        ⟨resident_iff.mpr ⟨rows, isRows⟩, liveBefore⟩, rows, isRows, inside⟩)]
    exact agree.lx name rows isRows liveBefore row inside

include planned here above agree in
theorem agree_bracket :
    Agree names graph (index + 1) (execOperation graph compute untouched original operation)
      (run graph compute scratch
        (bracket names number operation (protectedAt graph index operation)) bracketed) := by
  unfold protectedAt
  split
  next isKernel => exact agree_bracket_of_isOpaque planned here above agree isKernel
  next notOpaque =>
    exact agree_execOperation planned here agree compute scratch (by simpa using notOpaque)

include planned here above agree in
/-- Of a bracket's operations, the list's own one reads what it reads without the bracket. -/
theorem trace_bracket :
    (trace graph compute scratch
        (bracket names number operation (protectedAt graph index operation)) bracketed).filter
      (fun entry => entry.1 ∈ graph.operations.map Operation.operationName) =
      [(operation.operationName, valuesRead graph operation original)] := by
  have inserted : ∀ operations : List Operation, (∀ operation ∈ operations,
      ∃ offset, number ≤ offset ∧ operation.operationName = names.operationName offset) →
      ∀ memory : Memory Cell, (trace graph compute scratch operations memory).filter
        (fun entry => entry.1 ∈ graph.operations.map Operation.operationName) = [] := by
    intro operations issued memory
    rw [List.filter_eq_nil_iff]
    intro entry isEntry
    obtain ⟨added, isAdded, addedName⟩ := trace_names isEntry
    obtain ⟨offset, later, isIssued⟩ := issued added isAdded
    simp only [decide_eq_true_eq, List.mem_map, not_exists, not_and]
    intro other isOther same
    exact planned.unissuedOperations other isOther offset (by omega)
      (isIssued.symm.trans (addedName.trans same.symm))
  have resident : ∀ buf ∈ protectedAt graph index operation, isLxResident graph buf = true := by
    intro buf isProtected
    unfold protectedAt at isProtected
    split at isProtected
    next => exact (mem_atRiskBuffers.mp isProtected).1
    next => cases isProtected
  have agreeDumped := @agree_dumps Cell _ names graph planned compute scratch index number above
    original bracketed agree _ resident
  have ownName : operation.operationName ∈ graph.operations.map Operation.operationName :=
    List.mem_map_of_mem (List.mem_of_getElem? here)
  have kept : decide (operation.operationName ∈
      graph.operations.map Operation.operationName) = true := decide_eq_true ownName
  rw [bracket, trace_append, List.filter_append, inserted _ (fun _ => mem_dumps), trace,
    List.filter_cons, if_pos kept, inserted _ fun other isRestore => ?_,
    ← valuesRead_agree planned here agreeDumped]
  · rfl
  · obtain ⟨offset, later, named⟩ := mem_restores isRestore
    exact ⟨offset, by omega, named⟩

end Bracket

/-! ## The whole list -/

include planned in
/-- By induction on the rest of the list, the agreement carried from each operation to the
next. -/
theorem trace_brackets {rest : List Operation} {index number : ℕ}
    (isRest : graph.operations.drop index = rest) (above : graph.issued ≤ number)
    {original bracketed : Memory Cell} (agree : Agree names graph index original bracketed) :
    (trace graph compute scratch (brackets names number ((rest.zipIdx index).map fun entry =>
        (entry.1, protectedAt graph entry.2 entry.1))) bracketed).filter
      (fun entry => entry.1 ∈ graph.operations.map Operation.operationName) =
      trace graph compute untouched rest original := by
  induction rest generalizing index number original bracketed with
  | nil => rfl
  | cons operation rest inductionHypothesis =>
      have here : graph.operations[index]? = some operation := by
        rw [← List.head?_drop, isRest]
        rfl
      have nextRest : graph.operations.drop (index + 1) = rest := by
        rw [← List.drop_drop, isRest]
        rfl
      have stepped := @agree_bracket Cell _ names graph planned compute scratch index number
        operation here above original bracketed agree
      rw [List.zipIdx_cons, List.map_cons, brackets, trace_append, List.filter_append,
        trace_bracket planned here above agree, inductionHypothesis nextRest (by omega) stepped]
      rfl

include planned in
/-- The pass succeeds, brackets every opaque kernel and moves no buffer. -/
theorem applyPass_eq :
    ∃ result, applyPass names true graph = .ok result ∧
      result.operations = brackets names graph.issued (protectedAcross graph) ∧
      allocation result = allocation graph := by
  have entries : ∀ entry ∈ protectedAcross graph, entry.1 ∈ graph.operations ∧
      ∃ index, entry.2 = protectedAt graph index entry.1 := by
    intro entry inside
    obtain ⟨⟨operation, index⟩, isIndexed, rfl⟩ := List.mem_map.mp inside
    exact ⟨(List.mem_zipIdx' isIndexed).2 ▸ List.getElem_mem _, index, rfl⟩
  have sameOperations : (protectedAcross graph).map Prod.fst = graph.operations := by
    rw [protectedAcross, List.map_map]
    exact List.zipIdx_map_fst 0 graph.operations
  have distinct : ∀ entry ∈ protectedAcross graph, entry.2.Nodup := by
    intro entry inside
    obtain ⟨-, index, isProtected⟩ := entries entry inside
    rw [isProtected, protectedAt]
    split
    next => exact atRiskBuffers_nodup graph index
    next => exact List.nodup_nil
  have computed : ∀ entry ∈ protectedAcross graph, ∀ buf ∈ entry.2,
      (graph.getBuffer buf).any Buffer.isComputedBuffer = true := by
    intro entry inside buf isBuf
    obtain ⟨-, index, isProtected⟩ := entries entry inside
    rw [isProtected, protectedAt] at isBuf
    split at isBuf
    next =>
      obtain ⟨rows, isRows⟩ := resident_iff.mp (mem_atRiskBuffers.mp isBuf).1
      obtain ⟨buffer, isBuffer, hasRows⟩ := Option.bind_eq_some_iff.mp isRows
      rw [isBuffer, Option.any_some]
      exact planned.computed buf buffer isBuffer (Option.isSome_iff_exists.mpr ⟨rows, hasRows⟩)
    next => cases isBuf
  have operationNames : ((protectedAcross graph).map fun entry => entry.1.operationName).Nodup := by
    have names := planned.operationNames
    rwa [← sameOperations, List.map_map] at names
  have unissued : ∀ entry ∈ protectedAcross graph, ∀ other, graph.issued ≤ other →
      names.operationName other ≠ entry.1.operationName :=
    fun entry inside => planned.unissuedOperations entry.1 (entries entry inside).1
  have unedited : Edited names graph graph.issued ([] ++ (protectedAcross graph).map Prod.fst) graph := by
    exact ⟨sameOperations.symm, rfl, le_rfl, fun name => .inl rfl⟩
  obtain ⟨result, succeeds, issued, edited⟩ := foldlM_bracketTarget distinct computed
    operationNames unissued unedited (fun operation inside => by cases inside)
  refine ⟨result, succeeds, edited.operations, funext fun place => ?_⟩
  rcases edited.buffers place with same | ⟨⟨other, above, rfl⟩, isNew⟩
  · rw [allocation, same, allocation]
  · rw [allocation_issued planned above, allocation, isNew]
    rfl

end Agreement

/-- The names of the source: `buf0`, `buf1`, … and `op0`, `op1`, …. -/
def numbered : NameSupply where
  bufferName number := "buf" ++ Nat.repr number
  operationName number := "op" ++ Nat.repr number
  bufferName_injective _ _ same := Nat.repr_injective ((String.append_right_inj _).mp same)
  operationName_injective _ _ same := Nat.repr_injective ((String.append_right_inj _).mp same)

/-- A resident buffer written before an opaque kernel and read after it. -/
def acrossKernel : Graph where
  inputNames := []
  operations :=
    [{ operationName := "op0", name := "buf0", kind := .computedBuffer .compute none,
       reads := [], writes := ["buf0"] },
     { operationName := "op1", name := "buf1",
       kind := .fallbackKernel ⟨false, some 1, true, false, false⟩, reads := [], writes := ["buf1"] },
     { operationName := "op2", name := "buf2", kind := .computedBuffer .compute none,
       reads := ["buf0"], writes := ["buf2"] }]
  getBuffer name :=
    if name = "buf0" then some ⟨some ⟨0, 2⟩, true⟩
    else if name ∈ ["buf1", "buf2"] then some ⟨none, true⟩ else none
  issued := 3
  additionalBufferDeps := []

theorem acrossKernel_unissued {number : ℕ} (above : 3 ≤ number) {text : String} {index : ℕ}
    (earlier : index < 3) : text ++ Nat.repr number ≠ text ++ Nat.repr index := by
  intro same
  have equal := Nat.repr_injective ((String.append_right_inj _).mp same)
  omega

theorem acrossKernel_fresh {number : ℕ} (above : 3 ≤ number) :
    numbered.bufferName number ≠ "buf0" ∧ numbered.bufferName number ≠ "buf1" ∧
      numbered.bufferName number ≠ "buf2" :=
  ⟨acrossKernel_unissued above (show 0 < 3 by omega),
    acrossKernel_unissued above (show 1 < 3 by omega),
    acrossKernel_unissued above (show 2 < 3 by omega)⟩

theorem acrossKernel_resident {name : String} (resident : isLxResident acrossKernel name = true) :
    name = "buf0" := by
  by_contra other
  simp only [isLxResident, acrossKernel, if_neg other] at resident
  split at resident <;> cases resident

theorem acrossKernel_uses : usesOf acrossKernel.operations "buf0" = [0, 2] := by
  decide

theorem acrossKernel_planned : Planned numbered acrossKernel where
  operationNames := by decide
  unissuedOperations := by
    intro operation inside number above
    simp only [acrossKernel, List.mem_cons, List.not_mem_nil, or_false] at inside above
    rcases inside with rfl | rfl | rfl
    · exact acrossKernel_unissued above (show 0 < 3 by omega)
    · exact acrossKernel_unissued above (show 1 < 3 by omega)
    · exact acrossKernel_unissued above (show 2 < 3 by omega)
  unissuedBuffers := by
    intro operation inside number above
    simp only [acrossKernel] at above
    obtain ⟨first, second, third⟩ := acrossKernel_fresh above
    simp only [acrossKernel, List.mem_cons, List.not_mem_nil, or_false] at inside
    rcases inside with rfl | rfl | rfl <;> simp [Operation.accesses, Operation.mutates, *]
  unregistered := by
    intro number above
    simp only [acrossKernel] at above ⊢
    obtain ⟨first, second, third⟩ := acrossKernel_fresh above
    simp [*]
  computed := by
    intro name buffer isBuffer resident
    simp only [acrossKernel] at isBuffer
    split at isBuffer
    · cases isBuffer
      rfl
    · split at isBuffer
      · cases isBuffer
        rfl
      · cases isBuffer
  own := by
    intro name resident
    obtain rfl := acrossKernel_resident resident
    decide
  fallbacks := by
    intro operation inside notComputed name accessed
    simp only [acrossKernel, List.mem_cons, List.not_mem_nil, or_false] at inside
    rcases inside with rfl | rfl | rfl
    · exact absurd rfl (notComputed .compute none)
    · obtain rfl : name = "buf1" := by simpa [Operation.accesses] using accessed
      decide
    · exact absurd rfl (notComputed .compute none)
  reads := by
    intro index operation here name isRead resident
    rcases index with _ | _ | _ | index
    · cases here
      cases isRead
    · cases here
      cases isRead
    · cases here
      obtain rfl := List.mem_singleton.mp isRead
      have sameStorage : storage acrossKernel "buf0" = "buf0" := by decide
      rw [sameStorage, LiveAt, acrossKernel_uses]
      decide
    · cases here
  mutations := by
    intro index operation here target isTarget
    have inside := List.mem_of_getElem? here
    simp only [acrossKernel, List.mem_cons, List.not_mem_nil, or_false] at inside
    rcases inside with rfl | rfl | rfl <;> cases isTarget
  produced := by
    intro name resident index isUse least
    obtain rfl := acrossKernel_resident resident
    rw [acrossKernel_uses] at isUse least
    have isFirst : index = 0 := Nat.le_zero.mp (least 0 (by decide))
    subst isFirst
    exact ⟨_, rfl, List.mem_singleton_self _, rfl⟩

end TorchSpyre.ContextSwitch
