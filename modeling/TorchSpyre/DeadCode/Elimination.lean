import TorchSpyre.DeadCode.Liveness
import TorchSpyre.Lib.ForestRun

/-!
# Dead code elimination keeps what can be observed

Operations run over one store.  The full list and the list without its dead entries are run
side by side: they agree on the live buffers and on the effects after every trip.
-/

namespace TorchSpyre.DeadCode

open Lib

variable {Value : Type}

/-! ## Running an operation list -/

/-- Contents by storage name, and the impure kernels that have run with what they read. -/
structure Store (Value : Type) where
  contents : String → Value
  effects : List (String × List Value)

/-- Where the buffers of an operation list are stored.  The result of a mutation may lie in
its target's storage, any other buffer is its own storage, and so is every target. -/
structure Aliasing (operations : List Entry) where
  storage : String → String
  written : ∀ operation ∈ RoseTree.leaves operations, ∀ name ∈ operation.writes,
    storage name = name ∨ mutationTarget operation = some (storage name)
  shared : ∀ name, storage name ≠ name →
    ∃ operation ∈ RoseTree.leaves operations, name ∈ operation.writes
  target : ∀ operation ∈ RoseTree.leaves operations, ∀ name,
    mutationTarget operation = some name → storage name = name

/-- What an operation puts into a storage it writes, from the trips of the loops around it,
the effects so far, the values it reads and the storage's old content. -/
abbrev Compute (Value : Type) :=
  Operation → List ℕ → List (String × List Value) → List Value → String → Value → Value

section Run

variable (storage : String → String) (compute : Compute Value)

def writtenStorages (operation : Operation) : List String :=
  (operation.writes ++ (mutationTarget operation).toList).map storage

def valuesRead (operation : Operation) (store : Store Value) : List Value :=
  operation.reads.map fun name => store.contents (storage name)

def execOperation (trips : List ℕ) (operation : Operation) (store : Store Value) : Store Value :=
  let values := valuesRead storage operation store
  { contents := fun place =>
      if place ∈ writtenStorages storage operation then
        compute operation trips store.effects values place (store.contents place)
      else store.contents place
    effects :=
      if isImpure operation then store.effects ++ [(operation.operationName, values)]
      else store.effects }

def execEntry : List ℕ → Entry → Store Value → Store Value :=
  RoseTree.runTree LoopFacts.tripCount (execOperation storage compute)

def execEntries (trips : List ℕ) (operations : List Entry) (store : Store Value) : Store Value :=
  operations.foldl (fun store entry => execEntry storage compute trips entry store) store

/-- The operation list as the body of a loop. -/
def run (count : ℕ) (operations : List Entry) (store : Store Value) : Store Value :=
  (List.range count).foldl
    (fun store trip => execEntries storage compute [trip] operations store) store

end Run

/-! ## Agreement on live buffers -/

/-- Two stores hold the same in every live buffer and have seen the same effects. -/
structure Agree (storage : String → String) (isLive : String → Prop)
    (first second : Store Value) : Prop where
  contents : ∀ name, isLive name → first.contents (storage name) = second.contents (storage name)
  effects : first.effects = second.effects

theorem Agree.symm {storage : String → String} {isLive : String → Prop}
    {first second : Store Value} (agree : Agree storage isLive first second) :
    Agree storage isLive second first :=
  ⟨fun name live => (agree.contents name live).symm, agree.effects.symm⟩

section Simulation

variable {storage : String → String} {compute : Compute Value} {isLive : String → Prop}

/-- An operation with live reads does the same to both stores. -/
theorem agree_execOperation {operation : Operation}
    (reads : ∀ name ∈ operation.reads, isLive name) (trips : List ℕ)
    {first second : Store Value} (agree : Agree storage isLive first second) :
    Agree storage isLive (execOperation storage compute trips operation first)
      (execOperation storage compute trips operation second) := by
  have sameValues : valuesRead storage operation first = valuesRead storage operation second :=
    List.map_congr_left fun name isRead => agree.contents name (reads name isRead)
  constructor
  · intro name live
    simp only [execOperation, sameValues, agree.effects, agree.contents name live]
  · simp only [execOperation, sameValues, agree.effects]

/-- The operation has no effect and writes to no live storage. -/
structure Quiet (storage : String → String) (isLive : String → Prop) (operation : Operation) :
    Prop where
  pure : isImpure operation = false
  apart : ∀ name, isLive name → storage name ∉ writtenStorages storage operation

theorem agree_of_quiet {operation : Operation} (quiet : Quiet storage isLive operation)
    (trips : List ℕ) {first second : Store Value} (agree : Agree storage isLive first second) :
    Agree storage isLive (execOperation storage compute trips operation first) second := by
  constructor
  · intro name live
    rw [← agree.contents name live]
    exact if_neg (quiet.apart name live)
  · rw [← agree.effects]
    simp [execOperation, quiet.pure]

/-- The entry's operations have live reads. -/
theorem agree_execEntry {entry : Entry}
    (reads : ∀ operation ∈ RoseTree.leavesOf entry, ∀ name ∈ operation.reads, isLive name)
    (trips : List ℕ) {first second : Store Value} (agree : Agree storage isLive first second) :
    Agree storage isLive (execEntry storage compute trips entry first)
      (execEntry storage compute trips entry second) := by
  unfold execEntry
  refine RoseTree.runTree_related (fun operation inside trips _ _ before => ?_) trips agree
  exact agree_execOperation (reads operation inside) trips before

theorem agree_of_quiet_entry {entry : Entry}
    (quiet : ∀ operation ∈ RoseTree.leavesOf entry, Quiet storage isLive operation)
    (trips : List ℕ) {first second : Store Value} (agree : Agree storage isLive first second) :
    Agree storage isLive (execEntry storage compute trips entry first) second := by
  have related : Agree storage isLive (execEntry storage compute trips entry first)
      (RoseTree.runTree LoopFacts.tripCount (fun _ _ store => store) trips entry second) :=
    RoseTree.runTree_related
      (fun operation inside trips _ _ before => agree_of_quiet (quiet operation inside) trips before)
      trips agree
  rwa [RoseTree.runTree_idle] at related

end Simulation

/-! ## Dead entries are quiet -/

theorem mem_leaves {operations : List Entry} {operation : Operation} :
    operation ∈ RoseTree.leaves operations ↔
      ∃ entry ∈ operations, operation ∈ RoseTree.leavesOf entry := by
  induction operations with
  | nil => simp
  | cons entry rest inductionHypothesis =>
      rw [RoseTree.leaves, List.mem_append, inductionHypothesis]
      simp

section Dead

variable {graph : Graph}

theorem liveBuffer_reads {entry : Entry} (live : LiveEntry graph entry) :
    ∀ operation ∈ RoseTree.leavesOf entry, ∀ name ∈ operation.reads, LiveBuffer graph name :=
  fun _ inside _ isRead => .read live (reads_subset_readsOf inside isRead)

/-- A live buffer that lies in a target's storage makes the target live. -/
theorem liveBuffer_storage (aliasing : Aliasing graph.operations) {name : String}
    (live : LiveBuffer graph name) : LiveBuffer graph (aliasing.storage name) := by
  by_cases own : aliasing.storage name = name
  · exact own.symm ▸ live
  · obtain ⟨operation, inside, isWritten⟩ := aliasing.shared name own
    obtain ⟨entry, inList, isLeaf⟩ := mem_leaves.1 inside
    have isTarget := (aliasing.written operation inside name isWritten).resolve_left own
    have liveEntry : LiveEntry graph entry :=
      .write inList (writes_subset_writesOf isLeaf isWritten) live
    exact .target liveEntry (mem_mutationTargets.mpr ⟨operation, isLeaf, isTarget⟩)

theorem quiet_of_dead (aliasing : Aliasing graph.operations) {entry : Entry}
    (inside : entry ∈ graph.operations) (dead : ¬ LiveEntry graph entry) {operation : Operation}
    (isLeaf : operation ∈ RoseTree.leavesOf entry) :
    Quiet aliasing.storage (LiveBuffer graph) operation := by
  have inLeaves : operation ∈ RoseTree.leaves graph.operations :=
    mem_leaves.2 ⟨entry, inside, isLeaf⟩
  have targetDead : ∀ target, mutationTarget operation = some target → ¬ LiveBuffer graph target :=
    fun target isTarget live =>
      dead (.mutation inside (mem_mutationTargets.mpr ⟨operation, isLeaf, isTarget⟩) live)
  constructor
  · rw [← Bool.not_eq_true]
    exact fun impure => dead (.impure inside isLeaf impure)
  · intro name live isWritten
    have storageLive := liveBuffer_storage aliasing live
    obtain ⟨other, writes, same⟩ := List.mem_map.mp isWritten
    rw [← same] at storageLive
    rcases List.mem_append.mp writes with ownWrite | ofTarget
    · rcases aliasing.written operation inLeaves other ownWrite with own | shared
      · rw [own] at storageLive
        exact dead (.write inside (writes_subset_writesOf isLeaf ownWrite) storageLive)
      · exact targetDead _ shared storageLive
    · have isTarget := Option.mem_toList.mp ofTarget
      rw [aliasing.target operation inLeaves other isTarget] at storageLive
      exact targetDead other isTarget storageLive

/-- Leaving out entries that are dead keeps the agreement; an entry whose name a live one
shares may stay. -/
theorem agree_execEntries (aliasing : Aliasing graph.operations) {compute : Compute Value}
    (trips : List ℕ) {keep : Entry → Bool} (keepsLive : ∀ entry, LiveEntry graph entry → keep entry)
    {operations : List Entry} (inside : operations ⊆ graph.operations)
    {first second : Store Value}
    (agree : Agree aliasing.storage (LiveBuffer graph) first second) :
    Agree aliasing.storage (LiveBuffer graph)
      (execEntries aliasing.storage compute trips operations first)
      (execEntries aliasing.storage compute trips (operations.filter keep) second) := by
  induction operations generalizing first second with
  | nil => exact agree
  | cons entry rest inductionHypothesis =>
      have inGraph := inside List.mem_cons_self
      have restInside : rest ⊆ graph.operations := fun other later =>
        inside (List.mem_cons_of_mem _ later)
      by_cases live : LiveEntry graph entry
      · rw [List.filter_cons_of_pos (keepsLive entry live)]
        exact inductionHypothesis restInside (agree_execEntry (liveBuffer_reads live) trips agree)
      · have quiet : ∀ operation ∈ RoseTree.leavesOf entry,
            Quiet aliasing.storage (LiveBuffer graph) operation := fun _ isLeaf =>
          quiet_of_dead aliasing inGraph live isLeaf
        have afterFirst : Agree aliasing.storage (LiveBuffer graph)
            (execEntry aliasing.storage compute trips entry first) second :=
          agree_of_quiet_entry quiet trips agree
        cases kept : keep entry with
        | true =>
            rw [List.filter_cons_of_pos kept]
            exact inductionHypothesis restInside
              (agree_of_quiet_entry quiet trips afterFirst.symm).symm
        | false =>
            rw [List.filter_cons_of_neg (by simp [kept])]
            exact inductionHypothesis restInside afterFirst

theorem agree_run (aliasing : Aliasing graph.operations) (compute : Compute Value) (count : ℕ)
    (store : Store Value) :
    Agree aliasing.storage (LiveBuffer graph)
      (run aliasing.storage compute count graph.operations store)
      (run aliasing.storage compute count (deadcodeElimination graph).operations store) := by
  refine RoseTree.foldl_related (fun trip first second agree => ?_) _ ⟨fun _ _ => rfl, rfl⟩
  refine agree_execEntries aliasing [trip] (fun entry live => ?_) (List.Subset.refl _) agree
  exact decide_eq_true (mem_liveOperations.mpr ⟨entry, live, rfl⟩)

/-- Removing the dead entries keeps, over any number of trips, the contents of every output,
input and constant and the sequence of effects; the passes stop at the liveness rules' least
fixed point. -/
theorem deadcodeElimination_preserves (graph : Graph) (aliasing : Aliasing graph.operations)
    (compute : Compute Value) (count : ℕ) (store : Store Value) :
    let full := run aliasing.storage compute count graph.operations store
    let reduced := run aliasing.storage compute count (deadcodeElimination graph).operations store
    (∀ name ∈ graph.outputNames ++ graph.graphInputs ++ graph.constants,
      reduced.contents (aliasing.storage name) = full.contents (aliasing.storage name)) ∧
    reduced.effects = full.effects ∧
    walkOnce graph.operations (finalLive graph) = finalLive graph ∧
    (∀ name, name ∈ (finalLive graph).bufs ↔ LiveBuffer graph name) ∧
    ∀ name, name ∈ liveOperations graph ↔
      ∃ entry, LiveEntry graph entry ∧ getOperationName entry = name := by
  have agree := agree_run aliasing compute count store
  refine ⟨?_, agree.effects.symm, walkOnce_finalLive graph, fun _ => mem_finalLive_bufs,
    fun _ => mem_liveOperations⟩
  intro name isObserved
  exact (agree.contents name (.observed isObserved)).symm

/-- An accumulator read at the top of the body and written in place at its bottom, an
impure kernel, and a product nobody needs. -/
def accumulation : Graph where
  operations :=
    [.leaf ⟨"op0", "buf0", .computedBuffer none none, ["arg0", "acc"], ["buf0"]⟩,
      .leaf ⟨"op1", "buf1", .computedBuffer none none, ["buf0"], ["buf1"]⟩,
      .leaf ⟨"op2", "buf2", .fallbackKernel true, ["buf0"], ["buf2"]⟩,
      .leaf ⟨"op3", "buf3", .computedBuffer (some "acc") none, ["buf0"], ["buf3"]⟩]
  outputNames := ["buf3"]
  graphInputs := ["arg0"]
  constants := []
  removedBuffers := ∅

def accumulationAliasing : Aliasing accumulation.operations where
  storage name := if name = "buf3" then "acc" else name
  written := by decide
  shared name isShared := by
    have isResult : name = "buf3" := by
      by_contra other
      exact isShared (if_neg other)
    subst isResult
    decide
  target := by
    intro operation inside name isTarget
    have isAcc : name = "acc" := by
      revert isTarget
      revert operation
      simp [accumulation, mutationTarget]
      exact fun isTarget => isTarget.symm
    subst isAcc
    rfl

/-- The product is removed and the sum stays, whatever the operations compute. -/
theorem accumulation_preserved :
    ((deadcodeElimination accumulation).operations.map getOperationName =
      ["op0", "op2", "op3"]) ∧
    ∀ (compute : Compute ℤ) (count : ℕ) (store : Store ℤ),
      (run accumulationAliasing.storage compute count
        (deadcodeElimination accumulation).operations store).contents "acc" =
      (run accumulationAliasing.storage compute count accumulation.operations store).contents "acc" := by
  refine ⟨by decide, fun compute count store => ?_⟩
  have preserved := deadcodeElimination_preserves accumulation accumulationAliasing compute count store
  exact preserved.1 "buf3" (by decide)

end Dead

end TorchSpyre.DeadCode
