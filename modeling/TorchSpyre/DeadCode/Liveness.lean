import Mathlib
import TorchSpyre.Lib.RoseTree
import TorchSpyre.Lib.Saturation

/-!
# Liveness of operations

`live_operations` walks the operation list backwards until nothing is added.  Its result
is compared with the liveness rules, stated as inductive predicates.
-/

namespace TorchSpyre.DeadCode

open Lib

/-- The two ends of a carry that liveness looks at. -/
structure LoopCarryRecord where
  storageName : String
  updateName : String
  deriving DecidableEq, Repr

/-- The kinds of operations liveness tells apart; a computed buffer has the target of its
mutation layout, if it has one, and its carry record. -/
inductive Kind where
  | computedBuffer (mutationLayout : Option String) (loopCarryRecord : Option LoopCarryRecord)
  | fallbackKernel (isImpure : Bool)
  | other
  deriving DecidableEq, Repr

structure Operation where
  operationName : String
  name : String
  kind : Kind
  reads : List String
  writes : List String
  deriving DecidableEq, Repr

structure LoopFacts where
  operationName : String
  tripCount : ℕ
  deriving DecidableEq, Repr

/-- An entry of an operation list: an operation or a loop node with its body. -/
abbrev Entry := RoseTree LoopFacts Operation

structure Graph where
  operations : List Entry
  outputNames : List String
  graphInputs : List String
  constants : List String
  removedBuffers : Finset String

/-- The buffers the caller can look at. -/
def Graph.observed (graph : Graph) : List String :=
  graph.outputNames ++ graph.graphInputs ++ graph.constants

def getOperationName : Entry → String
  | .leaf operation => operation.operationName
  | .node facts _ => facts.operationName

def mutationTarget (operation : Operation) : Option String :=
  match operation.kind with
  | .computedBuffer (some target) _ => some target
  | .computedBuffer none (some record) =>
      if record.updateName = operation.name then some record.storageName else none
  | _ => none

def mutationTargets : Entry → List String
  | .leaf operation => (mutationTarget operation).toList
  | .node _ body => ((RoseTree.leaves body).filterMap mutationTarget).eraseDups

mutual

def readsOf : Entry → List String
  | .leaf operation => operation.reads
  | .node _ body => bodyReads body

def bodyReads : List Entry → List String
  | [] => []
  | entry :: rest => readsOf entry ++ bodyReads rest

end

mutual

/-- A node also writes the targets of its body's mutations. -/
def writesOf : Entry → List String
  | .leaf operation => operation.writes
  | .node facts body => bodyWrites body ++ mutationTargets (.node facts body)

def bodyWrites : List Entry → List String
  | [] => []
  | entry :: rest => writesOf entry ++ bodyWrites rest

end

def isImpure (operation : Operation) : Bool :=
  operation.kind = .fallbackKernel true

def operationHasSideEffects (operation : Operation) : Bool :=
  (mutationTarget operation).isSome || isImpure operation

def hasSideEffects : Entry → Bool
  | .leaf operation => operationHasSideEffects operation
  | .node _ body => (RoseTree.leaves body).any operationHasSideEffects

def operationTargetIsLive (operation : Operation) (liveBufs : Finset String) : Bool :=
  match mutationTarget operation with
  | none => true
  | some target => target ∈ liveBufs

def mutationTargetIsLive : Entry → Finset String → Bool
  | .leaf operation, liveBufs => operationTargetIsLive operation liveBufs
  | .node _ body, liveBufs => (RoseTree.leaves body).any fun leaf =>
      operationHasSideEffects leaf && operationTargetIsLive leaf liveBufs

structure Live where
  bufs : Finset String
  ops : Finset String
  deriving DecidableEq

/-- The condition under which a pass counts an entry as live. -/
def counts (entry : Entry) (liveBufs : Finset String) : Bool :=
  (hasSideEffects entry && mutationTargetIsLive entry liveBufs) ||
    (writesOf entry).any (· ∈ liveBufs)

def walkStep (live : Live) (entry : Entry) : Live :=
  if counts entry live.bufs then
    { bufs := live.bufs ∪ (readsOf entry).toFinset ∪ (mutationTargets entry).toFinset
      ops := insert (getOperationName entry) live.ops }
  else live

def walkOnce (operations : List Entry) (live : Live) : Live :=
  operations.reverse.foldl walkStep live

def initial (graph : Graph) : Live :=
  { bufs := graph.observed.toFinset, ops := ∅ }

def sameSizes (before after : Live) : Bool :=
  before.bufs.card = after.bufs.card ∧ before.ops.card = after.ops.card

/-- Where the passes of `live_operations` end. -/
def finalLive (graph : Graph) : Live :=
  saturate sameSizes (walkOnce graph.operations) (graph.operations.length + 1) (initial graph)

def liveOperations (graph : Graph) : Finset String := (finalLive graph).ops

/-- The writes of a dead entry's leaves are recorded; the entries that stay keep their order. -/
def deadcodeElimination (graph : Graph) : Graph :=
  let isLive := fun entry => decide (getOperationName entry ∈ liveOperations graph)
  let dead := graph.operations.filter fun entry => ¬ isLive entry
  { graph with
    operations := graph.operations.filter isLive
    removedBuffers :=
      graph.removedBuffers ∪ ((RoseTree.leaves dead).flatMap Operation.writes).toFinset }

/-! ## What an entry reads and writes -/

theorem reads_subset_bodyReads {operation : Operation} {body : List Entry}
    (inside : operation ∈ RoseTree.leaves body) : operation.reads ⊆ bodyReads body := by
  induction body using RoseTree.forest_induction with
  | nil => cases inside
  | leaf item rest inductionHypothesis =>
      rcases List.mem_cons.mp inside with rfl | inRest
      · exact List.subset_append_left _ _
      · exact fun name isRead => List.mem_append_right _ (inductionHypothesis inRest isRead)
  | node facts body rest bodyHypothesis restHypothesis =>
      rcases List.mem_append.mp (RoseTree.leaves_node_cons facts body rest ▸ inside) with
        inBody | inRest
      · exact fun name isRead => List.mem_append_left _ (bodyHypothesis inBody isRead)
      · exact fun name isRead => List.mem_append_right _ (restHypothesis inRest isRead)

theorem writes_subset_bodyWrites {operation : Operation} {body : List Entry}
    (inside : operation ∈ RoseTree.leaves body) : operation.writes ⊆ bodyWrites body := by
  induction body using RoseTree.forest_induction with
  | nil => cases inside
  | leaf item rest inductionHypothesis =>
      rcases List.mem_cons.mp inside with rfl | inRest
      · exact List.subset_append_left _ _
      · exact fun name isWritten => List.mem_append_right _ (inductionHypothesis inRest isWritten)
  | node facts body rest bodyHypothesis restHypothesis =>
      rcases List.mem_append.mp (RoseTree.leaves_node_cons facts body rest ▸ inside) with
        inBody | inRest
      · exact fun name isWritten =>
          List.mem_append_left _ (List.mem_append_left _ (bodyHypothesis inBody isWritten))
      · exact fun name isWritten => List.mem_append_right _ (restHypothesis inRest isWritten)

theorem reads_subset_readsOf {operation : Operation} {entry : Entry}
    (inside : operation ∈ RoseTree.leavesOf entry) : operation.reads ⊆ readsOf entry := by
  cases entry with
  | leaf item =>
      obtain rfl := List.mem_singleton.mp inside
      exact List.Subset.refl _
  | node facts body => exact reads_subset_bodyReads inside

theorem writes_subset_writesOf {operation : Operation} {entry : Entry}
    (inside : operation ∈ RoseTree.leavesOf entry) : operation.writes ⊆ writesOf entry := by
  cases entry with
  | leaf item =>
      obtain rfl := List.mem_singleton.mp inside
      exact List.Subset.refl _
  | node facts body =>
      exact fun name isWritten => List.mem_append_left _ (writes_subset_bodyWrites inside isWritten)

theorem mem_mutationTargets {entry : Entry} {target : String} :
    target ∈ mutationTargets entry ↔
      ∃ operation ∈ RoseTree.leavesOf entry, mutationTarget operation = some target := by
  cases entry with
  | leaf item => simp [mutationTargets, RoseTree.leavesOf]
  | node facts body => simp [mutationTargets, RoseTree.leavesOf, List.mem_filterMap]

/-- An entry is counted through an impure kernel, a live mutation target or a live write. -/
theorem counts_iff {entry : Entry} {liveBufs : Finset String} :
    counts entry liveBufs = true ↔
      (∃ operation ∈ RoseTree.leavesOf entry, isImpure operation = true) ∨
        (∃ target ∈ mutationTargets entry, target ∈ liveBufs) ∨
          ∃ name ∈ writesOf entry, name ∈ liveBufs := by
  have ofLeaf : ∀ operation : Operation,
      (operationHasSideEffects operation && operationTargetIsLive operation liveBufs) = true ↔
        isImpure operation = true ∨
          ∃ target, mutationTarget operation = some target ∧ target ∈ liveBufs := by
    intro operation
    unfold operationHasSideEffects operationTargetIsLive
    cases hasTarget : mutationTarget operation with
    | none => simp
    | some target =>
        have pure : isImpure operation = false := by
          unfold mutationTarget at hasTarget
          unfold isImpure
          split at hasTarget <;> simp_all
        simp [pure]
  have some_leaf : (hasSideEffects entry && mutationTargetIsLive entry liveBufs) = true ↔
      ∃ operation ∈ RoseTree.leavesOf entry,
        (operationHasSideEffects operation && operationTargetIsLive operation liveBufs) = true := by
    cases entry with
    | leaf item => simp [hasSideEffects, mutationTargetIsLive, RoseTree.leavesOf]
    | node facts body =>
        simp only [hasSideEffects, mutationTargetIsLive, RoseTree.leavesOf, Bool.and_eq_true,
          List.any_eq_true]
        constructor
        · exact fun both => both.2
        · rintro ⟨operation, inside, holds⟩
          exact ⟨⟨operation, inside, holds.1⟩, operation, inside, holds⟩
  rw [counts, Bool.or_eq_true, some_leaf]
  simp only [ofLeaf, List.any_eq_true, decide_eq_true_eq, mem_mutationTargets]
  constructor
  · rintro (⟨operation, inside, impure | ⟨target, hasTarget, isLive⟩⟩ | written)
    · exact .inl ⟨operation, inside, impure⟩
    · exact .inr (.inl ⟨target, ⟨operation, inside, hasTarget⟩, isLive⟩)
    · exact .inr (.inr written)
  · rintro (⟨operation, inside, impure⟩ | ⟨target, ⟨operation, inside, hasTarget⟩, isLive⟩ | written)
    · exact .inl ⟨operation, inside, .inl impure⟩
    · exact .inl ⟨operation, inside, .inr ⟨target, hasTarget, isLive⟩⟩
    · exact .inr written

/-! ## The liveness rules -/

mutual

/-- A buffer is live if the caller can look at it, or if a live entry reads it or writes
into it in place. -/
inductive LiveBuffer (graph : Graph) : String → Prop
  | observed {name : String} : name ∈ graph.observed → LiveBuffer graph name
  | read {entry : Entry} {name : String} :
      LiveEntry graph entry → name ∈ readsOf entry → LiveBuffer graph name
  | target {entry : Entry} {name : String} :
      LiveEntry graph entry → name ∈ mutationTargets entry → LiveBuffer graph name

/-- An entry is live if it has an impure kernel, or if a buffer it writes or mutates is live. -/
inductive LiveEntry (graph : Graph) : Entry → Prop
  | impure {entry : Entry} {operation : Operation} : entry ∈ graph.operations →
      operation ∈ RoseTree.leavesOf entry → isImpure operation = true → LiveEntry graph entry
  | mutation {entry : Entry} {target : String} : entry ∈ graph.operations →
      target ∈ mutationTargets entry → LiveBuffer graph target → LiveEntry graph entry
  | write {entry : Entry} {name : String} : entry ∈ graph.operations →
      name ∈ writesOf entry → LiveBuffer graph name → LiveEntry graph entry

end

/-! ## The passes reach the least fixed point -/

instance : PartialOrder Live :=
  PartialOrder.lift (fun live => (live.bufs, live.ops)) fun first second same => by
    cases first
    cases second
    simpa using same

theorem live_le_iff {first second : Live} :
    first ≤ second ↔ first.bufs ⊆ second.bufs ∧ first.ops ⊆ second.ops := Iff.rfl

theorem le_walkStep (live : Live) (entry : Entry) : live ≤ walkStep live entry := by
  unfold walkStep
  split
  next =>
    rw [live_le_iff]
    exact ⟨subset_trans Finset.subset_union_left Finset.subset_union_left,
      Finset.subset_insert _ _⟩
  next => exact le_rfl

theorem le_walkOnce (operations : List Entry) (live : Live) : live ≤ walkOnce operations live :=
  le_foldl le_walkStep _ _

/-- An entry that has been counted has left its name, its reads and its targets. -/
def recorded (live : Live) (entry : Entry) : Bool :=
  getOperationName entry ∈ live.ops ∧ (∀ name ∈ readsOf entry, name ∈ live.bufs) ∧
    ∀ target ∈ mutationTargets entry, target ∈ live.bufs

theorem recorded_mono {first second : Live} (included : first ≤ second) {entry : Entry}
    (before : recorded first entry = true) : recorded second entry = true := by
  rw [live_le_iff] at included
  simp only [recorded, decide_eq_true_eq] at before ⊢
  exact ⟨included.2 before.1, fun name isRead => included.1 (before.2.1 name isRead),
    fun target isTarget => included.1 (before.2.2 target isTarget)⟩

theorem recorded_walkStep {live : Live} {entry : Entry}
    (counted : counts entry live.bufs = true) : recorded (walkStep live entry) entry = true := by
  rw [walkStep, if_pos counted]
  simp only [recorded, decide_eq_true_eq, Finset.mem_insert_self, Finset.mem_union,
    List.mem_toFinset, true_and]
  exact ⟨fun name isRead => .inl (.inr isRead), fun target isTarget => .inr isTarget⟩

theorem walkStep_of_recorded {live : Live} {entry : Entry}
    (before : recorded live entry = true) : walkStep live entry = live := by
  simp only [recorded, decide_eq_true_eq] at before
  unfold walkStep
  split
  next =>
    have sameBufs : live.bufs ∪ (readsOf entry).toFinset ∪ (mutationTargets entry).toFinset =
        live.bufs := by
      rw [Finset.union_eq_left.mpr, Finset.union_eq_left.mpr]
      · exact fun name isRead => before.2.1 name (List.mem_toFinset.mp isRead)
      · intro target isTarget
        exact Finset.mem_union_left _ (before.2.2 target (List.mem_toFinset.mp isTarget))
    rw [sameBufs, Finset.insert_eq_self.mpr before.1]
  next => rfl

/-- A pass that changes something records an entry that was not recorded. -/
theorem exists_recorded {entries : List Entry} {live : Live}
    (changed : entries.foldl walkStep live ≠ live) :
    ∃ entry ∈ entries, recorded live entry = false ∧
      recorded (entries.foldl walkStep live) entry = true := by
  induction entries with
  | nil => exact absurd rfl changed
  | cons first entries inductionHypothesis =>
      rw [List.foldl_cons] at changed ⊢
      by_cases same : walkStep live first = live
      · rw [same] at changed ⊢
        obtain ⟨entry, inside, before, after⟩ := inductionHypothesis changed
        exact ⟨entry, List.mem_cons_of_mem _ inside, before, after⟩
      · refine ⟨first, List.mem_cons_self, ?_, ?_⟩
        · rw [← Bool.not_eq_true]
          exact fun before => same (walkStep_of_recorded before)
        · have counted : counts first live.bufs = true := by
            by_contra notCounted
            exact same (if_neg notCounted)
          exact recorded_mono (le_foldl le_walkStep _ _) (recorded_walkStep counted)

theorem walkOnce_eq_of_sameSizes {operations : List Entry} {live : Live}
    (sizes : sameSizes live (walkOnce operations live) = true) :
    walkOnce operations live = live := by
  have grown := live_le_iff.1 (le_walkOnce operations live)
  simp only [sameSizes, decide_eq_true_eq] at sizes
  have sameBufs := Finset.eq_of_subset_of_card_le grown.1 sizes.1.ge
  have sameOps := Finset.eq_of_subset_of_card_le grown.2 sizes.2.ge
  exact (Live.mk.injEq .. ▸ ⟨sameBufs, sameOps⟩ : live = walkOnce operations live).symm

theorem countP_recorded_lt {operations : List Entry} {live : Live}
    (sizes : sameSizes live (walkOnce operations live) = false) :
    operations.countP (recorded live) < operations.countP (recorded (walkOnce operations live)) := by
  have changed : operations.reverse.foldl walkStep live ≠ live := by
    intro same
    rw [walkOnce, same] at sizes
    simp [sameSizes] at sizes
  obtain ⟨entry, inside, before, after⟩ := exists_recorded changed
  exact countP_lt_countP
    (fun other _ wasRecorded => recorded_mono (le_walkOnce operations live) wasRecorded)
    (List.mem_reverse.mp inside) before after

/-- One pass more than there are entries is enough. -/
theorem walkOnce_finalLive (graph : Graph) :
    walkOnce graph.operations (finalLive graph) = finalLive graph :=
  saturate_fixed (fun _ => walkOnce_eq_of_sameSizes) (fun _ => countP_recorded_lt)
    (fun _ => List.countP_le_length) _ (by omega)

theorem initial_le_finalLive (graph : Graph) : initial graph ≤ finalLive graph :=
  saturate_invariant (fun live above => le_trans above (le_walkOnce graph.operations live)) _ le_rfl

theorem recorded_finalLive {graph : Graph} {entry : Entry} (inside : entry ∈ graph.operations)
    (counted : counts entry (finalLive graph).bufs = true) :
    recorded (finalLive graph) entry = true := by
  have unchanged : walkStep (finalLive graph) entry = finalLive graph :=
    step_eq_of_foldl_eq le_walkStep (walkOnce_finalLive graph) (List.mem_reverse.mpr inside)
  exact unchanged ▸ recorded_walkStep counted

/-- Everything collected so far follows from the rules. -/
def Justified (graph : Graph) (live : Live) : Prop :=
  (∀ name ∈ live.bufs, LiveBuffer graph name) ∧
    ∀ name ∈ live.ops, ∃ entry, LiveEntry graph entry ∧ getOperationName entry = name

theorem liveEntry_of_counts {graph : Graph} {live : Live} (justified : Justified graph live)
    {entry : Entry} (inside : entry ∈ graph.operations)
    (counted : counts entry live.bufs = true) : LiveEntry graph entry := by
  rcases counts_iff.mp counted with ⟨operation, isLeaf, impure⟩ | ⟨target, isTarget, isLive⟩ |
    ⟨name, isWritten, isLive⟩
  · exact .impure inside isLeaf impure
  · exact .mutation inside isTarget (justified.1 target isLive)
  · exact .write inside isWritten (justified.1 name isLive)

theorem justified_walkStep {graph : Graph} {live : Live} (justified : Justified graph live)
    {entry : Entry} (inside : entry ∈ graph.operations) :
    Justified graph (walkStep live entry) := by
  unfold walkStep
  split
  next counted =>
    have isLive := liveEntry_of_counts justified inside counted
    constructor
    · intro name collected
      simp only [Finset.mem_union, List.mem_toFinset] at collected
      rcases collected with (before | isRead) | isTarget
      · exact justified.1 name before
      · exact .read isLive isRead
      · exact .target isLive isTarget
    · intro name collected
      rcases Finset.mem_insert.mp collected with rfl | before
      · exact ⟨entry, isLive, rfl⟩
      · exact justified.2 name before
  next => exact justified

theorem justified_finalLive (graph : Graph) : Justified graph (finalLive graph) := by
  refine saturate_invariant ?_ _ ?_
  · intro live justified
    exact List.foldlRecOn _ _ justified fun live' justified' entry inside =>
      justified_walkStep justified' (List.mem_reverse.mp inside)
  · exact ⟨fun name isObserved => .observed (List.mem_toFinset.mp isObserved), fun name absent =>
      absurd absent (Finset.notMem_empty name)⟩

mutual

theorem mem_bufs_of_liveBuffer {graph : Graph} {name : String} :
    LiveBuffer graph name → name ∈ (finalLive graph).bufs
  | .observed isObserved =>
      (live_le_iff.mp (initial_le_finalLive graph)).1 (List.mem_toFinset.mpr isObserved)
  | .read isLive isRead =>
      (decide_eq_true_eq.mp (recorded_of_liveEntry isLive)).2.1 _ isRead
  | .target isLive isTarget =>
      (decide_eq_true_eq.mp (recorded_of_liveEntry isLive)).2.2 _ isTarget

theorem recorded_of_liveEntry {graph : Graph} {entry : Entry} :
    LiveEntry graph entry → recorded (finalLive graph) entry = true
  | .impure inside isLeaf impure =>
      recorded_finalLive inside (counts_iff.mpr (.inl ⟨_, isLeaf, impure⟩))
  | .mutation inside isTarget isLive =>
      recorded_finalLive inside
        (counts_iff.mpr (.inr (.inl ⟨_, isTarget, mem_bufs_of_liveBuffer isLive⟩)))
  | .write inside isWritten isLive =>
      recorded_finalLive inside
        (counts_iff.mpr (.inr (.inr ⟨_, isWritten, mem_bufs_of_liveBuffer isLive⟩)))

end

theorem mem_finalLive_bufs {graph : Graph} {name : String} :
    name ∈ (finalLive graph).bufs ↔ LiveBuffer graph name :=
  ⟨(justified_finalLive graph).1 name, mem_bufs_of_liveBuffer⟩

theorem mem_liveOperations {graph : Graph} {name : String} :
    name ∈ liveOperations graph ↔
      ∃ entry, LiveEntry graph entry ∧ getOperationName entry = name := by
  constructor
  · exact (justified_finalLive graph).2 name
  · rintro ⟨entry, isLive, rfl⟩
    exact (decide_eq_true_eq.mp (recorded_of_liveEntry isLive)).1

end TorchSpyre.DeadCode
