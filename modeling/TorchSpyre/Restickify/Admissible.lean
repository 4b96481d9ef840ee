import TorchSpyre.Lib.Reconvergence
import TorchSpyre.Restickify.Shares

/-!
# When the estimate of the future is admissible

The estimate adds up the futures of an operation's readers, so what is reached along two paths
is counted twice. Over all candidates and costs, it is a lower bound exactly for the shapes in
which no input of an operation is reached so.
-/

namespace TorchSpyre.Restickify

open Lib Relation

/-! ## Shapes -/

/-- A cost node without its layouts and costs. -/
inductive NodeShape where
  | allSameNode (inputs outputs : List String)
  | fixedInOutNode (inputs : List String)
  | anyInNode
  deriving DecidableEq, Repr

namespace NodeShape

def inputs : NodeShape → List String
  | .allSameNode inputs _ => inputs
  | .fixedInOutNode inputs => inputs
  | .anyInNode => []

def deps : NodeShape → List String
  | .allSameNode inputs outputs => inputs ++ outputs
  | .fixedInOutNode inputs => inputs
  | .anyInNode => []

end NodeShape

structure OperationShape where
  name : String
  node : NodeShape
  deriving DecidableEq, Repr

/-- An operation of the list has an edge from another one. -/
def Feeds (shapes : List OperationShape) (producer consumer : OperationShape) : Prop :=
  producer ∈ shapes ∧ consumer ∈ shapes ∧ producer.name ∈ consumer.node.deps

/-- The edge is one of an input, and so may cost something. -/
def FeedsInput (shapes : List OperationShape) (producer consumer : OperationShape) : Prop :=
  producer ∈ shapes ∧ consumer ∈ shapes ∧ producer.name ∈ consumer.node.inputs

/-- The names are distinct and each operation comes behind those that it reads. -/
structure Topological (shapes : List OperationShape) : Prop where
  distinct : (shapes.map OperationShape.name).Nodup
  unlooped : ∀ shape ∈ shapes, shape.name ∉ shape.node.deps
  forward : shapes.Pairwise fun earlier later => later.name ∉ earlier.node.deps

variable {Layout : Type}

def RestickNodeCost.shape : RestickNodeCost Layout → NodeShape
  | .allSameNode inputs outputs =>
      .allSameNode (inputs.map EdgeCostMap.dep) (outputs.map EdgeCostMap.dep)
  | .fixedInOutNode edges _ => .fixedInOutNode (edges.map fun edge => edge.1.dep)
  | .anyInNode => .anyInNode

def LaidOperation.shape (operation : LaidOperation Layout) : OperationShape :=
  ⟨operation.name, operation.restickCostFn.shape⟩

@[simp]
theorem RestickNodeCost.deps_shape (costFn : RestickNodeCost Layout) : costFn.shape.deps = costFn.deps := by
  cases costFn <;> simp [shape, NodeShape.deps, deps, edgeCosts]

@[simp]
theorem RestickNodeCost.inputs_shape (costFn : RestickNodeCost Layout) :
    costFn.shape.inputs = costFn.inputDeps := by
  cases costFn <;> simp [shape, NodeShape.inputs, inputDeps]

/-! ## Completions -/

variable [DecidableEq Layout]

/-- A candidate for each operation, and for each dependency a layout its edge lists. -/
structure Completes (operations : List (LaidOperation Layout)) (chosen : String → Option Layout) :
    Prop where
  candidates : ∀ operation ∈ operations, ∃ stl ∈ operation.layouts, chosen operation.name = some stl
  covers : ∀ operation ∈ operations, operation.restickCostFn.Covers chosen

def FeedsOperation (operations : List (LaidOperation Layout)) (producer consumer : LaidOperation Layout) :
    Prop :=
  producer ∈ operations ∧ consumer ∈ operations ∧ producer.name ∈ consumer.restickCostFn.deps

open Classical in
/-- What the operations downstream of one cost. -/
noncomputable def downstreamCost (operations : List (LaidOperation Layout))
    (operation : LaidOperation Layout) (chosen : String → Option Layout) : Cost :=
  totalCost chosen (operations.filter fun other =>
    TransGen (FeedsOperation operations) operation other)

/-- The estimate for a candidate is at most what any completion with it costs downstream. -/
def Admissible (operations : List (LaidOperation Layout)) (operation : LaidOperation Layout) : Prop :=
  ∀ candidate ∈ operation.layouts, ∀ chosen, Completes operations chosen →
    chosen operation.name = some candidate →
      computeFutureMinCost operations operation.name candidate ≤
        downstreamCost operations operation chosen

/-! ## The table as a recursion along the edges -/

section Table

variable {operations : List (LaidOperation Layout)}

theorem futureMinCost_append (all before rest : List (LaidOperation Layout)) {name : String}
    (absent : name ∉ before.map LaidOperation.name) :
    futureMinCost all (before ++ rest) name = futureMinCost all rest name := by
  induction before with
  | nil => rfl
  | cons first before inductionHypothesis =>
      rw [List.map_cons, List.mem_cons, not_or] at absent
      rw [List.cons_append, futureMinCost, Function.update_of_ne absent.1,
        inductionHypothesis absent.2]

/-- The entry of a name is the one made from the operations behind it. -/
theorem computeFutureMinCost_of_split {before rest : List (LaidOperation Layout)}
    (isSplit : operations = before ++ rest) {name : String}
    (absent : name ∉ before.map LaidOperation.name) :
    computeFutureMinCost operations name = futureMinCost operations rest name := by
  have split : futureMinCost operations operations name =
      futureMinCost operations (before ++ rest) name := by rw [← isSplit]
  rw [computeFutureMinCost, split]
  exact futureMinCost_append operations before rest absent

variable (topological : Topological (operations.map LaidOperation.shape))

include topological

omit [DecidableEq Layout] in
theorem names_nodup : (operations.map LaidOperation.name).Nodup := by
  have distinct := topological.distinct
  rwa [List.map_map] at distinct

omit [DecidableEq Layout] in
/-- A reader stands behind what it reads. -/
theorem reader_behind {before after : List (LaidOperation Layout)} {operation consumer : LaidOperation Layout}
    (isSplit : operations = before ++ operation :: after) (inside : consumer ∈ operations)
    (reads : operation.name ∈ consumer.restickCostFn.deps) : consumer ∈ after := by
  have unlooped := topological.unlooped consumer.shape (List.mem_map_of_mem inside)
  have forward := topological.forward
  rw [isSplit, List.map_append, List.map_cons] at forward
  rw [isSplit, List.mem_append, List.mem_cons] at inside
  rcases inside with earlier | rfl | later
  · have unread := (List.pairwise_append.mp forward).2.2 _ (List.mem_map_of_mem earlier) _
      List.mem_cons_self
    simp only [LaidOperation.shape, RestickNodeCost.deps_shape] at unread
    exact absurd reads unread
  · simp only [LaidOperation.shape, RestickNodeCost.deps_shape] at unlooped
    exact absurd reads unlooped
  · exact later

/-- The entry of an operation, by those of its readers. -/
theorem computeFutureMinCost_eq {operation : LaidOperation Layout} (inside : operation ∈ operations)
    {candidate : Layout} (isCandidate : candidate ∈ operation.layouts) :
    computeFutureMinCost operations operation.name candidate =
      ((downstream operations operation.name).map
        (bestFuture (computeFutureMinCost operations) operation.name candidate)).sum := by
  obtain ⟨before, after, isSplit⟩ := List.append_of_mem inside
  have distinct := names_nodup topological
  rw [isSplit, List.map_append, List.map_cons, List.nodup_append, List.nodup_cons] at distinct
  obtain ⟨-, ⟨notLater, -⟩, apart⟩ := distinct
  have fresh : operation.name ∉ before.map LaidOperation.name := fun listed =>
    apart _ listed _ List.mem_cons_self rfl
  rw [computeFutureMinCost_of_split isSplit fresh, futureMinCost, Function.update_self,
    if_pos isCandidate]
  congr 1
  apply List.map_congr_left
  intro consumer isConsumer
  obtain ⟨consumerIn, reads⟩ := List.mem_filter.mp isConsumer
  have later := reader_behind topological isSplit consumerIn (of_decide_eq_true reads)
  have behind : consumer.name ∉ (before ++ [operation]).map LaidOperation.name := by
    rw [List.map_append, List.map_singleton, List.mem_append, List.mem_singleton]
    rintro (listed | same)
    · exact apart _ listed _ (List.mem_cons_of_mem _ (List.mem_map_of_mem later)) rfl
    · exact notLater (same ▸ List.mem_map_of_mem later)
  have regrouped : operations = (before ++ [operation]) ++ after := by
    rw [isSplit, List.append_cons]
  unfold bestFuture
  rw [computeFutureMinCost_of_split regrouped behind]

omit [DecidableEq Layout] in
theorem acyclic_feedsOperation :
    WellFounded fun later earlier => FeedsOperation operations earlier later := by
  apply @wellFounded_of_pairwise _ _ operations
  · exact fun producer consumer edge => ⟨edge.1, edge.2.1⟩
  · intro operation edge
    have unlooped := topological.unlooped operation.shape (List.mem_map_of_mem edge.1)
    simp only [LaidOperation.shape, RestickNodeCost.deps_shape] at unlooped
    exact unlooped edge.2.2
  · apply (List.pairwise_map.mp topological.forward).imp
    intro earlier later unread edge
    simp only [LaidOperation.shape, RestickNodeCost.deps_shape] at unread
    exact unread edge.2.2

omit [DecidableEq Layout] topological in
theorem feeds_shape {producer consumer : LaidOperation Layout}
    (edge : FeedsOperation operations producer consumer) :
    Feeds (operations.map LaidOperation.shape) producer.shape consumer.shape := by
  refine ⟨List.mem_map_of_mem edge.1, List.mem_map_of_mem edge.2.1, ?_⟩
  simp only [LaidOperation.shape, RestickNodeCost.deps_shape]
  exact edge.2.2

omit [DecidableEq Layout] in
/-- Operations that reconverge have shapes that do. -/
theorem reconverges_shape {first last : LaidOperation Layout}
    (reconverges : Reconverges (FeedsOperation operations) first last) :
    Reconverges (Feeds (operations.map LaidOperation.shape)) first.shape last.shape := by
  have lifted : ∀ {start stop : LaidOperation Layout}, ReflTransGen (FeedsOperation operations) start stop →
      ReflTransGen (Feeds (operations.map LaidOperation.shape)) start.shape stop.shape :=
    fun path => path.lift LaidOperation.shape fun _ _ => feeds_shape
  obtain ⟨fork, left, right, toFork, toLeft, toRight, different, fromLeft, fromRight⟩ := reconverges
  refine ⟨fork.shape, left.shape, right.shape, lifted toFork, feeds_shape toLeft,
    feeds_shape toRight, ?_, lifted fromLeft, lifted fromRight⟩
  intro same
  apply different
  exact List.inj_on_of_nodup_map (names_nodup topological) toLeft.2.1 toRight.2.1
    (congrArg OperationShape.name same)

end Table

/-! ## Without reconvergence the estimate is admissible -/

section Bound

variable {operations : List (LaidOperation Layout)} {chosen : String → Option Layout}

/-- What one operation contributes to another under a choice. -/
def share (chosen : String → Option Layout) (producer consumer : LaidOperation Layout) : Cost :=
  match chosen producer.name, chosen consumer.name with
  | some inStl, some outStl => consumer.restickCostFn.minInputCost producer.name inStl outStl
  | _, _ => 0

def chosenFuture (operations : List (LaidOperation Layout)) (chosen : String → Option Layout)
    (operation : LaidOperation Layout) : Cost :=
  (chosen operation.name).elim 0 (computeFutureMinCost operations operation.name)

theorem foldl_min_le {Candidate : Type} {candidates : List Candidate} {cost : Candidate → Cost}
    {start : Cost} {candidate : Candidate} (inside : candidate ∈ candidates) :
    candidates.foldl (fun best other => min best (cost other)) start ≤ cost candidate := by
  have below : ∀ (others : List Candidate) (least : Cost),
      others.foldl (fun best other => min best (cost other)) least ≤ least := by
    intro others
    induction others with
    | nil => exact fun least => le_rfl
    | cons other others inductionHypothesis =>
        exact fun least => le_trans (inductionHypothesis _) (min_le_left _ _)
  induction candidates generalizing start with
  | nil => cases inside
  | cons first candidates inductionHypothesis =>
      rw [List.foldl_cons]
      rcases List.mem_cons.mp inside with rfl | later
      · exact le_trans (below _ _) (min_le_right _ _)
      · exact inductionHypothesis later

omit [DecidableEq Layout] in
/-- A reader's best future is at most what its own candidate comes to, where that is finite. -/
theorem bestFuture_le {future : String → Layout → Cost} {name : String} {inStl outStl : Layout}
    {consumer : LaidOperation Layout} (isCandidate : outStl ∈ consumer.layouts)
    (finite : consumer.restickCostFn.minInputCost name inStl outStl + future consumer.name outStl ≠ ⊤) :
    bestFuture future name inStl consumer ≤
      consumer.restickCostFn.minInputCost name inStl outStl + future consumer.name outStl := by
  have least := @foldl_min_le _ consumer.layouts (fun candidate =>
    consumer.restickCostFn.minInputCost name inStl candidate + future consumer.name candidate) ⊤ _
    isCandidate
  unfold bestFuture
  dsimp only
  split
  next infinite =>
    rw [infinite, top_le_iff] at least
    exact absurd least finite
  next => exact least

omit [DecidableEq Layout] in
theorem share_eq {producer consumer : LaidOperation Layout} {inStl outStl : Layout}
    (isIn : chosen producer.name = some inStl) (isOut : chosen consumer.name = some outStl) :
    share chosen producer consumer =
      consumer.restickCostFn.minInputCost producer.name inStl outStl := by
  rw [share, isIn, isOut]

theorem operationCost_eq {operation : LaidOperation Layout} {outStl : Layout}
    (isOut : chosen operation.name = some outStl) :
    operationCost chosen operation = operation.restickCostFn.cost chosen outStl := by
  rw [operationCost, isOut, Option.elim_some]

variable (topological : Topological (operations.map LaidOperation.shape))
  (completes : Completes operations chosen)

include topological completes

/-- What some producers contribute to a reader is at most what the reader costs. -/
theorem sum_share_le {consumer : LaidOperation Layout} (inside : consumer ∈ operations)
    {producers : Finset (LaidOperation Layout)}
    (feed : ∀ producer ∈ producers, FeedsOperation operations producer consumer) :
    ∑ producer ∈ producers, share chosen producer consumer ≤ operationCost chosen consumer := by
  obtain ⟨outStl, -, isOut⟩ := completes.candidates consumer inside
  have areChosen : ∀ producer ∈ producers,
      chosen producer.name = some ((chosen producer.name).getD outStl) := by
    intro producer isProducer
    obtain ⟨inStl, -, isIn⟩ := completes.candidates producer (feed producer isProducer).1
    rw [isIn, Option.getD_some]
  have injective : Set.InjOn LaidOperation.name (producers : Set (LaidOperation Layout)) := by
    intro one isOne other isOther same
    exact List.inj_on_of_nodup_map (names_nodup topological) (feed one isOne).1
      (feed other isOther).1 same
  have shares : ∑ producer ∈ producers, share chosen producer consumer =
      ∑ name ∈ producers.image LaidOperation.name,
        consumer.restickCostFn.minInputCost name ((chosen name).getD outStl) outStl := by
    rw [Finset.sum_image injective]
    apply Finset.sum_congr rfl
    intro producer isProducer
    exact share_eq (areChosen producer isProducer) isOut
  rw [shares, operationCost_eq isOut]
  apply sum_minInputCost_le (completes.covers consumer inside)
  · intro name isName
    obtain ⟨producer, isProducer, rfl⟩ := Finset.mem_image.mp isName
    exact (feed producer isProducer).2.2
  · intro name isName
    obtain ⟨producer, isProducer, rfl⟩ := Finset.mem_image.mp isName
    exact areChosen producer isProducer

open Classical in
/-- The shares of all that is reached are paid for downstream. -/
theorem sum_sum_share_le (operation : LaidOperation Layout) :
    ∑ producer ∈ reachedFrom operations.toFinset (FeedsOperation operations) operation,
      ∑ consumer ∈ successors operations.toFinset (FeedsOperation operations) producer,
        share chosen producer consumer ≤ downstreamCost operations operation chosen := by
  have nodup : operations.Nodup := List.Nodup.of_map _ (names_nodup topological)
  have paid : downstreamCost operations operation chosen =
      ∑ consumer ∈ operations.toFinset,
        if TransGen (FeedsOperation operations) operation consumer then
          operationCost chosen consumer else 0 := by
    rw [downstreamCost, totalCost, ← List.sum_toFinset _ (nodup.filter _), List.toFinset_filter,
      ← Finset.sum_filter]
    simp only [decide_eq_true_eq]
  rw [paid]
  have spread : ∀ producer, ∑ consumer ∈ successors operations.toFinset (FeedsOperation operations)
        producer, share chosen producer consumer =
      ∑ consumer ∈ operations.toFinset,
        if FeedsOperation operations producer consumer then share chosen producer consumer else 0 := by
    intro producer
    rw [successors, Finset.sum_filter]
  simp only [spread]
  rw [Finset.sum_comm]
  apply Finset.sum_le_sum
  intro consumer isConsumer
  rw [← Finset.sum_filter]
  have feed : ∀ producer ∈ (reachedFrom operations.toFinset (FeedsOperation operations)
      operation).filter fun producer => FeedsOperation operations producer consumer,
      FeedsOperation operations producer consumer :=
    fun producer isProducer => (Finset.mem_filter.mp isProducer).2
  by_cases behind : TransGen (FeedsOperation operations) operation consumer
  · rw [if_pos behind]
    exact sum_share_le topological completes (List.mem_toFinset.mp isConsumer) feed
  · rw [if_neg behind]
    apply le_of_eq
    apply Finset.sum_eq_zero
    intro producer isProducer
    obtain ⟨isReached, edge⟩ := Finset.mem_filter.mp isProducer
    exact absurd (.tail' (mem_reachedFrom.mp isReached).2 edge) behind

open Classical in
/-- The estimate of an operation is at most its own shares and the estimates of its readers. -/
theorem chosenFuture_le {operation : LaidOperation Layout} (inside : operation ∈ operations)
    (finite : ∀ consumer, FeedsOperation operations operation consumer →
      operationCost chosen consumer ≠ ⊤) :
    chosenFuture operations chosen operation ≤
      ∑ consumer ∈ successors operations.toFinset (FeedsOperation operations) operation,
          share chosen operation consumer +
        ∑ consumer ∈ successors operations.toFinset (FeedsOperation operations) operation,
          chosenFuture operations chosen consumer := by
  obtain ⟨inStl, isCandidate, isIn⟩ := completes.candidates operation inside
  have nodup : operations.Nodup := List.Nodup.of_map _ (names_nodup topological)
  have readers : successors operations.toFinset (FeedsOperation operations) operation =
      (downstream operations operation.name).toFinset := by
    ext consumer
    rw [mem_successors, List.mem_toFinset, List.mem_toFinset, downstream, List.mem_filter,
      decide_eq_true_eq]
    exact ⟨fun both => ⟨both.1, both.2.2.2⟩, fun both => ⟨both.1, inside, both.1, both.2⟩⟩
  have entry : chosenFuture operations chosen operation =
      ∑ consumer ∈ successors operations.toFinset (FeedsOperation operations) operation,
        bestFuture (computeFutureMinCost operations) operation.name inStl consumer := by
    have distinct : (downstream operations operation.name).Nodup := nodup.filter _
    rw [readers, List.sum_toFinset _ distinct, chosenFuture, isIn, Option.elim_some,
      computeFutureMinCost_eq topological inside isCandidate]
  rw [entry, ← Finset.sum_add_distrib]
  apply Finset.sum_le_sum
  intro consumer isReader
  obtain ⟨-, edge⟩ := mem_successors.mp isReader
  obtain ⟨outStl, isOutCandidate, isOut⟩ := completes.candidates consumer edge.2.1
  have alone := @sum_share_le _ _ _ _ topological completes consumer edge.2.1 {operation} (by
    intro producer isProducer
    rw [Finset.mem_singleton.mp isProducer]
    exact edge)
  rw [Finset.sum_singleton] at alone
  have shareFinite : share chosen operation consumer ≠ ⊤ := by
    intro infinite
    rw [infinite, top_le_iff] at alone
    exact finite consumer edge alone
  have futureFinite : computeFutureMinCost operations consumer.name outStl ≠ ⊤ :=
    futureMinCost_ne_top operations operations consumer.name outStl
  have own : chosenFuture operations chosen consumer =
      computeFutureMinCost operations consumer.name outStl := by
    rw [chosenFuture, isOut, Option.elim_some]
  rw [own, share_eq isIn isOut]
  rw [share_eq isIn isOut] at shareFinite
  apply bestFuture_le isOutCandidate
  exact WithTop.add_ne_top.mpr ⟨shareFinite, futureFinite⟩

omit completes in
open Classical in
/-- Where no input of an operation is reached along two paths, the estimate is a lower bound. -/
theorem admissible_of_single {operation : LaidOperation Layout} (inside : operation ∈ operations)
    (single : ∀ producer consumer, FeedsInput (operations.map LaidOperation.shape) producer consumer →
      ¬Reconverges (Feeds (operations.map LaidOperation.shape)) operation.shape producer) :
    Admissible operations operation := by
  intro candidate isCandidate chosen completes isChosen
  by_cases infinite : downstreamCost operations operation chosen = ⊤
  · rw [infinite]
    exact le_top
  have estimate : computeFutureMinCost operations operation.name candidate =
      chosenFuture operations chosen operation := by
    rw [chosenFuture, isChosen, Option.elim_some]
  rw [estimate]
  apply le_trans _ (sum_sum_share_le topological completes operation)
  apply value_le_sum_reachedFrom (acyclic_feedsOperation topological)
    (List.mem_toFinset.mpr inside)
  · intro producer isReached
    obtain ⟨producerIn, path⟩ := mem_reachedFrom.mp isReached
    apply chosenFuture_le topological completes (List.mem_toFinset.mp producerIn)
    intro consumer edge
    have listed : consumer ∈ operations.filter fun other =>
        TransGen (FeedsOperation operations) operation other :=
      List.mem_filter.mpr ⟨edge.2.1, decide_eq_true (.tail' path edge)⟩
    exact ne_top_of_sum infinite (List.mem_map_of_mem listed)
  · intro producer weighs reconverges
    obtain ⟨consumer, isReader, shares⟩ := Finset.exists_ne_zero_of_sum_ne_zero weighs
    obtain ⟨-, edge⟩ := mem_successors.mp isReader
    apply single producer.shape consumer.shape _ (reconverges_shape topological reconverges)
    refine ⟨List.mem_map_of_mem edge.1, List.mem_map_of_mem edge.2.1, ?_⟩
    simp only [LaidOperation.shape, RestickNodeCost.inputs_shape]
    by_contra unpaid
    apply shares
    obtain ⟨inStl, -, isIn⟩ := completes.candidates producer edge.1
    obtain ⟨outStl, -, isOut⟩ := completes.candidates consumer edge.2.1
    rw [share_eq isIn isOut]
    exact minInputCost_eq_zero edge.2.2 unpaid

end Bound

end TorchSpyre.Restickify
