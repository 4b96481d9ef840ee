import TorchSpyre.Restickify.Admissible

/-!
# Where the estimate overestimates

With one candidate for each operation and one edge that costs something, the estimate counts
that edge once for each path to its producer.
-/

namespace TorchSpyre.Restickify

open Lib Relation RestickNodeCost

/-! ## One priced edge -/

def unitEdge (dep : String) (cost : ℕ) : EdgeCostMap Unit := ⟨dep, [()], fun _ _ => (cost : WithTop ℕ)⟩

/-- Edges from some names, of which the first from one name costs one. -/
def priceFirst (priced : String) : List String → List (EdgeCostMap Unit)
  | [] => []
  | dep :: rest =>
      if dep = priced then unitEdge dep 1 :: rest.map (unitEdge · 0)
      else unitEdge dep 0 :: priceFirst priced rest

def inputEdges (priced reader name : String) (deps : List String) : List (EdgeCostMap Unit) :=
  if name = reader then priceFirst priced deps else deps.map (unitEdge · 0)

/-- The shape as an operation with a single candidate. -/
def OperationShape.priced (priced reader : String) (shape : OperationShape) : LaidOperation Unit where
  name := shape.name
  layouts := [()]
  restickCostFn :=
    match shape.node with
    | .allSameNode inputs outputs =>
        .allSameNode (inputEdges priced reader shape.name inputs) (outputs.map (unitEdge · 0))
    | .fixedInOutNode inputs =>
        .fixedInOutNode ((inputEdges priced reader shape.name inputs).map fun edge => (edge, ()))
          fun _ => true
    | .anyInNode => .anyInNode

theorem map_dep_unitEdge (deps : List String) (cost : ℕ) :
    (deps.map (unitEdge · cost)).map EdgeCostMap.dep = deps := by
  rw [List.map_map]
  exact List.map_id deps

theorem map_dep_priceFirst (priced : String) (deps : List String) :
    (priceFirst priced deps).map EdgeCostMap.dep = deps := by
  induction deps with
  | nil => rfl
  | cons dep deps inductionHypothesis =>
      rw [priceFirst]
      split
      next => rw [List.map_cons, map_dep_unitEdge, unitEdge]
      next => rw [List.map_cons, inductionHypothesis, unitEdge]

theorem map_dep_inputEdges (priced reader name : String) (deps : List String) :
    (inputEdges priced reader name deps).map EdgeCostMap.dep = deps := by
  unfold inputEdges
  split
  next => exact map_dep_priceFirst priced deps
  next => exact map_dep_unitEdge deps 0

@[simp]
theorem shape_priced (priced reader : String) (shape : OperationShape) :
    (shape.priced priced reader).shape = shape := by
  obtain ⟨name, node⟩ := shape
  cases node with
  | allSameNode inputs outputs =>
      simp only [LaidOperation.shape, OperationShape.priced, RestickNodeCost.shape,
        map_dep_inputEdges, map_dep_unitEdge]
  | fixedInOutNode inputs =>
      simp only [LaidOperation.shape, OperationShape.priced, RestickNodeCost.shape, List.map_map]
      congr 2
      exact map_dep_inputEdges priced reader name inputs
  | anyInNode => rfl

theorem map_shape_priced (priced reader : String) (shapes : List OperationShape) :
    (shapes.map (OperationShape.priced priced reader)).map LaidOperation.shape = shapes := by
  rw [List.map_map]
  conv_rhs => rw [← List.map_id shapes]
  exact List.map_congr_left fun shape _ => shape_priced priced reader shape

/-! ## What it costs -/

def edgeSum (edges : List (EdgeCostMap Unit)) : Cost := (edges.map fun edge => edge.cost () ()).sum

theorem edgeSum_unitEdge (deps : List String) : edgeSum (deps.map (unitEdge · 0)) = 0 := by
  induction deps with
  | nil => rfl
  | cons dep deps inductionHypothesis =>
      rw [edgeSum, List.map_cons, List.map_cons, List.sum_cons]
      rw [edgeSum] at inductionHypothesis
      rw [inductionHypothesis]
      rfl

theorem edgeSum_priceFirst_le (priced : String) (deps : List String) :
    edgeSum (priceFirst priced deps) ≤ 1 := by
  induction deps with
  | nil => exact zero_le
  | cons dep deps inductionHypothesis =>
      rw [priceFirst]
      split
      next =>
        rw [edgeSum, List.map_cons, List.sum_cons]
        have rest := edgeSum_unitEdge deps
        rw [edgeSum] at rest
        rw [rest]
        exact le_rfl
      next =>
        rw [edgeSum, List.map_cons, List.sum_cons]
        rw [edgeSum] at inductionHypothesis
        exact le_trans (le_of_eq (zero_add _)) inductionHypothesis

theorem inLayouts_inputEdges {priced reader name : String} {deps : List String}
    {edge : EdgeCostMap Unit} (isEdge : edge ∈ inputEdges priced reader name deps) :
    edge.inLayouts = [()] := by
  have first : ∀ deps : List String, ∀ edge ∈ priceFirst priced deps, edge.inLayouts = [()] := by
    intro deps
    induction deps with
    | nil => exact fun edge inside => absurd inside List.not_mem_nil
    | cons dep deps inductionHypothesis =>
        intro edge inside
        rw [priceFirst] at inside
        split at inside
        next =>
          rcases List.mem_cons.mp inside with rfl | later
          · rfl
          · obtain ⟨other, -, rfl⟩ := List.mem_map.mp later
            rfl
        next =>
          rcases List.mem_cons.mp inside with rfl | later
          · rfl
          · exact inductionHypothesis edge later
  unfold inputEdges at isEdge
  split at isEdge
  next => exact first deps edge isEdge
  next =>
    obtain ⟨dep, -, rfl⟩ := List.mem_map.mp isEdge
    rfl

/-- The one choice there is. -/
def onlyChoice : String → Option Unit := fun _ => some ()

section Priced

variable {priced reader : String} {shapes : List OperationShape}

theorem edgeSum_inputEdges_le (name : String) (deps : List String) :
    edgeSum (inputEdges priced reader name deps) ≤ if name = reader then 1 else 0 := by
  unfold inputEdges
  split
  next => exact edgeSum_priceFirst_le priced deps
  next => exact le_of_eq (edgeSum_unitEdge deps)

theorem cost_priced_le (shape : OperationShape) :
    (shape.priced priced reader).restickCostFn.cost onlyChoice () ≤
      if shape.name = reader then 1 else 0 := by
  obtain ⟨name, node⟩ := shape
  have bound := @edgeSum_inputEdges_le priced reader name
  have edge : ∀ edge : EdgeCostMap Unit, edgeCost onlyChoice edge () = edge.cost () () := fun _ => rfl
  cases node with
  | allSameNode inputs outputs =>
      have finite : edgeSum (inputEdges priced reader name inputs) ≠ ⊤ := by
        apply ne_top_of_le_ne_top _ (bound inputs)
        split <;> exact WithTop.coe_ne_top
      simp only [OperationShape.priced, RestickNodeCost.cost, edge]
      rw [edgeSum] at finite
      rw [if_neg finite, if_pos]
      · exact bound inputs
      · apply List.all_eq_true.mpr
        exact fun _ _ => rfl
  | fixedInOutNode inputs =>
      simp only [OperationShape.priced, RestickNodeCost.cost, edge, if_true, List.map_map]
      exact bound inputs
  | anyInNode => exact zero_le

theorem completes_priced :
    Completes (shapes.map (OperationShape.priced priced reader)) onlyChoice := by
  constructor
  · intro operation inside
    obtain ⟨shape, -, rfl⟩ := List.mem_map.mp inside
    exact ⟨(), List.mem_singleton_self _, rfl⟩
  · intro operation inside edge isEdge stl _
    obtain ⟨⟨name, node⟩, -, rfl⟩ := List.mem_map.mp inside
    have single : edge.inLayouts = [()] := by
      cases node with
      | allSameNode inputs outputs =>
          rcases List.mem_append.mp isEdge with isInput | isOutput
          · exact inLayouts_inputEdges isInput
          · obtain ⟨dep, -, rfl⟩ := List.mem_map.mp isOutput
            rfl
      | fixedInOutNode inputs =>
          simp only [OperationShape.priced, edgeCosts, List.map_map] at isEdge
          obtain ⟨source, isSource, rfl⟩ := List.mem_map.mp isEdge
          exact inLayouts_inputEdges isSource
      | anyInNode => cases isEdge
    rw [single]
    exact List.mem_singleton.mpr rfl

theorem downstreamCost_le_totalCost {Layout : Type} [DecidableEq Layout] (operations : List (LaidOperation Layout))
    (operation : LaidOperation Layout) (chosen : String → Option Layout) :
    downstreamCost operations operation chosen ≤ totalCost chosen operations := by
  rw [downstreamCost, totalCost, totalCost]
  exact List.Sublist.sum_le_sum (List.filter_sublist.map _) fun _ _ => zero_le

/-- Downstream of any operation the priced edge is paid once. -/
theorem downstreamCost_priced_le (distinct : (shapes.map OperationShape.name).Nodup)
    (operation : LaidOperation Unit) :
    downstreamCost (shapes.map (OperationShape.priced priced reader)) operation onlyChoice ≤ 1 := by
  have total : ∀ others : List OperationShape, (others.map OperationShape.name).Nodup →
      totalCost onlyChoice (others.map (OperationShape.priced priced reader)) ≤
        if reader ∈ others.map OperationShape.name then 1 else 0 := by
    intro others
    induction others with
    | nil => exact fun _ => le_rfl
    | cons shape others inductionHypothesis =>
        intro apart
        rw [List.map_cons, List.nodup_cons] at apart
        rw [List.map_cons, totalCost, List.map_cons, List.sum_cons]
        have first : operationCost onlyChoice (shape.priced priced reader) ≤
            if shape.name = reader then 1 else 0 := cost_priced_le shape
        have rest := inductionHypothesis apart.2
        rw [totalCost] at rest
        apply le_trans (add_le_add first rest)
        by_cases here : shape.name = reader
        · have gone : reader ∉ others.map OperationShape.name := here ▸ apart.1
          simp [here, gone]
        · simp [here, Ne.symm here]
  apply le_trans (downstreamCost_le_totalCost _ _ _)
  apply le_trans (total shapes distinct)
  split
  next => exact le_rfl
  next => exact zero_le

/-! ## What the estimate makes of it -/

theorem cost_ne_top (shape : OperationShape) :
    (shape.priced priced reader).restickCostFn.cost onlyChoice () ≠ ⊤ := by
  apply ne_top_of_le_ne_top _ (cost_priced_le shape)
  split <;> exact WithTop.coe_ne_top

theorem minInputCost_priced_ne_top {shape : OperationShape} (inside : shape ∈ shapes) {name : String}
    (reads : name ∈ shape.node.deps) :
    (shape.priced priced reader).restickCostFn.minInputCost name () () ≠ ⊤ := by
  have covers := (@completes_priced priced reader shapes).covers _ (List.mem_map_of_mem inside)
  have sameDeps : (shape.priced priced reader).restickCostFn.deps = shape.node.deps := by
    rw [← RestickNodeCost.deps_shape]
    exact congrArg (fun shape => shape.node.deps) (shape_priced priced reader shape)
  have alone := @sum_minInputCost_le _ _ _ () _ covers {name} (by
    intro other isOther
    rw [Finset.mem_singleton.mp isOther, sameDeps]
    exact reads) (fun _ => ()) fun _ _ => rfl
  rw [Finset.sum_singleton] at alone
  exact ne_top_of_le_ne_top (cost_ne_top shape) alone

theorem find?_priceFirst {deps : List String} (reads : priced ∈ deps) :
    (priceFirst priced deps).find? (fun edge => edge.dep = priced) = some (unitEdge priced 1) := by
  induction deps with
  | nil => cases reads
  | cons dep deps inductionHypothesis =>
      rw [priceFirst]
      split
      next same =>
        subst same
        exact List.find?_cons_of_pos (decide_eq_true rfl)
      next different =>
        rw [List.find?_cons_of_neg]
        · exact inductionHypothesis ((List.mem_cons.mp reads).resolve_left (Ne.symm different))
        · rw [decide_eq_true_eq]
          exact different

/-- The priced edge is charged to its producer. -/
theorem one_le_minInputCost {shape : OperationShape} (isReader : shape.name = reader)
    (reads : priced ∈ shape.node.inputs) :
    1 ≤ (shape.priced priced reader).restickCostFn.minInputCost priced () () := by
  obtain ⟨name, node⟩ := shape
  obtain rfl : name = reader := isReader
  cases node with
  | allSameNode inputs outputs =>
      have found : (inputEdges priced name name inputs).find? (fun edge => edge.dep = priced) =
          some (unitEdge priced 1) := by
        rw [inputEdges, if_pos rfl]
        exact find?_priceFirst reads
      simp only [OperationShape.priced, minInputCost, found]
      split
      next => exact le_rfl
      next => exact le_top
  | fixedInOutNode inputs =>
      have listed : unitEdge priced 1 ∈ inputEdges priced name name inputs := by
        rw [inputEdges, if_pos rfl]
        exact List.mem_of_find?_eq_some (find?_priceFirst reads)
      simp only [OperationShape.priced, minInputCost]
      split
      next =>
        apply le_sum_of_mem
        apply List.mem_map.mpr
        refine ⟨(unitEdge priced 1, ()), ?_, rfl⟩
        exact List.mem_filter.mpr ⟨List.mem_map_of_mem listed, decide_eq_true rfl⟩
      next => exact le_top
  | anyInNode => cases reads

theorem bestFuture_single {Layout : Type} [DecidableEq Layout] {future : String → Layout → Cost}
    {name : String} {inStl outStl : Layout} {consumer : LaidOperation Layout}
    (single : consumer.layouts = [outStl])
    (finite : consumer.restickCostFn.minInputCost name inStl outStl + future consumer.name outStl ≠ ⊤) :
    bestFuture future name inStl consumer =
      consumer.restickCostFn.minInputCost name inStl outStl + future consumer.name outStl := by
  unfold bestFuture
  rw [single]
  simp only [List.foldl_cons, List.foldl_nil, min_eq_right le_top]
  exact if_neg finite

variable (topological : Topological shapes)

include topological

open Classical in
/-- The estimate of an operation is made of its shares and the estimates of its readers. -/
theorem estimate_priced {shape : OperationShape} (inside : shape ∈ shapes) :
    computeFutureMinCost (shapes.map (OperationShape.priced priced reader)) shape.name () =
      ∑ other ∈ successors shapes.toFinset (Feeds shapes) shape,
        ((other.priced priced reader).restickCostFn.minInputCost shape.name () () +
          computeFutureMinCost (shapes.map (OperationShape.priced priced reader)) other.name ()) := by
  have shaped : Topological ((shapes.map (OperationShape.priced priced reader)).map
      LaidOperation.shape) := by
    rw [map_shape_priced]
    exact topological
  have nodup : shapes.Nodup := List.Nodup.of_map _ topological.distinct
  have entry := @computeFutureMinCost_eq Unit _ _ shaped (shape.priced priced reader)
    (List.mem_map_of_mem inside) () (List.mem_singleton_self _)
  have readers : successors shapes.toFinset (Feeds shapes) shape =
      (shapes.filter fun other => shape.name ∈ other.node.deps).toFinset := by
    ext other
    rw [mem_successors, List.mem_toFinset, List.mem_toFinset, List.mem_filter, decide_eq_true_eq]
    exact ⟨fun both => ⟨both.1, both.2.2.2⟩, fun both => ⟨both.1, inside, both.1, both.2⟩⟩
  have listed : downstream (shapes.map (OperationShape.priced priced reader)) shape.name =
      (shapes.filter fun other => shape.name ∈ other.node.deps).map
        (OperationShape.priced priced reader) := by
    rw [downstream, List.filter_map]
    congr 1
    apply List.filter_congr
    intro other _
    have sameDeps : (other.priced priced reader).restickCostFn.deps = other.node.deps := by
      rw [← RestickNodeCost.deps_shape]
      exact congrArg (fun shape => shape.node.deps) (shape_priced priced reader other)
    rw [Function.comp_apply, sameDeps]
  rw [readers, List.sum_toFinset _ (nodup.filter _)]
  refine Eq.trans entry ?_
  show ((downstream (shapes.map (OperationShape.priced priced reader)) shape.name).map _).sum = _
  rw [listed, List.map_map]
  congr 1
  apply List.map_congr_left
  intro other isOther
  obtain ⟨otherIn, reads⟩ := List.mem_filter.mp isOther
  apply bestFuture_single rfl
  apply WithTop.add_ne_top.mpr
  refine ⟨minInputCost_priced_ne_top otherIn (of_decide_eq_true reads), ?_⟩
  exact futureMinCost_ne_top _ _ _ _

/-- Two paths to the producer of the priced edge make the estimate overestimate. -/
theorem not_admissible_of_reconverges {start producer consumer : OperationShape}
    (pays : FeedsInput shapes producer consumer)
    (reconverges : Reconverges (Feeds shapes) start producer) :
    ¬Admissible (shapes.map (OperationShape.priced producer.name consumer.name))
      (start.priced producer.name consumer.name) := by
  classical
  obtain ⟨producerIn, consumerIn, isInput⟩ := pays
  intro admissible
  have closed : ∀ node other, Feeds shapes node other → other ∈ shapes.toFinset :=
    fun node other edge => List.mem_toFinset.mpr edge.2.1
  have adds : ∀ node : OperationShape, ∑ other ∈ successors shapes.toFinset (Feeds shapes) node,
      computeFutureMinCost (shapes.map (OperationShape.priced producer.name consumer.name))
        other.name () ≤
      computeFutureMinCost (shapes.map (OperationShape.priced producer.name consumer.name))
        node.name () := by
    intro node
    by_cases nodeIn : node ∈ shapes
    · rw [estimate_priced topological nodeIn]
      apply Finset.sum_le_sum
      intro other _
      exact le_add_of_nonneg_left zero_le
    · rw [Finset.sum_eq_zero]
      · exact zero_le
      · intro other isOther
        exact absurd (mem_successors.mp isOther).2.1 nodeIn
  have once : 1 ≤ computeFutureMinCost
      (shapes.map (OperationShape.priced producer.name consumer.name)) producer.name () := by
    rw [estimate_priced topological producerIn]
    have isDep : producer.name ∈ consumer.node.deps := by
      obtain ⟨name, node⟩ := consumer
      cases node with
      | allSameNode inputs outputs => exact List.mem_append_left _ isInput
      | fixedInOutNode inputs => exact isInput
      | anyInNode => cases isInput
    have isSuccessor : consumer ∈ successors shapes.toFinset (Feeds shapes) producer :=
      mem_successors.mpr ⟨List.mem_toFinset.mpr consumerIn, producerIn, consumerIn, isDep⟩
    apply le_trans _ (Finset.single_le_sum (fun _ _ => zero_le) isSuccessor)
    apply le_trans (one_le_minInputCost rfl isInput)
    exact le_add_of_nonneg_right zero_le
  have twice := add_self_le_of_reconverges closed adds reconverges
  have paid := admissible () (List.mem_singleton_self _) onlyChoice completes_priced rfl
  have bound := le_trans (add_le_add once once) (le_trans twice
    (le_trans paid (downstreamCost_priced_le topological.distinct _)))
  exact absurd bound (by decide)

end Priced

/-! ## The shapes it is right for -/

/-- The estimate for an operation is a lower bound, whatever the candidates and costs of an operation
list of this shape, exactly if no operation another one has as an input is reached along two paths. -/
theorem futureMinCost_admissible_iff {shapes : List OperationShape} (topological : Topological shapes)
    {start : OperationShape} (inside : start ∈ shapes) :
    (∀ (Layout : Type) [DecidableEq Layout] (operations : List (LaidOperation Layout)),
        operations.map LaidOperation.shape = shapes →
          ∀ operation ∈ operations, operation.shape = start → Admissible operations operation) ↔
      ∀ producer consumer, FeedsInput shapes producer consumer →
        ¬Reconverges (Feeds shapes) start producer := by
  constructor
  · intro admissible producer consumer pays reconverges
    apply not_admissible_of_reconverges topological pays reconverges
    apply admissible Unit _ (map_shape_priced producer.name consumer.name shapes) _
      (List.mem_map_of_mem inside)
    exact shape_priced producer.name consumer.name start
  · intro single Layout _ operations shaped operation isOperation isStart
    subst shaped isStart
    exact admissible_of_single topological isOperation single

/-- Three operations in a row. -/
def chain : List OperationShape :=
  [⟨"a", .anyInNode⟩, ⟨"b", .allSameNode ["a"] []⟩, ⟨"c", .allSameNode ["b"] []⟩]

theorem topological_chain : Topological chain where
  distinct := by decide
  unlooped := by decide
  forward := by decide

theorem feeds_chain {producer left right : OperationShape} (toLeft : Feeds chain producer left)
    (toRight : Feeds chain producer right) : left = right := by
  have functional : ∀ producer ∈ chain, ∀ left ∈ chain, ∀ right ∈ chain,
      producer.name ∈ left.node.deps → producer.name ∈ right.node.deps → left = right := by decide
  exact functional producer toLeft.1 left toLeft.2.1 right toRight.2.1 toLeft.2.2 toRight.2.2

theorem not_reconverges_chain {start producer : OperationShape} :
    ¬Reconverges (Feeds chain) start producer := by
  rintro ⟨_, _, _, _, toLeft, toRight, different, _⟩
  exact different (feeds_chain toLeft toRight)

theorem futureMinCost_admissible_chain :
    (∀ producer consumer, FeedsInput chain producer consumer →
      ¬Reconverges (Feeds chain) ⟨"a", .anyInNode⟩ producer) ∧
    ∀ (Layout : Type) [DecidableEq Layout] (operations : List (LaidOperation Layout)),
      operations.map LaidOperation.shape = chain →
        ∀ operation ∈ operations, operation.shape = ⟨"a", .anyInNode⟩ →
          Admissible operations operation := by
  have single : ∀ producer consumer, FeedsInput chain producer consumer →
      ¬Reconverges (Feeds chain) ⟨"a", .anyInNode⟩ producer :=
    fun _ _ _ => not_reconverges_chain
  exact ⟨single, (futureMinCost_admissible_iff topological_chain (by decide)).mpr single⟩

/-- Two readers of one operation whose results are added up and restickified. -/
def diamond : List (LaidOperation Unit) :=
  [⟨"a", [()], .anyInNode⟩,
    ⟨"b", [()], .allSameNode [unitEdge "a" 0] []⟩,
    ⟨"c", [()], .allSameNode [unitEdge "a" 0] []⟩,
    ⟨"d", [()], .allSameNode [unitEdge "b" 0, unitEdge "c" 0] []⟩,
    ⟨"e", [()], .allSameNode [unitEdge "d" 5] []⟩]

theorem estimate_diamond : computeFutureMinCost diamond "a" () = ((10 : ℕ) : Cost) := by
  decide

theorem totalCost_diamond : totalCost onlyChoice diamond = ((5 : ℕ) : Cost) := by
  decide

/-- The one completion costs 5, the estimate is 10. -/
theorem futureMinCost_overestimates_diamond :
    ¬∀ (Layout : Type) [DecidableEq Layout] (operations : List (LaidOperation Layout)),
      Topological (operations.map LaidOperation.shape) →
        ∀ operation ∈ operations, ∀ candidate ∈ operation.layouts, ∀ chosen,
          Completes operations chosen → chosen operation.name = some candidate →
            computeFutureMinCost operations operation.name candidate < futureCap →
              computeFutureMinCost operations operation.name candidate ≤
                downstreamCost operations operation chosen := by
  intro admissible
  have listed : ∀ operation ∈ diamond, ∀ edge ∈ operation.restickCostFn.edgeCosts,
      () ∈ edge.inLayouts := by decide
  have completes : Completes diamond onlyChoice := by
    constructor
    · intro operation inside
      exact ⟨(), by revert operation; decide, rfl⟩
    · intro operation inside edge isEdge stl _
      exact listed operation inside edge isEdge
  have below := admissible Unit diamond (by constructor <;> decide) _ List.mem_cons_self ()
    (List.mem_singleton_self _) onlyChoice completes rfl
  rw [estimate_diamond] at below
  have paid := le_trans (below (by decide)) (downstreamCost_le_totalCost _ _ _)
  rw [totalCost_diamond] at paid
  exact absurd paid (by decide)

end TorchSpyre.Restickify
