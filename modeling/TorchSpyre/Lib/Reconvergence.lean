import Mathlib

/-!
# Values summed over the paths of a graph

A value that adds up the values of a node's successors counts a node once for each path that
leads to it.  Where the nodes that weigh something are reached along one path only, it counts
each of them once.
-/

namespace Lib

open Relation

variable {Node : Type*} (nodes : Finset Node) (feeds : Node → Node → Prop)

open Classical in
noncomputable def successors (node : Node) : Finset Node := nodes.filter fun other => feeds node other

open Classical in
/-- The nodes a path leads to, the empty path among them. -/
noncomputable def reachedFrom (node : Node) : Finset Node :=
  nodes.filter fun other => ReflTransGen feeds node other

/-- Two paths to a node part at some node behind the first. -/
def Reconverges (first last : Node) : Prop :=
  ∃ fork left right, ReflTransGen feeds first fork ∧ feeds fork left ∧ feeds fork right ∧
    left ≠ right ∧ ReflTransGen feeds left last ∧ ReflTransGen feeds right last

variable {nodes feeds}

theorem mem_successors {node other : Node} :
    other ∈ successors nodes feeds node ↔ other ∈ nodes ∧ feeds node other := by
  classical
  exact Finset.mem_filter

theorem mem_reachedFrom {node other : Node} :
    other ∈ reachedFrom nodes feeds node ↔ other ∈ nodes ∧ ReflTransGen feeds node other := by
  classical
  exact Finset.mem_filter

theorem Reconverges.of_reached {first next last : Node} (reached : ReflTransGen feeds first next)
    (reconverges : Reconverges feeds next last) : Reconverges feeds first last := by
  obtain ⟨fork, left, right, toFork, rest⟩ := reconverges
  exact ⟨fork, left, right, reached.trans toFork, rest⟩

/-- In a list where no element is fed by a later one, no path leads back. -/
theorem wellFounded_of_pairwise {ordered : List Node}
    (inside : ∀ node other, feeds node other → node ∈ ordered ∧ other ∈ ordered)
    (unlooped : ∀ node, ¬feeds node node)
    (forward : ordered.Pairwise fun earlier later => ¬feeds later earlier) :
    WellFounded fun later earlier => feeds earlier later := by
  classical
  apply Subrelation.wf _ (measure fun node => ordered.length - ordered.idxOf node).wf
  intro later earlier edge
  obtain ⟨earlierIn, laterIn⟩ := inside earlier later edge
  have earlierBound := List.idxOf_lt_length_of_mem earlierIn
  have laterBound := List.idxOf_lt_length_of_mem laterIn
  show ordered.length - ordered.idxOf later < ordered.length - ordered.idxOf earlier
  rcases lt_trichotomy (ordered.idxOf earlier) (ordered.idxOf later) with before | same | after
  · omega
  · rw [(List.idxOf_inj earlierIn).mp same] at edge
    exact absurd edge (unlooped later)
  · have backward := List.pairwise_iff_getElem.mp forward _ _ laterBound earlierBound after
    rw [List.getElem_idxOf, List.getElem_idxOf] at backward
    exact absurd edge backward

section Sums

variable {Total : Type*} [AddCommMonoid Total] [PartialOrder Total] [IsOrderedAddMonoid Total]
variable {value weight : Node → Total}

/-- Sums over sets that meet in weightless elements only. -/
theorem sum_sum_le [CanonicallyOrderedAdd Total] {Index Element : Type*} [DecidableEq Element]
    {indices : Finset Index} {parts : Index → Finset Element} {whole : Finset Element}
    {weight : Element → Total}
    (inside : ∀ index ∈ indices, parts index ⊆ whole)
    (apart : ∀ element, weight element ≠ 0 → ∀ index ∈ indices, element ∈ parts index →
      ∀ other ∈ indices, element ∈ parts other → index = other) :
    ∑ index ∈ indices, ∑ element ∈ parts index, weight element ≤ ∑ element ∈ whole, weight element := by
  have padded : ∀ index ∈ indices, ∑ element ∈ parts index, weight element =
      ∑ element ∈ whole, if element ∈ parts index then weight element else 0 := by
    intro index isIndex
    rw [← Finset.sum_filter]
    congr 1
    ext element
    rw [Finset.mem_filter]
    exact ⟨fun here => ⟨inside index isIndex here, here⟩, And.right⟩
  rw [Finset.sum_congr rfl padded, Finset.sum_comm]
  apply Finset.sum_le_sum
  intro element _
  by_cases weightless : weight element = 0
  · apply le_of_eq
    rw [weightless]
    exact Finset.sum_eq_zero fun index _ => ite_self 0
  by_cases owned : ∃ index ∈ indices, element ∈ parts index
  · obtain ⟨index, isIndex, here⟩ := owned
    apply le_of_eq
    rw [Finset.sum_eq_single_of_mem index isIndex]
    · exact if_pos here
    · intro other isOther different
      apply if_neg
      intro there
      exact different (apart element weightless other isOther there index isIndex here)
  · have nowhere : ∀ index ∈ indices, (if element ∈ parts index then weight element else 0) = 0 := by
      intro index isIndex
      exact if_neg fun here => owned ⟨index, isIndex, here⟩
    rw [Finset.sum_eq_zero nowhere]
    exact zero_le

/-- A value that a node's weight and its successors bound is bounded by the weights reached,
where no weight is reached along two paths. -/
theorem value_le_sum_reachedFrom [CanonicallyOrderedAdd Total]
    (acyclic : WellFounded fun later earlier => feeds earlier later) {first : Node}
    (inside : first ∈ nodes)
    (unfolds : ∀ node ∈ reachedFrom nodes feeds first,
      value node ≤ weight node + ∑ other ∈ successors nodes feeds node, value other)
    (single : ∀ other, weight other ≠ 0 → ¬Reconverges feeds first other) :
    value first ≤ ∑ other ∈ reachedFrom nodes feeds first, weight other := by
  classical
  induction first using acyclic.induction with
  | h first inductionHypothesis =>
      have bounded : ∀ other ∈ successors nodes feeds first,
          value other ≤ ∑ reached ∈ reachedFrom nodes feeds other, weight reached := by
        intro other isSuccessor
        obtain ⟨otherIn, edge⟩ := mem_successors.1 isSuccessor
        apply inductionHypothesis other edge otherIn
        · intro node reached
          apply unfolds
          obtain ⟨nodeIn, path⟩ := mem_reachedFrom.1 reached
          exact mem_reachedFrom.2 ⟨nodeIn, .head edge path⟩
        · intro last weighs reconverges
          exact single last weighs (reconverges.of_reached (.single edge))
      -- no path leads back
      have apart : ∀ other ∈ successors nodes feeds first,
          reachedFrom nodes feeds other ⊆ (reachedFrom nodes feeds first).erase first := by
        intro other isSuccessor reached isReached
        obtain ⟨-, edge⟩ := mem_successors.1 isSuccessor
        obtain ⟨reachedIn, path⟩ := mem_reachedFrom.1 isReached
        apply Finset.mem_erase.mpr
        refine ⟨?_, mem_reachedFrom.2 ⟨reachedIn, .head edge path⟩⟩
        rintro rfl
        have cycle : TransGen feeds reached reached := .head' edge path
        exact acyclic.transGen.irrefl.irrefl reached (transGen_swap.mpr cycle)
      calc value first
          ≤ weight first + ∑ other ∈ successors nodes feeds first, value other :=
            unfolds first (mem_reachedFrom.2 ⟨inside, .refl⟩)
        _ ≤ weight first + ∑ other ∈ successors nodes feeds first,
              ∑ reached ∈ reachedFrom nodes feeds other, weight reached :=
            add_le_add_right (Finset.sum_le_sum bounded) _
        _ ≤ weight first + ∑ reached ∈ (reachedFrom nodes feeds first).erase first,
              weight reached := by
            apply add_le_add_right
            apply sum_sum_le apart
            intro last weighs left isLeft toLeft right isRight toRight
            by_contra different
            exact single last weighs ⟨first, left, right, .refl, (mem_successors.1 isLeft).2,
              (mem_successors.1 isRight).2, different, (mem_reachedFrom.1 toLeft).2,
              (mem_reachedFrom.1 toRight).2⟩
        _ = ∑ reached ∈ reachedFrom nodes feeds first, weight reached :=
            Finset.add_sum_erase _ _ (mem_reachedFrom.2 ⟨inside, .refl⟩)

/-- A value that adds up its successors' does not grow along a path. -/
theorem value_le_of_reached [CanonicallyOrderedAdd Total]
    (closed : ∀ node other, feeds node other → other ∈ nodes)
    (adds : ∀ node, ∑ other ∈ successors nodes feeds node, value other ≤ value node)
    {first last : Node} (path : ReflTransGen feeds first last) : value last ≤ value first := by
  induction path with
  | refl => exact le_rfl
  | tail _ edge inductionHypothesis =>
      apply le_trans _ inductionHypothesis
      apply le_trans _ (adds _)
      exact Finset.single_le_sum (fun _ _ => zero_le)
        (mem_successors.2 ⟨closed _ _ edge, edge⟩)

/-- And it counts twice what two paths lead to. -/
theorem add_self_le_of_reconverges [CanonicallyOrderedAdd Total]
    (closed : ∀ node other, feeds node other → other ∈ nodes)
    (adds : ∀ node, ∑ other ∈ successors nodes feeds node, value other ≤ value node)
    {first last : Node} (reconverges : Reconverges feeds first last) :
    value last + value last ≤ value first := by
  classical
  obtain ⟨fork, left, right, toFork, edgeLeft, edgeRight, different, fromLeft, fromRight⟩ := reconverges
  have both : ({left, right} : Finset Node) ⊆ successors nodes feeds fork := by
    intro node listed
    rcases Finset.mem_insert.mp listed with rfl | listed
    · exact mem_successors.mpr ⟨closed _ _ edgeLeft, edgeLeft⟩
    · rw [Finset.mem_singleton.mp listed]
      exact mem_successors.mpr ⟨closed _ _ edgeRight, edgeRight⟩
  calc value last + value last
      ≤ value left + value right := add_le_add (value_le_of_reached closed adds fromLeft)
        (value_le_of_reached closed adds fromRight)
    _ = ∑ node ∈ ({left, right} : Finset Node), value node := (Finset.sum_pair different).symm
    _ ≤ ∑ node ∈ successors nodes feeds fork, value node :=
        Finset.sum_le_sum_of_subset both
    _ ≤ value fork := adds fork
    _ ≤ value first := value_le_of_reached closed adds toFork

end Sums

end Lib
