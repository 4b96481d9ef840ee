import Mathlib
import TorchSpyre.Scheduling.LoopGroups

/-!
# The order of the regrouped nodes

Regrouping permutes the nodes, and keeps every outermost loop together.  The new order
respects the dependencies exactly when the units do not depend on each other in a
cycle.
-/

namespace TorchSpyre.Scheduling

open Lib

variable {Expr : Type} {nodes : List (SchedulerNode Expr)}

section Units

theorem mem_positions {index : ℕ} : index ∈ positions nodes ↔ index < nodes.length := by
  simp [positions]

theorem mem_unitMembers {unit : LoopUnit} {index : ℕ} :
    index ∈ unitMembers nodes unit ↔ index < nodes.length ∧ unitOfNode nodes index = unit := by
  simp [unitMembers, positions]

theorem unitMembers_ordered (unit : LoopUnit) : (unitMembers nodes unit).Pairwise (· < ·) :=
  List.pairwise_lt_range.filter _

theorem mem_units {unit : LoopUnit} :
    unit ∈ units nodes ↔ ∃ index < nodes.length, unitOfNode nodes index = unit := by
  unfold units
  rw [List.mem_eraseDups]
  simp [positions]

theorem units_nodup : (units nodes).Nodup := nodup_eraseDups _

theorem producers_lt {index producer : ℕ} (produces : producer ∈ producers nodes index) :
    producer < nodes.length := by
  obtain ⟨name, -, found⟩ := List.mem_filterMap.mp produces
  obtain ⟨node, located, -⟩ := of_lastEntry found
  exact (List.getElem?_eq_some_iff.mp located).1

theorem mem_unitDeps {unit dependency : LoopUnit} :
    dependency ∈ unitDeps nodes unit ↔ dependency ≠ unit ∧
      ∃ index ∈ unitMembers nodes unit, ∃ producer ∈ producers nodes index,
        unitOfNode nodes producer = dependency := by
  unfold unitDeps
  rw [List.mem_eraseDups, List.mem_map]
  constructor
  · rintro ⟨producer, inFilter, rfl⟩
    obtain ⟨produced, outside⟩ := List.mem_filter.mp inFilter
    obtain ⟨index, inside, produces⟩ := List.mem_flatMap.mp produced
    rw [decide_eq_true_eq, mem_unitMembers, not_and] at outside
    exact ⟨outside (producers_lt produces), index, inside, producer, produces, rfl⟩
  · rintro ⟨distinct, index, inside, producer, produces, rfl⟩
    refine ⟨producer, List.mem_filter.mpr ⟨List.mem_flatMap.mpr ⟨index, inside, produces⟩, ?_⟩, rfl⟩
    rw [decide_eq_true_eq, mem_unitMembers, not_and]
    exact fun _ => distinct

theorem unitDeps_subset (unit : LoopUnit) (_ : unit ∈ units nodes) :
    unitDeps nodes unit ⊆ units nodes := by
  intro dependency isDependency
  obtain ⟨-, index, -, producer, produces, isUnit⟩ := mem_unitDeps.1 isDependency
  exact mem_units.2 ⟨producer, producers_lt produces, isUnit⟩

end Units

section Regrouped

theorem orderedUnits_perm : (orderedUnits nodes).Perm (units nodes) :=
  DepthFirst.search_perm unitDeps_subset units_nodup

theorem orderedUnits_nodup : (orderedUnits nodes).Nodup :=
  orderedUnits_perm.nodup_iff.mpr units_nodup

theorem mem_orderedUnits {unit : LoopUnit} :
    unit ∈ orderedUnits nodes ↔ ∃ index < nodes.length, unitOfNode nodes index = unit := by
  rw [orderedUnits_perm.mem_iff, mem_units]

theorem mem_regroup {index : ℕ} :
    index ∈ regroupByOuterLoopKey nodes ↔ index < nodes.length := by
  unfold regroupByOuterLoopKey
  rw [List.mem_flatMap]
  constructor
  · rintro ⟨unit, -, inside⟩
    exact (mem_unitMembers.1 inside).1
  · intro bounded
    exact ⟨unitOfNode nodes index, mem_orderedUnits.2 ⟨index, bounded, rfl⟩,
      mem_unitMembers.2 ⟨bounded, rfl⟩⟩

theorem regroup_nodup : (regroupByOuterLoopKey nodes).Nodup := by
  unfold regroupByOuterLoopKey
  rw [List.nodup_flatMap]
  constructor
  · exact fun unit _ => (unitMembers_ordered unit).imp fun lower => ne_of_lt lower
  · refine orderedUnits_nodup.imp fun {first second} distinct => ?_
    intro index inFirst inSecond
    exact distinct ((mem_unitMembers.1 inFirst).2.symm.trans (mem_unitMembers.1 inSecond).2)

theorem regroup_perm : (regroupByOuterLoopKey nodes).Perm (positions nodes) := by
  refine (List.perm_ext_iff_of_nodup regroup_nodup List.nodup_range).mpr fun index => ?_
  rw [mem_regroup, List.mem_range]

/-- The nodes of a unit stand together, in their original order. -/
theorem regroup_split {unit : LoopUnit} (isUnit : unit ∈ orderedUnits nodes) :
    ∃ back, regroupByOuterLoopKey nodes =
      (before (orderedUnits nodes) unit).flatMap (unitMembers nodes) ++
        (unitMembers nodes unit ++ back) := by
  obtain ⟨front, rest, split, absent⟩ := List.eq_append_cons_of_mem isUnit
  refine ⟨rest.flatMap (unitMembers nodes), ?_⟩
  unfold regroupByOuterLoopKey
  rw [split, before_append absent, List.flatMap_append, List.flatMap_cons]

theorem before_regroup_of_unit_before {unit other : LoopUnit}
    (isUnit : unit ∈ orderedUnits nodes) (earlier : other ∈ before (orderedUnits nodes) unit)
    {index otherIndex : ℕ} (inside : index ∈ unitMembers nodes unit)
    (otherInside : otherIndex ∈ unitMembers nodes other) :
    otherIndex ∈ before (regroupByOuterLoopKey nodes) index := by
  obtain ⟨back, split⟩ := regroup_split isUnit
  have nodup := @regroup_nodup _ nodes
  rw [split] at nodup ⊢
  exact mem_before_of_append nodup (List.mem_flatMap.mpr ⟨other, earlier, otherInside⟩)
    (List.mem_append_left _ inside)

theorem before_regroup_of_lt {unit : LoopUnit} (isUnit : unit ∈ orderedUnits nodes)
    {index earlier : ℕ} (inside : index ∈ unitMembers nodes unit)
    (earlierInside : earlier ∈ unitMembers nodes unit) (lower : earlier < index) :
    earlier ∈ before (regroupByOuterLoopKey nodes) index := by
  obtain ⟨back, split⟩ := regroup_split isUnit
  have nodup := @regroup_nodup _ nodes
  have ordered := @unitMembers_ordered _ nodes unit
  obtain ⟨front, rest, isSplit⟩ := List.append_of_mem inside
  rw [isSplit, List.append_assoc, ← List.append_assoc] at split
  rw [split] at nodup ⊢
  rw [isSplit, List.pairwise_append, List.pairwise_cons] at ordered
  have inFront : earlier ∈ front := by
    rw [isSplit] at earlierInside
    rcases List.mem_append.mp earlierInside with inFront | inRest
    · exact inFront
    · rcases List.mem_cons.mp inRest with rfl | later
      · exact absurd lower (lt_irrefl _)
      · exact absurd (lt_trans lower (ordered.2.1.1 earlier later)) (lt_irrefl _)
  exact mem_before_of_append nodup (List.mem_append_right _ inFront) List.mem_cons_self

/-- Every node stands after the producers of what it waits for. -/
def TopologicallyOrdered (nodes : List (SchedulerNode Expr)) (order : List ℕ) : Prop :=
  DepthFirst.Ordered (producers nodes) order

theorem TopologicallyOrdered.producer_lt (topological : TopologicallyOrdered nodes (positions nodes))
    {index producer : ℕ} (bounded : index < nodes.length)
    (produces : producer ∈ producers nodes index) : producer < index := by
  have earlier := topological index (mem_positions.2 bounded) producer produces
  have ordered : (positions nodes).Pairwise (· < ·) := List.pairwise_lt_range
  obtain ⟨front, rest, split, absent⟩ :=
    List.eq_append_cons_of_mem (mem_positions.2 bounded)
  rw [split, before_append absent] at earlier
  rw [split, List.pairwise_append] at ordered
  exact ordered.2.2 producer earlier index List.mem_cons_self

/-- The regrouped order respects the dependencies exactly when the units do not depend
on each other in a cycle. -/
theorem regroup_topological_iff (topological : TopologicallyOrdered nodes (positions nodes)) :
    TopologicallyOrdered nodes (regroupByOuterLoopKey nodes) ↔
      DepthFirst.Acyclic (unitDeps nodes) (units nodes) := by
  rw [← DepthFirst.search_ordered_iff unitDeps_subset]
  constructor
  · intro ordered unit isUnit dependency isDependency
    obtain ⟨distinct, index, inside, producer, produces, rfl⟩ := mem_unitDeps.1 isDependency
    have producerInside : producer ∈ unitMembers nodes (unitOfNode nodes producer) :=
      mem_unitMembers.2 ⟨producers_lt produces, rfl⟩
    have isProducerUnit : unitOfNode nodes producer ∈ orderedUnits nodes :=
      mem_orderedUnits.2 ⟨producer, producers_lt produces, rfl⟩
    rcases mem_before_or_mem_before isProducerUnit isUnit distinct with earlier | later
    · exact earlier
    · -- A unit after the one that waits for it would have its producer after the node.
      have after := before_regroup_of_unit_before isProducerUnit later producerInside inside
      have early := ordered index (mem_regroup.2 (mem_unitMembers.mp inside).1) producer produces
      exact absurd (lt_trans (length_before_lt after) (length_before_lt early)) (lt_irrefl _)
  · intro ordered index inside producer produces
    have bounded := mem_regroup.1 inside
    have isUnit : unitOfNode nodes index ∈ orderedUnits nodes :=
      mem_orderedUnits.2 ⟨index, bounded, rfl⟩
    have indexInside : index ∈ unitMembers nodes (unitOfNode nodes index) :=
      mem_unitMembers.mpr ⟨bounded, rfl⟩
    by_cases same : unitOfNode nodes producer = unitOfNode nodes index
    · exact before_regroup_of_lt isUnit indexInside
        (mem_unitMembers.mpr ⟨producers_lt produces, same⟩)
        (topological.producer_lt bounded produces)
    · exact before_regroup_of_unit_before isUnit
        (ordered _ isUnit _ (mem_unitDeps.2 ⟨same, index, indexInside, producer, produces, rfl⟩))
        indexInside (mem_unitMembers.mpr ⟨producers_lt produces, rfl⟩)

end Regrouped

end TorchSpyre.Scheduling
