import Mathlib
import TorchSpyre.Restickify.Exactness

/-!
# An operation's cost, input by input

What the inputs of an operation contribute alone adds up to no more than what it costs.
-/

namespace TorchSpyre.Restickify

variable {Layout : Type}

namespace RestickNodeCost

/-- The names whose edges carry a cost; co-output edges carry none. -/
def inputDeps : RestickNodeCost Layout → List String
  | .allSameNode inputs _ => inputs.map EdgeCostMap.dep
  | .fixedInOutNode edges _ => edges.map fun edge => edge.1.dep
  | .anyInNode => []

/-- The layouts chosen for the dependencies are among those their edges list. -/
def Covers (costFn : RestickNodeCost Layout) (chosen : String → Option Layout) : Prop :=
  ∀ edge ∈ costFn.edgeCosts, ∀ stl, chosen edge.dep = some stl → stl ∈ edge.inLayouts

end RestickNodeCost

open RestickNodeCost

theorem le_sum_of_mem {costs : List Cost} {cost : Cost} (inside : cost ∈ costs) : cost ≤ costs.sum := by
  induction costs with
  | nil => cases inside
  | cons first rest inductionHypothesis =>
      rw [List.sum_cons]
      rcases List.mem_cons.mp inside with rfl | later
      · exact le_add_of_nonneg_right zero_le
      · exact le_trans (inductionHypothesis later) (le_add_of_nonneg_left zero_le)

theorem ne_top_of_sum {costs : List Cost} (finite : costs.sum ≠ ⊤) {cost : Cost}
    (inside : cost ∈ costs) : cost ≠ ⊤ := by
  intro infinite
  apply finite
  apply top_le_iff.mp
  rw [← infinite]
  exact le_sum_of_mem inside

/-- Grouped by a key, the costs of a list do not grow. -/
theorem sum_grouped_le {Edge : Type} (key : Edge → String) (cost : Edge → Cost) (names : Finset String)
    (edges : List Edge) :
    ∑ name ∈ names, ((edges.filter fun edge => key edge = name).map cost).sum ≤
      (edges.map cost).sum := by
  induction edges with
  | nil => simp
  | cons edge edges inductionHypothesis =>
      have apart : ∀ name, (((edge :: edges).filter fun edge => key edge = name).map cost).sum =
          (if key edge = name then cost edge else 0) +
            ((edges.filter fun edge => key edge = name).map cost).sum := by
        intro name
        rw [List.filter_cons]
        by_cases same : key edge = name <;> simp [same]
      rw [List.map_cons, List.sum_cons]
      simp only [apart]
      rw [Finset.sum_add_distrib, Finset.sum_ite_eq]
      apply add_le_add _ inductionHypothesis
      split
      next => exact le_rfl
      next => exact zero_le

section Shares

variable {costFn : RestickNodeCost Layout} {chosen : String → Option Layout} {outStl : Layout}

/-- An edge of finite cost has a layout chosen for its producer, which reaches the target. -/
theorem reachable_of_edgeCost {edge : EdgeCostMap Layout} {target : Layout}
    (covers : ∀ stl, chosen edge.dep = some stl → stl ∈ edge.inLayouts)
    (finite : edgeCost chosen edge target ≠ ⊤) : reachable edge target = true := by
  unfold edgeCost at finite
  cases isChosen : chosen edge.dep with
  | none =>
      rw [isChosen] at finite
      exact absurd rfl finite
  | some stl =>
      rw [isChosen, Option.elim_some] at finite
      apply List.any_eq_true.mpr
      exact ⟨stl, covers stl isChosen, decide_eq_true (lt_top_iff_ne_top.mpr finite)⟩

theorem edgeCost_eq {edge : EdgeCostMap Layout} {target inStl : Layout}
    (isChosen : chosen edge.dep = some inStl) :
    edgeCost chosen edge target = edge.cost inStl target := by
  rw [edgeCost, isChosen, Option.elim_some]

/-- What a node of finite cost charges for the edges of one dependency bounds what that
dependency contributes alone. -/
theorem minInputCost_le_allSame {inputs outputs : List (EdgeCostMap Layout)}
    (covers : (allSameNode inputs outputs).Covers chosen)
    (finite : (inputs.map fun edge => edgeCost chosen edge outStl).sum ≠ ⊤)
    {name : String} {inStl : Layout} (isChosen : chosen name = some inStl) :
    (allSameNode inputs outputs).minInputCost name inStl outStl ≤
      ((inputs.filter fun edge => edge.dep = name).map fun edge =>
        edgeCost chosen edge outStl).sum := by
  simp only [minInputCost]
  cases found : inputs.find? fun edge => edge.dep = name with
  | none => exact zero_le
  | some edge =>
      have isEdge := List.mem_of_find?_eq_some found
      have named : edge.dep = name := by simpa using List.find?_some found
      have charged : edgeCost chosen edge outStl = edge.cost inStl outStl :=
        edgeCost_eq (named.symm ▸ isChosen)
      have others : (inputs.filter fun other => other.dep ≠ name).all (reachable · outStl) = true := by
        apply List.all_eq_true.mpr
        intro other isOther
        have inInputs := (List.mem_filter.mp isOther).1
        apply reachable_of_edgeCost (covers other (List.mem_append_left _ inInputs))
        exact ne_top_of_sum finite (List.mem_map_of_mem inInputs)
      have edgeFinite : edge.cost inStl outStl ≠ ⊤ := by
        rw [← charged]
        exact ne_top_of_sum finite (List.mem_map_of_mem isEdge)
      dsimp only
      rw [if_pos ⟨edgeFinite, others⟩, ← charged]
      apply le_sum_of_mem
      exact List.mem_map_of_mem (List.mem_filter.mpr ⟨isEdge, decide_eq_true named⟩)

theorem minInputCost_le_fixedInOut {edges : List (EdgeCostMap Layout × Layout)}
    {outStickCompatible : Layout → Bool} (compatible : outStickCompatible outStl = true)
    (covers : (fixedInOutNode edges outStickCompatible).Covers chosen)
    (finite : (edges.map fun edge => edgeCost chosen edge.1 edge.2).sum ≠ ⊤)
    {name : String} {inStl : Layout} (isChosen : chosen name = some inStl)
    (reads : name ∈ edges.map fun edge => edge.1.dep) :
    (fixedInOutNode edges outStickCompatible).minInputCost name inStl outStl ≤
      ((edges.filter fun edge => edge.1.dep = name).map fun edge =>
        edgeCost chosen edge.1 edge.2).sum := by
  have charged : (edges.filter fun edge => edge.1.dep = name).map (fun edge =>
        edgeCost chosen edge.1 edge.2) =
      (edges.filter fun edge => edge.1.dep = name).map fun edge => edge.1.cost inStl edge.2 := by
    apply List.map_congr_left
    intro edge isEdge
    have named : edge.1.dep = name := of_decide_eq_true (List.mem_filter.mp isEdge).2
    exact edgeCost_eq (named.symm ▸ isChosen)
  have several : ((edges.filter fun edge => edge.1.dep = name).map fun edge =>
      edge.1.cost inStl edge.2) ≠ [] := by
    obtain ⟨edge, isEdge, named⟩ := List.mem_map.mp reads
    exact List.ne_nil_of_mem (List.mem_map_of_mem
      (List.mem_filter.mpr ⟨isEdge, decide_eq_true named⟩))
  have eachFinite : ⊤ ∉ (edges.filter fun edge => edge.1.dep = name).map fun edge =>
      edge.1.cost inStl edge.2 := by
    rw [← charged]
    intro infinite
    obtain ⟨edge, isEdge, isTop⟩ := List.mem_map.mp infinite
    exact ne_top_of_sum finite (List.mem_map_of_mem (List.mem_filter.mp isEdge).1) isTop
  have others : ((edges.filter fun edge => edge.1.dep ≠ name).all fun edge =>
      reachable edge.1 edge.2) = true := by
    apply List.all_eq_true.mpr
    intro other isOther
    have inEdges := (List.mem_filter.mp isOther).1
    apply reachable_of_edgeCost (covers other.1 (List.mem_map_of_mem inEdges))
    exact ne_top_of_sum finite (List.mem_map_of_mem inEdges)
  simp only [minInputCost]
  rw [if_pos ⟨compatible, several, eachFinite, others⟩, charged]

/-- The contributions of some dependencies, each alone, add up to no more than the cost. -/
theorem sum_minInputCost_le [DecidableEq Layout] (covers : costFn.Covers chosen) {names : Finset String}
    (reads : ∀ name ∈ names, name ∈ costFn.deps) {layouts : String → Layout}
    (areChosen : ∀ name ∈ names, chosen name = some (layouts name)) :
    ∑ name ∈ names, costFn.minInputCost name (layouts name) outStl ≤ costFn.cost chosen outStl := by
  by_cases infinite : costFn.cost chosen outStl = ⊤
  · rw [infinite]
    exact le_top
  cases costFn with
  | allSameNode inputs outputs =>
      have finite : (inputs.map fun edge => edgeCost chosen edge outStl).sum ≠ ⊤ := by
        intro isTop
        apply infinite
        simp only [RestickNodeCost.cost, isTop, if_true]
      have total : (allSameNode inputs outputs).cost chosen outStl =
          (inputs.map fun edge => edgeCost chosen edge outStl).sum := by
        simp only [RestickNodeCost.cost, if_neg finite] at infinite ⊢
        split
        next => rfl
        next disagrees =>
          rw [if_neg disagrees] at infinite
          exact absurd rfl infinite
      rw [total]
      apply le_trans _ (sum_grouped_le EdgeCostMap.dep (fun edge => edgeCost chosen edge outStl)
        names inputs)
      apply Finset.sum_le_sum
      intro name isName
      exact minInputCost_le_allSame covers finite (areChosen name isName)
  | fixedInOutNode edges outStickCompatible =>
      have compatible : outStickCompatible outStl = true := by
        by_contra incompatible
        apply infinite
        simp only [RestickNodeCost.cost, if_neg incompatible]
      have total : (fixedInOutNode edges outStickCompatible).cost chosen outStl =
          (edges.map fun edge => edgeCost chosen edge.1 edge.2).sum := by
        simp only [RestickNodeCost.cost, if_pos compatible]
      rw [total] at infinite ⊢
      apply le_trans _ (sum_grouped_le (fun edge => edge.1.dep)
        (fun edge => edgeCost chosen edge.1 edge.2) names edges)
      apply Finset.sum_le_sum
      intro name isName
      have isDep := reads name isName
      simp only [deps, edgeCosts, List.map_map] at isDep
      exact minInputCost_le_fixedInOut compatible covers infinite (areChosen name isName) isDep
  | anyInNode =>
      apply le_of_eq
      exact Finset.sum_eq_zero fun name isName => rfl

/-- Without an input edge a dependency contributes nothing. -/
theorem minInputCost_eq_zero {name : String} {inStl : Layout} (reads : name ∈ costFn.deps)
    (unpaid : name ∉ costFn.inputDeps) : costFn.minInputCost name inStl outStl = 0 := by
  cases costFn with
  | allSameNode inputs outputs =>
      have missing : (inputs.find? fun edge => edge.dep = name) = none := by
        apply List.find?_eq_none.mpr
        intro edge isEdge named
        exact unpaid (List.mem_map.mpr ⟨edge, isEdge, of_decide_eq_true named⟩)
      simp only [minInputCost, missing]
  | fixedInOutNode edges outStickCompatible =>
      simp only [deps, edgeCosts, List.map_map] at reads
      exact absurd reads unpaid
  | anyInNode => rfl

end Shares

end TorchSpyre.Restickify
