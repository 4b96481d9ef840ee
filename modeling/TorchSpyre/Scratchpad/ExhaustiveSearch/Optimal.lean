import TorchSpyre.Scratchpad.ExhaustiveSearch.Inner

/-!
# The exhaustive search is optimal

The incumbent of the search is a leaf of least score, the score of a leaf is what its plan
leaves outside the scratchpad, and the final run repeats that leaf.
-/

namespace TorchSpyre.Scratchpad.ExhaustiveSearch

open Lib

namespace ExhaustiveSearchSolver

variable (solver : ExhaustiveSearchSolver) (inner : InnerSolver)

def UniqueNames : Prop := (solver.buffers.map fun buffer => buffer.name).Nodup

instance : Decidable solver.UniqueNames := inferInstanceAs (Decidable (List.Nodup _))

/-- An element of the cross product of the candidate divisions. -/
def IsChoice (chosen : Chosen) : Prop :=
  ∀ buffer ∈ solver.buffers, chosen buffer.name < buffer.coreDivisions.length

/-- What the inner solver makes of one choice of divisions. -/
def leafPlan (chosen : Chosen) : Except String (List CoreDivisionBuffer) := do
  let allocation ← solver.runInner inner chosen
  .ok (solver.buffers.map (commit chosen allocation))

/-- Total bytes of the buffers left outside the scratchpad. -/
def unplacedBytes (placed : List CoreDivisionBuffer) : ℕ :=
  ((placed.filter fun buffer => buffer.address.isNone).map fun buffer => buffer.size).sum

variable {solver inner}

/-! ## A leaf depends on the divisions of the buffers alone -/

section Agreement

variable {chosen other : Chosen}
  (agree : ∀ buffer ∈ solver.buffers, chosen buffer.name = other buffer.name)

include agree

theorem residencyReason_congr (buffer : CoreDivisionBuffer) (ci : ℕ) :
    solver.residencyReason chosen buffer ci = solver.residencyReason other buffer ci := by
  have children : ∀ entry ∈ solver.childrenByParent buffer.name,
      chosen entry.1.name = other entry.1.name := by
    intro entry inside
    obtain ⟨child, isChild, listed⟩ := List.mem_flatMap.mp inside
    obtain ⟨name, -, rfl⟩ := List.mem_map.mp listed
    exact agree child isChild
  unfold residencyReason
  cases buffer.residencyReason with
  | some reason => rfl
  | none =>
      have same : ((solver.childrenByParent buffer.name).any fun entry =>
            !entry.2.any fun pair => pair.1 = ci ∧ pair.2 = chosen entry.1.name) =
          ((solver.childrenByParent buffer.name).any fun entry =>
            !entry.2.any fun pair => pair.1 = ci ∧ pair.2 = other entry.1.name) := by
        rw [Bool.eq_iff_iff, List.any_eq_true, List.any_eq_true]
        apply exists_congr
        intro entry
        apply and_congr_right
        intro inside
        rw [children entry inside]
      simp only [same]

theorem validInplaceParents_congr (buffer : CoreDivisionBuffer) (ci : ℕ) :
    solver.validInplaceParents chosen buffer ci = solver.validInplaceParents other buffer ci := by
  have parents : ∀ perCore parentName, solver.validInplaceParent chosen perCore parentName =
      solver.validInplaceParent other perCore parentName := by
    intro perCore parentName
    unfold validInplaceParent
    cases found : solver.bufByName parentName with
    | none => rfl
    | some parent =>
        have named : parent.name = parentName := by simpa using List.find?_some found
        have inside : parent ∈ solver.buffers :=
          List.mem_reverse.mp (List.mem_of_find?_eq_some found)
        rw [← named, agree parent inside]
  unfold validInplaceParents
  simp only [parents]

theorem makeTempBufs_congr : solver.makeTempBufs chosen = solver.makeTempBufs other := by
  apply mapM_congr
  intro buffer inside
  unfold tempBuf
  rw [agree buffer inside, validInplaceParents_congr agree, residencyReason_congr agree]

theorem runInner_congr : solver.runInner inner chosen = solver.runInner inner other := by
  unfold runInner
  rw [makeTempBufs_congr agree]

theorem leafPlan_congr : solver.leafPlan inner chosen = solver.leafPlan inner other := by
  have committed : ∀ allocation, solver.buffers.map (commit chosen allocation) =
      solver.buffers.map (commit other allocation) := by
    intro allocation
    apply List.map_congr_left
    intro buffer inside
    unfold commit
    rw [agree buffer inside]
  unfold leafPlan
  rw [runInner_congr agree]
  simp only [committed]

end Agreement

/-! ## The score of a leaf -/

section Score

variable {chosen : Chosen}

theorem leafPlan_eq_ok_iff {placed : List CoreDivisionBuffer} :
    solver.leafPlan inner chosen = .ok placed ↔
      ∃ allocation, solver.runInner inner chosen = .ok allocation ∧
        placed = solver.buffers.map (commit chosen allocation) := by
  rw [leafPlan, bind_eq_ok_iff]
  simp only [Except.ok.injEq, eq_comm]

theorem tempBuf_fields {buffer : CoreDivisionBuffer} {temp : LifetimeBoundBuffer}
    (built : solver.tempBuf chosen buffer = .ok temp) :
    temp.name = buffer.name ∧ buffer.perCoreSize (chosen buffer.name) = .ok temp.size ∧
      temp.residencyReason = solver.residencyReason chosen buffer (chosen buffer.name) := by
  rw [tempBuf, bind_eq_ok_iff] at built
  obtain ⟨size, sized, built⟩ := built
  rw [bind_eq_ok_iff] at built
  obtain ⟨parents, -, built⟩ := built
  cases built
  exact ⟨rfl, sized, rfl⟩

theorem names_makeTempBufs {temps : List LifetimeBoundBuffer}
    (built : solver.makeTempBufs chosen = .ok temps) :
    temps.map LifetimeBoundBuffer.name = solver.buffers.map fun buffer => buffer.name := by
  rw [← List.forall₂_eq_eq_eq, List.forall₂_map_left_iff, List.forall₂_map_right_iff]
  exact (forall₂_of_mapM built).flip.imp fun _ _ here => (tempBuf_fields here).1

/-- The inner solver ran on the temporary buffers of the choice. -/
theorem runInner_ok {allocation : List Allocation}
    (ran : solver.runInner inner chosen = .ok allocation) :
    ∃ temps, solver.makeTempBufs chosen = .ok temps ∧
      inner temps solver.limit defaultAlignment = .ok allocation := by
  rw [runInner, bind_eq_ok_iff] at ran
  exact ran

variable (unique : solver.UniqueNames) (contract : PlansItsBuffers inner)

include unique contract

theorem allocation_names_nodup {allocation : List Allocation}
    (ran : solver.runInner inner chosen = .ok allocation) :
    (allocation.map Allocation.name).Nodup := by
  obtain ⟨temps, built, planned⟩ := runInner_ok ran
  rw [(contract.sameNames _ _ _ _ planned).nodup_iff, names_makeTempBufs built]
  exact unique

theorem isSome_committed_iff {allocation : List Allocation}
    (ran : solver.runInner inner chosen = .ok allocation) (buffer : CoreDivisionBuffer) :
    (commit chosen allocation buffer).address.isSome ↔
      ∃ a ∈ allocation, a.address.isSome ∧ a.name = buffer.name := by
  have distinct := allocation_names_nodup unique contract ran
  show ((allocation.reverse.find? fun a => a.name = buffer.name).bind Allocation.address).isSome ↔ _
  cases found : allocation.reverse.find? fun a => a.name = buffer.name with
  | none =>
      constructor
      · intro absent
        cases absent
      rintro ⟨a, inside, -, named⟩
      have missing := List.find?_eq_none.mp found a (List.mem_reverse.mpr inside)
      simp [named] at missing
  | some a =>
      have inside := List.mem_reverse.mp (List.mem_of_find?_eq_some found)
      have named : a.name = buffer.name := by simpa using List.find?_some found
      rw [Option.bind_some]
      constructor
      · intro placed
        exact ⟨a, inside, placed, named⟩
      · rintro ⟨other, otherIn, placed, otherNamed⟩
        rw [List.inj_on_of_nodup_map distinct inside otherIn (named.trans otherNamed.symm)]
        exact placed

theorem scoreLeaf_eq {allocation : List Allocation}
    (ran : solver.runInner inner chosen = .ok allocation) :
    solver.scoreLeaf inner chosen =
      .ok (unplacedBytes (solver.buffers.map (commit chosen allocation))) := by
  have entries : solver.bufTotalBytes.entries =
      solver.buffers.map fun buffer => (buffer.name, buffer.size) := by
    rw [bufTotalBytes, Dict.entries_update_of_new]
    · rfl
    · rw [List.map_map]
      exact unique
  rw [scoreLeaf, ran]
  show Except.ok _ = Except.ok _
  rw [entries, unplacedBytes, List.filter_map, List.map_map, List.filter_map, List.map_map]
  congr 2
  rw [List.map_congr_left (fun buffer _ => rfl :
    ∀ buffer ∈ _, (Prod.snd ∘ fun buffer : CoreDivisionBuffer => (buffer.name, buffer.size)) buffer =
      ((fun buffer : CoreDivisionBuffer => buffer.size) ∘ commit chosen allocation) buffer)]
  congr 1
  apply List.filter_congr
  intro buffer _
  rw [Function.comp_apply, Function.comp_apply, ← Option.not_isSome, Bool.eq_iff_iff,
    decide_eq_true_iff, Bool.not_eq_true', ← Bool.not_eq_true,
    isSome_committed_iff unique contract ran, not_iff_not, List.mem_map]
  simp only [List.mem_filter, and_assoc]

end Score

/-! ## The leaves are the choices -/

section Leaves

variable (solver) in
def leaves : List Chosen :=
  assignments (fun buffer : CoreDivisionBuffer => buffer.name)
    (fun buffer => List.range buffer.coreDivisions.length) solver.variableBuffers fun _ => 0

theorem leaves_ne_nil : solver.leaves ≠ [] := by
  apply assignments_ne_nil
  intro buffer inside
  have several : 1 < buffer.coreDivisions.length :=
    of_decide_eq_true (List.mem_filter.mp inside).2
  exact List.ne_nil_of_mem (List.mem_range.mpr (Nat.zero_lt_of_lt several))

variable (unique : solver.UniqueNames)
  (candidates : ∀ buffer ∈ solver.buffers, buffer.coreDivisions ≠ [])

include unique

theorem mem_leaves {chosen : Chosen} : chosen ∈ solver.leaves ↔
    (∀ buffer ∈ solver.variableBuffers, chosen buffer.name < buffer.coreDivisions.length) ∧
      ∀ name, name ∉ solver.variableBuffers.map (fun buffer => buffer.name) → chosen name = 0 := by
  unfold leaves
  rw [mem_assignments]
  · simp only [List.mem_range]
  · exact List.Nodup.sublist (List.Sublist.map _ List.filter_sublist) unique

include candidates

theorem isChoice_of_mem_leaves {chosen : Chosen} (isLeaf : chosen ∈ solver.leaves) :
    solver.IsChoice chosen := by
  obtain ⟨inRange, zero⟩ := (mem_leaves unique).mp isLeaf
  intro buffer inside
  by_cases several : 1 < buffer.coreDivisions.length
  · exact inRange buffer (List.mem_filter.mpr ⟨inside, decide_eq_true several⟩)
  · rw [zero buffer.name]
    · exact List.length_pos_of_ne_nil (candidates buffer inside)
    · intro listed
      obtain ⟨other, isVariable, sameName⟩ := List.mem_map.mp listed
      obtain ⟨otherIn, otherSeveral⟩ := List.mem_filter.mp isVariable
      rw [List.inj_on_of_nodup_map unique otherIn inside sameName] at otherSeveral
      exact several (of_decide_eq_true otherSeveral)

omit candidates in
/-- Every choice agrees with a leaf on the buffers. -/
theorem exists_leaf {chosen : Chosen} (isChoice : solver.IsChoice chosen) :
    ∃ leaf ∈ solver.leaves, ∀ buffer ∈ solver.buffers, chosen buffer.name = leaf buffer.name := by
  refine ⟨fun name => if name ∈ solver.variableBuffers.map (fun buffer => buffer.name) then
    chosen name else 0, ?_, ?_⟩
  · apply (mem_leaves unique).mpr
    refine ⟨?_, fun name unlisted => if_neg unlisted⟩
    intro buffer isVariable
    rw [if_pos (List.mem_map_of_mem isVariable)]
    exact isChoice buffer (List.mem_filter.mp isVariable).1
  · intro buffer inside
    dsimp only
    split
    next => rfl
    next unlisted =>
      have single : ¬1 < buffer.coreDivisions.length := fun several =>
        unlisted (List.mem_map_of_mem (List.mem_filter.mpr ⟨inside, decide_eq_true several⟩))
      have bounded := isChoice buffer inside
      omega

end Leaves

/-! ## The search and the final run -/

section Plan

/-- A resident producer's division matches the one of each consumer it has. -/
def MatchesConsumers (placed : List CoreDivisionBuffer) : Prop :=
  ∀ producer ∈ placed, producer.address.isSome → ∀ consumer ∈ placed,
    producer.name ∈ consumer.parents → ∃ producerDivision consumerDivision,
      producer.chosenDivision = some producerDivision ∧
      consumer.chosenDivision = some consumerDivision ∧
      (producerDivision, consumerDivision) ∈
        (consumer.cdParentMatches.lookup producer.name).getD []

theorem matches_of_unbarred {chosen : Chosen} {producer consumer : CoreDivisionBuffer} {ci : ℕ}
    (unbarred : solver.residencyReason chosen producer ci = none)
    (isConsumer : consumer ∈ solver.buffers) (listed : producer.name ∈ consumer.parents) :
    (ci, chosen consumer.name) ∈ (consumer.cdParentMatches.lookup producer.name).getD [] := by
  unfold residencyReason at unbarred
  cases declared : producer.residencyReason with
  | some reason =>
      rw [declared] at unbarred
      cases unbarred
  | none =>
      rw [declared] at unbarred
      have all := (ite_eq_right_iff.mp unbarred).mt (Option.some_ne_none _)
      rw [Bool.not_eq_true, List.any_eq_false] at all
      have isChild : (consumer, (consumer.cdParentMatches.lookup producer.name).getD []) ∈
          solver.childrenByParent producer.name := by
        apply List.mem_flatMap.mpr
        refine ⟨consumer, isConsumer, List.mem_map.mpr ⟨producer.name, ?_, rfl⟩⟩
        exact List.mem_filter.mpr ⟨listed, decide_eq_true rfl⟩
      have matching := all _ isChild
      rw [Bool.not_eq_true, Bool.not_eq_false', List.any_eq_true] at matching
      obtain ⟨⟨producerDivision, consumerDivision⟩, isPair, same⟩ := matching
      obtain ⟨rfl, rfl⟩ := of_decide_eq_true same
      exact isPair

theorem matchesConsumers_leafPlan (unique : solver.UniqueNames) (contract : PlansItsBuffers inner)
    {chosen : Chosen} {placed : List CoreDivisionBuffer}
    (planned : solver.leafPlan inner chosen = .ok placed) : MatchesConsumers placed := by
  obtain ⟨allocation, ran, rfl⟩ := leafPlan_eq_ok_iff.mp planned
  intro committed isCommitted resident other isOther listed
  obtain ⟨producer, isProducer, rfl⟩ := List.mem_map.mp isCommitted
  obtain ⟨consumer, isConsumer, rfl⟩ := List.mem_map.mp isOther
  refine ⟨chosen producer.name, chosen consumer.name, rfl, rfl, ?_⟩
  obtain ⟨a, isAllocated, placedHere, named⟩ :=
    (isSome_committed_iff unique contract ran producer).mp resident
  obtain ⟨temps, built, handed⟩ := runInner_ok ran
  obtain ⟨temp, isTemp, tempBuilt⟩ := exists_right_of_forall₂ (forall₂_of_mapM built) isProducer
  obtain ⟨tempNamed, -, reason⟩ := tempBuf_fields tempBuilt
  have unbarred : solver.residencyReason chosen producer (chosen producer.name) = none := by
    have uniqueTemps : Scratchpad.UniqueNames temps := by
      rw [Scratchpad.UniqueNames, names_makeTempBufs built]
      exact unique
    rw [← reason]
    exact contract.barred temps uniqueTemps _ _ (by decide) _ handed a isAllocated placedHere temp
      isTemp (tempNamed.trans named.symm)
  have matching := matches_of_unbarred unbarred isConsumer listed
  exact matching

variable (unique : solver.UniqueNames)
  (untiled : ∀ buffer ∈ solver.buffers, ∀ cd ∈ buffer.coreDivisions, cd.tiling.isUntiled = true)

include untiled

/-- On untiled candidates the solver commits the incumbent the leaves leave. -/
theorem planLayoutAndCoreDivisions_eq :
    solver.planLayoutAndCoreDivisions inner =
      solver.leaves.foldlM (keepLeast (solver.scoreLeaf inner)) ⟨none, fun _ => 0⟩ >>=
        fun best => solver.leafPlan inner best.chosen := by
  have clean : ¬(solver.buffers.any fun buffer =>
      buffer.coreDivisions.any fun cd => !cd.tiling.isUntiled) = true := by
    intro tiled
    obtain ⟨buffer, inside, tiled⟩ := List.any_eq_true.mp tiled
    obtain ⟨cd, isCandidate, tiled⟩ := List.any_eq_true.mp tiled
    rw [untiled buffer inside cd isCandidate] at tiled
    cases tiled
  rw [planLayoutAndCoreDivisions, if_neg clean, recurse, backtrack_eq]
  show _ = solver.leaves.foldlM _ _ >>= _
  unfold leaves startingSearch
  cases List.foldlM (keepLeast (solver.scoreLeaf inner)) ⟨none, fun _ => 0⟩
      (assignments (fun buffer : CoreDivisionBuffer => buffer.name)
        (fun buffer => List.range buffer.coreDivisions.length) solver.variableBuffers fun _ => 0) with
  | error message => rfl
  | ok best => rfl

include unique

/-- The plan is the one of a choice that leaves the fewest bytes outside, and its resident
producers match their consumers; it exists if the inner solver plans every choice. -/
theorem planLayoutAndCoreDivisions_optimal
    (candidates : ∀ buffer ∈ solver.buffers, buffer.coreDivisions ≠ [])
    (contract : PlansItsBuffers inner) :
    ((∀ chosen, solver.IsChoice chosen → ∃ plan, solver.leafPlan inner chosen = .ok plan) →
      ∃ placed, solver.planLayoutAndCoreDivisions inner = .ok placed) ∧
    ∀ placed, solver.planLayoutAndCoreDivisions inner = .ok placed →
      (∃ chosen, solver.IsChoice chosen ∧ solver.leafPlan inner chosen = .ok placed ∧
        ∀ other, solver.IsChoice other → ∃ plan, solver.leafPlan inner other = .ok plan ∧
          unplacedBytes placed ≤ unplacedBytes plan) ∧
      MatchesConsumers placed := by
  rw [planLayoutAndCoreDivisions_eq untiled]
  have scored : ∀ chosen total, solver.scoreLeaf inner chosen = .ok total →
      ∃ plan, solver.leafPlan inner chosen = .ok plan ∧ unplacedBytes plan = total := by
    intro chosen total score
    cases ran : solver.runInner inner chosen with
    | error message =>
        rw [scoreLeaf, ran] at score
        cases score
    | ok allocation =>
        rw [scoreLeaf_eq unique contract ran] at score
        exact ⟨_, leafPlan_eq_ok_iff.mpr ⟨allocation, ran, rfl⟩, Except.ok.inj score⟩
  constructor
  · intro plans
    have scores : ∀ leaf ∈ solver.leaves, ∃ total, solver.scoreLeaf inner leaf = .ok total := by
      intro leaf isLeaf
      obtain ⟨plan, planned⟩ := plans leaf (isChoice_of_mem_leaves unique candidates isLeaf)
      obtain ⟨allocation, ran, -⟩ := leafPlan_eq_ok_iff.mp planned
      exact ⟨_, scoreLeaf_eq unique contract ran⟩
    obtain ⟨best, kept⟩ := exists_foldlM_keepLeast ⟨none, fun _ => 0⟩ scores
    obtain ⟨leaf, isLeaf⟩ := List.exists_mem_of_ne_nil _ (@leaves_ne_nil solver)
    obtain ⟨_, least, _, isLeast, -⟩ := (least_foldlM kept).least leaf isLeaf
    rcases (least_foldlM kept).origin with rfl | ⟨inLeaves, -⟩
    · cases isLeast
    · obtain ⟨plan, planned⟩ := plans best.chosen
        (isChoice_of_mem_leaves unique candidates inLeaves)
      exact ⟨plan, bind_eq_ok_iff.mpr ⟨best, kept, planned⟩⟩
  · intro placed planned
    obtain ⟨best, kept, final⟩ := bind_eq_ok_iff.mp planned
    have least := least_foldlM kept
    obtain ⟨leaf, isLeaf⟩ := List.exists_mem_of_ne_nil _ (@leaves_ne_nil solver)
    rcases least.origin with rfl | ⟨inLeaves, bestTotal, isBest, bestIs⟩
    · obtain ⟨_, _, _, isLeast, -⟩ := least.least leaf isLeaf
      cases isLeast
    refine ⟨⟨best.chosen, isChoice_of_mem_leaves unique candidates inLeaves, final, ?_⟩,
      matchesConsumers_leafPlan unique contract final⟩
    intro other isChoice
    obtain ⟨same, isSame, agree⟩ := exists_leaf unique isChoice
    obtain ⟨total, bound, score, isBound, below⟩ := least.least same isSame
    obtain ⟨plan, planIs, bytes⟩ := scored same total score
    obtain ⟨bestPlan, bestPlanIs, bestBytes⟩ := scored best.chosen bestTotal isBest
    have samePlan : bestPlan = placed := Except.ok.inj (bestPlanIs.symm.trans final)
    have sameBound : bestTotal = bound := Option.some.inj (bestIs.symm.trans isBound)
    refine ⟨plan, ?_, ?_⟩
    · rw [leafPlan_congr agree]
      exact planIs
    · calc unplacedBytes placed = bestTotal := by rw [← samePlan, bestBytes]
        _ ≤ total := sameBound ▸ below
        _ = unplacedBytes plan := bytes.symm

end Plan

/-! ## A producer that fits when it is halved -/

def halvedOn (symbol : String) : CoreDivision where
  splits := Dict.empty.set symbol 2

def whole : CoreDivision where
  splits := .empty

/-- The producer fits in halves, and its consumer, barred itself, reads halves only. -/
def halvedPair : ExhaustiveSearchSolver where
  buffers :=
    [{ toLifetimeBoundBuffer := .usedTwice "producer" 512 0 0
       coreDivisions := [whole, halvedOn "c0"] },
      { toLifetimeBoundBuffer := { LifetimeBoundBuffer.usedTwice "consumer" 512 1 0 with
          residencyReason := some "graph output" }
        coreDivisions := [whole, halvedOn "c0"], parents := ["producer"],
        cdParentMatches := Dict.empty.set "producer" [(0, 0), (1, 1)] }]
  limit := 384

theorem planLayoutAndCoreDivisions_halvedPair :
    ∃ placed, halvedPair.planLayoutAndCoreDivisions stacking = .ok placed ∧
      placed.map (fun buffer => (buffer.chosenDivision, buffer.address)) =
        [(some 1, some 0), (some 1, none)] ∧
      (∃ chosen, halvedPair.IsChoice chosen ∧ halvedPair.leafPlan stacking chosen = .ok placed ∧
        ∀ other, halvedPair.IsChoice other → ∃ plan, halvedPair.leafPlan stacking other = .ok plan ∧
          unplacedBytes placed ≤ unplacedBytes plan) ∧
      MatchesConsumers placed := by
  have computed : ((halvedPair.planLayoutAndCoreDivisions stacking).toOption.map fun placed =>
      placed.map fun buffer => (buffer.chosenDivision, buffer.address)) =
        some [(some 1, some 0), (some 1, none)] := by
    decide +kernel
  cases planned : halvedPair.planLayoutAndCoreDivisions stacking with
  | error message =>
      rw [planned] at computed
      cases computed
  | ok placed =>
      rw [planned] at computed
      have optimal := (@planLayoutAndCoreDivisions_optimal halvedPair stacking (by decide)
        (by decide) (by decide) stacking_plansItsBuffers).2 placed planned
      exact ⟨placed, rfl, Option.some.inj computed, optimal⟩

/-- One tiled candidate among the untiled ones. -/
def tiledCandidate : ExhaustiveSearchSolver where
  buffers :=
    [{ toLifetimeBoundBuffer := .usedTwice "buffer" 512 0 0
       coreDivisions := [whole, { whole with tiling := ⟨[⟨0, 2, false⟩]⟩ }] }]
  limit := 1024

/-- An untiled candidate for each buffer is not enough for a plan. -/
theorem planLayoutAndCoreDivisions_tiledCandidate :
    tiledCandidate.UniqueNames ∧
    (∀ buffer ∈ tiledCandidate.buffers, ∃ cd ∈ buffer.coreDivisions, cd.tiling.isUntiled = true) ∧
    PlansItsBuffers stacking ∧
    ¬∃ placed, tiledCandidate.planLayoutAndCoreDivisions stacking = .ok placed := by
  refine ⟨by decide, by decide, stacking_plansItsBuffers, ?_⟩
  rintro ⟨placed, planned⟩
  have raised : tiledCandidate.planLayoutAndCoreDivisions stacking =
    .error "Exhaustive search requires untiled candidates" := rfl
  rw [raised] at planned
  cases planned

end ExhaustiveSearchSolver

end TorchSpyre.Scratchpad.ExhaustiveSearch
