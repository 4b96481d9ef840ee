import TorchSpyre.Scheduling.LoopGroups

/-!
# The forest built from a text

With consistent trip counts wrapping never fails.  It keeps the text, and the loops it
builds at each level are the runs of the text there.
-/

namespace TorchSpyre.Scheduling

open Lib LoopNest LoopRuns

variable {Expr : Type} {nodes : List (SchedulerNode Expr)}

/-- Nodes of one loop agree on its trip count. -/
def ConsistentTripCounts (nodes : List (SchedulerNode Expr)) : Prop :=
  ∀ depth first second, SharesLoops (loopGroupId nodes) (depth + 1) first second →
    loopCount nodes first depth = loopCount nodes second depth

theorem loopCount_eq_none_iff {index depth : ℕ} :
    loopCount nodes index depth = none ↔ (loopGroupId nodes index).length ≤ depth := by
  simp [loopCount, loopGroupId]

variable (nodes) in
def deepAt (depth index : ℕ) : Bool := depth < (loopGroupId nodes index).length

/-- The forest of a text, `depth` loops deep. -/
structure Built (nodes : List (SchedulerNode Expr)) (depth : ℕ) (text : List ℕ)
    (forest : List (LoopTree Expr)) : Prop where
  leaves : RoseTree.leaves forest = text
  loops : ∀ below, (RoseTree.nodesAt below forest).map Prod.snd =
    runsAt (loopGroupId nodes) below depth text
  trips : ∀ below, ∀ loop ∈ RoseTree.nodesAt below forest, ∀ index ∈ loop.2,
    loopCount nodes index (depth + below) = some loop.1
  direct : RoseTree.topLeaves forest = text.filter fun index => ¬ deepAt nodes depth index

/-- What one run of the text becomes. -/
structure Wrapped (nodes : List (SchedulerNode Expr)) (depth : ℕ) (run : List ℕ)
    (forest : List (LoopTree Expr)) : Prop where
  leaves : RoseTree.leaves forest = run
  outer : (RoseTree.nodesAt 0 forest).map Prod.snd = if run.any (deepAt nodes depth) then [run] else []
  inner : ∀ below, (RoseTree.nodesAt (below + 1) forest).map Prod.snd =
    if run.any (deepAt nodes depth) then runsAt (loopGroupId nodes) below (depth + 1) run else []
  trips : ∀ below, ∀ loop ∈ RoseTree.nodesAt below forest, ∀ index ∈ loop.2,
    loopCount nodes index (depth + below) = some loop.1
  direct : RoseTree.topLeaves forest = run.filter fun index => ¬ deepAt nodes depth index

theorem any_deepAt {run : List ℕ} {depth : ℕ} :
    run.any (deepAt nodes depth) ↔ ∃ index ∈ run, depth < (loopGroupId nodes index).length := by
  simp [deepAt]

/-- A run outside any loop at the depth is passed through. -/
theorem Wrapped.of_leaves {depth : ℕ} {run : List ℕ} (shallow : run.any (deepAt nodes depth) = false) :
    Wrapped nodes depth run (run.map .leaf) where
  leaves := RoseTree.leaves_map_leaf run
  outer := by rw [RoseTree.nodesAt_map_leaf, shallow]; rfl
  inner := by intro below; rw [RoseTree.nodesAt_map_leaf, shallow]; rfl
  trips := by
    intro below loop isLoop
    rw [RoseTree.nodesAt_map_leaf] at isLoop
    cases isLoop
  direct := by
    rw [RoseTree.topLeaves_map_leaf, List.filter_eq_self.mpr]
    intro index inside
    have outside := List.any_eq_false.mp shallow index inside
    simpa using outside

/-- The run of a loop becomes one node. -/
theorem Wrapped.of_body {depth : ℕ} {run : List ℕ} {count : Expr} {body : List (LoopTree Expr)}
    (nonempty : run ≠ []) (deep : ∀ index ∈ run, loopCount nodes index depth = some count)
    (built : Built nodes (depth + 1) run body) :
    Wrapped nodes depth run [.node count body] := by
  have isDeep : ∀ index ∈ run, deepAt nodes depth index = true := by
    intro index inside
    have counted := deep index inside
    unfold deepAt
    rw [decide_eq_true_eq]
    by_contra shallow
    rw [loopCount_eq_none_iff.2 (not_lt.mp shallow)] at counted
    cases counted
  have anyDeep : run.any (deepAt nodes depth) = true := by
    obtain ⟨first, rest, rfl⟩ := List.exists_cons_of_ne_nil nonempty
    exact List.any_eq_true.mpr ⟨first, List.mem_cons_self, isDeep first List.mem_cons_self⟩
  constructor
  case leaves => simp [built.leaves]
  case outer => simp [RoseTree.nodesAt, built.leaves, anyDeep]
  case inner =>
    intro below
    rw [if_pos anyDeep, ← built.loops below]
    simp [RoseTree.nodesAt]
  case trips =>
    intro below loop isLoop index inside
    cases below with
    | zero =>
        simp only [RoseTree.nodesAt, List.flatMap_cons, List.flatMap_nil, List.append_nil,
          List.mem_singleton] at isLoop
        subst isLoop
        rw [built.leaves] at inside
        exact deep index inside
    | succ below =>
        simp only [RoseTree.nodesAt, List.flatMap_cons, List.flatMap_nil, List.append_nil] at isLoop
        have counted := built.trips below loop isLoop index inside
        rwa [show depth + (below + 1) = depth + 1 + below by omega]
  case direct =>
    rw [List.filter_eq_nil_iff.mpr]
    · rfl
    · intro index inside
      simp [isDeep index inside]

/-- The wrapped runs of a text, one after the other, are its forest. -/
theorem Built.of_wrapped {depth : ℕ} {text : List ℕ} {forests : List (List (LoopTree Expr))}
    (wrapped : List.Forall₂ (Wrapped nodes depth)
      (text.splitBy (sameRun (loopGroupId nodes) depth)) forests) :
    Built nodes depth text forests.flatten := by
  have flat : (text.splitBy (sameRun (loopGroupId nodes) depth)).flatten = text :=
    List.flatten_splitBy _ _
  have runsEq : runs (loopGroupId nodes) depth text =
      (text.splitBy (sameRun (loopGroupId nodes) depth)).filter fun run =>
        run.any (deepAt nodes depth) := rfl
  constructor
  case leaves =>
    conv_rhs => rw [← flat]
    clear flat runsEq
    generalize text.splitBy (sameRun (loopGroupId nodes) depth) = parts at wrapped
    induction wrapped with
    | nil => rfl
    | cons here _ inductionHypothesis =>
        rw [List.flatten_cons, List.flatten_cons, RoseTree.leaves_append, here.leaves,
          inductionHypothesis]
  case loops =>
    intro below
    have each : (RoseTree.nodesAt below forests.flatten).map Prod.snd =
        (runs (loopGroupId nodes) depth text).flatMap fun run =>
          match below with
          | 0 => [run]
          | below + 1 => runsAt (loopGroupId nodes) below (depth + 1) run := by
      rw [runsEq]
      clear flat runsEq
      generalize text.splitBy (sameRun (loopGroupId nodes) depth) = parts at wrapped
      induction wrapped with
      | nil => cases below <;> rfl
      | cons here _ inductionHypothesis =>
          rw [List.flatten_cons, RoseTree.nodesAt_append, List.map_append, inductionHypothesis,
            List.filter_cons]
          cases below with
          | zero => rw [here.outer]; split <;> simp
          | succ below => rw [here.inner]; split <;> simp
    rw [each]
    cases below with
    | zero => exact List.flatMap_singleton' _
    | succ below => rfl
  case trips =>
    intro below loop isLoop
    clear flat runsEq
    generalize text.splitBy (sameRun (loopGroupId nodes) depth) = parts at wrapped
    induction wrapped with
    | nil => cases below <;> cases isLoop
    | cons here _ inductionHypothesis =>
        rw [List.flatten_cons, RoseTree.nodesAt_append] at isLoop
        rcases List.mem_append.mp isLoop with isHere | isLater
        · exact here.trips below loop isHere
        · exact inductionHypothesis isLater
  case direct =>
    conv_rhs => rw [← flat]
    clear flat runsEq
    generalize text.splitBy (sameRun (loopGroupId nodes) depth) = parts at wrapped
    induction wrapped with
    | nil => rfl
    | cons here _ inductionHypothesis =>
        rw [List.flatten_cons, List.flatten_cons, RoseTree.topLeaves_append, here.direct,
          inductionHypothesis, List.filter_append]

theorem Built.of_shallow {depth : ℕ} {text : List ℕ}
    (shallow : ∀ index ∈ text, (loopGroupId nodes index).length ≤ depth) :
    Built nodes depth text (text.map .leaf) := by
  have noRuns : ∀ below, runsAt (loopGroupId nodes) below depth text = [] := by
    intro below
    have noneHere : runs (loopGroupId nodes) depth text = [] := by
      refine List.eq_nil_iff_forall_not_mem.mpr fun run isRun => ?_
      obtain ⟨isPart, index, inside, deep⟩ := mem_runs.mp isRun
      have bound := shallow index ((splitBy_isPart isPart).subset inside)
      omega
    cases below with
    | zero => exact noneHere
    | succ below => rw [runsAt, noneHere]; rfl
  constructor
  case leaves => exact RoseTree.leaves_map_leaf text
  case loops => intro below; rw [RoseTree.nodesAt_map_leaf, noRuns]; rfl
  case trips =>
    intro below loop isLoop
    rw [RoseTree.nodesAt_map_leaf] at isLoop
    cases isLoop
  case direct =>
    rw [RoseTree.topLeaves_map_leaf, List.filter_eq_self.mpr]
    intro index inside
    simpa [deepAt] using shallow index inside

variable [DecidableEq Expr]

/-- A run is wrapped as soon as the text inside its loop is. -/
theorem wrapRun_spec (consistent : ConsistentTripCounts nodes) {depth : ℕ} {text run : List ℕ}
    (together : Together (loopGroupId nodes) depth text)
    (isPart : run ∈ text.splitBy (sameRun (loopGroupId nodes) depth))
    {inner : List ℕ → Except LoopGroupError (List (LoopTree Expr))}
    (builds : Together (loopGroupId nodes) (depth + 1) run →
      ∃ body, inner run = .ok body ∧ Built nodes (depth + 1) run body) :
    ∃ forest, wrapRun nodes depth inner run = .ok forest ∧ Wrapped nodes depth run forest := by
  cases run with
  | nil => exact absurd rfl (List.ne_nil_of_mem_splitBy isPart)
  | cons first rest =>
      rw [wrapRun]
      split
      next notCounted =>
        have shallow := loopCount_eq_none_iff.mp notCounted
        refine ⟨_, rfl, Wrapped.of_leaves ?_⟩
        rw [← Bool.not_eq_true, any_deepAt]
        rintro ⟨index, inside, deep⟩
        rcases splitBy_uniform sameRun_symm sameRun_trans isPart List.mem_cons_self inside with
          rfl | same
        · omega
        · have isDeep := (of_decide_eq_true same).1
          omega
      next count counted =>
        have deep : depth < (loopGroupId nodes first).length := by
          by_contra shallow
          rw [loopCount_eq_none_iff.mpr (not_lt.mp shallow)] at counted
          cases counted
        have inRun := runs_together together (mem_runs.mpr ⟨isPart, first, List.mem_cons_self, deep⟩)
        have sameCount : ∀ index ∈ first :: rest, loopCount nodes index depth = some count := by
          intro index inside
          rw [← counted]
          exact consistent depth index first (inRun index inside first List.mem_cons_self)
        have agrees : ¬ (rest.any fun index => loopCount nodes index depth ≠ some count) = true := by
          rw [List.any_eq_true]
          rintro ⟨index, inside, differs⟩
          exact of_decide_eq_true differs (sameCount index (List.mem_cons_of_mem _ inside))
        obtain ⟨body, built, isBuilt⟩ := builds inRun
        rw [if_neg agrees, built]
        exact ⟨_, rfl, Wrapped.of_body (List.cons_ne_nil _ _) sameCount isBuilt⟩

/-- Wrapping a text succeeds and builds its forest. -/
theorem buildLoopGroup_spec (consistent : ConsistentTripCounts nodes) {levels depth : ℕ}
    {text : List ℕ} (together : Together (loopGroupId nodes) depth text)
    (enough : ∀ index ∈ text, (loopGroupId nodes index).length ≤ depth + levels) :
    ∃ forest, buildLoopGroup nodes levels text depth = .ok forest ∧
      Built nodes depth text forest := by
  induction levels generalizing depth text with
  | zero => exact ⟨_, rfl, Built.of_shallow enough⟩
  | succ levels inductionHypothesis =>
      have each : ∀ run ∈ text.splitBy (sameRun (loopGroupId nodes) depth),
          ∃ forest, wrapRun nodes depth (fun run => buildLoopGroup nodes levels run (depth + 1))
            run = .ok forest ∧ Wrapped nodes depth run forest := by
        intro run isPart
        apply wrapRun_spec consistent together isPart
        intro inRun
        apply inductionHypothesis inRun
        intro index inside
        have bound := enough index ((splitBy_isPart isPart).subset inside)
        omega
      obtain ⟨forests, wraps, wrapped⟩ := exists_mapM each
      refine ⟨forests.flatten, ?_, Built.of_wrapped wrapped⟩
      rw [buildLoopGroup, wraps]
      rfl

end TorchSpyre.Scheduling
