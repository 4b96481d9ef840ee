import TorchSpyre.Restickify.Beam

/-!
# What the tables of the search promise

The estimate of an operation's future is finite and zero where nothing reads it; the last use
of an operation is no earlier than any of its consumers.
-/

namespace TorchSpyre.Restickify

variable {Layout : Type}

/-! ## The future -/

section Future

variable [DecidableEq Layout]

theorem sum_ne_top {costs : List Cost} (finite : ∀ cost ∈ costs, cost ≠ ⊤) : costs.sum ≠ ⊤ := by
  induction costs with
  | nil => exact WithTop.zero_ne_top
  | cons cost rest inductionHypothesis =>
      rw [List.sum_cons, WithTop.add_ne_top]
      constructor
      · exact finite cost List.mem_cons_self
      · exact inductionHypothesis fun other later => finite other (List.mem_cons_of_mem _ later)

omit [DecidableEq Layout] in
theorem bestFuture_ne_top (future : String → Layout → Cost) (name : String) (candidate : Layout)
    (consumer : LaidOperation Layout) : bestFuture future name candidate consumer ≠ ⊤ := by
  simp only [bestFuture]
  split
  next => exact WithTop.coe_ne_top
  next finite => exact finite

theorem futureMinCost_ne_top (operations rest : List (LaidOperation Layout)) (name : String)
    (candidate : Layout) : futureMinCost operations rest name candidate ≠ ⊤ := by
  induction rest generalizing name with
  | nil => exact WithTop.zero_ne_top
  | cons operation rest inductionHypothesis =>
      rw [futureMinCost]
      by_cases here : name = operation.name
      · subst here
        rw [Function.update_self]
        split
        next =>
          apply sum_ne_top
          intro cost inside
          obtain ⟨consumer, -, rfl⟩ := List.mem_map.mp inside
          exact bestFuture_ne_top _ _ _ _
        next => exact WithTop.zero_ne_top
      · rw [Function.update_of_ne here]
        exact inductionHypothesis name

theorem futureMinCost_eq_zero {operations : List (LaidOperation Layout)} {name : String}
    (unread : ∀ operation ∈ operations, name ∉ operation.restickCostFn.deps)
    (rest : List (LaidOperation Layout)) (candidate : Layout) :
    futureMinCost operations rest name candidate = 0 := by
  have nothing : downstream operations name = [] := by
    apply List.filter_eq_nil_iff.mpr
    intro operation inside
    simpa using unread operation inside
  induction rest with
  | nil => rfl
  | cons operation rest inductionHypothesis =>
      rw [futureMinCost]
      by_cases here : name = operation.name
      · subst here
        rw [Function.update_self, nothing, List.map_nil, List.sum_nil, ite_self]
      · rw [Function.update_of_ne here]
        exact inductionHypothesis

end Future

/-! ## The last use -/

/-- The recorded last use of a name is at a step or after it. -/
def UsedFrom (lastUse : String → Option ℕ) (name : String) (step : ℕ) : Prop :=
  ∃ last, lastUse name = some last ∧ step ≤ last

section LastUse

variable {operations : List (LaidOperation Layout)} {lastUse : String → Option ℕ} {name : String}
  {step : ℕ}

theorem recordUse_usedFrom (used : UsedFrom lastUse name step) (consumerStep : ℕ) (dep : String) :
    UsedFrom (recordUse operations consumerStep lastUse dep) name step := by
  obtain ⟨last, isLast, after⟩ := used
  unfold recordUse
  split
  next later =>
    by_cases here : name = dep
    · subst here
      have increases : last < consumerStep := by simpa [isLast] using later.2
      exact ⟨consumerStep, Function.update_self _ _ _, by omega⟩
    · exact ⟨last, by rw [Function.update_of_ne here, isLast], after⟩
  next => exact ⟨last, isLast, after⟩

theorem recordUse_self (known : (stepOf operations name).isSome = true) :
    UsedFrom (recordUse operations step lastUse name) name step := by
  unfold recordUse
  split
  next => exact ⟨step, Function.update_self _ _ _, le_rfl⟩
  next notLater =>
    rw [not_and_or] at notLater
    have notAll := notLater.resolve_left (not_not.mpr known)
    cases isLast : lastUse name with
    | none => simp [isLast] at notAll
    | some last => exact ⟨last, isLast, by simpa [isLast] using notAll⟩

theorem foldl_recordUse_usedFrom {deps : List String} (used : UsedFrom lastUse name step)
    (consumerStep : ℕ) :
    UsedFrom (deps.foldl (recordUse operations consumerStep) lastUse) name step := by
  induction deps generalizing lastUse with
  | nil => exact used
  | cons dep deps inductionHypothesis =>
      exact inductionHypothesis (recordUse_usedFrom used consumerStep dep)

theorem foldl_recordUse_of_mem {deps : List String} (inside : name ∈ deps)
    (known : (stepOf operations name).isSome = true) :
    UsedFrom (deps.foldl (recordUse operations step) lastUse) name step := by
  induction deps generalizing lastUse with
  | nil => cases inside
  | cons dep deps inductionHypothesis =>
      rcases List.mem_cons.mp inside with rfl | later
      · exact foldl_recordUse_usedFrom (recordUse_self known) step
      · exact inductionHypothesis later

/-- No consumer comes after the last use. -/
theorem computeLastUse_usedFrom {consumer : LaidOperation Layout} (inside : consumer ∈ operations)
    (isStep : stepOf operations consumer.name = some step)
    (reads : name ∈ consumer.restickCostFn.deps) (known : (stepOf operations name).isSome = true) :
    UsedFrom (computeLastUse operations) name step := by
  obtain ⟨before, after, isSplit⟩ := List.append_of_mem inside
  unfold computeLastUse
  have reached : ∀ start : String → Option ℕ, UsedFrom
      (consumer.restickCostFn.deps.foldl
        (recordUse operations ((stepOf operations consumer.name).getD 0)) start) name step := by
    intro start
    rw [isStep, Option.getD_some]
    exact foldl_recordUse_of_mem reads known
  generalize table : (fun (lastUse : String → Option ℕ) (operation : LaidOperation Layout) =>
    operation.restickCostFn.deps.foldl
      (recordUse operations ((stepOf operations operation.name).getD 0)) lastUse) = record
  have kept : ∀ (later : List (LaidOperation Layout)) (start : String → Option ℕ),
      UsedFrom start name step → UsedFrom (later.foldl record start) name step := by
    intro later start used
    apply @List.foldlRecOn _ _ (UsedFrom · name step) later record start used
    intro lastUse stillUsed operation _
    rw [← table]
    exact foldl_recordUse_usedFrom stillUsed _
  rw [isSplit, List.foldl_append, List.foldl_cons]
  apply kept
  rw [← table]
  exact reached _

end LastUse

theorem stepOf_split {before after : List (LaidOperation Layout)} {operation : LaidOperation Layout}
    (distinct : ((before ++ operation :: after).map LaidOperation.name).Nodup) :
    stepOf (before ++ operation :: after) operation.name = some before.length := by
  induction before with
  | nil => simp [stepOf, List.idxOf?_cons]
  | cons first before inductionHypothesis =>
      rw [List.cons_append, List.map_cons, List.nodup_cons] at distinct
      have different : (first.name == operation.name) = false := by
        rw [beq_eq_false_iff_ne]
        intro same
        apply distinct.1
        rw [same]
        exact List.mem_map_of_mem (List.mem_append_right _ List.mem_cons_self)
      have later := inductionHypothesis distinct.2
      rw [stepOf] at later ⊢
      rw [List.cons_append, List.map_cons, List.idxOf?_cons, different, later]
      rfl

/-- What a later operation reads is live. -/
theorem live_of_reader {done rest : List (LaidOperation Layout)} {operation : LaidOperation Layout}
    (distinct : ((done ++ operation :: rest).map LaidOperation.name).Nodup)
    {consumer : LaidOperation Layout} (later : consumer ∈ rest) {name : String}
    (reads : name ∈ consumer.restickCostFn.deps)
    (known : name ∈ (done ++ operation :: rest).map LaidOperation.name) :
    (computeLastUse (done ++ operation :: rest) name).any (done.length < ·) = true := by
  obtain ⟨before, after, rfl⟩ := List.append_of_mem later
  have regroup : done ++ operation :: (before ++ consumer :: after) =
      (done ++ operation :: before) ++ consumer :: after := by simp
  have isStep : stepOf (done ++ operation :: (before ++ consumer :: after)) consumer.name =
      some (done ++ operation :: before).length := by
    rw [regroup] at distinct ⊢
    exact stepOf_split distinct
  have inside : consumer ∈ done ++ operation :: (before ++ consumer :: after) := by simp
  obtain ⟨last, isLast, afterStep⟩ :=
    computeLastUse_usedFrom inside isStep reads (List.isSome_idxOf?.mpr known)
  rw [isLast, Option.any_some, decide_eq_true_eq]
  rw [List.length_append, List.length_cons] at afterStep
  omega

end TorchSpyre.Restickify
