import TorchSpyre.Lib.RoseTree

/-!
# Running a forest

A forest read as a program: a leaf is a step, a node repeats its body.  Steps see the
numbers of the trips they are in, innermost first.
-/

namespace Lib.RoseTree

variable {Label Item State Other : Type}

mutual

def runTree (count : Label → ℕ) (step : List ℕ → Item → State → State) :
    List ℕ → RoseTree Label Item → State → State
  | trips, .leaf item, state => step trips item state
  | trips, .node label body, state =>
      (List.range (count label)).foldl
        (fun state trip => runForest count step (trip :: trips) body state) state

def runForest (count : Label → ℕ) (step : List ℕ → Item → State → State) :
    List ℕ → List (RoseTree Label Item) → State → State
  | _, [], state => state
  | trips, tree :: rest, state => runForest count step trips rest (runTree count step trips tree state)

end

/-- A relation kept by two repeated steps is kept by the repetition. -/
theorem foldl_related {Trip : Type} {related : State → Other → Prop} {first : State → Trip → State}
    {second : Other → Trip → Other}
    (keeps : ∀ trip state other, related state other → related (first state trip) (second other trip))
    (trips : List Trip) {state : State} {other : Other} (before : related state other) :
    related (trips.foldl first state) (trips.foldl second other) := by
  induction trips generalizing state other with
  | nil => exact before
  | cons trip trips inductionHypothesis => exact inductionHypothesis (keeps trip state other before)

/-- A relation kept by the steps of all leaves is kept by the run. -/
theorem runForest_related {count : Label → ℕ} {related : State → Other → Prop}
    {first : List ℕ → Item → State → State} {second : List ℕ → Item → Other → Other}
    {forest : List (RoseTree Label Item)}
    (keeps : ∀ item ∈ leaves forest, ∀ trips state other, related state other →
      related (first trips item state) (second trips item other))
    (trips : List ℕ) {state : State} {other : Other} (before : related state other) :
    related (runForest count first trips forest state)
      (runForest count second trips forest other) := by
  induction forest using forest_induction generalizing trips state other with
  | nil => exact before
  | leaf item rest inductionHypothesis =>
      exact inductionHypothesis (fun later inside => keeps later (List.mem_cons_of_mem _ inside))
        trips (keeps item List.mem_cons_self trips state other before)
  | node label body rest bodyHypothesis restHypothesis =>
      have inBody := fun item inside => keeps item
        (leaves_node_cons label body rest ▸ List.mem_append_left _ inside)
      have inRest := fun item inside => keeps item
        (leaves_node_cons label body rest ▸ List.mem_append_right _ inside)
      refine restHypothesis inRest trips (foldl_related ?_ _ before)
      exact fun trip state other related => bodyHypothesis inBody (trip :: trips) related

theorem runTree_related {count : Label → ℕ} {related : State → Other → Prop}
    {first : List ℕ → Item → State → State} {second : List ℕ → Item → Other → Other}
    {tree : RoseTree Label Item}
    (keeps : ∀ item ∈ leavesOf tree, ∀ trips state other, related state other →
      related (first trips item state) (second trips item other))
    (trips : List ℕ) {state : State} {other : Other} (before : related state other) :
    related (runTree count first trips tree state) (runTree count second trips tree other) := by
  have alone : leaves [tree] = leavesOf tree := List.append_nil _
  have keepsAlone := alone.symm ▸ keeps
  exact runForest_related keepsAlone trips before

/-- Steps that do nothing make a run that does nothing. -/
theorem runTree_idle (count : Label → ℕ) (trips : List ℕ) (tree : RoseTree Label Item)
    (state : State) : runTree count (fun _ _ state => state) trips tree state = state := by
  have fixed : ∀ (items : List ℕ) (start : State), items.foldl (fun state _ => state) start = start := by
    intro items start
    induction items with
    | nil => rfl
    | cons _ _ inductionHypothesis => exact inductionHypothesis
  have forestIdle : ∀ (forest : List (RoseTree Label Item)) (trips : List ℕ) (state : State),
      runForest count (fun _ _ state => state) trips forest state = state := by
    intro forest
    induction forest using forest_induction with
    | nil => exact fun _ _ => rfl
    | leaf item rest inductionHypothesis => exact fun trips state => inductionHypothesis trips state
    | node label body rest bodyHypothesis restHypothesis =>
        intro trips state
        rw [runForest, runTree, restHypothesis]
        simp only [bodyHypothesis]
        exact fixed _ state
  exact forestIdle [tree] trips state

end Lib.RoseTree
