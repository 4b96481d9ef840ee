import Mathlib

/-!
# The best value for each key

A list of states is merged by a key: each key keeps its place and the first of its states of
least value.
-/

namespace Lib

variable {State Key Value : Type*} [DecidableEq Key] [LinearOrder Value]
variable (key : State → Key) (value : State → Value)

def insertBest : List State → State → List State
  | [], state => [state]
  | kept :: rest, state =>
      if key kept = key state then
        (if value state < value kept then state else kept) :: rest
      else kept :: insertBest rest state

def keepBest (states : List State) : List State := states.foldl (insertBest key value) []

variable {key value}

theorem mem_insertBest {states : List State} {state kept : State}
    (inside : kept ∈ insertBest key value states state) : kept = state ∨ kept ∈ states := by
  induction states with
  | nil => exact .inl (List.mem_singleton.mp inside)
  | cons first rest inductionHypothesis =>
      rw [insertBest] at inside
      split at inside
      next =>
        rcases List.mem_cons.mp inside with here | later
        · split at here
          next => exact .inl here
          next => exact .inr (here ▸ List.mem_cons_self)
        · exact .inr (List.mem_cons_of_mem _ later)
      next =>
        rcases List.mem_cons.mp inside with here | later
        · exact .inr (here ▸ List.mem_cons_self)
        · exact (inductionHypothesis later).imp_right (List.mem_cons_of_mem _)

/-- What was inserted, or was there before, has a representative that is at least as good. -/
theorem exists_insertBest {states : List State} {state other : State}
    (inside : other = state ∨ other ∈ states) :
    ∃ kept ∈ insertBest key value states state, key kept = key other ∧ value kept ≤ value other := by
  induction states with
  | nil =>
      obtain rfl : other = state := inside.resolve_right (List.not_mem_nil)
      exact ⟨other, List.mem_singleton_self _, rfl, le_rfl⟩
  | cons first rest inductionHypothesis =>
      rw [insertBest]
      split
      next sameKey =>
        by_cases isLater : other ∈ rest
        · exact ⟨other, List.mem_cons_of_mem _ isLater, rfl, le_rfl⟩
        · refine ⟨_, List.mem_cons_self, ?_, ?_⟩
          · have isFirst : key first = key other := by
              rcases inside with rfl | here
              · exact sameKey
              · rw [(List.mem_cons.mp here).resolve_right isLater]
            split
            next => rw [← sameKey, isFirst]
            next => exact isFirst
          · rcases inside with rfl | here
            · split
              next => exact le_rfl
              next notBetter => exact not_lt.mp notBetter
            · obtain rfl := (List.mem_cons.mp here).resolve_right isLater
              split
              next better => exact le_of_lt better
              next => exact le_rfl
      next =>
        by_cases isFirst : other = first
        · exact ⟨other, isFirst ▸ List.mem_cons_self, rfl, le_rfl⟩
        · have later : other = state ∨ other ∈ rest :=
            inside.imp_right fun here => (List.mem_cons.mp here).resolve_left isFirst
          obtain ⟨kept, isKept, same, better⟩ := inductionHypothesis later
          exact ⟨kept, List.mem_cons_of_mem _ isKept, same, better⟩

theorem mem_foldl_insertBest {states canon : List State} {kept : State}
    (inside : kept ∈ states.foldl (insertBest key value) canon) : kept ∈ canon ∨ kept ∈ states := by
  induction states generalizing canon with
  | nil => exact .inl inside
  | cons state rest inductionHypothesis =>
      rcases inductionHypothesis inside with earlier | later
      · rcases mem_insertBest earlier with rfl | isCanon
        · exact .inr List.mem_cons_self
        · exact .inl isCanon
      · exact .inr (List.mem_cons_of_mem _ later)

theorem exists_foldl_insertBest {states canon : List State} {other : State}
    (inside : other ∈ canon ∨ other ∈ states) :
    ∃ kept ∈ states.foldl (insertBest key value) canon,
      key kept = key other ∧ value kept ≤ value other := by
  induction states generalizing canon other with
  | nil => exact ⟨other, inside.resolve_right List.not_mem_nil, rfl, le_rfl⟩
  | cons state rest inductionHypothesis =>
      by_cases isLater : other ∈ rest
      · exact inductionHypothesis (.inr isLater)
      · have earlier : other = state ∨ other ∈ canon := by
          rcases inside with isCanon | here
          · exact .inr isCanon
          · exact .inl ((List.mem_cons.mp here).resolve_right isLater)
        obtain ⟨inserted, isInserted, sameKey, better⟩ :=
          @exists_insertBest State Key Value _ _ key value _ _ _ earlier
        obtain ⟨kept, isKept, same, best⟩ :=
          @inductionHypothesis (insertBest key value canon state) _ (.inl isInserted)
        exact ⟨kept, isKept, same.trans sameKey, le_trans best better⟩

theorem mem_of_mem_keepBest {states : List State} {kept : State}
    (inside : kept ∈ keepBest key value states) : kept ∈ states :=
  (mem_foldl_insertBest inside).resolve_left List.not_mem_nil

theorem exists_keepBest {states : List State} {state : State} (inside : state ∈ states) :
    ∃ kept ∈ keepBest key value states, key kept = key state ∧ value kept ≤ value state :=
  exists_foldl_insertBest (.inr inside)

end Lib
