import Mathlib

/-!
# Saturation

A step is repeated until it changes nothing, a bounded number of times.  A step that
only adds, and adds something counted whenever it changes the state, reaches a state it
leaves as it is.
-/

namespace Lib

variable {State Item : Type*}

/-- Repeat a step until it is seen to change nothing. -/
def saturate (same : State → State → Bool) (step : State → State) : ℕ → State → State
  | 0, state => state
  | passes + 1, state =>
      if same state (step state) then step state else saturate same step passes (step state)

theorem saturate_invariant {same : State → State → Bool} {step : State → State}
    {holds : State → Prop} (keeps : ∀ state, holds state → holds (step state)) (passes : ℕ)
    {state : State} (initially : holds state) : holds (saturate same step passes state) := by
  induction passes generalizing state with
  | zero => exact initially
  | succ passes inductionHypothesis =>
      unfold saturate
      split
      next => exact keeps state initially
      next => exact inductionHypothesis (keeps state initially)

/-- Enough passes for the count to run out end at a state the step leaves as it is. -/
theorem saturate_fixed {same : State → State → Bool} {step : State → State} {count : State → ℕ}
    {bound : ℕ} (seen : ∀ state, same state (step state) = true → step state = state)
    (counts : ∀ state, same state (step state) = false → count state < count (step state))
    (bounded : ∀ state, count state ≤ bound) (passes : ℕ) {state : State}
    (enough : bound < count state + passes) :
    step (saturate same step passes state) = saturate same step passes state := by
  induction passes generalizing state with
  | zero =>
      have atMost := bounded state
      omega
  | succ passes inductionHypothesis =>
      unfold saturate
      split
      next unchanged =>
        rw [seen state unchanged]
        exact seen state unchanged
      next changed =>
        have more := counts state (Bool.not_eq_true _ ▸ changed)
        exact inductionHypothesis (by omega)

section Order

variable [PartialOrder State] {step : State → Item → State}

theorem le_foldl (grows : ∀ state item, state ≤ step state item) (items : List Item)
    (state : State) : state ≤ items.foldl step state := by
  induction items generalizing state with
  | nil => exact le_rfl
  | cons item items inductionHypothesis =>
      exact le_trans (grows state item) (inductionHypothesis (step state item))

/-- A run that ends where it began has done nothing on the way. -/
theorem step_eq_of_foldl_eq (grows : ∀ state item, state ≤ step state item) {items : List Item}
    {state : State} (unchanged : items.foldl step state = state) {item : Item}
    (member : item ∈ items) : step state item = state := by
  induction items with
  | nil => cases member
  | cons first items inductionHypothesis =>
      have firstSame : step state first = state := by
        refine le_antisymm ?_ (grows state first)
        calc step state first ≤ items.foldl step (step state first) := le_foldl grows _ _
          _ = state := unchanged
      rw [List.foldl_cons, firstSame] at unchanged
      rcases List.mem_cons.mp member with rfl | later
      · exact firstSame
      · exact inductionHypothesis unchanged later

end Order

/-- More items satisfy the condition once one more does. -/
theorem countP_lt_countP {holds holds' : Item → Bool} {items : List Item}
    (stronger : ∀ item ∈ items, holds item → holds' item) {item : Item} (member : item ∈ items)
    (missing : holds item = false) (gained : holds' item = true) :
    items.countP holds < items.countP holds' := by
  induction items with
  | nil => cases member
  | cons first items inductionHypothesis =>
      have later : ∀ item ∈ items, holds item → holds' item := fun other inside =>
        stronger other (List.mem_cons_of_mem _ inside)
      have least := List.countP_mono_left later
      rw [List.countP_cons, List.countP_cons]
      rcases List.mem_cons.mp member with rfl | inside
      · rw [missing, gained]
        simp only [Bool.false_eq_true, if_false, if_true]
        omega
      · have more := inductionHypothesis later inside
        have first' := stronger first List.mem_cons_self
        cases isHere : holds first with
        | false =>
            simp only [Bool.false_eq_true, if_false]
            omega
        | true =>
            rw [first' isHere]
            simp only [if_true]
            omega

/-! ## What a run settles -/

/-- Each step of a run settles its item, and what is settled stays so. -/
theorem foldl_settles {step : State → Item → State} {invariant : State → Prop} {keeps : State → State → Prop}
    {settled : Item → State → Prop} (refl : ∀ state, keeps state state)
    (trans : ∀ one two three, keeps one two → keeps two three → keeps one three)
    (stays : ∀ item one two, keeps one two → settled item one → settled item two) {items : List Item}
    (each : ∀ state, ∀ item ∈ items, invariant state →
      invariant (step state item) ∧ keeps state (step state item) ∧ settled item (step state item))
    {state : State} (before : invariant state) :
    invariant (items.foldl step state) ∧ keeps state (items.foldl step state) ∧
      ∀ item ∈ items, settled item (items.foldl step state) := by
  induction items generalizing state with
  | nil => exact ⟨before, refl state, fun _ impossible => absurd impossible List.not_mem_nil⟩
  | cons first items inductionHypothesis =>
      obtain ⟨next, kept, isSettled⟩ := each state first List.mem_cons_self before
      obtain ⟨last, keptLater, others⟩ :=
        inductionHypothesis (fun state item inside => each state item (List.mem_cons_of_mem _ inside)) next
      refine ⟨last, trans _ _ _ kept keptLater, ?_⟩
      intro item inside
      rcases List.mem_cons.mp inside with rfl | later
      · exact stays _ _ _ keptLater isSettled
      · exact others item later

end Lib
