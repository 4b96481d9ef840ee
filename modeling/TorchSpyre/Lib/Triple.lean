import Mathlib

/-!
# Programs over a state that may raise

A triple says that a program, run in any state of its precondition, succeeds and leaves a value
and a state of its postcondition.
-/

namespace Lib

variable {State Failure Value Other : Type}

def Triple (before : State → Prop) (program : StateT State (Except Failure) Value)
    (after : Value → State → Prop) : Prop :=
  ∀ state, before state → ∃ value next, program.run state = .ok (value, next) ∧ after value next

namespace Triple

theorem pure {before : State → Prop} {after : Value → State → Prop} {value : Value}
    (holds : ∀ state, before state → after value state) :
    Triple before (Pure.pure value : StateT State (Except Failure) Value) after :=
  fun state isBefore => ⟨value, state, rfl, holds state isBefore⟩

theorem bind {before : State → Prop} {middle : Value → State → Prop} {after : Other → State → Prop}
    {first : StateT State (Except Failure) Value} {next : Value → StateT State (Except Failure) Other}
    (runs : Triple before first middle) (continues : ∀ value, Triple (middle value) (next value) after) :
    Triple before (first >>= next) after := by
  intro state isBefore
  obtain ⟨value, between, succeeds, isMiddle⟩ := runs state isBefore
  obtain ⟨result, final, finishes, isAfter⟩ := continues value between isMiddle
  refine ⟨result, final, ?_, isAfter⟩
  rw [StateT.run_bind, succeeds]
  exact finishes

theorem weaken {before : State → Prop} {after weaker : Value → State → Prop}
    {program : StateT State (Except Failure) Value} (runs : Triple before program after)
    (implies : ∀ value state, after value state → weaker value state) :
    Triple before program weaker := by
  intro state isBefore
  obtain ⟨value, next, succeeds, isAfter⟩ := runs state isBefore
  exact ⟨value, next, succeeds, implies value next isAfter⟩

theorem strengthen {before stronger : State → Prop} {after : Value → State → Prop}
    {program : StateT State (Except Failure) Value} (runs : Triple before program after)
    (implies : ∀ state, stronger state → before state) : Triple stronger program after :=
  fun state isStronger => runs state (implies state isStronger)

theorem ite {before : State → Prop} {after : Value → State → Prop} {condition : Prop}
    [Decidable condition] {first second : StateT State (Except Failure) Value}
    (holds : condition → Triple before first after) (fails : ¬ condition → Triple before second after) :
    Triple before (if condition then first else second) after := by
  split
  next isTrue => exact holds isTrue
  next isFalse => exact fails isFalse

theorem get {before : State → Prop} :
    Triple before (MonadState.get : StateT State (Except Failure) State)
      (fun value state => value = state ∧ before state) :=
  fun state isBefore => ⟨state, state, rfl, rfl, isBefore⟩

theorem modify {before : State → Prop} {after : PUnit → State → Prop} {change : State → State}
    (holds : ∀ state, before state → after ⟨⟩ (change state)) :
    Triple before (modifyGet fun state => (⟨⟩, change state) :
      StateT State (Except Failure) PUnit) after :=
  fun state isBefore => ⟨⟨⟩, change state, rfl, holds state isBefore⟩

/-- A loop whose invariant knows what is left to do. -/
theorem forM_remaining {Item : Type} (invariant : List Item → State → Prop)
    {body : Item → StateT State (Except Failure) PUnit} {items : List Item}
    (keeps : ∀ item rest, item ∈ items →
      Triple (invariant (item :: rest)) (body item) fun _ => invariant rest) :
    Triple (invariant items) (items.forM body) fun _ => invariant [] := by
  induction items with
  | nil => exact pure fun _ holds => holds
  | cons item items inductionHypothesis =>
      rw [List.forM_eq_forM, List.forM_cons]
      refine bind (keeps item items List.mem_cons_self) fun _ => ?_
      exact inductionHypothesis fun other rest later =>
        keeps other rest (List.mem_cons_of_mem _ later)

end Triple

end Lib
