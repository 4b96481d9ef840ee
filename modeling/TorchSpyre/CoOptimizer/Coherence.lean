import TorchSpyre.CoOptimizer.Anneal
import TorchSpyre.Lib.Triple

/-!
# The incremental state is the state recomputed

Between moves the packer's sizes and flags and the count of eligible buffers are those of the
division vector.
-/

namespace TorchSpyre.CoOptimizer

open Lib
open Scratchpad.PermLayout (Solver)
open Scratchpad.PermLayout.Solver (Call)

/-! ## What a packer call changes -/

section Packer

variable {solver : Solver} (sound : solver.Sound)

include sound

theorem rotate_ok {i j : ℕ} (iInside : i < solver.static.n) (jInside : j < solver.static.n) :
    ∃ delta next, solver.call (.rotate i j) = .ok (delta, next) ∧ next.Sound ∧
      next.static = solver.static ∧ next.sizes = solver.sizes ∧ next.eligible = solver.eligible := by
  have inRange : ¬ ((i : ℤ) < 0 ∨ (i : ℤ) ≥ solver.static.n ∨ (j : ℤ) < 0 ∨
      (j : ℤ) ≥ solver.static.n) := by omega
  have accepted : ∃ delta next, solver.rotate i j = .ok (delta, next) ∧
      next.sizes = solver.sizes ∧ next.eligible = solver.eligible := by
    simp only [Solver.rotate, if_neg inRange]
    split
    next => exact ⟨0, solver, rfl, rfl, rfl⟩
    next =>
      split
      next => exact ⟨_, _, rfl, rfl, rfl⟩
      next => exact ⟨_, _, rfl, rfl, rfl⟩
  obtain ⟨delta, next, succeeds, sameSizes, sameFlags⟩ := accepted
  have updates := Solver.rotate_updates sound succeeds
  exact ⟨delta, next, succeeds, updates.sound, updates.static, sameSizes, sameFlags⟩

theorem swap_ok {i : ℕ} (inside : i + 1 < solver.static.n) :
    ∃ delta next, solver.call (.swap i) = .ok (delta, next) ∧ next.Sound ∧
      next.static = solver.static ∧ next.sizes = solver.sizes ∧ next.eligible = solver.eligible := by
  have inRange : ¬ ((i : ℤ) < 0 ∨ (i : ℤ) ≥ solver.static.n - 1) := by omega
  have accepted : ∃ delta next, solver.swap i = .ok (delta, next) ∧
      next.sizes = solver.sizes ∧ next.eligible = solver.eligible := by
    simp only [Solver.swap, if_neg inRange]
    split
    next => exact ⟨_, _, rfl, rfl, rfl⟩
    next =>
      split
      next => exact ⟨_, _, rfl, rfl, rfl⟩
      next => exact ⟨_, _, rfl, rfl, rfl⟩
  obtain ⟨delta, next, succeeds, sameSizes, sameFlags⟩ := accepted
  have updates := Solver.swap_updates sound succeeds
  exact ⟨delta, next, succeeds, updates.sound, updates.static, sameSizes, sameFlags⟩

theorem resize_ok {idx : ℕ} (inside : idx < solver.static.n) {size : ℤ} (nonnegative : 0 ≤ size) :
    ∃ delta next, solver.call (.resize idx size) = .ok (delta, next) ∧ next.Sound ∧
      next.static = solver.static ∧ next.sizes = Function.update solver.sizes idx size ∧
      next.eligible = solver.eligible := by
  have inRange : ¬ ((idx : ℤ) < 0 ∨ (idx : ℤ) ≥ solver.static.n) := by omega
  have accepted : ∃ delta next, solver.resize idx size = .ok (delta, next) ∧
      next.sizes = Function.update solver.sizes idx size ∧ next.eligible = solver.eligible := by
    simp only [Solver.resize, if_neg inRange, if_neg (not_lt.mpr nonnegative), Int.toNat_natCast]
    split
    next same => exact ⟨0, solver, rfl, by rw [← same, Function.update_eq_self], rfl⟩
    next =>
      split
      next => exact ⟨_, _, rfl, rfl, rfl⟩
      next => exact ⟨_, _, rfl, rfl, rfl⟩
  obtain ⟨delta, next, succeeds, newSizes, sameFlags⟩ := accepted
  have updates := Solver.resize_updates sound succeeds
  exact ⟨delta, next, succeeds, updates.sound, updates.static, newSizes, sameFlags⟩

theorem setEligible_ok {idx : ℕ} (inside : idx < solver.static.n) (flag : Bool) :
    ∃ delta next, solver.call (.setEligible idx flag) = .ok (delta, next) ∧ next.Sound ∧
      next.static = solver.static ∧ next.sizes = solver.sizes ∧
      next.eligible = Function.update solver.eligible idx flag := by
  have inRange : ¬ ((idx : ℤ) < 0 ∨ (idx : ℤ) ≥ solver.static.n) := by omega
  have accepted : ∃ delta next, solver.setEligible idx flag = .ok (delta, next) ∧
      next.sizes = solver.sizes ∧ next.eligible = Function.update solver.eligible idx flag := by
    simp only [Solver.setEligible, if_neg inRange, Int.toNat_natCast]
    split
    next same => exact ⟨0, solver, rfl, rfl, by rw [← same, Function.update_eq_self]⟩
    next => exact ⟨_, _, rfl, rfl, rfl⟩
  obtain ⟨delta, next, succeeds, sameSizes, newFlags⟩ := accepted
  have updates := Solver.setEligible_updates sound succeeds
  exact ⟨delta, next, succeeds, updates.sound, updates.static, sameSizes, newFlags⟩

end Packer

variable {Choice Index : Type}

theorem callPacker_run {engine : Engine Choice} {request : Call} {delta : ℚ} {next : Solver}
    (succeeds : engine.packer.call request = .ok (delta, next)) :
    (callPacker request).run engine = .ok (delta, { engine with packer := next }) := by
  rw [StateT.run, callPacker]
  simp only [succeeds]

variable (problem : Problem Choice Index)

/-! ## The invariant -/

structure Coherent (engine : Engine Choice) : Prop where
  sound : engine.packer.Sound
  count : engine.packer.static.n = problem.count
  sizes : ∀ idx < problem.count,
    engine.packer.sizes idx = problem.perCoreSize idx (engine.chosen idx)
  flags : ∀ idx < problem.count,
    engine.packer.eligible idx = problem.eligible engine.chosen idx
  nEligible : engine.nEligible =
    ((List.range problem.count).countP (problem.eligible engine.chosen) : ℕ)

/-- A coherent state with a given best state. -/
structure Kept (bestScore : ℤ) (bestSnap : Snapshot Choice) (engine : Engine Choice) : Prop where
  coherent : Coherent problem engine
  bestScore : engine.bestScore = bestScore
  bestSnap : engine.bestSnap = bestSnap

/-- The program keeps the invariant and the best state. -/
def Keeps {Value : Type} (program : Method Choice Value) (result : Value → Prop) : Prop :=
  ∀ bestScore bestSnap, Triple (Kept problem bestScore bestSnap) program fun value engine =>
    Kept problem bestScore bestSnap engine ∧ result value

namespace Keeps

variable {problem} {Value Other : Type} {result : Value → Prop} {outcome : Other → Prop}

theorem pure {value : Value} (holds : result value) :
    Keeps problem (Pure.pure value) result :=
  fun _ _ => Triple.pure fun _ kept => ⟨kept, holds⟩

theorem bind {first : Method Choice Value} {next : Value → Method Choice Other}
    (runs : Keeps problem first result)
    (continues : ∀ value, result value → Keeps problem (next value) outcome) :
    Keeps problem (first >>= next) outcome := by
  intro bestScore bestSnap
  refine Triple.bind (runs bestScore bestSnap) fun value => ?_
  intro engine held
  exact continues value held.2 bestScore bestSnap engine held.1

theorem weaken {program : Method Choice Value} {weaker : Value → Prop}
    (keeps : Keeps problem program result) (implies : ∀ value, result value → weaker value) :
    Keeps problem program weaker :=
  fun bestScore bestSnap => (keeps bestScore bestSnap).weaken fun value _ held =>
    ⟨held.1, implies value held.2⟩

theorem ite {condition : Prop} [Decidable condition] {first second : Method Choice Value}
    (holds : condition → Keeps problem first result) (fails : ¬ condition → Keeps problem second result) :
    Keeps problem (if condition then first else second) result := by
  split
  next isTrue => exact holds isTrue
  next isFalse => exact fails isFalse

theorem get : Keeps problem (MonadState.get : Method Choice (Engine Choice)) fun _ => True :=
  fun _ _ engine kept => ⟨engine, engine, rfl, kept, trivial⟩

end Keeps

section Draws

variable {problem}

/-- The generator is no part of the invariant. -/
theorem Kept.redraw {bestScore : ℤ} {bestSnap : Snapshot Choice} {engine : Engine Choice}
    (kept : Kept problem bestScore bestSnap engine) (rng : Rng) :
    Kept problem bestScore bestSnap { engine with rng := rng } :=
  ⟨⟨kept.coherent.sound, kept.coherent.count, kept.coherent.sizes, kept.coherent.flags,
    kept.coherent.nEligible⟩, kept.bestScore, kept.bestSnap⟩

theorem keeps_randrange {bound : ℕ} (positive : 0 < bound) :
    Keeps problem (randrange bound) (· < bound) :=
  fun _ _ _ kept => ⟨_, _, rfl, kept.redraw _, Nat.mod_lt _ positive⟩

theorem keeps_coin : Keeps problem (coin : Method Choice Bool) fun _ => True :=
  fun _ _ _ kept => ⟨_, _, rfl, kept.redraw _, trivial⟩

theorem choice_run {Item : Type} {items : List Item} (nonempty : items ≠ []) (engine : Engine Choice) :
    ∃ item ∈ items, (choice items).run engine = .ok (item, { engine with rng := engine.rng.rest }) := by
  have inside : engine.rng 0 % items.length < items.length :=
    Nat.mod_lt _ (List.length_pos_of_ne_nil nonempty)
  have drawn : (engine.rng.choice items).1 = some items[engine.rng 0 % items.length] :=
    List.getElem?_eq_getElem inside
  refine ⟨items[engine.rng 0 % items.length], List.getElem_mem inside, ?_⟩
  rw [StateT.run, choice]
  simp only [drawn]
  rfl

theorem keeps_choice {Item : Type} {items : List Item} (nonempty : items ≠ []) :
    Keeps problem (choice items) (· ∈ items) := by
  intro bestScore bestSnap engine kept
  obtain ⟨item, isItem, drawn⟩ := choice_run nonempty engine
  exact ⟨item, { engine with rng := engine.rng.rest }, drawn, kept.redraw _, isItem⟩

theorem keeps_drawAnchor (idx : ℕ) : Keeps problem (drawAnchor problem idx) fun _ => True := by
  intro bestScore bestSnap engine kept
  cases isBuffer : problem.bufs[idx]? with
  | none =>
      refine ⟨none, engine, ?_, kept, trivial⟩
      simp [drawAnchor, isBuffer, modifyGet, MonadStateOf.modifyGet, StateT.modifyGet, StateT.run,
        Pure.pure, Except.pure]
  | some buf =>
      refine ⟨(buf.source.anchor (engine.chosen idx) engine.rng).1,
        { engine with rng := (buf.source.anchor (engine.chosen idx) engine.rng).2 }, ?_,
        kept.redraw _, trivial⟩
      simp [drawAnchor, isBuffer, modifyGet, MonadStateOf.modifyGet, StateT.modifyGet, StateT.run,
        Pure.pure, Except.pure]

end Draws

/-! ## Layout steps -/

section Layout

variable {problem}

/-- A call that leaves sizes and flags alone keeps the invariant. -/
theorem keeps_layout {request : Call}
    (accepted : ∀ solver : Solver, solver.Sound → solver.static.n = problem.count →
      ∃ delta next, solver.call request = .ok (delta, next) ∧ next.Sound ∧
        next.static = solver.static ∧ next.sizes = solver.sizes ∧
        next.eligible = solver.eligible) :
    Keeps problem (callPacker request : Method Choice ℚ) fun _ => True := by
  intro bestScore bestSnap engine kept
  obtain ⟨coherent, isScore, isSnap⟩ := kept
  obtain ⟨delta, next, succeeds, sound, sameStatic, sameSizes, sameFlags⟩ :=
    accepted engine.packer coherent.sound coherent.count
  refine ⟨delta, { engine with packer := next }, callPacker_run succeeds,
    ⟨⟨sound, ?_, ?_, ?_, coherent.nEligible⟩, isScore, isSnap⟩, trivial⟩
  · rw [sameStatic, coherent.count]
  · intro idx inside
    rw [sameSizes, coherent.sizes idx inside]
  · intro idx inside
    rw [sameFlags, coherent.flags idx inside]

theorem keeps_rotate {i j : ℕ} (iInside : i < problem.count) (jInside : j < problem.count) :
    Keeps problem (callPacker (.rotate i j) : Method Choice ℚ) fun _ => True :=
  keeps_layout fun _ sound isCount => rotate_ok sound (isCount ▸ iInside) (isCount ▸ jInside)

theorem keeps_swap {i : ℕ} (inside : i + 1 < problem.count) :
    Keeps problem (callPacker (.swap i) : Method Choice ℚ) fun _ => True :=
  keeps_layout fun _ sound isCount => swap_ok sound (isCount ▸ inside)

theorem keeps_burstSteps (several : 2 ≤ problem.count) (left : ℕ) :
    Keeps problem (burstSteps problem left) fun _ => True := by
  have positive : 0 < problem.count := by omega
  induction left with
  | zero => exact Keeps.pure trivial
  | succ left inductionHypothesis =>
      rw [burstSteps]
      refine Keeps.get.bind fun engine _ => ?_
      split
      next => exact Keeps.pure trivial
      next =>
        refine (keeps_randrange positive).bind fun i iInside => ?_
        refine (keeps_randrange positive).bind fun j jInside => ?_
        refine (keeps_rotate iInside jInside).bind fun delta _ => ?_
        split
        next =>
          exact (keeps_rotate jInside iInside).bind fun _ _ => inductionHypothesis
        next => exact inductionHypothesis

theorem keeps_burst : Keeps problem (burst problem) fun _ => True := by
  unfold burst
  split
  next => exact Keeps.pure trivial
  next several => exact keeps_burstSteps (not_lt.mp several) _

end Layout

end TorchSpyre.CoOptimizer
