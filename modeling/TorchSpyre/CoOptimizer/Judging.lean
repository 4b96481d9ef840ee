import Mathlib
import TorchSpyre.CoOptimizer.Assignment

/-!
# Judged steps

A step ends in the moved state or in the state it started from, and the best state seen stays a
coherent one at its own score.
-/

namespace TorchSpyre.CoOptimizer

open Lib
open Scratchpad.PermLayout (Solver)

variable {Choice Index : Type}

/-- The state that adopting a snapshot gives. -/
def Engine.adopted (engine : Engine Choice) (snap : Snapshot Choice) : Engine Choice :=
  { engine with packer := snap.packer, chosen := snap.chosen, nEligible := snap.nEligible }

variable {problem : Problem Choice Index}

theorem Coherent.congr {engine other : Engine Choice} (coherent : Coherent problem engine)
    (samePacker : other.packer = engine.packer) (sameChosen : other.chosen = engine.chosen)
    (sameCount : other.nEligible = engine.nEligible) : Coherent problem other := by
  refine ⟨samePacker ▸ coherent.sound, samePacker ▸ coherent.count, ?_, ?_, ?_⟩
  · rw [samePacker, sameChosen]
    exact coherent.sizes
  · rw [samePacker, sameChosen]
    exact coherent.flags
  · rw [sameCount, sameChosen]
    exact coherent.nEligible

theorem Engine.score_congr {engine other : Engine Choice} (samePacker : other.packer = engine.packer)
    (sameChosen : other.chosen = engine.chosen) : other.score problem = engine.score problem := by
  rw [Engine.score, samePacker, sameChosen, Engine.score]

/-! ## The best state -/

/-- A best state: a coherent snapshot and its own score. -/
structure Best (problem : Problem Choice Index) (bestScore : ℤ) (bestSnap : Snapshot Choice) :
    Prop where
  coherent : ∀ engine : Engine Choice, Coherent problem (engine.adopted bestSnap)
  score : ∀ engine : Engine Choice, (engine.adopted bestSnap).score problem = bestScore

theorem Best.of_live {live : Engine Choice} (coherent : Coherent problem live) {score : ℤ}
    (isScore : live.score problem = score) :
    Best problem score ⟨live.packer, live.chosen, live.nEligible⟩ :=
  ⟨fun _ => coherent.congr rfl rfl rfl, fun _ => isScore⟩

/-- The live state and the best state are both right. -/
structure Consistent (problem : Problem Choice Index) (engine : Engine Choice) : Prop where
  live : Coherent problem engine
  best : Best problem engine.bestScore engine.bestSnap

theorem Kept.consistent {bestScore : ℤ} {bestSnap : Snapshot Choice} {engine : Engine Choice}
    (kept : Kept problem bestScore bestSnap engine) (best : Best problem bestScore bestSnap) :
    Consistent problem engine := by
  refine ⟨kept.coherent, ?_⟩
  rw [kept.bestScore, kept.bestSnap]
  exact best

/-- What an accepted move leaves, from a best score before it. -/
structure Recorded (problem : Problem Choice Index) (bestBefore candidate : ℤ)
    (engine : Engine Choice) : Prop where
  consistent : Consistent problem engine
  score : engine.score problem = candidate
  lowered : engine.bestScore ≤ bestBefore
  reached : engine.bestScore ≤ candidate

/-- What a judged step leaves. -/
structure Judged (problem : Problem Choice Index) (start : Engine Choice) (outcome : Option ℤ)
    (finish : Engine Choice) : Prop where
  accepted : ∀ score, outcome = some score → Recorded problem start.bestScore score finish
  rejected : outcome = none → finish.packer = start.packer ∧ finish.chosen = start.chosen ∧
    finish.nEligible = start.nEligible ∧ finish.bestScore = start.bestScore ∧
    finish.bestSnap = start.bestSnap

theorem Recorded.judged {start finish : Engine Choice} {candidate : ℤ}
    (recorded : Recorded problem start.bestScore candidate finish) :
    Judged problem start (some candidate) finish :=
  ⟨fun _ same => Option.some.inj same ▸ recorded, nofun⟩

section Judging

variable {bestScore : ℤ} {bestSnap : Snapshot Choice} {candidate : ℤ}

/-- A coherent state at a score, with the best state as it was. -/
def AtScore (problem : Problem Choice Index) (bestScore : ℤ) (bestSnap : Snapshot Choice)
    (candidate : ℤ) (engine : Engine Choice) : Prop :=
  Kept problem bestScore bestSnap engine ∧ engine.score problem = candidate

theorem score_spec :
    Triple (Kept problem bestScore bestSnap) (score problem) (AtScore problem bestScore bestSnap) :=
  fun engine kept => ⟨engine.score problem, engine, rfl, kept, rfl⟩

theorem metropolis_spec (delta : ℤ) :
    Triple (AtScore problem bestScore bestSnap candidate) (metropolis delta)
      fun _ => AtScore problem bestScore bestSnap candidate := by
  unfold metropolis
  split
  next => exact Triple.pure fun _ held => held
  next =>
    intro engine held
    exact ⟨_, _, rfl, held.1.redraw _, held.2⟩

theorem recordBest_spec (best : Best problem bestScore bestSnap) :
    Triple (AtScore problem bestScore bestSnap candidate) (recordBest candidate)
      fun _ => Recorded problem bestScore candidate := by
  intro engine held
  obtain ⟨kept, isScore⟩ := held
  by_cases lower : candidate < engine.bestScore
  · refine ⟨⟨⟩, { engine with
      bestScore := candidate
      bestSnap := ⟨engine.packer, engine.chosen, engine.nEligible⟩ }, ?_, ?_⟩
    · simp [recordBest, snapshot, lower]
      rfl
    · refine ⟨⟨kept.coherent.congr rfl rfl rfl, Best.of_live kept.coherent isScore⟩, isScore, ?_, le_rfl⟩
      exact kept.bestScore ▸ lower.le
  · refine ⟨⟨⟩, engine, ?_, kept.consistent best, isScore, kept.bestScore.le, not_lt.mp lower⟩
    simp [recordBest, lower]
    rfl

/-- Adopting the step's own snapshot turns the step back. -/
theorem adopt_spec (start : Engine Choice) :
    Triple (Kept problem start.bestScore start.bestSnap)
      (adopt ⟨start.packer, start.chosen, start.nEligible⟩) fun _ => Judged problem start none := by
  intro engine kept
  exact ⟨⟨⟩, _, rfl, nofun, fun _ => ⟨rfl, rfl, rfl, kept.bestScore, kept.bestSnap⟩⟩

end Judging

/-! ## Structural moves -/

/-- A snapshot is of the state it is taken in. -/
theorem snapshot_spec {before : Engine Choice → Prop} :
    Triple before (snapshot : Method Choice (Snapshot Choice)) fun snap engine =>
      snap = ⟨engine.packer, engine.chosen, engine.nEligible⟩ ∧ before engine :=
  fun engine holds => ⟨_, engine, rfl, rfl, holds⟩

theorem judgeMove_spec {start : Engine Choice} (consistent : Consistent problem start) {move : Move}
    (possible : Possible problem move) (cur : ℤ) :
    Triple (· = start) (judgeMove problem move cur) (Judged problem start) := by
  have kept : Kept problem start.bestScore start.bestSnap start := ⟨consistent.live, rfl, rfl⟩
  unfold judgeMove
  refine Triple.bind snapshot_spec fun snap => ?_
  rintro start ⟨rfl, rfl⟩
  have moves := keeps_executeMove possible start.bestScore start.bestSnap
  refine Triple.bind moves (fun _ => ?_) _ kept
  refine Triple.bind (score_spec.strengthen fun _ held => held.1) fun candidate => ?_
  refine Triple.bind (metropolis_spec _) fun accepted => ?_
  cases accepted with
  | true =>
      refine Triple.bind (recordBest_spec consistent.best) fun _ => ?_
      exact Triple.pure fun _ recorded => recorded.judged
  | false =>
      refine Triple.bind ((adopt_spec _).strengthen fun _ held => held.1) fun _ => ?_
      exact Triple.pure fun _ judged => judged

/-! ## Reinsertions -/

theorem sweepUpperBound_lt (several : 2 ≤ problem.count) (position : ℕ) (allocated : List Bool) :
    sweepUpperBound problem position allocated < problem.count := by
  unfold sweepUpperBound
  split
  next => omega
  next =>
    refine lt_of_le_of_lt (min_le_left _ _) ?_
    omega

theorem keeps_probe (lifted : ℕ) {positions : List ℕ}
    (inside : ∀ position ∈ positions, 0 < position ∧ position < problem.count) :
    Keeps problem (probe lifted positions : Method Choice (List (ℕ × ℚ)))
      fun ranked => ∀ entry ∈ ranked, entry.1 ∈ positions := by
  induction positions with
  | nil => exact Keeps.pure fun _ isEntry => absurd isEntry List.not_mem_nil
  | cons position rest inductionHypothesis =>
      have here := inside position List.mem_cons_self
      have later := inductionHypothesis fun other membership =>
        inside other (List.mem_cons_of_mem _ membership)
      unfold probe
      refine (keeps_swap (by omega)).bind fun _ _ => ?_
      refine Keeps.get.bind fun engine _ => ?_
      refine later.bind fun ranked fromRest => ?_
      apply Keeps.ite
      · exact fun _ => Keeps.pure fun entry isEntry => List.mem_cons_of_mem _ (fromRest entry isEntry)
      · intro _
        refine Keeps.pure fun entry isEntry => ?_
        rcases List.mem_cons.mp isEntry with rfl | isLater
        · exact List.mem_cons_self
        · exact List.mem_cons_of_mem _ (fromRest entry isLater)

/-- The tries end at an accepted position, or with the best state as it was. -/
theorem tryPositions_spec {bestScore : ℤ} {bestSnap : Snapshot Choice}
    (best : Best problem bestScore bestSnap) (cur : ℤ) {current : ℕ} {positions : List ℕ}
    (currentInside : current < problem.count) (inside : ∀ position ∈ positions, position < problem.count) :
    Triple (Kept problem bestScore bestSnap) (tryPositions problem cur current positions)
      fun outcome engine => (outcome = none → Kept problem bestScore bestSnap engine) ∧
        ∀ score, outcome = some score → Recorded problem bestScore score engine := by
  induction positions generalizing current with
  | nil => exact Triple.pure fun _ kept => ⟨fun _ => kept, nofun⟩
  | cons position rest inductionHypothesis =>
      have here := inside position List.mem_cons_self
      have later := inductionHypothesis here fun other membership =>
        inside other (List.mem_cons_of_mem _ membership)
      unfold tryPositions
      refine Triple.bind (keeps_rotate currentInside here bestScore bestSnap) fun _ => ?_
      refine Triple.bind (score_spec.strengthen fun _ held => held.1) fun candidate => ?_
      refine Triple.bind (metropolis_spec _) fun accepted => ?_
      cases accepted with
      | true =>
          refine Triple.bind (recordBest_spec best) fun _ => ?_
          exact Triple.pure fun _ recorded => ⟨nofun, fun _ same => Option.some.inj same ▸ recorded⟩
      | false => exact later.strengthen fun _ held => held.1

theorem judgeReorder_spec {start : Engine Choice} (consistent : Consistent problem start)
    (several : 2 ≤ problem.count) (cur : ℤ) :
    Triple (· = start) (judgeReorder problem cur) (Judged problem start) := by
  have kept : ∀ rng, Kept problem start.bestScore start.bestSnap { start with rng := rng } :=
    fun rng => Kept.redraw ⟨consistent.live, rfl, rfl⟩ rng
  have positive : 0 < problem.count := by omega
  unfold judgeReorder
  refine Triple.bind Triple.get fun before => ?_
  -- the draw comes before the snapshot and leaves what the snapshot holds alone
  have draws : Triple (fun engine => before = engine ∧ engine = start) (chooseReinsertionSource problem)
      fun lifted engine => lifted < problem.count ∧ ∃ rng, engine = { start with rng := rng } := by
    rintro engine ⟨-, rfl⟩
    exact ⟨_, _, rfl, Nat.mod_lt _ positive, _, rfl⟩
  refine Triple.bind draws fun lifted => ?_
  have upperInside := sweepUpperBound_lt several lifted ((List.range problem.count).map fun position =>
    before.packer.layout.allocated (before.packer.permutation.getD position 0))
  generalize sweepUpperBound problem lifted _ = upper at upperInside ⊢
  refine Triple.bind snapshot_spec fun snap => ?_
  rintro engine ⟨rfl, liftedInside, rng, rfl⟩
  suffices runs : Triple (Kept problem start.bestScore start.bestSnap) _ (Judged problem start) from
    runs _ (kept rng)
  extract_lets afterFront
  have rest : ∀ first : List (ℕ × ℚ), (∀ entry ∈ first, entry.1 = 0) →
      Triple (Kept problem start.bestScore start.bestSnap) (afterFront first) (Judged problem start) := by
    intro first atFront
    refine Triple.bind (keeps_probe lifted (fun position membership => ?_) _ _) fun later => ?_
    · have bounds := List.mem_range'_1.mp membership
      omega
    rintro engine ⟨keptWalk, fromWalk⟩
    have inside : ∀ position ∈ ((first ++ later).insertionSort fun left right =>
        right.2 ≤ left.2).map Prod.fst, position < problem.count := by
      intro position isPosition
      obtain ⟨entry, isEntry, rfl⟩ := List.mem_map.mp isPosition
      rcases List.mem_append.mp ((List.mem_insertionSort _).mp isEntry) with isFirst | isLater
      · rw [atFront entry isFirst]
        exact positive
      · have bounds := List.mem_range'_1.mp (fromWalk entry isLater)
        omega
    have tried := tryPositions_spec consistent.best cur upperInside inside
    refine Triple.bind tried (fun outcome => ?_) _ keptWalk
    rintro engine ⟨rejected, accepted⟩
    cases outcome with
    | none =>
        obtain ⟨_, next, adopts, judged⟩ := adopt_spec start engine (rejected rfl)
        exact ⟨none, next, by simp [adopts], judged⟩
    | some candidate => exact ⟨_, _, rfl, (accepted candidate rfl).judged⟩
  apply Lib.Triple.ite
  · exact fun _ => rest [] fun _ isEntry => absurd isEntry List.not_mem_nil
  · intro _
    refine Triple.bind (keeps_rotate liftedInside positive _ _) fun _ => ?_
    refine Triple.bind (Triple.get.strengthen fun _ held => held.1) fun atFront => ?_
    exact (rest [(0, atFront.packer.totalQuality)] fun entry isEntry => by
      rw [List.mem_singleton.mp isEntry]).strengthen fun _ held => held.2

end TorchSpyre.CoOptimizer
