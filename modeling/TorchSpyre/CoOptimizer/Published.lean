import Mathlib
import TorchSpyre.CoOptimizer.Judging
import TorchSpyre.CoOptimizer.Trimming

/-!
# Runs of the annealer and the state it publishes

Every sequence of judged and calibration moves keeps the incremental state right. The published
state is the best one of such a run, so what it keeps resident is what its divisions allow.
-/

namespace TorchSpyre.CoOptimizer

open Lib
open Relation (ReflTransGen)
open Scratchpad.PermLayout (Solver)

variable {Choice Index : Type} {problem : Problem Choice Index}

/-! ## One turn -/

theorem judge_spec {start : Engine Choice} (consistent : Consistent problem start) {move : Move}
    (possible : Possible problem move) (cur : ℤ) :
    Triple (· = start) (judge problem move cur) (Judged problem start) := by
  unfold judge
  apply Triple.ite
  · rintro rfl
    exact judgeReorder_spec consistent possible cur
  · exact fun _ => judgeMove_spec consistent possible cur

/-- A state at its running objective, with a best state no worse. -/
structure Steady (problem : Problem Choice Index) (engine : Engine Choice) (cur : ℤ) : Prop where
  consistent : Consistent problem engine
  running : engine.score problem = cur
  reached : engine.bestScore ≤ cur

theorem Steady.redraw {engine : Engine Choice} {cur : ℤ} (steady : Steady problem engine cur)
    (rng : Rng) : Steady problem { engine with rng := rng } cur :=
  ⟨⟨steady.consistent.live.congr rfl rfl rfl, steady.consistent.best⟩, steady.running, steady.reached⟩

/-- A step turned back leaves the state at the objective it had. -/
theorem Judged.steady_of_rejected {start finish : Engine Choice} {cur : ℤ}
    (judged : Judged problem start none finish) (steady : Steady problem start cur) :
    Steady problem finish cur := by
  obtain ⟨samePacker, sameChosen, sameCount, sameScore, sameSnap⟩ := judged.rejected rfl
  refine ⟨⟨steady.consistent.live.congr samePacker sameChosen sameCount, ?_⟩, ?_, ?_⟩
  · rw [sameScore, sameSnap]
    exact steady.consistent.best
  · rw [Engine.score_congr samePacker sameChosen, steady.running]
  · rw [sameScore]
    exact steady.reached

theorem Judged.steady {start finish : Engine Choice} {cur : ℤ} {outcome : Option ℤ}
    (judged : Judged problem start outcome finish) (steady : Steady problem start cur) :
    Steady problem finish (outcome.getD cur) ∧ finish.bestScore ≤ start.bestScore := by
  cases outcome with
  | none => exact ⟨judged.steady_of_rejected steady, (judged.rejected rfl).2.2.2.1.le⟩
  | some candidate =>
      have recorded := judged.accepted candidate rfl
      exact ⟨⟨recorded.consistent, recorded.score, recorded.reached⟩, recorded.lowered⟩

theorem step_spec {start : Engine Choice} {cur : ℤ} (steady : Steady problem start cur) {move : Move}
    (possible : Possible problem move) :
    Triple (· = start) (step problem move cur) fun next finish =>
      Steady problem finish next ∧ finish.bestScore ≤ start.bestScore := by
  unfold step
  refine Triple.bind (judge_spec steady.consistent possible cur) fun outcome => ?_
  exact Triple.pure fun _ judged => judged.steady steady

theorem calibrationMove_spec {start : Engine Choice} (consistent : Consistent problem start) :
    Triple (· = start) (calibrationMove problem) fun _ => Judged problem start none := by
  have kept : Kept problem start.bestScore start.bestSnap start := ⟨consistent.live, rfl, rfl⟩
  unfold calibrationMove
  refine Triple.bind snapshot_spec fun snap => ?_
  rintro _ ⟨rfl, rfl⟩
  refine Triple.bind (keeps_chooseMove _ _) (fun move => ?_) _ kept
  rintro engine ⟨stillKept, possible⟩
  refine Triple.bind (keeps_executeMove possible _ _) (fun _ => ?_) _ stillKept
  exact (adopt_spec _).strengthen fun _ held => held.1

/-! ## Runs -/

/-- One turn of the annealer, at any draws: a calibration move, or a judged one against the running
objective. -/
inductive Turn (problem : Problem Choice Index) : Engine Choice × ℤ → Engine Choice × ℤ → Prop
  | calibration {engine next : Engine Choice} {cur : ℤ} (rng : Rng)
      (ran : (calibrationMove problem).run { engine with rng := rng } = .ok (⟨⟩, next)) :
      Turn problem (engine, cur) (next, cur)
  | judged {engine next : Engine Choice} {cur score : ℤ} {move : Move} (rng : Rng)
      (applicable : move ∈ applicableMoves problem engine)
      (ran : (step problem move cur).run { engine with rng := rng } = .ok (score, next)) :
      Turn problem (engine, cur) (next, score)

theorem Turn.steady {before after : Engine Choice × ℤ} (turn : Turn problem before after)
    (steady : Steady problem before.1 before.2) :
    Steady problem after.1 after.2 ∧ after.1.bestScore ≤ before.1.bestScore := by
  cases turn with
  | calibration rng ran =>
      obtain ⟨_, finish, succeeds, judged⟩ := calibrationMove_spec (steady.redraw rng).consistent _ rfl
      obtain rfl : finish = _ := congrArg Prod.snd (Except.ok.inj (succeeds.symm.trans ran))
      exact judged.steady (steady.redraw rng)
  | judged rng applicable ran =>
      obtain ⟨value, finish, succeeds, isSteady, lowered⟩ :=
        step_spec (steady.redraw rng) (possible_of_applicable applicable) _ rfl
      obtain ⟨rfl, rfl⟩ := Prod.mk.inj (Except.ok.inj (succeeds.symm.trans ran))
      exact ⟨isSteady, lowered⟩

theorem run_steady {before after : Engine Choice × ℤ} (run : ReflTransGen (Turn problem) before after)
    (steady : Steady problem before.1 before.2) :
    Steady problem after.1 after.2 ∧ after.1.bestScore ≤ before.1.bestScore := by
  induction run with
  | refl => exact ⟨steady, le_rfl⟩
  | tail _ turn inductionHypothesis =>
      obtain ⟨isSteady, lowered⟩ := turn.steady inductionHypothesis.1
      exact ⟨isSteady, lowered.trans inductionHypothesis.2⟩

/-- A score the run has passed is no better than the best one at its end. -/
theorem bestScore_le_of_run {before after : Engine Choice × ℤ}
    (run : ReflTransGen (Turn problem) before after) (steady : Steady problem before.1 before.2) :
    after.1.bestScore ≤ before.2 :=
  (run_steady run steady).2.trans steady.reached

/-! ## The seed -/

/-- The state before the first move; the seed is its own best state. -/
def seedEngine (problem : Problem Choice Index) (packer : Solver) (chosen : Divisions Choice)
    (rng : Rng) : Engine Choice :=
  let nEligible : ℤ := (List.range problem.count).countP (problem.eligible chosen)
  { packer := packer
    chosen := chosen
    nEligible := nEligible
    rng := rng
    bestScore := problem.scoreOf chosen packer.layout.address
    bestSnap := ⟨packer, chosen, nEligible⟩ }

section Seed

variable {shuffle : ℕ → List ℕ → List ℕ} {pi : List ℤ} {alignment : ℤ} {chosen : Divisions Choice}
  {packer : Solver}

theorem length_lifetimeBuffers : (lifetimeBuffers problem chosen).length = problem.count := by
  rw [lifetimeBuffers, List.length_map, List.length_zipIdx, Problem.count]

theorem lifetimeBuffers_size {idx : ℕ} (inside : idx < problem.count) :
    ((lifetimeBuffers problem chosen).map fun buffer => (buffer.size : ℤ)).getD idx 0 =
      problem.perCoreSize idx (chosen idx) := by
  have isEntry : problem.bufs.zipIdx[idx]? = some (problem.bufs[idx], idx) := by
    rw [List.getElem?_zipIdx, List.getElem?_eq_getElem inside, Option.map_some, Nat.zero_add]
  have nonnegative : 0 ≤ problem.perCoreSize idx (chosen idx) := perCoreSize_nonneg idx (chosen idx)
  rw [List.getD_eq_getElem?_getD, lifetimeBuffers, List.getElem?_map, List.getElem?_map, isEntry]
  exact Int.toNat_of_nonneg nonnegative

theorem buildSeedPacker_coherent (shuffled : ∀ buffer set, (shuffle buffer set).Perm set)
    (built : buildSeedPacker problem shuffle pi alignment chosen = .ok packer) (rng : Rng) :
    Coherent problem (seedEngine problem packer chosen rng) := by
  obtain ⟨-, -, static, isStatic, isPacker⟩ := Solver.new_eq_ok built
  obtain ⟨-, count, -⟩ := Scratchpad.PermLayout.build_wellFormed shuffled isStatic
  refine ⟨Solver.new_sound shuffled built, ?_, ?_, ?_, rfl⟩
  · show packer.static.n = _
    rw [isPacker]
    exact count.trans length_lifetimeBuffers
  · intro idx inside
    show packer.sizes idx = _
    rw [isPacker]
    exact lifetimeBuffers_size inside
  · intro idx inside
    show packer.eligible idx = _
    rw [isPacker]
    show ((List.range problem.count).map (problem.eligible chosen)).getD idx false = _
    rw [List.getD_eq_getElem?_getD, List.getElem?_map, List.getElem?_range inside]
    rfl

theorem seed_steady (shuffled : ∀ buffer set, (shuffle buffer set).Perm set)
    (built : buildSeedPacker problem shuffle pi alignment chosen = .ok packer) (rng : Rng) :
    Steady problem (seedEngine problem packer chosen rng)
      (problem.scoreOf chosen packer.layout.address) := by
  have coherent := buildSeedPacker_coherent shuffled built rng
  exact ⟨⟨coherent, Best.of_live coherent rfl⟩, rfl, le_rfl⟩

end Seed

/-! ## The published state -/

/-- What holds of every buffer that a state keeps resident. -/
structure ResidentAsDivided (problem : Problem Choice Index) (engine : Engine Choice) (idx : ℕ) :
    Prop where
  unpinned : problem.bufs[idx]?.bind Buffer.residencyReason = none
  fits : problem.perCoreSize idx (engine.chosen idx) ≤ problem.limit
  untiledReads : problem.tilingsArePossible = true → (engine.chosen idx).tiling.isUntiled = true →
    ∀ edge ∈ problem.children idx, (engine.chosen edge.1).tiling.isUntiled = true
  compatible : ∀ edge ∈ problem.children idx,
    edge.2.compatible (engine.chosen idx) (engine.chosen edge.1) = true

theorem residentAsDivided_of_eligible {engine : Engine Choice} {idx : ℕ}
    (eligible : problem.eligible engine.chosen idx = true) : ResidentAsDivided problem engine idx := by
  simp only [Problem.eligible, Bool.and_eq_true, Bool.not_eq_true', Option.isNone_iff_eq_none,
    decide_eq_false_iff_not, not_lt, List.all_eq_true] at eligible
  obtain ⟨⟨⟨unpinned, fits⟩, notAcross⟩, compatible⟩ := eligible
  refine ⟨unpinned, fits, fun possible untiled => ?_, compatible⟩
  have noTiledChild : ((problem.children idx).any fun edge =>
      !(engine.chosen edge.1).tiling.isUntiled) = false := by
    rw [Problem.readAcrossATilingBoundary, possible, untiled] at notAcross
    exact notAcross
  intro edge isChild
  have notTiled := List.any_eq_false.mp noTiledChild edge isChild
  simpa using notTiled

/-- Only an eligible buffer has an address. -/
theorem Coherent.eligible_of_address {engine : Engine Choice} (coherent : Coherent problem engine)
    {idx : ℕ} (inside : idx < problem.count) (resident : engine.packer.layout.address idx ≠ none) :
    problem.eligible engine.chosen idx = true := by
  have inPacker : idx < engine.packer.static.n := by rw [coherent.count]; exact inside
  have inOrder : idx ∈ engine.packer.permutation :=
    coherent.sound.consistent.permuted.mem_iff.mpr (List.mem_range.mpr inPacker)
  obtain ⟨address, located⟩ := Option.ne_none_iff_exists'.mp resident
  rw [coherent.sound.results.address idx inPacker] at located
  have flagged := coherent.sound.consistent.plain_isLayout.eligible_of_allocated inOrder
    (Scratchpad.PermLayout.Layout.address_eq_some.mp located).1
  rw [← coherent.flags idx inside]
  exact flagged

/-- The state that is published from a run's end: the best one seen. -/
structure Published (problem : Problem Choice Index) (bestScore : ℤ) (engine : Engine Choice) :
    Prop where
  coherent : Coherent problem engine
  resident : ∀ idx < problem.count, engine.packer.layout.address idx ≠ none →
    ResidentAsDivided problem engine idx
  score : engine.score problem = bestScore

theorem Steady.published {engine : Engine Choice} {cur : ℤ} (steady : Steady problem engine cur) :
    Published problem engine.bestScore (engine.adopted engine.bestSnap) := by
  have coherent := steady.consistent.best.coherent engine
  refine ⟨coherent, fun idx inside resident => ?_, steady.consistent.best.score engine⟩
  exact residentAsDivided_of_eligible (coherent.eligible_of_address inside resident)

/-! ## The annealing -/

theorem chooseMove_spec (start : Engine Choice) :
    Triple (· = start) (chooseMove problem) fun move finish =>
      (∃ rng, finish = { start with rng := rng }) ∧
        (move = .none ∨ move ∈ applicableMoves problem start) := by
  unfold chooseMove
  refine Triple.bind Triple.get fun engine => ?_
  rintro _ ⟨rfl, rfl⟩
  by_cases noMoves : applicableMoves problem engine = []
  · rw [if_pos noMoves]
    exact ⟨.none, engine, rfl, ⟨engine.rng, rfl⟩, .inl rfl⟩
  · rw [if_neg noMoves]
    obtain ⟨move, isMove, drawn⟩ := choice_run noMoves engine
    exact ⟨move, _, drawn, ⟨engine.rng.rest, rfl⟩, .inr isMove⟩

/-- A run from one state to another, the generator of the last one apart. -/
def RunsTo (problem : Problem Choice Index) (start : Engine Choice × ℤ) (finish : Engine Choice) :
    Prop :=
  ∃ engine cur rng, ReflTransGen (Turn problem) start (engine, cur) ∧
    finish = { engine with rng := rng }

theorem calibrationSteps_spec {cur : ℤ} (left : ℕ) {start : Engine Choice}
    (steady : Steady problem start cur) :
    Triple (· = start) (calibrationSteps problem left) fun _ finish =>
      ReflTransGen (Turn problem) (start, cur) (finish, cur) := by
  induction left generalizing start with
  | zero =>
      refine Triple.pure ?_
      rintro start rfl
      exact .refl
  | succ left inductionHypothesis =>
      unfold calibrationSteps
      rintro start rfl
      obtain ⟨_, next, ran, judged⟩ := calibrationMove_spec steady.consistent _ rfl
      have turn : Turn problem (start, cur) (next, cur) := .calibration start.rng ran
      obtain ⟨_, finish, ranRest, run⟩ := inductionHypothesis (turn.steady steady).1 _ rfl
      refine ⟨⟨⟩, finish, ?_, .head turn run⟩
      rw [StateT.run_bind, ran]
      exact ranRest

theorem coolingSteps_spec (left : ℕ) {start : Engine Choice} {cur : ℤ}
    (steady : Steady problem start cur) :
    Triple (· = start) (coolingSteps problem left cur) fun _ => RunsTo problem (start, cur) := by
  induction left generalizing start cur with
  | zero =>
      refine Triple.pure ?_
      rintro start rfl
      exact ⟨start, cur, start.rng, .refl, rfl⟩
  | succ left inductionHypothesis =>
      unfold coolingSteps
      refine Triple.bind (chooseMove_spec start) fun move => ?_
      rintro _ ⟨⟨rng, rfl⟩, listed⟩
      split
      next => exact ⟨⟨⟩, _, rfl, start, cur, rng, .refl, rfl⟩
      next isMove =>
        have applicable : move ∈ applicableMoves problem start := listed.resolve_left isMove
        obtain ⟨score, next, ran, isSteady, -⟩ :=
          step_spec (steady.redraw rng) (possible_of_applicable applicable) _ rfl
        have turn : Turn problem (start, cur) (next, score) := .judged rng applicable ran
        obtain ⟨_, finish, ranRest, engine, last, draws, run, isFinish⟩ := inductionHypothesis isSteady _ rfl
        refine ⟨⟨⟩, finish, ?_, engine, last, draws, .head turn run, isFinish⟩
        rw [StateT.run_bind, ran]
        exact ranRest

/-- The annealing publishes the best state of a run. -/
theorem anneal_spec {start : Engine Choice} {cur : ℤ} (steady : Steady problem start cur)
    (isBest : start.bestScore = cur)
    (isSnap : start.bestSnap = ⟨start.packer, start.chosen, start.nEligible⟩) :
    Triple (· = start) (anneal problem) fun _ finish =>
      ∃ last, RunsTo problem (start, cur) last ∧ finish = last.adopted last.bestSnap := by
  rintro start rfl
  have began : (startBest problem).run start = .ok (cur, start) := by
    have isStart : { start with
        bestScore := start.score problem
        bestSnap := ⟨start.packer, start.chosen, start.nEligible⟩ } = start := by
      rw [steady.running, ← isBest, ← isSnap]
    have ran : (startBest problem).run start = .ok (start.score problem, { start with
        bestScore := start.score problem
        bestSnap := ⟨start.packer, start.chosen, start.nEligible⟩ }) := rfl
    rw [ran, isStart, steady.running]
  have begins : Triple (· = start) (startBest problem) fun value engine => value = cur ∧ engine = start := by
    rintro _ rfl
    exact ⟨cur, _, began, rfl, rfl⟩
  unfold anneal
  refine Triple.bind begins (fun value => ?_) start rfl
  refine Triple.bind Triple.get fun first => ?_
  have cools : Triple (· = start) (do
        calibrationSteps problem (min 64 (4 * problem.count + 8))
        coolingSteps problem (stepBudget problem.count) cur) fun _ => RunsTo problem (start, cur) := by
    refine Triple.bind (calibrationSteps_spec _ steady) fun _ => ?_
    intro engine calibrated
    obtain ⟨_, finish, ran, last, score, rng, run, isFinish⟩ :=
      coolingSteps_spec (stepBudget problem.count) (run_steady calibrated steady).1 engine rfl
    exact ⟨⟨⟩, finish, ran, last, score, rng, calibrated.trans run, isFinish⟩
  have publishes : Triple (RunsTo problem (start, cur)) publish fun _ finish =>
      ∃ last, RunsTo problem (start, cur) last ∧ finish = last.adopted last.bestSnap :=
    fun last runsTo => ⟨⟨⟩, _, rfl, last, runsTo, rfl⟩
  rintro engine ⟨rfl, rfl, rfl⟩
  split
  next =>
    have whole := cools.bind fun _ => publishes
    rw [bind_assoc] at whole
    exact whole _ rfl
  next => exact publishes _ ⟨_, _, _, .refl, rfl⟩

/-- Between any moves the packer's sizes and flags and the eligible count are those of the divisions,
a rejected step leaves the state as it was, and what the annealing publishes is the best state of
its run, resident as its divisions allow. -/
theorem anneal_coherent {shuffle : ℕ → List ℕ → List ℕ} {pi : List ℤ} {alignment : ℤ}
    {chosen : Divisions Choice} {packer : Solver}
    (shuffled : ∀ buffer set, (shuffle buffer set).Perm set)
    (built : buildSeedPacker problem shuffle pi alignment chosen = .ok packer) (rng : Rng) :
    let seed := (seedEngine problem packer chosen rng, problem.scoreOf chosen packer.layout.address)
    (∀ engine cur, ReflTransGen (Turn problem) seed (engine, cur) →
      Coherent problem engine ∧ engine.score problem = cur ∧
      (∀ move ∈ applicableMoves problem engine, ∀ draws,
        ∃ outcome next, (judge problem move cur).run { engine with rng := draws } = .ok (outcome, next) ∧
          (outcome = none → next.packer = engine.packer ∧ next.chosen = engine.chosen)) ∧
      Published problem engine.bestScore (engine.adopted engine.bestSnap) ∧
      ∀ earlier score, ReflTransGen (Turn problem) seed (earlier, score) →
        ReflTransGen (Turn problem) (earlier, score) (engine, cur) → engine.bestScore ≤ score) ∧
    ∃ last finish, RunsTo problem seed last ∧
      (anneal problem).run seed.1 = .ok (⟨⟩, finish) ∧ finish = last.adopted last.bestSnap ∧
      Published problem last.bestScore finish := by
  intro seed
  have seedSteady : Steady problem seed.1 seed.2 := seed_steady shuffled built rng
  refine ⟨fun engine cur run => ?_, ?_⟩
  · have steady := (run_steady run seedSteady).1
    refine ⟨steady.consistent.live, steady.running, fun move applicable draws => ?_, steady.published, ?_⟩
    · obtain ⟨outcome, next, ran, judged⟩ := judge_spec (steady.redraw draws).consistent
        (possible_of_applicable applicable) cur _ rfl
      refine ⟨outcome, next, ran, fun isRejected => ?_⟩
      subst isRejected
      obtain ⟨samePacker, sameChosen, -⟩ := judged.rejected rfl
      exact ⟨samePacker, sameChosen⟩
    · intro earlier score reached later
      exact bestScore_le_of_run later (run_steady reached seedSteady).1
  · obtain ⟨_, finish, ran, last, runsTo, isFinish⟩ := anneal_spec seedSteady rfl rfl _ rfl
    have published : Published problem last.bestScore finish := by
      obtain ⟨engine, cur, draws, run, rfl⟩ := runsTo
      exact isFinish ▸ ((run_steady run seedSteady).1.redraw draws).published
    exact ⟨last, finish, runsTo, ran, isFinish, published⟩

theorem anneal_coherent_stretch :
    ∃ packer, buildSeedPacker misreadStretch (fun _ set => set) [0, 1, 2] 128 (fun _ => halvedConfig) =
        .ok packer ∧
      ∃ last finish, (anneal misreadStretch).run (seedEngine misreadStretch packer
          (fun _ => halvedConfig) id) = .ok (⟨⟩, finish) ∧
        Published misreadStretch last finish := by
  have accepted : (buildSeedPacker misreadStretch (fun _ set => set) [0, 1, 2] 128
      fun _ => halvedConfig).toOption.isSome = true := by decide +kernel
  cases built : buildSeedPacker misreadStretch (fun _ set => set) [0, 1, 2] 128 fun _ => halvedConfig with
  | error message => simp [built, Except.toOption] at accepted
  | ok packer =>
      obtain ⟨last, finish, -, ran, -, published⟩ :=
        (anneal_coherent (fun _ set => List.Perm.refl set) built id).2
      exact ⟨packer, rfl, last.bestScore, finish, ran, published⟩

end TorchSpyre.CoOptimizer
