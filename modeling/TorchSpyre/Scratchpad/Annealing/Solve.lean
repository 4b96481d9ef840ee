import Mathlib
import TorchSpyre.Scratchpad.Annealing.RotateStep
import TorchSpyre.Scratchpad.PermLayout.Safety

/-!
# Whole runs of the annealer

A step rotates and cleans up, and the best order seen so far is kept. Whatever is drawn and whenever
the schedule ends, the result is the safe plan of that order.
-/

namespace TorchSpyre.Scratchpad.PermLayout

open Lib

/-- `SimulatedAnnealingLayoutSolver` -/
structure Annealer where
  plan : Solver
  bestQuality : ℚ
  bestPermutation : List ℕ
  qualityLog : List ℚ

namespace Annealer

def start (plan : Solver) : Annealer := ⟨plan, plan.totalQuality, plan.permutation, []⟩

variable (annealer : Annealer)

/-- Every buffer is allocated. -/
def isOptimal : Bool := annealer.plan.totalAllocatedCount = annealer.plan.static.n

def record (plan : Solver) : Annealer where
  plan := plan
  bestQuality := if annealer.bestQuality < plan.totalQuality then plan.totalQuality else annealer.bestQuality
  bestPermutation :=
      if annealer.bestQuality < plan.totalQuality then plan.permutation else annealer.bestPermutation
  qualityLog := annealer.qualityLog ++ [plan.totalQuality]

def annealStep (passes : ℕ) {n : ℕ} (draws : Draws n) : Option (Except String Annealer) :=
  match annealer.plan.annealingStepRotate draws with
  | .error message => some (.error message)
  | .ok (plan, none) => some (.ok (annealer.record plan))
  | .ok (plan, some (i, j)) =>
      (plan.annealingStepSwap passes i j).map fun swapped => swapped.map annealer.record

/-- One step for each temperature of the schedule, until every buffer fits. -/
def anneal (passes : ℕ) {n : ℕ} : List (Draws n) → Annealer → Option (Except String Annealer)
  | [], annealer => some (.ok annealer)
  | draws :: rest, annealer =>
      match annealer.annealStep passes draws with
      | none => none
      | some (.error message) => some (.error message)
      | some (.ok next) => if next.isOptimal then some (.ok next) else anneal passes rest next

def solve (shuffle : ℕ → List ℕ → List ℕ) (buffers : List LifetimeBoundBuffer) (capacity alignment : ℤ)
    (passes : ℕ) {n : ℕ} (schedule : List (Draws n)) : Option (Except String Annealer) :=
  if annealer.isOptimal then some (.ok annealer)
  else
    (anneal passes schedule annealer).map fun annealed => annealed.bind fun last =>
      if last.plan.permutation = last.bestPermutation then .ok last
      else
        (Solver.new shuffle buffers (last.bestPermutation.map Int.ofNat) capacity alignment none).map
          fun plan => { last with plan := plan }

end Annealer

namespace Solver

/-! ## The swaps of a step -/

theorem swapLoop_mono {passes more : ℕ} (enough : passes ≤ more) {window : SwapWindow}
    {result : Except String Solver} (ends : swapLoop passes window = some result) :
    swapLoop more window = some result := by
  induction passes generalizing more window with
  | zero => cases ends
  | succ passes inductionHypothesis =>
      obtain ⟨more, rfl⟩ : ∃ later, more = later + 1 := ⟨more - 1, by omega⟩
      rw [swapLoop] at ends ⊢
      split at ends
      next isOpen =>
        rw [if_pos isOpen]
        split at ends
        next => exact ends
        next => exact inductionHypothesis (by omega) ends
      next closed => rwa [if_neg closed]

theorem annealingStepSwap_ends {plan : Solver} (sound : plan.Sound) {i j : ℕ} (distinct : i ≠ j)
    (iInside : i < plan.static.n) (jInside : j < plan.static.n) :
    ∃ last enough, last.Sound ∧ SameLayout plan last ∧
      ∀ passes ≥ enough, plan.annealingStepSwap passes i j = some (.ok last) := by
  have length := sound.length_permutation
  obtain ⟨enough, last, ends, lastSound, same, -⟩ := @swapLoop_ends plan ((min (i : ℤ) j).toNat - 1)
    (if (max (i : ℤ) j).toNat + 1 = plan.permutation.length then plan.permutation.length - 2
      else (max (i : ℤ) j).toNat) sound (by split <;> omega)
  refine ⟨last, enough, lastSound, same, ?_⟩
  intro passes isEnough
  rw [annealingStepSwap, if_neg (by omega), if_neg (by omega)]
  exact swapLoop_mono isEnough ends

theorem SameLayout.config {plan next : Solver} (same : SameLayout plan next) : next.config = plan.config := by
  unfold Solver.config
  rw [same.static, same.sizes, same.eligible]

end Solver

/-- The quality of an order. -/
def Config.orderQuality (config : Config) (order : List ℕ) : ℚ :=
  config.qualityOf (config.fromScratch order) order

theorem Solver.Sound.orderQuality {plan : Solver} (sound : plan.Sound) :
    plan.config.orderQuality plan.permutation = plan.totalQuality :=
  sound.results.quality.symm

namespace Annealer

/-! ## A run of the loop -/

/-- The best order seen so far and its quality. -/
structure Running (start : Solver) (annealer : Annealer) : Prop where
  sound : annealer.plan.Sound
  config : annealer.plan.config = start.config
  permuted : annealer.bestPermutation.Perm (List.range start.static.n)
  best : annealer.bestQuality = start.config.orderQuality annealer.bestPermutation
  improves : start.totalQuality ≤ annealer.bestQuality
  reached : annealer.plan.totalQuality ≤ annealer.bestQuality
  logged : ∀ quality ∈ annealer.qualityLog, quality ≤ annealer.bestQuality
  attained : annealer.bestQuality = start.totalQuality ∨ annealer.bestQuality ∈ annealer.qualityLog

section Running

variable {start : Solver} {annealer : Annealer} {n : ℕ}

theorem running_start (sound : start.Sound) : Running start (.start start) where
  sound := sound
  config := rfl
  permuted := sound.consistent.permuted
  best := sound.orderQuality.symm
  improves := le_rfl
  reached := le_rfl
  logged := List.forall_mem_nil _
  attained := .inl rfl

theorem Running.count (running : Running start annealer) : annealer.plan.static.n = start.static.n :=
  congrArg (fun config => config.static.n) running.config

theorem Running.record (running : Running start annealer) {plan : Solver} (sound : plan.Sound)
    (sameConfig : plan.config = start.config) : Running start (annealer.record plan) := by
  unfold Annealer.record
  by_cases better : annealer.bestQuality < plan.totalQuality
  · simp only [if_pos better]
    refine ⟨sound, sameConfig, ?_, ?_, running.improves.trans better.le, le_rfl, ?_, ?_⟩
    · have count : plan.static.n = start.static.n := congrArg (fun config => config.static.n) sameConfig
      exact count ▸ sound.consistent.permuted
    · rw [← sameConfig, sound.orderQuality]
    · intro quality listed
      rcases List.mem_append.mp listed with earlier | last
      · exact (running.logged quality earlier).trans better.le
      · exact (List.mem_singleton.mp last).le
    · exact .inr (List.mem_append_right _ (List.mem_singleton_self _))
  · simp only [if_neg better]
    refine ⟨sound, sameConfig, running.permuted, running.best, running.improves, not_lt.mp better, ?_, ?_⟩
    · intro quality listed
      rcases List.mem_append.mp listed with earlier | last
      · exact running.logged quality earlier
      · rw [List.mem_singleton.mp last]
        exact not_lt.mp better
    · exact running.attained.imp_right (List.mem_append_left _)

/-- A step raises nothing, ends and logs one quality. -/
theorem Running.annealStep (running : Running start annealer) (count : start.static.n = n) (draws : Draws n) :
    ∃ next enough, Running start next ∧ next.qualityLog.length = annealer.qualityLog.length + 1 ∧
      ∀ passes ≥ enough, annealer.annealStep passes draws = some (.ok next) := by
  have logs : ∀ plan, (annealer.record plan).qualityLog.length = annealer.qualityLog.length + 1 := by
    intro plan
    simp [Annealer.record]
  obtain ⟨buffer, rotated, move, here, step, rotates⟩ :=
    @Solver.annealingStepRotate_rotates annealer.plan n draws running.sound (running.count.trans count)
  cases rotates with
  | rejected =>
      refine ⟨annealer.record annealer.plan, 0, running.record running.sound running.config, logs _, ?_⟩
      intro passes _
      rw [Annealer.annealStep, step]
  | @accepted rotated position elsewhere inside _ reinserted =>
      have sameCount := reinserted.count
      have bound := Solver.upperBound_lt running.sound here
      have below : (draws.chosen : ℕ) < rotated.static.n := by
        rw [sameCount, running.count, count]
        exact draws.chosen.isLt
      obtain ⟨last, enough, sound, same, ends⟩ :=
        Solver.annealingStepSwap_ends reinserted.sound (Ne.symm elsewhere) below (by omega)
      have config := same.config.trans (reinserted.config.trans running.config)
      refine ⟨annealer.record last, enough, running.record sound config, logs _, ?_⟩
      intro passes isEnough
      rw [Annealer.annealStep, step]
      dsimp only
      rw [ends passes isEnough]
      rfl

/-- The loop ends with every temperature used, or with every buffer allocated. -/
theorem Running.anneal (running : Running start annealer) (count : start.static.n = n)
    (schedule : List (Draws n)) :
    ∃ last enough, Running start last ∧ (last.isOptimal = true ∨
        last.qualityLog.length = annealer.qualityLog.length + schedule.length) ∧
      ∀ passes ≥ enough, Annealer.anneal passes schedule annealer = some (.ok last) := by
  induction schedule generalizing annealer with
  | nil => exact ⟨annealer, 0, running, .inr rfl, fun _ _ => rfl⟩
  | cons draws rest inductionHypothesis =>
      obtain ⟨next, enough, nextRunning, logs, steps⟩ := running.annealStep count draws
      cases isOptimal : next.isOptimal with
      | true =>
          refine ⟨next, enough, nextRunning, .inl isOptimal, ?_⟩
          intro passes isEnough
          rw [Annealer.anneal, steps passes isEnough]
          exact if_pos isOptimal
      | false =>
          obtain ⟨last, later, lastRunning, stops, ends⟩ := inductionHypothesis nextRunning
          refine ⟨last, max enough later, lastRunning, ?_, ?_⟩
          · rw [logs] at stops
            rw [List.length_cons]
            exact stops.imp_right fun isLength => by omega
          · intro passes isEnough
            rw [Annealer.anneal, steps passes ((le_max_left _ _).trans isEnough)]
            dsimp only
            rw [isOptimal, if_neg Bool.false_ne_true]
            exact ends passes ((le_max_right _ _).trans isEnough)

end Running

end Annealer

/-! ## The result -/

section Result

variable {shuffle : ℕ → List ℕ → List ℕ} {buffers : List LifetimeBoundBuffer} {permutation : List ℤ}
  {capacity alignment : ℤ} {start : Solver}

theorem insertionSort_order {n : ℕ} {order : List ℕ} (permuted : order.Perm (List.range n)) :
    (order.map Int.ofNat).insertionSort (· ≤ ·) = (List.range n).map Int.ofNat := by
  have sameItems := (List.perm_insertionSort (· ≤ ·) (order.map Int.ofNat)).trans (permuted.map Int.ofNat)
  apply sameItems.eq_of_pairwise' (List.pairwise_insertionSort _ _)
  apply List.pairwise_map.mpr
  exact List.pairwise_lt_range.imp fun before => Int.ofNat_le.mpr before.le

/-- The packer takes any order of the buffers. -/
theorem Solver.new_reordered (shuffled : ∀ buffer set, (shuffle buffer set).Perm set)
    (constructed : Solver.new shuffle buffers permutation capacity alignment none = .ok start)
        {order : List ℕ}
    (permuted : order.Perm (List.range start.static.n)) :
    ∃ plan, Solver.new shuffle buffers (order.map Int.ofNat) capacity alignment none = .ok plan ∧ plan.Sound ∧
      plan.config = start.config ∧ plan.permutation = order := by
  obtain ⟨positive, -, static, built, rfl⟩ := Solver.new_eq_ok constructed
  obtain ⟨-, count, -⟩ := build_wellFormed shuffled built
  have isOrder : order.Perm (List.range buffers.length) := count ▸ permuted
  have same : (order.map Int.ofNat).map Int.toNat = order := by
    rw [List.map_map]
    exact List.map_id order
  have accepted : Solver.new shuffle buffers (order.map Int.ofNat) capacity alignment none =
      .ok (recomputeAll (initial static buffers order (List.replicate buffers.length true))) := by
    rw [Solver.new, if_neg (not_le.mpr positive), if_neg (not_not.mpr (insertionSort_order isOrder)), built]
    simp only [Option.getD_none, List.length_replicate, ne_eq, not_true_eq_false, if_false, same]
  exact ⟨_, accepted, Solver.new_sound shuffled accepted, rfl, rfl⟩

theorem planned_of_new (shuffled : ∀ buffer set, (shuffle buffer set).Perm set)
    (constructed : Solver.new shuffle buffers permutation capacity alignment none = .ok start) :
        Planned start :=
  ⟨shuffle, buffers, permutation, capacity, alignment, none, start, [], [start], shuffled, constructed, rfl,
    List.mem_singleton_self _⟩

/-- When every buffer is allocated no order is better. -/
theorem orderQuality_le_of_all {plan : Solver} (sound : plan.Sound)
    (weights : ∀ buffer < plan.static.n, 0 < plan.static.weight buffer)
    (all : plan.totalAllocatedCount = plan.static.n) {order : List ℕ}
    (permuted : order.Perm (List.range plan.static.n)) :
    plan.config.orderQuality order ≤ plan.totalQuality := by
  have samePlaces := permuted.trans sound.consistent.permuted.symm
  have allocated : ∀ buffer ∈ plan.permutation, plan.plain.allocated buffer = true := by
    rw [← List.length_filter_eq_length_iff, sound.length_permutation, ← all, sound.results.count]
    rfl
  have rearranged : plan.config.orderQuality order =
      plan.config.qualityOf (plan.config.fromScratch order) plan.permutation := by
    rw [Config.orderQuality, Config.qualityOf_eq_sum, Config.qualityOf_eq_sum]
    exact (samePlaces.map _).sum_eq
  rw [rearranged, sound.results.quality]
  apply Config.qualityOf_le
  · intro buffer inside
    have size : (0 : ℚ) ≤ plan.sizes buffer := by exact_mod_cast sound.consistent.sizes buffer
    exact mul_nonneg (weights buffer (sound.consistent.mem_permutation.mp inside)).le size
  · exact fun buffer inside _ => allocated buffer inside

/-- The annealer's result after a number of steps. -/
structure Solved (start : Solver) (steps : ℕ) (last : Annealer) : Prop where
  safe : start.config.Safe last.plan.permutation last.plan.layout
  permuted : last.plan.permutation.Perm (List.range start.static.n)
  best : last.plan.permutation = last.bestPermutation ∧ last.plan.totalQuality = last.bestQuality
  improves : start.totalQuality ≤ last.plan.totalQuality
  logged : ∀ quality ∈ last.qualityLog, quality ≤ last.plan.totalQuality
  attained : last.plan.totalQuality = start.totalQuality ∨ last.plan.totalQuality ∈ last.qualityLog
  complete : last.qualityLog.length = steps ∨ ∀ order : List ℕ, order.Perm (List.range start.static.n) →
    start.config.orderQuality order ≤ last.plan.totalQuality

/-- A plan of the best order. -/
theorem Annealer.Running.solved {last : Annealer} (running : Annealer.Running start last) {steps : ℕ}
    (complete : last.qualityLog.length = steps ∨ ∀ order : List ℕ, order.Perm (List.range start.static.n) →
      start.config.orderQuality order ≤ last.bestQuality) {plan : Solver} (sound : plan.Sound)
    (sameConfig : plan.config = start.config) (order : plan.permutation = last.bestPermutation) :
    Solved start steps { last with plan := plan } := by
  have quality : plan.totalQuality = last.bestQuality := by
    rw [running.best, ← order, ← sameConfig, sound.orderQuality]
  refine ⟨?_, order ▸ running.permuted, ⟨order, quality⟩, quality ▸ running.improves,
    quality ▸ running.logged,
    quality ▸ running.attained, quality ▸ complete⟩
  have safe := sound.consistent.plain_isLayout.safe sound.consistent.alignment
    fun buffer _ => sound.consistent.sizes buffer
  rw [← sameConfig]
  exact safe.congr fun buffer inOrder =>
    sound.results.address buffer (sound.consistent.mem_permutation.mp inOrder)

end Result

/-- One step that accepts every quality, drawn for three buffers. -/
def towerDraws : Draws Solver.towerBuffers.length := ⟨⟨2, Nat.lt_succ_self 2⟩, fun _ => true⟩

end TorchSpyre.Scratchpad.PermLayout
