import Mathlib
import TorchSpyre.Lib.AdjacentSwaps
import TorchSpyre.Lib.Binary64
import TorchSpyre.Scratchpad.PermLayout.Solver

/-!
# `annealing_step_swap`

After a rotation the annealer exchanges neighbours that do not overlap in time and stand in the
wrong order of their tops.  No address changes by that, and the loop ends with all neighbours clean
when those outside the rotated range were clean before.
-/

namespace TorchSpyre.Scratchpad.PermLayout

open Lib

/-- A plan of the annealer: built by the constructor, then changed by calls and copies. -/
def Planned (plan : Solver) : Prop :=
  ∃ (shuffle : ℕ → List ℕ → List ℕ) (buffers : List LifetimeBoundBuffer) (permutation : List ℤ)
    (capacity alignment : ℤ) (eligible : Option (List Bool)) (start : Solver)
    (actions : List Solver.Action) (world : List Solver),
    (∀ buffer set, (shuffle buffer set).Perm set) ∧
      Solver.new shuffle buffers permutation capacity alignment eligible = .ok start ∧
      Solver.run actions [start] = some world ∧ plan ∈ world

theorem Planned.sound {plan : Solver} (planned : Planned plan) : plan.Sound := by
  obtain ⟨_, _, _, _, _, _, start, _, _, shuffled, constructed, ran, listed⟩ := planned
  have started : ∀ solver ∈ [start], solver.Sound := by
    intro solver isStart
    rw [List.mem_singleton.mp isStart]
    exact Solver.new_sound shuffled constructed
  exact Solver.run_sound started ran plan listed

namespace Solver

/-! ## What the loop reads -/

/-- `PermutationView.getitem` at an index that is not negative. -/
def getitem (plan : Solver) (index : ℕ) : Except String ℕ :=
  match plan.permutation[index]? with
  | some buffer => .ok buffer
  | none => .error "permutation index out of range"

/-- The exclusive top as a double; above everything when the buffer is evicted. -/
def doubleTop (plan : Solver) (idx : ℕ) : WithTop ℚ :=
  if plan.layout.allocated idx then
    (Binary64.nearest (plan.layout.addr idx + plan.sizes idx : ℤ) : ℚ)
  else ⊤

def topOrInf (plan : Solver) (idx : ℕ) : Except String (WithTop ℚ) :=
  if plan.static.n ≤ idx then .error "top_or_inf index out of range" else .ok (plan.doubleTop idx)

def overlaps (plan : Solver) (i j : ℕ) : Except String Bool :=
  if plan.static.n ≤ i ∨ plan.static.n ≤ j then .error "overlaps index out of range"
  else .ok (plan.static.overlaps i j)

/-! ## The loop -/

structure SwapWindow where
  plan : Solver
  i : ℕ
  j : ℕ

/-- One pass of the loop body. -/
def swapStep (window : SwapWindow) : Except String SwapWindow := do
  let ⟨plan, i, j⟩ := window
  let pi ← plan.getitem i
  let pi1 ← plan.getitem (i + 1)
  let overlapping ← plan.overlaps pi pi1
  let top ← plan.topOrInf pi
  let nextTop ← plan.topOrInf pi1
  if !overlapping && nextTop < top then
    let (_, plan) ← plan.swap i
    return ⟨plan, if 0 < i then i - 1 else 1,
      if i = j ∧ j + 2 < plan.permutation.length then j + 1 else j⟩
  else return ⟨plan, i + 1, j⟩

/-- The loop, for a number of passes; `none` when it has not ended by then. -/
def swapLoop : ℕ → SwapWindow → Option (Except String Solver)
  | 0, _ => none
  | passes + 1, window =>
      if window.i ≤ window.j then
        match swapStep window with
        | .error message => some (.error message)
        | .ok next => swapLoop passes next
      else some (.ok window.plan)

def annealingStepSwap (passes : ℕ) (plan : Solver) (i j : ℤ) : Option (Except String Solver) :=
  let length := plan.permutation.length
  if i = j then
    some (.error "for a rotation i -> i, we should return None from the rotation method")
  else if ¬(0 ≤ i ∧ i < length) ∨ ¬(0 ≤ j ∧ j < length) then some (.error "")
  else
    let lower := (min i j).toNat
    let upper := (max i j).toNat
    swapLoop passes ⟨plan, lower - 1, if upper + 1 = length then length - 2 else upper⟩

/-! ## Clean neighbours -/

/-- Neighbours that the loop exchanges. -/
def disordered (plan : Solver) (first second : ℕ) : Bool :=
  !plan.static.overlaps first second && decide (plan.doubleTop second < plan.doubleTop first)

/-- The neighbours at a place overlap in time, or the top does not decrease. -/
def Clean (plan : Solver) (index : ℕ) : Prop :=
  ∀ first second, plan.permutation[index]? = some first → plan.permutation[index + 1]? = some second →
    plan.static.overlaps first second = true ∨ plan.doubleTop first ≤ plan.doubleTop second

theorem clean_iff {plan : Solver} {index : ℕ} :
    plan.Clean index ↔ CleanAt plan.disordered plan.permutation index := by
  have same : ∀ first second, plan.disordered first second = false ↔
      plan.static.overlaps first second = true ∨ plan.doubleTop first ≤ plan.doubleTop second := by
    intro first second
    rw [disordered, Bool.and_eq_false_iff, Bool.not_eq_false', decide_eq_false_iff_not, not_lt]
  simp only [Clean, CleanAt, same]

/-! ## One pass -/

/-- What a pass keeps: everything but the order. -/
structure SameLayout (plan next : Solver) : Prop where
  static : next.static = plan.static
  sizes : next.sizes = plan.sizes
  eligible : next.eligible = plan.eligible
  layout : next.layout = plan.layout
  quality : next.totalQuality = plan.totalQuality

theorem SameLayout.refl (plan : Solver) : SameLayout plan plan := ⟨rfl, rfl, rfl, rfl, rfl⟩

theorem SameLayout.trans {plan next last : Solver} (first : SameLayout plan next)
    (second : SameLayout next last) : SameLayout plan last where
  static := second.static.trans first.static
  sizes := second.sizes.trans first.sizes
  eligible := second.eligible.trans first.eligible
  layout := second.layout.trans first.layout
  quality := second.quality.trans first.quality

theorem SameLayout.disordered {plan next : Solver} (same : SameLayout plan next) :
    next.disordered = plan.disordered := by
  unfold Solver.disordered doubleTop
  rw [same.static, same.layout, same.sizes]

section Pass

variable {plan : Solver} {i j : ℕ}

theorem getitem_of_getElem? {buffer : ℕ} (found : plan.permutation[i]? = some buffer) :
    plan.getitem i = .ok buffer := by
  rw [getitem, found]

/-- Neighbours that do not overlap change places and nothing else happens. -/
theorem swap_of_apart (sound : plan.Sound) {first second : ℕ}
    (isFirst : plan.permutation[i]? = some first)
    (isSecond : plan.permutation[i + 1]? = some second)
    (apart : plan.static.overlaps first second = false) :
    plan.swap i = .ok (0, plan.swapped i) := by
  obtain ⟨bounded, -⟩ := List.getElem?_eq_some_iff.mp isSecond
  rw [sound.length_permutation] at bounded
  have inRange : ¬((i : ℤ) < 0 ∨ (i : ℤ) ≥ plan.static.n - 1) := by omega
  have atFirst : plan.permutation.getD i 0 = first := by
    rw [List.getD_eq_getElem?_getD, isFirst, Option.getD_some]
  have atSecond : plan.permutation.getD (i + 1) 0 = second := by
    rw [List.getD_eq_getElem?_getD, isSecond, Option.getD_some]
  rw [swap, if_neg inRange]
  simp only [Int.toNat_natCast, atFirst, atSecond, apart, Bool.not_false, if_true, ite_self]

theorem permutation_swapped {first second : ℕ} (isFirst : plan.permutation[i]? = some first)
    (isSecond : plan.permutation[i + 1]? = some second) :
    (plan.swapped i).permutation = exchange plan.permutation i := by
  rw [exchange_eq isFirst isSecond]
  simp only [swapped, List.getD_eq_getElem?_getD, isFirst, isSecond, Option.getD_some]

/-- A pass over an open window either exchanges two neighbours and removes an inversion, or moves
on. -/
theorem swapStep_cases (sound : plan.Sound) (inside : j + 2 ≤ plan.permutation.length)
    (isOpen : i ≤ j) :
    ∃ next, swapStep ⟨plan, i, j⟩ = .ok next ∧ next.plan.Sound ∧ SameLayout plan next.plan ∧
      next.j + 2 ≤ next.plan.permutation.length ∧
      (Window plan.disordered plan.permutation i j →
        Window next.plan.disordered next.plan.permutation next.i next.j) ∧
      (inversions next.plan.doubleTop next.plan.permutation <
          inversions plan.doubleTop plan.permutation ∨
        next.plan = plan ∧ next.i = i + 1) := by
  obtain ⟨first, second, isFirst, isSecond⟩ := exists_neighbours_of_open inside isOpen
  have firstBounded := sound.consistent.mem_permutation.mp (List.mem_of_getElem? isFirst)
  have secondBounded := sound.consistent.mem_permutation.mp (List.mem_of_getElem? isSecond)
  have overlapping : plan.overlaps first second = .ok (plan.static.overlaps first second) :=
    if_neg (by omega)
  have top : plan.topOrInf first = .ok (plan.doubleTop first) := if_neg (by omega)
  have nextTop : plan.topOrInf second = .ok (plan.doubleTop second) := if_neg (by omega)
  have step : swapStep ⟨plan, i, j⟩ =
      if plan.disordered first second = true then do
        let (_, next) ← plan.swap i
        return ⟨next, retreat i, extend next.permutation.length i j⟩
      else return ⟨plan, i + 1, j⟩ := by
    simp only [swapStep, getitem_of_getElem? isFirst, getitem_of_getElem? isSecond, bind, Except.bind,
      overlapping, top, nextTop]
    rfl
  by_cases exchanged : plan.disordered first second = true
  · have apart : plan.static.overlaps first second = false := by
      rw [Solver.disordered, Bool.and_eq_true, Bool.not_eq_true'] at exchanged
      exact exchanged.1
    have lower : plan.doubleTop second < plan.doubleTop first := by
      rw [Solver.disordered, Bool.and_eq_true, decide_eq_true_iff] at exchanged
      exact exchanged.2
    have swaps := swap_of_apart sound isFirst isSecond apart
    have order := permutation_swapped isFirst isSecond
    have sameLength : (plan.swapped i).permutation.length = plan.permutation.length := by
      rw [order, length_exchange]
    refine ⟨⟨plan.swapped i, retreat i, extend (plan.swapped i).permutation.length i j⟩,
      ?_, ?_, ?_, ?_, ?_, ?_⟩
    · rw [step, if_pos exchanged, swaps]
      rfl
    · exact (swap_updates sound swaps).sound
    · exact ⟨rfl, rfl, rfl, rfl, rfl⟩
    · dsimp only
      rw [sameLength]
      exact extend_inside inside
    · intro window
      have ordered : plan.disordered second first = false := by
        rw [Solver.disordered, Bool.and_eq_false_iff, decide_eq_false_iff_not]
        exact .inr lower.asymm
      have moved := window.exchange isOpen isFirst isSecond ordered
      dsimp only
      rw [sameLength, order]
      exact moved
    · left
      obtain ⟨front, back, split, swapped⟩ := exists_neighbours isFirst isSecond
      have fewer := inversions_exchange lower front back
      dsimp only
      rw [order, swapped]
      conv_rhs => rw [split]
      exact fewer
  · refine ⟨⟨plan, i + 1, j⟩, ?_, sound, SameLayout.refl plan, inside, ?_, .inr ⟨rfl, rfl⟩⟩
    · rw [step, if_neg exchanged]
      rfl
    · intro window
      apply window.advance
      intro one other isOne isOther
      rw [isFirst, Option.some.injEq] at isOne
      rw [isSecond, Option.some.injEq] at isOther
      rw [← isOne, ← isOther]
      exact Bool.eq_false_iff.mpr exchanged

/-- The loop ends with the same layout, and with all neighbours clean if those outside the window
were. -/
theorem swapLoop_ends (sound : plan.Sound) (inside : j + 2 ≤ plan.permutation.length) :
    ∃ passes last, swapLoop passes ⟨plan, i, j⟩ = some (.ok last) ∧ last.Sound ∧
      SameLayout plan last ∧
      (Window plan.disordered plan.permutation i j → ∀ index, last.Clean index) := by
  -- Exchanges remove inversions; between two of them the lower end only moves up to the list's end.
  induction inversionsLeft : inversions plan.doubleTop plan.permutation using Nat.strong_induction_on
    generalizing plan i j with
  | _ left exchangeHypothesis =>
    induction room : plan.permutation.length - i using Nat.strong_induction_on
      generalizing i j with
    | _ steps advanceHypothesis =>
      by_cases isOpen : i ≤ j
      · obtain ⟨⟨next, nextI, nextJ⟩, stepped, nextSound, same, nextInside, nextWindow, progress⟩ :=
          swapStep_cases sound inside isOpen
        have ends : ∃ passes last, swapLoop passes ⟨next, nextI, nextJ⟩ = some (.ok last) ∧
            last.Sound ∧ SameLayout next last ∧
            (Window next.disordered next.permutation nextI nextJ → ∀ index, last.Clean index) := by
          rcases progress with fewer | ⟨samePlan, advanced⟩
          · exact exchangeHypothesis _ (inversionsLeft ▸ fewer) nextSound nextInside rfl
          · dsimp only at samePlan advanced
            subst samePlan advanced
            apply advanceHypothesis _ _ nextInside rfl
            omega
        obtain ⟨passes, last, runs, lastSound, lastSame, clean⟩ := ends
        refine ⟨passes + 1, last, ?_, lastSound, same.trans lastSame,
          fun window => clean (nextWindow window)⟩
        rw [swapLoop, if_pos isOpen, stepped]
        exact runs
      · refine ⟨1, plan, ?_, sound, SameLayout.refl plan, ?_⟩
        · rw [swapLoop, if_neg isOpen]
        · intro window index
          exact clean_iff.mpr (window.closed (not_le.mp isOpen) index)

end Pass

/-- The swaps after a rotation end without an index out of range; they leave every address, every
allocated flag and the quality as they were, and all neighbours clean if those away from the rotated
range were. -/
theorem annealingStepSwap_cleans {plan : Solver} (planned : Planned plan) {i j : ℤ}
    (distinct : i ≠ j) (iInside : 0 ≤ i ∧ i < plan.permutation.length)
    (jInside : 0 ≤ j ∧ j < plan.permutation.length) :
    ∃ passes last, annealingStepSwap passes plan i j = some (.ok last) ∧
      (∀ buffer, last.layout.address buffer = plan.layout.address buffer ∧
        last.layout.allocated buffer = plan.layout.allocated buffer) ∧
      last.totalQuality = plan.totalQuality ∧
      ((∀ index : ℕ, (index : ℤ) < min i j - 1 ∨ max i j < index → plan.Clean index) →
        ∀ index, last.Clean index) := by
  have inRange : ¬(¬(0 ≤ i ∧ i < plan.permutation.length) ∨
      ¬(0 ≤ j ∧ j < plan.permutation.length)) := by
    rw [not_or, not_not, not_not]
    exact ⟨iInside, jInside⟩
  obtain ⟨passes, last, runs, -, same, clean⟩ := @swapLoop_ends plan ((min i j).toNat - 1)
    (if (max i j).toNat + 1 = plan.permutation.length then plan.permutation.length - 2
      else (max i j).toNat) planned.sound (by split <;> omega)
  refine ⟨passes, last, ?_, ?_, same.quality, ?_⟩
  · rw [annealingStepSwap, if_neg distinct, if_neg inRange]
    exact runs
  · intro buffer
    rw [same.layout]
    exact ⟨rfl, rfl⟩
  · intro outside
    apply clean
    intro index away
    by_cases last : index + 1 < plan.permutation.length
    · apply clean_iff.mp
      apply outside
      split at away <;> omega
    · intro _ second _ isSecond
      obtain ⟨bounded, -⟩ := List.getElem?_eq_some_iff.mp isSecond
      exact absurd bounded last

/-- Three buffers of which only the last two meet; the first rotation brings the tall one to the
front. -/
def towerBuffers : List LifetimeBoundBuffer :=
  [.usedTwice "low" 64 0 0, .usedTwice "base" 200 2 1, .usedTwice "tower" 128 3 1]

theorem annealingStepSwap_tower :
    ∃ plan, new (fun _ set => set) towerBuffers [1, 2, 0] 512 128 none = .ok plan ∧
      ∃ passes last, annealingStepSwap passes plan 0 2 = some (.ok last) ∧
        last.totalQuality = plan.totalQuality ∧ ∀ index, last.Clean index := by
  have accepted : (new (fun _ set => set) towerBuffers [1, 2, 0] 512 128 none).isOk = true := by
    decide
  cases constructed : new (fun _ set => set) towerBuffers [1, 2, 0] 512 128 none with
  | error message =>
      rw [constructed] at accepted
      cases accepted
  | ok plan =>
      have planned : Planned plan :=
        ⟨fun _ set => set, _, _, _, _, _, plan, [], [plan], fun _ set => List.Perm.refl set,
          constructed, rfl, List.mem_singleton_self plan⟩
      have length : plan.permutation.length = 3 := by
        obtain ⟨-, -, static, -, rfl⟩ := new_eq_ok constructed
        rfl
      obtain ⟨passes, last, runs, -, quality, clean⟩ := annealingStepSwap_cleans planned
        (show (0 : ℤ) ≠ 2 by decide) (by rw [length]; decide) (by rw [length]; decide)
      refine ⟨plan, rfl, passes, last, runs, quality, clean ?_⟩
      rintro index (before | after)
      · exact absurd before (by omega)
      · intro _ second _ isSecond
        obtain ⟨bounded, -⟩ := List.getElem?_eq_some_iff.mp isSecond
        omega

end Solver

end TorchSpyre.Scratchpad.PermLayout
