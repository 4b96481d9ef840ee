import Mathlib
import TorchSpyre.Scratchpad.PermLayout.Recompute

/-!
# `NativePermutationLayoutSolver`

The constructor, the four mutators and `copy`.  A mutator returns the change of
quality and the solver after the call; a rejected call raises and leaves the
solver as it was.  `run` plays a list of calls and copies on a family of
solvers that share their static data.
-/

namespace TorchSpyre.Scratchpad.PermLayout

open Lib

/-- `for p in ...: position_[permutation_[p]] = p`. -/
def indexPositions (permutation : List ℕ) (indices : List ℕ) (position : ℕ → ℕ) : ℕ → ℕ :=
  indices.foldl (fun table index => Function.update table (permutation.getD index 0) index) position

/-- `std::rotate` on the index range `[first, last)`: `middle` becomes its start. -/
def rotateRange (elements : List ℕ) (first middle last : ℕ) : List ℕ :=
  elements.take first ++ (elements.take last).drop middle ++
    (elements.take middle).drop first ++ elements.drop last

namespace Solver

/-- The dynamic state before the first recomputation. -/
def initial (static : StaticData) (buffers : List LifetimeBoundBuffer) (order : List ℕ)
    (flags : List Bool) : Solver where
  static := static
  permutation := order
  position := indexPositions order (List.range buffers.length) fun _ => 0
  sizes := fun buffer => (buffers.map fun entry => (entry.size : ℤ)).getD buffer 0
  eligible := fun buffer => flags.getD buffer false
  layout := ⟨fun _ => 0, fun _ => false⟩
  totalQuality := 0
  totalAllocatedCount := 0

/-- The constructor; `shuffle` as in `StaticData.build`. -/
def new (shuffle : ℕ → List ℕ → List ℕ) (buffers : List LifetimeBoundBuffer)
    (permutation : List ℤ) (capacity alignment : ℤ) (eligible : Option (List Bool)) :
    Except String Solver :=
  if alignment ≤ 0 then .error "alignment must be positive"
  else if permutation.insertionSort (· ≤ ·) ≠ (List.range buffers.length).map Int.ofNat then
    .error "permutation must be a permutation of range(len(buffers))"
  else
    match StaticData.build shuffle buffers capacity alignment with
    | .error message => .error message
    | .ok static =>
        let flags := eligible.getD (List.replicate buffers.length true)
        if flags.length ≠ buffers.length then .error "eligible must have one flag per buffer"
        else .ok (recomputeAll (initial static buffers (permutation.map Int.toNat) flags))

def recomputed (solver : Solver) (oldTotal : ℚ) : ℚ × Solver :=
  (solver.recomputeAll.totalQuality - oldTotal, solver.recomputeAll)

/-- The state after the two elements of a swap have changed places. -/
def swapped (solver : Solver) (index : ℕ) : Solver :=
  let x := solver.permutation.getD index 0
  let y := solver.permutation.getD (index + 1) 0
  { solver with
    permutation := (solver.permutation.set index y).set (index + 1) x
    position := Function.update (Function.update solver.position x (index + 1)) y index }

def swap (solver : Solver) (i : ℤ) : Except String (ℚ × Solver) :=
  if i < 0 ∨ i ≥ solver.static.n - 1 then .error "swap index out of range"
  else
    let x := solver.permutation.getD i.toNat 0
    let y := solver.permutation.getD (i.toNat + 1) 0
    let moved := solver.swapped i.toNat
    if !(solver.eligible x && solver.eligible y) then .ok (0, moved)
    else if !solver.static.overlaps x y then .ok (0, moved)
    else .ok (moved.recomputed solver.totalQuality)

def moveInPermutation (solver : Solver) (i j : ℕ) : Solver :=
  let permutation :=
    if i < j then rotateRange solver.permutation i (i + 1) (j + 1)
    else rotateRange solver.permutation j i (i + 1)
  { solver with
    permutation := permutation
    position := indexPositions permutation (List.range' (min i j) (max i j + 1 - min i j))
      solver.position }

def rotate (solver : Solver) (i j : ℤ) : Except String (ℚ × Solver) :=
  let n : ℤ := solver.static.n
  if i < 0 ∨ i ≥ n ∨ j < 0 ∨ j ≥ n then .error "rotate index out of range"
  else if i = j then .ok (0, solver)
  else
    let moved := solver.moveInPermutation i.toNat j.toNat
    if !solver.eligible (solver.permutation.getD i.toNat 0) then .ok (0, moved)
    else .ok (moved.recomputed solver.totalQuality)

def resize (solver : Solver) (idx newSize : ℤ) : Except String (ℚ × Solver) :=
  if idx < 0 ∨ idx ≥ solver.static.n then .error "resize index out of range"
  else if newSize < 0 then .error "resize size must be non-negative"
  else if solver.sizes idx.toNat = newSize then .ok (0, solver)
  else
    let resized := { solver with sizes := Function.update solver.sizes idx.toNat newSize }
    if !solver.eligible idx.toNat then .ok (0, resized)
    else .ok (resized.recomputed solver.totalQuality)

def setEligible (solver : Solver) (idx : ℤ) (flag : Bool) : Except String (ℚ × Solver) :=
  if idx < 0 ∨ idx ≥ solver.static.n then .error "set_eligible index out of range"
  else if solver.eligible idx.toNat = flag then .ok (0, solver)
  else
    let flagged := { solver with eligible := Function.update solver.eligible idx.toNat flag }
    .ok (flagged.recomputed solver.totalQuality)

inductive Call
  | swap (i : ℤ)
  | rotate (i j : ℤ)
  | resize (idx newSize : ℤ)
  | setEligible (idx : ℤ) (flag : Bool)
  deriving DecidableEq, Repr

def call (solver : Solver) : Call → Except String (ℚ × Solver)
  | .swap i => solver.swap i
  | .rotate i j => solver.rotate i j
  | .resize idx newSize => solver.resize idx newSize
  | .setEligible idx flag => solver.setEligible idx flag

/-- A call on one solver of a family, or a copy of one appended to it. -/
inductive Action
  | call (target : ℕ) (call : Call)
  | copy (target : ℕ)
  deriving DecidableEq, Repr

/-- `none` when the target does not exist or the call raises. -/
def act (family : List Solver) : Action → Option (List Solver)
  | .call target request =>
      match family[target]? with
      | none => none
      | some solver =>
          match solver.call request with
          | .error _ => none
          | .ok (_, next) => some (family.set target next)
  | .copy target =>
      match family[target]? with
      | none => none
      | some solver => some (family ++ [solver])

def run : List Action → List Solver → Option (List Solver)
  | [], family => some family
  | action :: rest, family =>
      match act family action with
      | none => none
      | some next => run rest next

end Solver

/-! ## Moving an element and keeping the inverse -/

theorem rotateRange_forward (front block back : List ℕ) (moved : ℕ) :
    rotateRange (front ++ moved :: (block ++ back)) front.length (front.length + 1)
      (front.length + block.length + 1) = front ++ (block ++ moved :: back) := by
  have firstPart : (front ++ moved :: (block ++ back)).take (front.length + 1) =
      front ++ [moved] := by
    simp [List.take_append, List.take_of_length_le]
  have wholePart : (front ++ moved :: (block ++ back)).take (front.length + block.length + 1) =
      front ++ moved :: block := by
    rw [add_assoc, List.take_length_add_append, List.take_succ_cons, List.take_left]
  have lastPart : (front ++ moved :: (block ++ back)).drop (front.length + block.length + 1) =
      back := by
    rw [add_assoc, List.drop_length_add_append, List.drop_succ_cons, List.drop_left]
  unfold rotateRange
  rw [wholePart, firstPart, lastPart, List.take_left, List.drop_length_add_append, List.drop_left]
  simp

theorem rotateRange_backward (front block back : List ℕ) (moved : ℕ) :
    rotateRange (front ++ (block ++ moved :: back)) front.length (front.length + block.length)
      (front.length + block.length + 1) = front ++ moved :: (block ++ back) := by
  have wholePart : (front ++ (block ++ moved :: back)).take (front.length + block.length + 1) =
      front ++ (block ++ [moved]) := by
    rw [add_assoc, List.take_length_add_append, List.take_length_add_append]
    simp
  have lastPart : (front ++ (block ++ moved :: back)).drop (front.length + block.length + 1) =
      back := by
    rw [add_assoc, List.drop_length_add_append, List.drop_length_add_append]
    simp
  have firstPart : (front ++ (block ++ moved :: back)).take (front.length + block.length) =
      front ++ block := by
    rw [List.take_length_add_append, List.take_left]
  unfold rotateRange
  rw [wholePart, firstPart, lastPart, List.take_left, List.drop_left,
    List.drop_length_add_append, List.drop_left]
  simp

theorem indexPositions_apply {permutation indices : List ℕ} (nodup : permutation.Nodup)
    (inside : ∀ index ∈ indices, index < permutation.length) (position : ℕ → ℕ) {index : ℕ}
    (bounded : index < permutation.length) :
    indexPositions permutation indices position permutation[index] =
      if index ∈ indices then index else position permutation[index] := by
  unfold indexPositions
  induction indices generalizing position with
  | nil => simp
  | cons head tail inductionHypothesis =>
      have headInside := inside head List.mem_cons_self
      rw [List.foldl_cons, inductionHypothesis fun other membership =>
        inside other (List.mem_cons_of_mem _ membership)]
      rw [List.getD_eq_getElem _ _ headInside, Function.update_apply]
      by_cases inTail : index ∈ tail
      · simp [inTail]
      · by_cases isHead : index = head
        · simp [isHead]
        · have distinct : permutation[index] ≠ permutation[head] := fun same =>
            isHead ((nodup.getElem_inj_iff).mp same)
          simp [inTail, isHead, distinct]

/-- Rewriting the table at every index where the order changed restores the
inverse. -/
theorem indexPositions_inverse {old new indices : List ℕ} {position : ℕ → ℕ}
    (nodup : new.Nodup) (inside : ∀ index ∈ indices, index < new.length)
    (unchanged : ∀ index, index ∉ indices → old[index]? = new[index]?)
    (inverse : ∀ index (bounded : index < old.length), position old[index] = index) :
    ∀ index (bounded : index < new.length),
      indexPositions new indices position new[index] = index := by
  intro index bounded
  rw [indexPositions_apply nodup inside position bounded]
  split_ifs with changed
  · rfl
  · have same := unchanged index changed
    rw [List.getElem?_eq_getElem bounded, List.getElem?_eq_some_iff] at same
    obtain ⟨oldBounded, sameElement⟩ := same
    rw [← sameElement, inverse index oldBounded]

theorem getElem?_crossed (front block back : List ℕ) (moved index : ℕ)
    (outside : index ∉ List.range' front.length (block.length + 1)) :
    (front ++ moved :: (block ++ back))[index]? = (front ++ (block ++ moved :: back))[index]? := by
  have regroupedOld : front ++ moved :: (block ++ back) = front ++ ((moved :: block) ++ back) := by
    simp
  have regroupedNew : front ++ (block ++ moved :: back) = front ++ ((block ++ [moved]) ++ back) := by
    simp
  rw [regroupedOld, regroupedNew]
  rw [List.mem_range'_1] at outside
  by_cases inFront : index < front.length
  · rw [List.getElem?_append_left inFront, List.getElem?_append_left inFront]
  · have pastFront : front.length ≤ index := not_lt.mp inFront
    have pastOld : (moved :: block).length ≤ index - front.length := by
      rw [List.length_cons]
      omega
    have pastNew : (block ++ [moved]).length ≤ index - front.length := by
      rw [List.length_append, List.length_singleton]
      omega
    rw [List.getElem?_append_right pastFront, List.getElem?_append_right pastFront,
      List.getElem?_append_right pastOld, List.getElem?_append_right pastNew]
    simp

/-- The element at `i` and the block between it and `j`. -/
theorem exists_block {permutation : List ℕ} {i j : ℕ} (iBounded : i < permutation.length)
    (jBounded : j < permutation.length) (distinct : i ≠ j) :
    ∃ front block back, front.length = min i j ∧ front.length + block.length = max i j ∧
      ((i < j ∧ permutation = front ++ permutation.getD i 0 :: (block ++ back)) ∨
        (j < i ∧ permutation = front ++ (block ++ permutation.getD i 0 :: back))) := by
  have atIndex : permutation = permutation.take i ++ permutation.getD i 0 :: permutation.drop (i + 1) := by
    rw [List.getD_eq_getElem _ _ iBounded, List.getElem_cons_drop, List.take_append_drop]
  rcases Nat.lt_or_gt_of_ne distinct with forward | backward
  · refine ⟨permutation.take i, (permutation.drop (i + 1)).take (j - i),
      (permutation.drop (i + 1)).drop (j - i), ?_, ?_, .inl ⟨forward, ?_⟩⟩
    · simp only [List.length_take]
      omega
    · simp only [List.length_take, List.length_drop]
      omega
    · rwa [List.take_append_drop]
  · refine ⟨(permutation.take i).take j, (permutation.take i).drop j,
      permutation.drop (i + 1), ?_, ?_, .inr ⟨backward, ?_⟩⟩
    · simp only [List.length_take]
      omega
    · simp only [List.length_take, List.length_drop]
      omega
    · rwa [← List.append_assoc, List.take_append_drop]

namespace Solver

/-- The order after a move, and the block the element crossed. -/
theorem moveInPermutation_crosses {solver : Solver} {i j : ℕ}
    (iBounded : i < solver.permutation.length) (jBounded : j < solver.permutation.length)
    (distinct : i ≠ j) :
    ∃ block, Crosses (solver.permutation.getD i 0) block solver.permutation
        (solver.moveInPermutation i j).permutation ∧
      ∀ index, index ∉ List.range' (min i j) (max i j + 1 - min i j) →
        solver.permutation[index]? = (solver.moveInPermutation i j).permutation[index]? := by
  obtain ⟨front, block, back, lower, upper, ⟨forward, split⟩ | ⟨backward, split⟩⟩ :=
    exists_block iBounded jBounded distinct
  · have moved : (solver.moveInPermutation i j).permutation =
        front ++ (block ++ solver.permutation.getD i 0 :: back) := by
      have rotated := rotateRange_forward front block back (solver.permutation.getD i 0)
      rw [← split] at rotated
      have lowerEq : front.length = i := by omega
      have upperEq : front.length + block.length = j := by omega
      rw [upperEq, lowerEq] at rotated
      simp only [moveInPermutation, if_pos forward, rotated]
    refine ⟨block, ⟨front, back, .inl ⟨split, moved⟩⟩, ?_⟩
    intro index outside
    rw [moved]
    conv_lhs => rw [split]
    apply getElem?_crossed
    rwa [lower, show block.length + 1 = max i j + 1 - min i j by omega]
  · have moved : (solver.moveInPermutation i j).permutation =
        front ++ solver.permutation.getD i 0 :: (block ++ back) := by
      have rotated := rotateRange_backward front block back (solver.permutation.getD i 0)
      rw [← split] at rotated
      have lowerEq : front.length = j := by omega
      have upperEq : front.length + block.length = i := by omega
      rw [upperEq, lowerEq] at rotated
      simp only [moveInPermutation, if_neg (Nat.not_lt_of_gt backward), rotated]
    refine ⟨block, ⟨front, back, .inr ⟨split, moved⟩⟩, ?_⟩
    intro index outside
    rw [moved]
    conv_lhs => rw [split]
    symm
    apply getElem?_crossed
    rwa [lower, show block.length + 1 = max i j + 1 - min i j by omega]

theorem swapped_crosses {solver : Solver} {index : ℕ}
    (bounded : index + 1 < solver.permutation.length) :
    Crosses (solver.permutation.getD index 0) [solver.permutation.getD (index + 1) 0]
        solver.permutation (solver.swapped index).permutation ∧
      (solver.swapped index).position =
        indexPositions (solver.swapped index).permutation [index + 1, index] solver.position ∧
      ∀ other, other ∉ [index + 1, index] →
        solver.permutation[other]? = (solver.swapped index).permutation[other]? := by
  have inside : index < solver.permutation.length := by omega
  set x := solver.permutation.getD index 0 with xDef
  set y := solver.permutation.getD (index + 1) 0 with yDef
  have swappedEq : (solver.swapped index).permutation =
      (solver.permutation.set index y).set (index + 1) x := rfl
  have split : solver.permutation =
      solver.permutation.take index ++ x :: ([y] ++ solver.permutation.drop (index + 2)) := by
    rw [xDef, yDef, List.getD_eq_getElem _ _ inside, List.getD_eq_getElem _ _ bounded,
      List.singleton_append, List.getElem_cons_drop, List.getElem_cons_drop,
      List.take_append_drop]
  have frontLength : (solver.permutation.take index).length = index := by
    rw [List.length_take]
    omega
  have moved : (solver.swapped index).permutation =
      solver.permutation.take index ++ ([y] ++ x :: solver.permutation.drop (index + 2)) := by
    rw [swappedEq]
    conv_lhs => rw [split]
    rw [List.set_append_right _ _ (by omega), List.set_append_right _ _ (by omega), frontLength]
    simp
  refine ⟨⟨_, _, .inl ⟨split, moved⟩⟩, ?_, ?_⟩
  · have atIndex : (solver.swapped index).permutation.getD index 0 = y := by
      rw [swappedEq]
      simp [List.getD_eq_getElem?_getD, inside]
    have atNext : (solver.swapped index).permutation.getD (index + 1) 0 = x := by
      rw [swappedEq]
      simp [List.getD_eq_getElem?_getD, bounded]
    simp only [indexPositions, List.foldl_cons, List.foldl_nil, atIndex, atNext]
    rfl
  · intro other outside
    simp only [List.mem_cons, List.not_mem_nil, or_false, not_or] at outside
    rw [swappedEq, List.getElem?_set_ne (Ne.symm outside.1), List.getElem?_set_ne (Ne.symm outside.2)]

/-! ## The stored results are those of the plain placement -/

/-- The plain placement of the solver's current order. -/
def plain (solver : Solver) : Layout := solver.config.fromScratch solver.permutation

structure Matches (solver : Solver) : Prop where
  address : ∀ buffer < solver.static.n,
    solver.layout.address buffer = solver.plain.address buffer
  quality : solver.totalQuality = solver.config.qualityOf solver.plain solver.permutation
  count : solver.totalAllocatedCount = Config.countAllocatedIn solver.plain solver.permutation

structure Sound (solver : Solver) : Prop where
  consistent : solver.Consistent
  results : solver.Matches

theorem Consistent.plain_isLayout {solver : Solver} (consistent : solver.Consistent) :
    solver.config.IsLayout solver.permutation solver.plain :=
  solver.config.fromScratch_isLayout (fun buffer _ => consistent.sizes buffer) consistent.nodup

theorem Consistent.recomputeAll {solver : Solver} (consistent : solver.Consistent) :
    solver.recomputeAll.Consistent :=
  ⟨consistent.static, consistent.alignment, consistent.sizes, consistent.permuted,
    consistent.position⟩

theorem Consistent.recomputeAll_sound {solver : Solver} (consistent : solver.Consistent) :
    solver.recomputeAll.Sound := by
  obtain ⟨address, quality, count⟩ := recomputeAll_spec consistent consistent.plain_isLayout
  exact ⟨consistent.recomputeAll, address, quality, count⟩

theorem allocated_congr {first second : Layout} {buffer : ℕ}
    (same : first.address buffer = second.address buffer) :
    first.allocated buffer = second.allocated buffer := by
  unfold Layout.address at same
  cases firstFlag : first.allocated buffer <;>
    cases secondFlag : second.allocated buffer <;> simp_all

/-- A change of the order or of sizes that leaves every eligible buffer's
candidates alone leaves the results valid without recomputation. -/
theorem Sound.of_unaffected {solver other : Solver} (sound : solver.Sound)
    (consistent : other.Consistent) (sameStatic : other.static = solver.static)
    (sameEligible : other.eligible = solver.eligible) (sameLayout : other.layout = solver.layout)
    (sameQuality : other.totalQuality = solver.totalQuality)
    (sameCount : other.totalAllocatedCount = solver.totalAllocatedCount)
    (sameSizes : ∀ buffer, solver.eligible buffer = true →
      solver.sizes buffer = other.sizes buffer)
    (sameBefore : ∀ buffer ∈ solver.permutation, solver.eligible buffer = true →
      ∀ earlier, solver.eligible earlier = true →
        solver.static.overlaps buffer earlier = true →
          (earlier ∈ before solver.permutation buffer ↔
            earlier ∈ before other.permutation buffer)) :
    other.Sound := by
  have permuted : solver.permutation.Perm other.permutation := by
    have otherPermuted := consistent.permuted
    rw [sameStatic] at otherPermuted
    exact sound.consistent.permuted.trans otherPermuted.symm
  have sameAddress : ∀ buffer ∈ solver.permutation,
      solver.plain.address buffer = other.plain.address buffer :=
    fromScratch_congr sameStatic.symm sameEligible.symm sameSizes
      (fun buffer _ => sound.consistent.sizes buffer) (fun buffer _ => consistent.sizes buffer)
      sound.consistent.nodup permuted sameBefore
  have sameFilter : (solver.permutation.filter solver.plain.allocated).Perm
      (other.permutation.filter other.plain.allocated) := by
    have swappedFlags : solver.permutation.filter solver.plain.allocated =
        solver.permutation.filter other.plain.allocated := by
      apply List.filter_congr
      exact fun buffer membership => allocated_congr (sameAddress buffer membership)
    rw [swappedFlags]
    exact permuted.filter _
  refine ⟨consistent, ?_, ?_, ?_⟩
  · intro buffer bounded
    rw [sameStatic] at bounded
    rw [sameLayout, sound.results.address buffer bounded,
      sameAddress buffer (sound.consistent.mem_permutation.mpr bounded)]
  · rw [sameQuality, sound.results.quality]
    unfold Config.qualityOf
    rw [← (sameFilter.map _).sum_eq]
    apply congrArg
    apply List.map_congr_left
    intro buffer membership
    obtain ⟨inOrder, allocated⟩ := List.mem_filter.mp membership
    have eligible := sound.consistent.plain_isLayout.eligible_of_allocated inOrder allocated
    simp only [config_static, config_sizes, sameStatic, sameSizes buffer eligible]
  · rw [sameCount, sound.results.count]
    exact sameFilter.length_eq

/-- What a mutator guarantees about the returned pair. -/
structure Updates (solver : Solver) (delta : ℚ) (next : Solver) : Prop where
  sound : next.Sound
  static : next.static = solver.static
  delta : delta = next.totalQuality - solver.totalQuality

theorem recomputed_updates {solver changed : Solver} (consistent : changed.Consistent)
    (sameStatic : changed.static = solver.static) :
    Updates solver (changed.recomputed solver.totalQuality).1
      (changed.recomputed solver.totalQuality).2 :=
  ⟨consistent.recomputeAll_sound, sameStatic, rfl⟩

theorem Sound.updates_unaffected {solver other : Solver} (sound : other.Sound)
    (sameStatic : other.static = solver.static)
    (sameQuality : other.totalQuality = solver.totalQuality) : Updates solver 0 other :=
  ⟨sound, sameStatic, by rw [sameQuality, sub_self]⟩

section Mutators

variable {solver next : Solver} {delta : ℚ} (sound : solver.Sound)

include sound

theorem Sound.length_permutation : solver.permutation.length = solver.static.n := by
  rw [sound.consistent.permuted.length_eq, List.length_range]

/-- An order reached by a crossing, with the table rewritten where it changed. -/
theorem Sound.consistent_of_crosses {moved : ℕ} {block indices : List ℕ} {other : Solver}
    (crosses : Crosses moved block solver.permutation other.permutation)
    (sameStatic : other.static = solver.static) (sameSizes : other.sizes = solver.sizes)
    (positions : other.position = indexPositions other.permutation indices solver.position)
    (inside : ∀ index ∈ indices, index < solver.static.n)
    (unchanged : ∀ index, index ∉ indices →
      solver.permutation[index]? = other.permutation[index]?) :
    other.Consistent := by
  have old := sound.consistent
  have permuted : other.permutation.Perm (List.range solver.static.n) :=
    crosses.perm.symm.trans old.permuted
  refine ⟨sameStatic ▸ old.static, sameStatic ▸ old.alignment, sameSizes ▸ old.sizes,
    sameStatic ▸ permuted, ?_⟩
  rw [positions]
  apply indexPositions_inverse (permuted.nodup_iff.mpr List.nodup_range) _ unchanged old.position
  intro index membership
  rw [permuted.length_eq, List.length_range]
  exact inside index membership

theorem swap_updates {i : ℤ} (accepted : solver.swap i = .ok (delta, next)) :
    Updates solver delta next := by
  unfold swap at accepted
  split at accepted
  · simp at accepted
  next inRange =>
    have bounded : i.toNat + 1 < solver.permutation.length := by
      rw [sound.length_permutation]
      omega
    obtain ⟨crosses, positions, unchanged⟩ := swapped_crosses bounded
    have consistent : (solver.swapped i.toNat).Consistent := by
      apply sound.consistent_of_crosses crosses rfl rfl positions _ unchanged
      intro index membership
      simp only [List.mem_cons, List.not_mem_nil, or_false] at membership
      omega
    -- The only pair whose order changes is the swapped one.
    have unaffected : (solver.eligible (solver.permutation.getD i.toNat 0) = true →
          solver.eligible (solver.permutation.getD (i.toNat + 1) 0) = true →
          solver.static.overlaps (solver.permutation.getD i.toNat 0)
            (solver.permutation.getD (i.toNat + 1) 0) = false) →
        Updates solver 0 (solver.swapped i.toNat) := by
      intro independent
      refine (sound.of_unaffected consistent rfl rfl rfl rfl rfl (fun _ _ => rfl) ?_
        ).updates_unaffected rfl rfl
      intro buffer _ eligible earlier earlierEligible overlap
      apply crosses.mem_before_iff sound.consistent.nodup
      · rintro rfl isOther
        rw [List.mem_singleton] at isOther
        subst isOther
        rw [independent eligible earlierEligible] at overlap
        cases overlap
      · rintro rfl isOther
        rw [List.mem_singleton] at isOther
        subst isOther
        rw [StaticData.overlaps_comm, independent earlierEligible eligible] at overlap
        cases overlap
    simp only at accepted
    split at accepted
    next transparent =>
      cases accepted
      apply unaffected
      intro first second
      simp only [first, second, Bool.and_true, Bool.not_true, Bool.false_eq_true] at transparent
    next =>
      split at accepted
      next independent =>
        cases accepted
        exact unaffected fun _ _ => by simpa using independent
      next =>
        cases accepted
        exact recomputed_updates consistent rfl

theorem rotate_updates {i j : ℤ} (accepted : solver.rotate i j = .ok (delta, next)) :
    Updates solver delta next := by
  unfold rotate at accepted
  simp only at accepted
  split at accepted
  · simp at accepted
  next inRange =>
    split at accepted
    next =>
      cases accepted
      exact sound.updates_unaffected rfl rfl
    next distinct =>
      have lengthEq := sound.length_permutation
      obtain ⟨block, crosses, unchanged⟩ := moveInPermutation_crosses
        (show i.toNat < solver.permutation.length by omega)
        (show j.toNat < solver.permutation.length by omega) (by omega)
      have consistent : (solver.moveInPermutation i.toNat j.toNat).Consistent := by
        apply sound.consistent_of_crosses crosses rfl rfl rfl _ unchanged
        intro index membership
        rw [List.mem_range'_1] at membership
        omega
      split at accepted
      next transparent =>
        cases accepted
        refine (sound.of_unaffected consistent rfl rfl rfl rfl rfl (fun _ _ => rfl) ?_
          ).updates_unaffected rfl rfl
        intro buffer _ eligible earlier earlierEligible overlap
        apply crosses.mem_before_iff sound.consistent.nodup
        · rintro rfl
          rw [eligible] at transparent
          cases transparent
        · rintro rfl
          rw [earlierEligible] at transparent
          cases transparent
      next =>
        cases accepted
        exact recomputed_updates consistent rfl

theorem resize_updates {idx newSize : ℤ} (accepted : solver.resize idx newSize = .ok (delta, next)) :
    Updates solver delta next := by
  have old := sound.consistent
  unfold resize at accepted
  split at accepted
  · simp at accepted
  split at accepted
  · simp at accepted
  next inRange nonnegative =>
    split at accepted
    next =>
      cases accepted
      exact sound.updates_unaffected rfl rfl
    next =>
      have consistent : Consistent
          { solver with sizes := Function.update solver.sizes idx.toNat newSize } := by
        refine ⟨old.static, old.alignment, ?_, old.permuted, old.position⟩
        intro buffer
        by_cases same : buffer = idx.toNat
        · simp only [same, Function.update_self]
          omega
        · simpa only [Function.update_of_ne same] using old.sizes buffer
      simp only at accepted
      split at accepted
      next transparent =>
        cases accepted
        refine (sound.of_unaffected consistent rfl rfl rfl rfl rfl ?_
          (fun _ _ _ _ _ _ => Iff.rfl)).updates_unaffected rfl rfl
        intro buffer eligible
        refine (Function.update_of_ne ?_ newSize solver.sizes).symm
        rintro rfl
        rw [eligible] at transparent
        cases transparent
      next =>
        cases accepted
        exact recomputed_updates consistent rfl

theorem setEligible_updates {idx : ℤ} {flag : Bool}
    (accepted : solver.setEligible idx flag = .ok (delta, next)) :
    Updates solver delta next := by
  have old := sound.consistent
  unfold setEligible at accepted
  split at accepted
  · simp at accepted
  split at accepted
  next =>
    cases accepted
    exact sound.updates_unaffected rfl rfl
  next =>
    cases accepted
    exact recomputed_updates
      ⟨old.static, old.alignment, old.sizes, old.permuted, old.position⟩ rfl

theorem call_updates {request : Call} (accepted : solver.call request = .ok (delta, next)) :
    Updates solver delta next := by
  cases request with
  | swap i => exact swap_updates sound accepted
  | rotate i j => exact rotate_updates sound accepted
  | resize idx newSize => exact resize_updates sound accepted
  | setEligible idx flag => exact setEligible_updates sound accepted

end Mutators

/-! ## Construction and runs -/

section Construction

variable {shuffle : ℕ → List ℕ → List ℕ} {buffers : List LifetimeBoundBuffer}
  {permutation : List ℤ} {capacity alignment : ℤ} {eligible : Option (List Bool)}
  {solver : Solver}

theorem new_eq_ok
    (constructed : new shuffle buffers permutation capacity alignment eligible = .ok solver) :
    0 < alignment ∧ (permutation.map Int.toNat).Perm (List.range buffers.length) ∧
      ∃ static, StaticData.build shuffle buffers capacity alignment = .ok static ∧
        solver = recomputeAll (initial static buffers (permutation.map Int.toNat)
          (eligible.getD (List.replicate buffers.length true))) := by
  unfold new at constructed
  split at constructed
  · simp at constructed
  next positive =>
    split at constructed
    · simp at constructed
    next sorted =>
      have permuted : (permutation.map Int.toNat).Perm (List.range buffers.length) := by
        have sortedEq : permutation.insertionSort (· ≤ ·) =
            (List.range buffers.length).map Int.ofNat := not_not.mp sorted
        have images := (List.perm_insertionSort (· ≤ ·) permutation).symm.map Int.toNat
        rw [sortedEq, List.map_map] at images
        have cancels : Int.toNat ∘ Int.ofNat = id := funext fun _ => rfl
        rwa [cancels, List.map_id] at images
      refine ⟨by omega, permuted, ?_⟩
      split at constructed
      · simp at constructed
      next static built =>
        simp only at constructed
        split at constructed
        · simp at constructed
        · cases constructed
          exact ⟨static, built, rfl⟩

theorem new_sound (shuffled : ∀ buffer set, (shuffle buffer set).Perm set)
    (constructed : new shuffle buffers permutation capacity alignment eligible = .ok solver) :
    solver.Sound := by
  obtain ⟨positive, permuted, static, built, rfl⟩ := new_eq_ok constructed
  obtain ⟨wellFormed, count, -, aligned⟩ := build_wellFormed shuffled built
  apply Consistent.recomputeAll_sound
  refine ⟨wellFormed, by rwa [initial, aligned], ?_, by rwa [initial, count], ?_⟩
  · intro buffer
    simp only [initial, List.getD_eq_getElem?_getD, List.getElem?_map]
    cases buffers[buffer]? <;> simp
  · intro index bounded
    have nodup := permuted.nodup_iff.mpr List.nodup_range
    have inRange : ∀ other ∈ List.range buffers.length,
        other < (permutation.map Int.toNat).length := by
      intro other membership
      rw [permuted.length_eq, List.length_range]
      exact List.mem_range.mp membership
    have inside : index ∈ List.range buffers.length := by
      rw [← permuted.mem_iff, permuted.mem_iff, List.mem_range, ← List.length_range (n := buffers.length),
        ← permuted.length_eq]
      exact bounded
    have atIndex := indexPositions_apply nodup inRange (fun _ => 0) bounded
    rwa [if_pos inside] at atIndex

end Construction

theorem act_cases {family next : List Solver} {action : Action}
    (acted : act family action = some next) :
    (∃ target request solver delta changed, action = .call target request ∧
      family[target]? = some solver ∧ solver.call request = .ok (delta, changed) ∧
      next = family.set target changed) ∨
    (∃ target solver, action = .copy target ∧ family[target]? = some solver ∧
      next = family ++ [solver]) := by
  cases action with
  | call target request =>
      simp only [act] at acted
      split at acted
      · simp at acted
      next solver found =>
        split at acted
        · simp at acted
        next delta changed accepted =>
          cases acted
          exact .inl ⟨target, request, solver, delta, changed, rfl, found, accepted, rfl⟩
  | copy target =>
      simp only [act] at acted
      split at acted
      · simp at acted
      next solver found =>
        cases acted
        exact .inr ⟨target, solver, rfl, found, rfl⟩

theorem act_sound {family next : List Solver} (sound : ∀ solver ∈ family, solver.Sound)
    {action : Action} (acted : act family action = some next) :
    ∀ solver ∈ next, solver.Sound := by
  obtain ⟨target, request, chosen, delta, changed, rfl, found, accepted, rfl⟩ |
    ⟨target, chosen, rfl, found, rfl⟩ := act_cases acted
  · intro solver membership
    rcases List.mem_or_eq_of_mem_set membership with kept | rfl
    · exact sound solver kept
    · exact (call_updates (sound chosen (List.mem_of_getElem? found)) accepted).sound
  · intro solver membership
    rcases List.mem_append.mp membership with kept | copied
    · exact sound solver kept
    · rw [List.mem_singleton.mp copied]
      exact sound chosen (List.mem_of_getElem? found)

theorem run_sound {actions : List Action} {family world : List Solver}
    (sound : ∀ solver ∈ family, solver.Sound) (ran : run actions family = some world) :
    ∀ solver ∈ world, solver.Sound := by
  induction actions generalizing family with
  | nil =>
      cases ran
      exact sound
  | cons action rest inductionHypothesis =>
      simp only [run] at ran
      split at ran
      · simp at ran
      next next acted => exact inductionHypothesis (act_sound sound acted) ran

/-! ## The order of the partner sets does not matter -/

/-- The same solver with the partner lists in another order. -/
def reshuffled (solver : Solver) (partners : ℕ → List ℕ) (layout : Layout) (quality : ℚ)
    (count : ℕ) : Solver :=
  { solver with
    static := { solver.static with inplacePartners := partners }
    layout := layout
    totalQuality := quality
    totalAllocatedCount := count }

theorem fromScratchAfter_reshuffled (static : StaticData) (partners : ℕ → List ℕ)
    (sizes : ℕ → ℤ) (eligible : ℕ → Bool) (earlier : List ℕ) (layout : Layout)
    (rest : List ℕ) :
    Config.fromScratchAfter ⟨{ static with inplacePartners := partners }, sizes, eligible⟩
      earlier layout rest = Config.fromScratchAfter ⟨static, sizes, eligible⟩ earlier layout rest := by
  induction rest generalizing earlier layout with
  | nil => rfl
  | cons head tail inductionHypothesis =>
      simp only [Config.fromScratchAfter]
      exact inductionHypothesis _ _

theorem plain_reshuffled (solver : Solver) (partners : ℕ → List ℕ) (layout : Layout)
    (quality : ℚ) (count : ℕ) :
    (solver.reshuffled partners layout quality count).plain = solver.plain :=
  fromScratchAfter_reshuffled _ _ _ _ _ _ _

theorem recomputeAll_reshuffled (solver : Solver) (partners : ℕ → List ℕ) (layout : Layout)
    (quality : ℚ) (count : ℕ) :
    ∃ otherLayout otherQuality otherCount,
      (solver.reshuffled partners layout quality count).recomputeAll =
        solver.recomputeAll.reshuffled partners otherLayout otherQuality otherCount :=
  ⟨_, _, _, rfl⟩

/-- No branch of a mutator looks at the partner lists or at the results. -/
theorem call_reshuffled {solver next : Solver} {request : Call} {delta : ℚ}
    (accepted : solver.call request = .ok (delta, next)) (partners : ℕ → List ℕ)
    (layout : Layout) (quality : ℚ) (count : ℕ) :
    ∃ otherDelta otherLayout otherQuality otherCount,
      (solver.reshuffled partners layout quality count).call request =
        .ok (otherDelta, next.reshuffled partners otherLayout otherQuality otherCount) := by
  cases request with
  | swap i =>
      simp only [call, swap] at accepted
      split at accepted
      · simp at accepted
      next inRange =>
        split at accepted
        next transparent =>
          cases accepted
          exact ⟨0, layout, quality, count, (if_neg inRange).trans (if_pos transparent)⟩
        next visible =>
          split at accepted
          next independent =>
            cases accepted
            exact ⟨0, layout, quality, count,
              (if_neg inRange).trans ((if_neg visible).trans (if_pos independent))⟩
          next dependent =>
            cases accepted
            exact ⟨_, _, _, _,
              (if_neg inRange).trans ((if_neg visible).trans (if_neg dependent))⟩
  | rotate i j =>
      simp only [call, rotate] at accepted
      split at accepted
      · simp at accepted
      next inRange =>
        split at accepted
        next same =>
          cases accepted
          exact ⟨0, layout, quality, count, (if_neg inRange).trans (if_pos same)⟩
        next distinct =>
          split at accepted
          next transparent =>
            cases accepted
            exact ⟨0, layout, quality, count,
              (if_neg inRange).trans ((if_neg distinct).trans (if_pos transparent))⟩
          next visible =>
            cases accepted
            exact ⟨_, _, _, _,
              (if_neg inRange).trans ((if_neg distinct).trans (if_neg visible))⟩
  | resize idx newSize =>
      simp only [call, resize] at accepted
      split at accepted
      · simp at accepted
      next inRange =>
        split at accepted
        · simp at accepted
        next nonnegative =>
          split at accepted
          next same =>
            cases accepted
            exact ⟨0, layout, quality, count,
              (if_neg inRange).trans ((if_neg nonnegative).trans (if_pos same))⟩
          next changed =>
            split at accepted
            next transparent =>
              cases accepted
              exact ⟨0, layout, quality, count, (if_neg inRange).trans
                ((if_neg nonnegative).trans ((if_neg changed).trans (if_pos transparent)))⟩
            next visible =>
              cases accepted
              exact ⟨_, _, _, _, (if_neg inRange).trans
                ((if_neg nonnegative).trans ((if_neg changed).trans (if_neg visible)))⟩
  | setEligible idx flag =>
      simp only [call, setEligible] at accepted
      split at accepted
      · simp at accepted
      next inRange =>
        split at accepted
        next same =>
          cases accepted
          exact ⟨0, layout, quality, count, (if_neg inRange).trans (if_pos same)⟩
        next changed =>
          cases accepted
          exact ⟨_, _, _, _, (if_neg inRange).trans (if_neg changed)⟩

def Reshuffles (partners : ℕ → List ℕ) (solver other : Solver) : Prop :=
  ∃ layout quality count, other = solver.reshuffled partners layout quality count

theorem act_reshuffled {partners : ℕ → List ℕ} {family other next : List Solver}
    (related : List.Forall₂ (Reshuffles partners) family other) {action : Action}
    (acted : act family action = some next) :
    ∃ otherNext, act other action = some otherNext ∧
      List.Forall₂ (Reshuffles partners) next otherNext := by
  obtain ⟨sameLength, pointwise⟩ := List.forall₂_iff_get.mp related
  have counterpart : ∀ {target : ℕ} {solver : Solver}, family[target]? = some solver →
      ∃ otherSolver, other[target]? = some otherSolver ∧ Reshuffles partners solver otherSolver := by
    intro target solver found
    obtain ⟨bounded, rfl⟩ := List.getElem?_eq_some_iff.mp found
    exact ⟨_, List.getElem?_eq_getElem (sameLength ▸ bounded), pointwise target bounded _⟩
  obtain ⟨target, request, chosen, delta, changed, rfl, found, accepted, rfl⟩ |
    ⟨target, chosen, rfl, found, rfl⟩ := act_cases acted
  · obtain ⟨otherChosen, otherFound, layout, quality, count, rfl⟩ := counterpart found
    obtain ⟨otherDelta, otherLayout, otherQuality, otherCount, otherAccepted⟩ :=
      call_reshuffled accepted partners layout quality count
    refine ⟨other.set target (changed.reshuffled partners otherLayout otherQuality otherCount),
      by simp only [act, otherFound, otherAccepted], ?_⟩
    refine List.forall₂_iff_get.mpr ⟨by simp [sameLength], ?_⟩
    intro index bounded otherBounded
    simp only [List.get_eq_getElem, List.getElem_set]
    split_ifs
    · exact ⟨otherLayout, otherQuality, otherCount, rfl⟩
    · exact pointwise index _ _
  · obtain ⟨otherChosen, otherFound, reshuffles⟩ := counterpart found
    exact ⟨other ++ [otherChosen], by simp only [act, otherFound],
      List.rel_append related (List.Forall₂.cons reshuffles List.Forall₂.nil)⟩

theorem run_reshuffled {partners : ℕ → List ℕ} {actions : List Action}
    {family other world : List Solver}
    (related : List.Forall₂ (Reshuffles partners) family other)
    (ran : run actions family = some world) :
    ∃ otherWorld, run actions other = some otherWorld ∧
      List.Forall₂ (Reshuffles partners) world otherWorld := by
  induction actions generalizing family other with
  | nil =>
      cases ran
      exact ⟨other, rfl, related⟩
  | cons action rest inductionHypothesis =>
      simp only [run] at ran
      split at ran
      · simp at ran
      next next acted =>
        obtain ⟨otherNext, otherActed, nextRelated⟩ := act_reshuffled related acted
        obtain ⟨otherWorld, otherRan, worldRelated⟩ := inductionHypothesis nextRelated ran
        exact ⟨otherWorld, by simp only [run, otherActed, otherRan], worldRelated⟩

/-- Same order, parameters and results; only the partner lists may differ. -/
structure SameResults (first second : Solver) : Prop where
  permutation : first.permutation = second.permutation
  position : first.position = second.position
  sizes : first.sizes = second.sizes
  eligible : first.eligible = second.eligible
  address : ∀ buffer < first.static.n, first.layout.address buffer = second.layout.address buffer
  quality : first.totalQuality = second.totalQuality
  count : first.totalAllocatedCount = second.totalAllocatedCount

theorem Reshuffles.sameResults {partners : ℕ → List ℕ} {solver other : Solver}
    (reshuffles : Reshuffles partners solver other) (sound : solver.Sound)
    (otherSound : other.Sound) : SameResults solver other := by
  obtain ⟨layout, quality, count, rfl⟩ := reshuffles
  have samePlain := plain_reshuffled solver partners layout quality count
  refine ⟨rfl, rfl, rfl, rfl, ?_, ?_, ?_⟩
  · intro buffer bounded
    rw [sound.results.address buffer bounded, otherSound.results.address buffer bounded, samePlain]
  · rw [sound.results.quality, otherSound.results.quality, samePlain]
    rfl
  · rw [sound.results.count, otherSound.results.count, samePlain]
    rfl

theorem build_reshuffled {shuffle : ℕ → List ℕ → List ℕ} (other : ℕ → List ℕ → List ℕ)
    {buffers : List LifetimeBoundBuffer} {capacity alignment : ℤ} {static : StaticData}
    (built : StaticData.build shuffle buffers capacity alignment = .ok static) :
    ∃ partners, StaticData.build other buffers capacity alignment =
      .ok { static with inplacePartners := partners } := by
  unfold StaticData.build at built ⊢
  simp only at built ⊢
  split at built
  · simp at built
  split at built
  · simp at built
  next unique =>
    split at built
    · simp at built
    · cases built
      exact ⟨_, if_neg unique⟩

theorem new_reshuffled {shuffle : ℕ → List ℕ → List ℕ} (other : ℕ → List ℕ → List ℕ)
    {buffers : List LifetimeBoundBuffer} {permutation : List ℤ} {capacity alignment : ℤ}
    {eligible : Option (List Bool)} {solver : Solver}
    (constructed : new shuffle buffers permutation capacity alignment eligible = .ok solver) :
    ∃ partners otherSolver,
      new other buffers permutation capacity alignment eligible = .ok otherSolver ∧
        Reshuffles partners solver otherSolver := by
  unfold new at constructed ⊢
  split at constructed
  · simp at constructed
  next positive =>
    split at constructed
    · simp at constructed
    next sorted =>
      split at constructed
      · simp at constructed
      next static built =>
        obtain ⟨partners, otherBuilt⟩ := build_reshuffled other built
        simp only at constructed
        split at constructed
        · simp at constructed
        next flagged =>
          cases constructed
          obtain ⟨layout, quality, count, recomputedEq⟩ := recomputeAll_reshuffled
            (initial static buffers (permutation.map Int.toNat)
              (eligible.getD (List.replicate buffers.length true))) partners
            ⟨fun _ => 0, fun _ => false⟩ 0 0
          refine ⟨partners, _, ?_, layout, quality, count, recomputedEq⟩
          simp only [if_neg positive, if_neg sorted, otherBuilt, if_neg flagged]
          rfl

/-- In every state reached from a construction by calls and copies, the stored
results are those of the plain placement of the current order, the position table
inverts the order, every accepted call returns the change of quality, and another
order of the partner sets gives the same run with the same results. -/
theorem run_matches_plain {shuffle : ℕ → List ℕ → List ℕ}
    (shuffled : ∀ buffer set, (shuffle buffer set).Perm set)
    {buffers : List LifetimeBoundBuffer} {permutation : List ℤ} {capacity alignment : ℤ}
    {eligible : Option (List Bool)} {start : Solver} {actions : List Action}
    {world : List Solver}
    (constructed : new shuffle buffers permutation capacity alignment eligible = .ok start)
    (ran : run actions [start] = some world) :
    (∀ solver ∈ world,
      (∀ buffer < solver.static.n,
        solver.layout.address buffer = solver.plain.address buffer ∧
        solver.layout.allocated buffer = solver.plain.allocated buffer) ∧
      solver.totalAllocatedCount = Config.countAllocatedIn solver.plain solver.permutation ∧
      solver.totalQuality = solver.config.qualityOf solver.plain solver.permutation ∧
      solver.permutation.Perm (List.range solver.static.n) ∧
      (∀ index (bounded : index < solver.permutation.length),
        solver.position solver.permutation[index] = index) ∧
      ∀ request delta next, solver.call request = .ok (delta, next) →
        delta = next.config.qualityOf next.plain next.permutation -
          solver.config.qualityOf solver.plain solver.permutation) ∧
    ∀ otherShuffle : ℕ → List ℕ → List ℕ,
      (∀ buffer set, (otherShuffle buffer set).Perm set) →
      ∃ otherStart otherWorld,
        new otherShuffle buffers permutation capacity alignment eligible = .ok otherStart ∧
        run actions [otherStart] = some otherWorld ∧
        List.Forall₂ SameResults world otherWorld := by
  have startSound := new_sound shuffled constructed
  have worldSound := run_sound (by simpa using startSound) ran
  refine ⟨?_, ?_⟩
  · intro solver membership
    have sound := worldSound solver membership
    refine ⟨?_, sound.results.count, sound.results.quality, sound.consistent.permuted,
      sound.consistent.position, ?_⟩
    · intro buffer bounded
      have same := sound.results.address buffer bounded
      exact ⟨same, allocated_congr same⟩
    · intro request delta next accepted
      have updates := call_updates sound accepted
      rw [updates.delta, updates.sound.results.quality, sound.results.quality]
  · intro otherShuffle otherShuffled
    obtain ⟨partners, otherStart, otherConstructed, reshuffles⟩ :=
      new_reshuffled otherShuffle constructed
    have otherStartSound := new_sound otherShuffled otherConstructed
    obtain ⟨otherWorld, otherRan, related⟩ :=
      run_reshuffled (List.Forall₂.cons reshuffles List.Forall₂.nil) ran
    have otherWorldSound := run_sound (by simpa using otherStartSound) otherRan
    refine ⟨otherStart, otherWorld, otherConstructed, otherRan, ?_⟩
    obtain ⟨sameLength, pointwise⟩ := List.forall₂_iff_get.mp related
    refine List.forall₂_iff_get.mpr ⟨sameLength, ?_⟩
    intro index bounded otherBounded
    exact (pointwise index bounded otherBounded).sameResults
      (worldSound _ (List.get_mem _ _)) (otherWorldSound _ (List.get_mem _ _))

/-- A parent, the child that takes over its slot, and a bystander. -/
def handoffBuffers : List LifetimeBoundBuffer :=
  [{ name := "parent", size := 200, uses := [0, 1], firstUseIsRead := true },
    { name := "child", size := 100, uses := [1, 3], inPlaceParents := ["parent"] },
    { name := "bystander", size := 64, uses := [0, 2] }]

def handoffActions : List Action :=
  [.call 0 (.swap 1), .copy 0, .call 1 (.rotate 2 0), .call 0 (.resize 0 64),
    .call 1 (.setEligible 2 false)]

theorem run_matches_plain_handoff :
    ∃ start world, new (fun _ set => set.reverse) handoffBuffers [0, 1, 2] 512 128 none = .ok start ∧
      run handoffActions [start] = some world ∧
      ∀ solver ∈ world,
        solver.totalQuality = solver.config.qualityOf solver.plain solver.permutation := by
  have accepted : ((new (fun _ set => set.reverse) handoffBuffers [0, 1, 2] 512 128 none).toOption.bind
      fun start => run handoffActions [start]).isSome = true := by decide
  cases constructed : new (fun _ set => set.reverse) handoffBuffers [0, 1, 2] 512 128 none with
  | error message => simp [constructed, Except.toOption] at accepted
  | ok start =>
      simp only [constructed, Except.toOption, Option.bind_some] at accepted
      obtain ⟨world, ran⟩ := Option.isSome_iff_exists.mp accepted
      have conclusion := run_matches_plain (fun _ set => List.reverse_perm set) constructed ran
      exact ⟨start, world, rfl, ran, fun solver membership => (conclusion.1 solver membership).2.2.1⟩

end Solver

end TorchSpyre.Scratchpad.PermLayout
